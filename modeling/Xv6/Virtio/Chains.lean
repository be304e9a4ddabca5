import Xv6.Virtio.Model
import Mathlib.Tactic

/-! Descriptor chains: what alloc3_desc takes, what virtio_disk_rw formats, what the
device finds there and what free_chain gives back. -/
namespace Xv6.Virtio
open Lib Lib.Ring Function
variable {B : Type} {d d' : Disk B} {blockno : B → BitVec 32} {job : Job B}

def Chain.all (idx : Chain) : List (Fin num) := [idx.head,idx.body,idx.tail]

def Job.completion (blockno : B → BitVec 32) (job : Job B) : Completion B :=
  ⟨job.idx.head,if job.write then virtioBlkTOut else virtioBlkTIn,sector (blockno job.b),job.b,!job.write⟩

structure Formatted (blockno : B → BitVec 32) (d : Disk B) (job : Job B) : Prop where
  head : d.desc job.idx.head = ⟨.ops job.idx.head,16,vringDescFNext,BitVec.ofNat 16 job.idx.body⟩
  body : d.desc job.idx.body = ⟨.data job.b,BitVec.ofNat 32 bsize,
    (if job.write then 0 else vringDescFWrite) ||| vringDescFNext,BitVec.ofNat 16 job.idx.tail⟩
  tail : d.desc job.idx.tail = ⟨.status job.idx.head,1,vringDescFWrite,0⟩
  ops : d.ops job.idx.head = ⟨if job.write then virtioBlkTOut else virtioBlkTIn,0,sector (blockno job.b)⟩
  info : (d.info job.idx.head).b = some job.b

theorem allocDesc_some {i : Fin num} (found : allocDesc d = some (i,d')) :
    d.free i = true ∧ d' = { d with free := update d.free i false } := by
  obtain ⟨j,hit,same⟩ := Option.map_eq_some_iff.mp found
  cases same
  exact ⟨List.find?_some hit,rfl⟩

structure SameTaken (d d' : Disk B) : Prop where
  desc : ∀ i, d.free i = false → d'.desc i = d.desc i
  avail : d'.availIdx = d.availIdx ∧ d'.availRing = d.availRing
  used : d'.usedIdx = d.usedIdx ∧ d'.usedRing = d.usedRing ∧ d'.driverIdx = d.driverIdx
  info : d'.info = d.info
  ops : d'.ops = d.ops

theorem SameTaken.refl : SameTaken d d := ⟨fun _ _ => rfl,⟨rfl,rfl⟩,⟨rfl,rfl,rfl⟩,rfl,rfl⟩

theorem freeDesc_ok (i : Fin num) (taken : d.free i = false) :
    freeDesc d i = .ok { d with
      desc := update d.desc i ⟨.null,0,0,0⟩, free := update d.free i true } := by
  simp [freeDesc,taken]

theorem alloc3Desc_cases (d : Disk B) :
    (∃ d', alloc3Desc d = .ok (none,d') ∧ d'.free = d.free ∧ SameTaken d d') ∨
    ∃ idx d', alloc3Desc d = .ok (some idx,d') ∧ idx.all.Nodup ∧ (∀ i ∈ idx.all, d.free i = true) ∧
      (∀ i, d'.free i = if i ∈ idx.all then false else d.free i) ∧ d'.desc = d.desc ∧ SameTaken d d' := by
  unfold alloc3Desc
  cases first : allocDesc d with
  | none => exact .inl ⟨d,rfl,rfl,fun _ _ => rfl,⟨rfl,rfl⟩,⟨rfl,rfl,rfl⟩,rfl,rfl⟩
  | some found =>
    obtain ⟨i,d1⟩ := found
    obtain ⟨freeI,rfl⟩ := allocDesc_some first
    dsimp only
    cases second : allocDesc { d with free := update d.free i false } with
    | none =>
      dsimp only
      rw [freeDesc_ok i (by simp)]
      refine .inl ⟨_,rfl,?_,fun k taken => ?_,⟨rfl,rfl⟩,⟨rfl,rfl,rfl⟩,rfl,rfl⟩
      · funext k
        by_cases same : k = i
        · simp [same,freeI]
        · simp [same]
      · have other : k ≠ i := fun same => by simp [same,freeI] at taken
        simp [other]
    | some found =>
      obtain ⟨j,d2⟩ := found
      obtain ⟨freeJ,rfl⟩ := allocDesc_some second
      have otherJ : j ≠ i := fun same => by simp [same] at freeJ
      simp only [update_of_ne otherJ] at freeJ
      dsimp only
      cases third : allocDesc { d with free := update (update d.free i false) j false } with
      | none =>
        dsimp only
        have takenI : (update (update d.free i false) j false) i = false := by simp [otherJ.symm]
        rw [freeDesc_ok i takenI]
        simp only [Except.bind]
        rw [freeDesc_ok j (by simp [otherJ])]
        refine .inl ⟨_,rfl,?_,fun k taken => ?_,⟨rfl,rfl⟩,⟨rfl,rfl,rfl⟩,rfl,rfl⟩
        · funext k
          by_cases sameJ : k = j
          · simp [sameJ,freeJ]
          · by_cases sameI : k = i
            · simp [sameI,freeI,otherJ.symm]
            · simp [sameI,sameJ]
        · have notI : k ≠ i := fun same => by simp [same,freeI] at taken
          have notJ : k ≠ j := fun same => by simp [same,freeJ] at taken
          simp [notI,notJ]
      | some found =>
        obtain ⟨k,d3⟩ := found
        obtain ⟨freeK,rfl⟩ := allocDesc_some third
        have notJ : k ≠ j := fun same => by simp [same] at freeK
        have notI : k ≠ i := fun same => by simp [same,otherJ.symm] at freeK
        simp only [update_of_ne notJ,update_of_ne notI] at freeK
        refine .inr ⟨⟨i,j,k⟩,_,rfl,?_,?_,fun l => ?_,rfl,fun _ _ => rfl,⟨rfl,rfl⟩,⟨rfl,rfl,rfl⟩,rfl,rfl⟩
        · simp [Chain.all,otherJ.symm,notI.symm,notJ.symm]
        · simp [Chain.all,freeI,freeJ,freeK]
        · simp only [update_apply,Chain.all,List.mem_cons,List.not_mem_nil,or_false]
          split_ifs <;> simp_all

theorem ofNat16_toNat (i : Fin num) : (BitVec.ofNat 16 i).toNat = i := by
  have small := i.isLt
  unfold num at small
  rw [BitVec.toNat_ofNat]
  omega

theorem ofNat32_toNat (i : Fin num) : (BitVec.ofNat 32 i).toNat = i := by
  have small := i.isLt
  unfold num at small
  rw [BitVec.toNat_ofNat]
  omega

theorem body_flags (write : Bool) :
    ((if write then 0 else vringDescFWrite) ||| vringDescFNext) &&& vringDescFNext ≠ 0 := by
  cases write <;> decide

theorem body_writes (write : Bool) :
    decide (((if write then 0 else vringDescFWrite) ||| vringDescFNext) &&& vringDescFWrite ≠ 0) = !write := by
  cases write <;> decide

theorem Formatted.request (formatted : Formatted blockno d job) :
    request d job.idx.head = some (job.completion blockno,job.idx.head) := by
  simp only [Virtio.request,formatted.head,ofNat16_toNat,Fin.is_lt,dif_pos,Fin.eta,formatted.body,formatted.tail,
    formatted.ops,body_writes,Job.completion]

theorem Formatted.congr (formatted : Formatted blockno d job) (desc : ∀ i ∈ job.idx.all, d'.desc i = d.desc i)
    (ops : d'.ops job.idx.head = d.ops job.idx.head) (info : (d'.info job.idx.head).b = (d.info job.idx.head).b) :
    Formatted blockno d' job := by
  refine ⟨?_,?_,?_,?_,?_⟩
  · rw [desc _ (by simp [Chain.all])]
    exact formatted.head
  · rw [desc _ (by simp [Chain.all])]
    exact formatted.body
  · rw [desc _ (by simp [Chain.all])]
    exact formatted.tail
  · rw [ops]
    exact formatted.ops
  · rw [info]
    exact formatted.info

theorem format_formatted {b : B} {write : Bool} {idx : Chain} {since : Nat} (nodup : idx.all.Nodup) :
    Formatted blockno (format (blockno b) d b write idx) ⟨b,write,idx,since⟩ := by
  obtain ⟨head,body,tail⟩ := idx
  simp only [Chain.all,List.nodup_cons,List.mem_cons,List.not_mem_nil,or_false,not_or] at nodup
  obtain ⟨⟨hb,ht⟩,bt,-⟩ := nodup
  refine ⟨?_,?_,?_,?_,?_⟩ <;> simp [format,hb,ht,bt]

theorem format_others (n : BitVec 32) (d : Disk B) (b : B) (write : Bool) {idx : Chain} {i : Fin num} (outside : i ∉ idx.all) :
    (format n d b write idx).desc i = d.desc i ∧ (format n d b write idx).ops i = d.ops i ∧
      (format n d b write idx).info i = d.info i := by
  simp only [Chain.all,List.mem_cons,List.not_mem_nil,or_false,not_or] at outside
  obtain ⟨head,body,tail⟩ := outside
  simp [format,head,body,tail]

theorem freeChain_last {fuel : Nat} (i : Fin num) (taken : d.free i = false)
    (flags : (d.desc i).flags &&& vringDescFNext = 0) :
    freeChain (fuel + 1) d i = .ok { d with
      desc := update d.desc i ⟨.null,0,0,0⟩, free := update d.free i true } := by
  simp [freeChain,freeDesc_ok i taken,flags]

theorem freeChain_next {fuel : Nat} (i j : Fin num) (taken : d.free i = false)
    (flags : (d.desc i).flags &&& vringDescFNext ≠ 0) (next : (d.desc i).next = BitVec.ofNat 16 j) :
    freeChain (fuel + 1) d i = freeChain fuel { d with
      desc := update d.desc i ⟨.null,0,0,0⟩, free := update d.free i true } j := by
  simp only [freeChain,freeDesc_ok i taken,Fin.is_lt,dif_pos,Fin.eta,flags,ne_eq,not_false_eq_true,if_true,next,
    ofNat16_toNat]

/-- free_chain of a formatted request frees its three descriptors. -/
theorem freeChain_formatted (d' : Disk B) (formatted : Formatted blockno d job) (desc : d'.desc = d.desc) (free : d'.free = d.free)
    (nodup : job.idx.all.Nodup) (taken : ∀ i ∈ job.idx.all, d.free i = false) :
    ∃ desc' free', freeChain (num + 1) d' job.idx.head = .ok { d' with desc := desc', free := free' } ∧
      (∀ i, free' i = if i ∈ job.idx.all then true else d.free i) ∧ ∀ i, i ∉ job.idx.all → desc' i = d.desc i := by
  obtain ⟨head,body,tail,-,-⟩ := formatted
  rw [← desc] at head body tail ⊢
  rw [← free] at taken ⊢
  obtain ⟨b,write,⟨h,m,t⟩,since⟩ := job
  simp only [Chain.all,List.nodup_cons,List.mem_cons,List.not_mem_nil,or_false,not_or] at nodup taken ⊢
  obtain ⟨⟨hm,ht⟩,mt,-⟩ := nodup
  have takenH := taken h (.inl rfl)
  have takenM := taken m (.inr (.inl rfl))
  have takenT := taken t (.inr (.inr rfl))
  simp only at head body tail
  have next : vringDescFNext &&& vringDescFNext ≠ 0 := by decide
  have last : vringDescFWrite &&& vringDescFNext = 0 := by decide
  rw [show num + 1 = 6 + 1 + 1 + 1 from rfl,freeChain_next h m takenH (by rwa [head]) (by rw [head]),
    freeChain_next m t (by simpa [Ne.symm hm] using takenM) (by simpa [Ne.symm hm,body] using body_flags write)
      (by simp [Ne.symm hm,body]),
    freeChain_last t (by simpa [Ne.symm ht,Ne.symm mt] using takenT) (by simpa [Ne.symm ht,Ne.symm mt,tail] using last)]
  refine ⟨_,_,rfl,fun i => ?_,fun i outside => ?_⟩
  · simp only [update_apply]
    split_ifs <;> simp_all
  · simp [outside]

end Xv6.Virtio
