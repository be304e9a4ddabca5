import Xv6.Fs.Owners

/-! Recovery at boot: ireclaim frees the inodes that a crash left allocated without
a link. Each turn goes through iget, ilock and iput like a process would. -/
namespace Xv6.Fs.Blocks
open Function List
open Log (Disk)

variable {s s' s'' : State} {data : Nat} {gone gone' : Nat → Prop}

def Orphan (s : State) (i : Nat) : Prop := (s.dinode i).attr.type ≠ 0 ∧ (s.dinode i).attr.nlink = 0

instance (s : State) (i : Nat) : Decidable (Orphan s i) := inferInstanceAs (Decidable (_ ∧ _))

/-- The inodes that are gone are freed with their blocks; no other inode, no block
of another inode and no reference in the table has changed. -/
structure Reclaimed (data : Nat) (gone : Nat → Prop) (s s' : State) : Prop where
  sb : s'.sb = s.sb
  cleared : ∀ i < s.sb.ninodes.toNat, gone i → s'.dinode i = ⟨{ (s.dinode i).attr with type := 0 },0,fun _ => 0⟩
  kept : ∀ i < s.sb.ninodes.toNat, ¬gone i → s'.dinode i = s.dinode i
  blocks : ∀ b, data ≤ b → s'.disk b = s.disk b
  bits : ∀ b < s.sb.size.toNat, s'.used b = true ↔ s.used b = true ∧ ¬∃ i ref, gone i ∧ Owns s i ref b
  refs : ∀ ip, (s'.inode ip).ref = (s.inode ip).ref
  locks : ∀ ip, (s'.inode ip).locked = (s.inode ip).locked
  busy : ∀ ip, 0 < (s.inode ip).ref → s'.inode ip = s.inode ip

theorem Reclaimed.target (reclaimed : Reclaimed data gone s s') (consistent : Consistent s data) {i : Nat}
    (first : 0 < i) (last : i < s.sb.ninodes.toNat) (allocated : (s.dinode i).attr.type ≠ 0) (stays : ¬gone i) (ref : Ref) :
    target s'.disk (s'.dinode i) ref = target s.disk (s.dinode i) ref := by
  rw [reclaimed.kept i last stays]
  cases ref with
  | addr k => rfl
  | entry j =>
    rw [Blocks.target,Blocks.target]
    split_ifs with none
    · rfl
    · have owns : Owns s i (.addr indirectId) ((s.dinode i).addrs indirectId).toNat := ⟨first,last,allocated,none,rfl⟩
      rw [reclaimed.blocks _ (consistent.range _ _ _ owns).1]

theorem Reclaimed.owns (reclaimed : Reclaimed data gone s s') (consistent : Consistent s data) {i : Nat} {ref : Ref} {b : Nat} :
    Owns s' i ref b ↔ Owns s i ref b ∧ ¬gone i := by
  have bound := reclaimed.sb
  constructor
  · rintro ⟨first,last,allocated,nonzero,block⟩
    rw [bound] at last
    by_cases here : gone i
    · rw [reclaimed.cleared i last here] at allocated
      exact absurd rfl allocated
    · rw [reclaimed.kept i last here] at allocated
      rw [reclaimed.target consistent first last allocated here] at nonzero block
      exact ⟨⟨first,last,allocated,nonzero,block⟩,here⟩
  · rintro ⟨⟨first,last,allocated,nonzero,block⟩,stays⟩
    rw [← reclaimed.target consistent first last allocated stays] at nonzero block
    refine ⟨first,by rwa [bound],?_,nonzero,block⟩
    rwa [reclaimed.kept i last stays]

theorem Reclaimed.consistent (reclaimed : Reclaimed data gone s s') (consistent : Consistent s data) : Consistent s' data := by
  have owns := @Reclaimed.owns s s' data gone reclaimed consistent
  refine ⟨by rw [reclaimed.sb]; exact consistent.geometry,fun b low => ?_,fun b low high => ?_,fun i ref b own => ?_,?_⟩
  · grind [Consistent,Reclaimed,consistent.geometry.inside,reclaimed.bits,consistent.areas,consistent.range]
  · grind [reclaimed.sb,reclaimed.bits,consistent.blocks,owns.mpr,owns.mp,consistent.once]
  · rw [reclaimed.sb]
    exact consistent.range i ref b (owns.mp own).1
  · intro i ref i' ref' b own own'
    exact consistent.once i ref i' ref' b (owns.mp own).1 (owns.mp own').1

theorem Reclaimed.refl (s : State) : Reclaimed data (fun _ => False) s s :=
  ⟨rfl,fun _ _ gone => gone.elim,fun _ _ _ => rfl,fun _ _ => rfl,by simp,fun _ => rfl,fun _ => rfl,fun _ _ => rfl⟩

theorem Reclaimed.trans (first : Reclaimed data gone s s') (second : Reclaimed data gone' s' s'')
    (consistent : Consistent s data) (apart : ∀ i, gone i → ¬gone' i) :
    Reclaimed data (fun i => gone i ∨ gone' i) s s'' := by
  have bound := first.sb
  refine ⟨second.sb.trans bound,fun i last => ?_,fun i last stays => ?_,fun b low => ?_,fun b inside => ?_,
    fun ip => (second.refs ip).trans (first.refs ip),fun ip => (second.locks ip).trans (first.locks ip),fun ip used => ?_⟩
  · grind [Consistent,Reclaimed,update_apply]
  · obtain ⟨before,now⟩ := not_or.mp stays
    rw [second.kept i (by rwa [bound]) now,first.kept i last before]
  · rw [second.blocks b low,first.blocks b low]
  · rw [second.bits b (by rwa [bound]),first.bits b inside,and_assoc,← not_or]
    refine and_congr_right fun _ => not_congr ?_
    constructor
    · rintro (⟨i,ref,here,own⟩ | ⟨i,ref,here,own⟩)
      · exact ⟨i,ref,.inl here,own⟩
      · exact ⟨i,ref,.inr here,((first.owns consistent).mp own).1⟩
    · rintro ⟨i,ref,here | here,own⟩
      · exact .inl ⟨i,ref,here,own⟩
      · exact .inr ⟨i,ref,here,(first.owns consistent).mpr ⟨own,fun before => apart i before here⟩⟩
  · rw [second.busy ip (by rwa [first.refs]),first.busy ip used]

theorem Reclaimed.congr (reclaimed : Reclaimed data gone s s') (same : ∀ i, gone i ↔ gone' i) : Reclaimed data gone' s s' := by
  rwa [funext fun i => propext (same i)] at reclaimed

/-! One turn of the loop. -/

theorem iget_fresh {inum : Nat} (absent : ∀ ip, 0 < (s.inode ip).ref → (s.inode ip).inum ≠ inum)
    (free : ∃ ip, (s.inode ip).ref = 0) :
    ∃ ip, (s.inode ip).ref = 0 ∧
      s.iget inum = .ok (ip,s.setInode ip { s.inode ip with inum := inum, ref := 1, valid := false }) := by
  have none : (finRange ninode).find? (fun ip => 0 < (s.inode ip).ref ∧ (s.inode ip).inum = inum) = none := by
    simpa using absent
  obtain ⟨ip,found⟩ : ∃ ip, (finRange ninode).find? (fun ip => (s.inode ip).ref = 0) = some ip := by
    rw [← Option.isSome_iff_exists,find?_isSome]
    obtain ⟨ip,here⟩ := free
    exact ⟨ip,mem_finRange ip,by simpa using here⟩
  refine ⟨ip,by simpa using find?_some found,?_⟩
  rw [State.iget,none]
  dsimp only
  rw [found]

def loaded (s : State) (ip : Slot) (inum : Nat) : State := s.setInode ip ⟨inum,1,true,false,s.dinode inum⟩

theorem setInode_setInode (s : State) (ip : Slot) (inode inode' : Inode) :
    (s.setInode ip inode).setInode ip inode' = s.setInode ip inode' := by
  rw [State.setInode,State.setInode,State.setInode,update_idem]

theorem ilock_iunlock_loaded (ip : Slot) {inum : Nat} (din : Dinode) (allocated : (s.dinode inum).attr.type ≠ 0) :
    ((s.setInode ip ⟨inum,1,false,false,din⟩).ilock ip >>= fun s => s.iunlock ip) = .ok (loaded s ip inum) := by
  have here : ∀ inode, (s.setInode ip inode).inode ip = inode := fun inode => update_self ..
  have lock : (s.setInode ip ⟨inum,1,false,false,din⟩).ilock ip = .ok (s.setInode ip ⟨inum,1,true,true,s.dinode inum⟩) := by
    rw [State.ilock]
    simp only [here,setInode_setInode]
    exact if_neg allocated
  have unlock : (s.setInode ip ⟨inum,1,true,true,s.dinode inum⟩).iunlock ip = .ok (loaded s ip inum) := by
    rw [State.iunlock]
    simp only [here,setInode_setInode]
    rfl
  rw [lock]
  exact unlock

structure Between (s : State) : Prop where
  outstanding : s.outstanding = 0
  logged : s.logged = []

theorem Between.beginOp (between : Between s) : s.beginOp = .ok { s with outstanding := 1 } := by
  rw [State.beginOp,between.outstanding,between.logged]
  rfl

theorem Between.endOp (one : s.outstanding = 1) :
    s.endOp = { s with outstanding := 0, logged := [], transactions := s.logged :: s.transactions } := if_pos one

theorem ireclaim_orphan {inum : Nat} (rest : List Nat) (between : Between s) (orphan : Orphan s inum)
    (idle : ∀ ip, (s.inode ip).locked = false) (absent : ∀ ip, 0 < (s.inode ip).ref → (s.inode ip).inum ≠ inum)
    (free : ∃ ip, (s.inode ip).ref = 0) :
    ∃ ip, (s.inode ip).ref = 0 ∧ ireclaim (inum :: rest) s =
      ((loaded { s with outstanding := 1 } ip inum).iput ip >>= fun s => ireclaim rest s.endOp) := by
  obtain ⟨ip,unused,got⟩ := iget_fresh absent free
  refine ⟨ip,unused,?_⟩
  have load := ilock_iunlock_loaded (s := { s with outstanding := 1 }) ip (s.inode ip).din orphan.1
  have begun : (s.setInode ip ⟨inum,1,false,false,(s.inode ip).din⟩).beginOp = .ok _ :=
    Between.beginOp ⟨between.outstanding,between.logged⟩
  rw [ireclaim,if_pos (show _ ∧ _ from orphan),got]
  dsimp only
  rw [idle ip]
  change ((s.setInode ip _).beginOp >>= fun s => s.ilock ip >>= fun s => s.iunlock ip >>= fun s => s.iput ip >>=
    fun s => ireclaim rest s.endOp) = _
  rw [begun]
  change (State.ilock _ ip >>= fun s => s.iunlock ip >>= fun s => s.iput ip >>= fun s => ireclaim rest s.endOp) = _
  rw [← bind_assoc]
  exact congrArg (· >>= fun s => s.iput ip >>= fun s => ireclaim rest s.endOp) load

/-- A turn at an orphan frees it. -/
theorem iput_reclaims {ip : Slot} {inum : Nat} (consistent : Consistent s data) (first : 0 < inum)
    (last : inum < s.sb.ninodes.toNat) (orphan : Orphan s inum) (idle : (s.inode ip).locked = false)
    (unused : (s.inode ip).ref = 0) :
    ∃ s', (loaded { s with outstanding := 1 } ip inum).iput ip = .ok s' ∧ Between s'.endOp ∧
      Reclaimed data (· = inum) s s'.endOp := by
  have held := consistent.held first last orphan.1
  have here : (loaded { s with outstanding := 1 } ip inum).inode ip = ⟨inum,1,true,false,s.dinode inum⟩ :=
    update_self ..
  obtain ⟨s',ran,sb,-,log,table,dinodes,blocks,bits⟩ := iput_released here consistent.geometry last
    ⟨held.range,held.used,held.once⟩ orphan.2
  refine ⟨s',ran,?_⟩
  rw [Between.endOp log.outstanding]
  have others : ∀ j ≠ ip, s'.inode j = s.inode j := by
    intro j other
    rw [table,update_of_ne other]
    exact update_of_ne other ..
  have there : (s'.inode ip).ref = 0 ∧ (s'.inode ip).locked = false := by
    rw [table,update_self]
    exact ⟨rfl,rfl⟩
  refine ⟨⟨rfl,rfl⟩,sb,?_,?_,blocks,fun b inside => ?_,fun j => ?_,fun j => ?_,fun j used => ?_⟩
  · rintro i small rfl
    change s'.dinode i = _
    rw [dinodes i small,if_pos rfl]
  · intro i small other
    change s'.dinode i = _
    rw [dinodes i small,if_neg other]
    rfl
  · change s'.used b = true ↔ _
    rw [bits b inside]
    refine and_congr_right fun _ => not_congr ⟨?_,?_⟩
    · rintro ⟨ref,nonzero,block⟩
      exact ⟨inum,ref,rfl,first,last,orphan.1,nonzero,block⟩
    · rintro ⟨_,ref,rfl,own⟩
      exact ⟨ref,own.nonzero,own.block⟩
  · change (s'.inode j).ref = _
    by_cases same : j = ip
    · rw [same,there.1,unused]
    · rw [others j same]
  · change (s'.inode j).locked = _
    by_cases same : j = ip
    · rw [same,there.2,idle]
    · rw [others j same]
  · refine others j ?_
    rintro rfl
    omega

/-! The loop. -/

theorem ireclaim_reclaims {inums : List Nat} (nodup : inums.Nodup) (between : Between s)
    (range : ∀ i ∈ inums, 0 < i ∧ i < s.sb.ninodes.toNat) (consistent : Consistent s data)
    (idle : ∀ ip, (s.inode ip).locked = false) (free : ∃ ip, (s.inode ip).ref = 0)
    (absent : ∀ i ∈ inums, Orphan s i → ∀ ip, 0 < (s.inode ip).ref → (s.inode ip).inum ≠ i) :
    ∃ s', ireclaim inums s = .ok s' ∧ Reclaimed data (fun i => i ∈ inums ∧ Orphan s i) s s' := by
  induction inums generalizing s with
  | nil => exact ⟨s,rfl,(Reclaimed.refl s).congr (by simp)⟩
  | cons inum rest ih =>
    obtain ⟨new,nodup⟩ := nodup_cons.mp nodup
    obtain ⟨first,last⟩ := range inum (.head _)
    have later : ∀ i ∈ rest, 0 < i ∧ i < s.sb.ninodes.toNat := fun i inside => range i (.tail _ inside)
    by_cases orphan : Orphan s inum
    · obtain ⟨ip,unused,turn⟩ := ireclaim_orphan rest between orphan idle (absent inum (.head _) orphan) free
      obtain ⟨s0,ran,between1,one⟩ := iput_reclaims consistent first last orphan (idle ip) unused
      generalize after : s0.endOp = s1 at between1 one
      have same : ∀ i ∈ rest, (Orphan s1 i ↔ Orphan s i) := by
        intro i inside
        rw [Orphan,one.kept i (later i inside).2 fun here => new (here ▸ inside)]
        rfl
      have absent1 : ∀ i ∈ rest, Orphan s1 i → ∀ j, 0 < (s1.inode j).ref → (s1.inode j).inum ≠ i := by
        intro i inside here j used
        rw [one.refs] at used
        rw [one.busy j used]
        exact absent i (.tail _ inside) ((same i inside).mp here) j used
      obtain ⟨s2,ran2,more⟩ := ih nodup between1 (by rw [one.sb]; exact later) (one.consistent consistent)
        (fun j => (one.locks j).trans (idle j)) ⟨ip,(one.refs ip).trans unused⟩ absent1
      refine ⟨s2,by rw [turn,ran,← ran2,← after]; rfl,(one.trans more consistent ?_).congr fun i => ?_⟩
      · rintro i rfl ⟨inside,-⟩
        exact new inside
      · grind [Between,Consistent,Reclaimed,update_apply]
    · obtain ⟨s',ran,more⟩ := ih nodup between later consistent idle free
        fun i inside => absent i (.tail _ inside)
      refine ⟨s',?_,more.congr fun i => ?_⟩
      · rw [ireclaim,if_neg (show ¬(_ ∧ _) from orphan),ran]
      · grind

/-- All that a recovery does: it frees the orphans and their blocks. -/
structure Recovered (data : Nat) (s s' : State) : Prop where
  sb : s'.sb = s.sb
  complete : ∀ i, 0 < i → i < s.sb.ninodes.toNat → (s'.dinode i).attr.nlink = 0 →
    (s'.dinode i).attr.type = 0 ∧ ∀ ref b, ¬Owns s' i ref b
  cleared : ∀ i, 0 < i → i < s.sb.ninodes.toNat → Orphan s i →
    s'.dinode i = ⟨{ (s.dinode i).attr with type := 0 },0,fun _ => 0⟩
  bits : ∀ b < s.sb.size.toNat, s'.used b = true ↔ s.used b = true ∧ ¬∃ i ref, Orphan s i ∧ Owns s i ref b
  fields : ∀ i < s.sb.ninodes.toNat, ¬Orphan s i → s'.dinode i = s.dinode i
  contents : ∀ i ref b, ¬Orphan s i → Owns s i ref b → Owns s' i ref b ∧ s'.disk b = s.disk b
  refs : ∀ ip, (s'.inode ip).ref = (s.inode ip).ref
  consistent : Consistent s' data

theorem Reclaimed.recovered (reclaimed : Reclaimed data (fun i => (0 < i ∧ i < s.sb.ninodes.toNat) ∧ Orphan s i) s s')
    (consistent : Consistent s data) : Recovered data s s' := by
  have owns := @Reclaimed.owns s s' data _ reclaimed consistent
  refine ⟨reclaimed.sb,fun i first last none => ?_,fun i first last orphan => reclaimed.cleared i last ⟨⟨first,last⟩,orphan⟩,
    fun b inside => ?_,fun i last linked => reclaimed.kept i last fun here => linked here.2,fun i ref b linked own => ?_,
    reclaimed.refs,reclaimed.consistent consistent⟩
  · have free : (s'.dinode i).attr.type = 0 := by
      by_cases orphan : Orphan s i
      · rw [reclaimed.cleared i last ⟨⟨first,last⟩,orphan⟩]
      · rw [reclaimed.kept i last fun here => orphan here.2] at none ⊢
        by_contra allocated
        exact orphan ⟨allocated,none⟩
    exact ⟨free,fun ref b own => own.allocated free⟩
  · rw [reclaimed.bits b inside]
    refine and_congr_right fun _ => not_congr (exists_congr fun i => exists_congr fun ref => ?_)
    exact ⟨fun here => ⟨here.1.2,here.2⟩,fun here => ⟨⟨⟨here.2.first,here.2.last⟩,here.1⟩,here.2⟩⟩
  · exact ⟨owns.mpr ⟨own,fun here => linked here.2⟩,reclaimed.blocks b (consistent.range i ref b own).1⟩

def crashedSb : Superblock := ⟨fsmagic,6,2,3,0,2,2,3⟩

def crashedRoot (nlink : BitVec 16) : Dinode := ⟨⟨tDir,0,0,nlink⟩,0,fun _ => 0⟩

def crashedFile : Dinode := ⟨⟨tFile,0,0,0⟩,5,fun k => if k = 0 then 4 else 0⟩

def crashed (nlink : BitVec 16) : Disk
  | 1 => crashedSb.toBytes
  | 2 => setDinodeIn (setDinodeIn (fun _ => 0) 1 (crashedRoot nlink)) 2 crashedFile
  | 3 => fun k => if k = 0 then 0x1f else 0
  | _ => fun _ => 0

theorem crashed_sb (nlink : BitVec 16) : (boot (crashed nlink)).sb = crashedSb := crashedSb.ofBytes_toBytes

theorem crashed_dinode (nlink : BitVec 16) {i : Nat} (first : 0 < i) (last : i < 3) :
    (boot (crashed nlink)).dinode i = if i = 1 then crashedRoot nlink else crashedFile := by
  have place : iblock 2 i = 2 ∧ i % ipb = i := by
    unfold iblock ipb bsize
    omega
  unfold State.dinode dinodeAt
  rw [crashed_sb]
  change dinodeIn (crashed nlink (iblock 2 i)) (i % ipb) = _
  rw [place.1,place.2,crashed]
  split_ifs with root
  · rw [root,dinodeIn_set_ne _ _ (by decide),dinodeIn_set_same]
  · have file : i = 2 := by omega
    rw [file,dinodeIn_set_same]

theorem crashed_target (disk : Disk) (nlink : BitVec 16) (ref : Ref) :
    target disk (crashedRoot nlink) ref = 0 ∧ target disk crashedFile ref = if ref = .addr 0 then 4 else 0 := by
  cases ref with
  | addr k => simp [target,crashedRoot,crashedFile]
  | entry j =>
    have none : crashedFile.addrs indirectId = 0 := rfl
    simp [target,crashedRoot,none]

theorem crashed_owns {nlink : BitVec 16} {i b : Nat} {ref : Ref} :
    Owns (boot (crashed nlink)) i ref b ↔ i = 2 ∧ ref = .addr 0 ∧ b = 4 := by
  have targets := crashed_target (boot (crashed nlink)).disk nlink ref
  constructor
  · rintro ⟨first,last,allocated,nonzero,block⟩
    rw [crashed_sb] at last
    rw [crashed_dinode nlink first last] at nonzero block
    split_ifs at nonzero block with root
    · exact absurd targets.1 nonzero
    · rw [targets.2] at nonzero block
      split_ifs at nonzero block with here
      · have small : i < 3 := last
        exact ⟨by omega,here,block.symm⟩
      · exact absurd rfl nonzero
  · rintro ⟨rfl,rfl,rfl⟩
    have file := crashed_dinode nlink (i := 2) (by decide) (by decide)
    rw [if_neg (by decide)] at file
    refine ⟨by decide,by rw [crashed_sb]; decide,by rw [file]; decide,?_,?_⟩
    · rw [file,targets.2]
      decide
    · rw [file,targets.2]
      rfl

theorem crashed_used (nlink : BitVec 16) {b : Nat} (inside : b < 6) : (boot (crashed nlink)).used b = decide (b < 5) := by
  have place : bblock 3 b = 3 ∧ b % bpb / 8 = 0 ∧ b % 8 = b := by
    unfold bblock bpb bsize
    omega
  unfold State.used
  rw [crashed_sb]
  change (crashed nlink (bblock 3 b) (b % bpb / 8)).getLsbD (b % 8) = _
  rw [place.1,place.2.1,place.2.2]
  change (0x1f : Byte).getLsbD b = _
  interval_cases b <;> rfl

theorem crashed_consistent (nlink : BitVec 16) : Consistent (boot (crashed nlink)) 4 := by
  have used := @crashed_used nlink
  refine ⟨?_,fun b low => ?_,fun b low high => ?_,fun i ref b own => ?_,fun i ref i' ref' b own own' => ?_⟩
  · rw [crashed_sb]
    refine ⟨by decide,?_,?_,?_⟩ <;> decide
  · rw [used (by omega)]
    exact decide_eq_true (by omega)
  · rw [crashed_sb] at high
    have inside : b < 6 := high
    rw [used inside,decide_eq_true_iff]
    constructor
    · intro here
      exact ⟨2,.addr 0,crashed_owns.mpr ⟨rfl,rfl,by omega⟩⟩
    · rintro ⟨i,ref,own⟩
      have block := (crashed_owns.mp own).2.2
      omega
  · rw [(crashed_owns.mp own).2.2,crashed_sb]
    decide
  · obtain ⟨rfl,rfl,-⟩ := crashed_owns.mp own
    obtain ⟨rfl,rfl,-⟩ := crashed_owns.mp own'
    exact ⟨rfl,rfl⟩

theorem crashed_holeFree (nlink : BitVec 16) : HoleFree (boot (crashed nlink)) := by
  refine ⟨fun i first last _ => ?_,fun i first last _ k inside => ?_⟩
  · rw [crashed_sb] at last
    rw [crashed_dinode nlink first last]
    split_ifs
    · exact Nat.zero_le _
    · decide
  · rw [crashed_sb] at last
    rw [crashed_dinode nlink first last] at inside ⊢
    split_ifs at inside ⊢ with root
    · exact absurd inside (Nat.not_lt_zero _)
    · have start : k = 0 := by
        have small : k * bsize < 5 := inside
        unfold bsize at small
        omega
      rw [start,blockAt,dif_pos (by decide)]
      decide

end Xv6.Fs.Blocks
