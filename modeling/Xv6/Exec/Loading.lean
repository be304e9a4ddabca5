import Xv6.Exec.Model

/-! Loading a program. While kexec builds the new address space it holds a page table
that is complete below its sz, all of it from pages that were free; so each test that
would end in a panic is passed, and what has been built can be given back. -/
namespace Xv6.Exec
open Lib.Bytes Vm Function

variable {m₀ m m' : Memory} {traps : Nat → Pte} {pt : Frame} {sz : Nat} {own own' : Frame → Option Place} {file : File}
variable {j len off v va w : Nat} {leaves leaves' : Nat → Option (Pte × Page)} {page : Page} {flags : Pte}

/-! The new address space. -/

def ramPages : Nat := 128 * 2^20 / pgsize

theorem pool_length (pool : Pool m) : m.freelist.length ≤ m.last - m.first := by
  have subset : ∀ f ∈ m.freelist, f ∈ List.range' m.first (m.last - m.first) := by grind [pool.range]
  have least := (List.subperm_of_subset pool.nodup subset).length_le
  rwa [List.length_range'] at least

/-- What kexec has built is an address space of pages that were free, with the
trampoline and the trapframe above it. -/
structure Image (m₀ : Memory) (traps : Nat → Pte) (pt : Frame) (sz : Nat) (m : Memory) (own : Frame → Option Place) : Prop where
  resident : Resident m ⟨pt,sz⟩ own
  trades : Trades m₀ (fun _ => none) m own
  beyond : ∀ w < maxva, userPages ≤ w / pgsize → m.entry pt w = traps w

structure Loading (m₀ : Memory) (traps : Nat → Pte) (pt : Frame) (sz : Nat) (m : Memory) (own : Frame → Option Place) : Prop extends Image m₀ traps pt sz m own where
  mapped : ∀ v < npages sz, ∃ flags page, m.leaf pt v = some (flags,page) ∧ flags &&& pteU ≠ 0
  room : npages sz + m.freelist.length ≤ m₀.freelist.length

namespace Image

theorem free (image : Image m₀ traps pt sz m own) : ∀ f ∈ m.freelist, f ∈ m₀.freelist := fun f inside =>
  ((image.trades.conserves f).mp (.inl inside)).resolve_right fun owned => owned rfl

theorem fresh (image : Image m₀ traps pt sz m own) {f : Frame} (owned : own f ≠ none) : f ∈ m₀.freelist :=
  ((image.trades.conserves f).mp (.inr owned)).resolve_right fun owned => owned rfl

/-- It can be given back. -/
theorem givenBack (image : Image m₀ traps pt sz m own) : ∃ m', m.procFreepagetable pt sz = .ok m' ∧ Restored m₀ m' := by
  obtain ⟨m',freed,pool,trades⟩ := image.resident.owns.procFreepagetable image.resident.sz
    fun w low valid => (image.resident.leaves w low valid).2
  exact ⟨m',freed,(image.trades.trans trades).restored pool⟩

theorem resize (image : Image m₀ traps pt sz m own) {sz' : Nat}
    (changes : Changes pt userPages m own m' own' leaves) (small : sz' ≤ trapframe)
    (gone : ∀ v, npages sz' ≤ v → v < userPages → leaves v = none)
    (readable : ∀ v < userPages, ∀ flags page, leaves v = some (flags,page) → flags &&& pteR ≠ 0) : Image m₀ traps pt sz' m' own' :=
  ⟨image.resident.resize changes small gone readable,image.trades.trans changes.trades,
    fun w low high => (changes.beyond w low high).trans (image.beyond w low high)⟩

/-- A page has got other flags or other contents. -/
theorem update (image : Image m₀ traps pt sz m own) (inside : v < npages sz) (read : flags &&& pteR ≠ 0)
    (changes : Changes pt userPages m own m' own' (update (m.leaf pt) v (some (flags,page)))) : Image m₀ traps pt sz m' own' := by
  have resident := image.resident
  refine image.resize changes resident.sz (fun u past high => ?_) fun u high flags' page' leaf => ?_
  · rw [update_of_ne (Nat.ne_of_gt (Nat.lt_of_lt_of_le inside past))]
    exact resident.empty past high
  · by_cases here : u = v
    · rw [here,update_self] at leaf
      cases leaf
      exact read
    · rw [update_of_ne here] at leaf
      exact resident.readable high leaf

theorem giveUp (image : Image m₀ traps pt sz m own) (caller : Caller) (ip : Bool) (log : List Event) : ∃ m',
    giveUp caller pt sz ip log m = .ok ⟨-1,caller,m',if ip then log ++ [.iunlockput,.endOp] else log⟩ ∧ Restored m₀ m' := by
  obtain ⟨m',freed,restored⟩ := image.givenBack
  have some : pt ≠ 0 := Nat.ne_of_gt (image.resident.owns.small image.resident.owns.rooted).1
  refine ⟨m',?_,restored⟩
  rw [Exec.giveUp,if_pos some,freed]
  rfl

end Image

theorem page_end (sz : Nat) : sz ≤ npages sz * pgsize := by
  simp only [npages,pgsize]
  omega

theorem below_trapframe {sz n : Nat} (ram : n ≤ ramPages) (fits : npages sz ≤ n) : sz ≤ trapframe := by
  have most := page_end sz
  have least : npages sz * pgsize ≤ ramPages * pgsize := Nat.mul_le_mul_right _ (fits.trans ram)
  exact most.trans (least.trans (by decide))

/-! uvmalloc. -/

def grow (xperm : Pte) (sz newsz : Nat) (leaves : Nat → Option (Pte × Page)) (v : Nat) : Option (Pte × Page) :=
  if npages sz ≤ v ∧ v < npages newsz then some (blank xperm) else leaves v

theorem or_and_ne {a b mask : Pte} (some : a &&& mask ≠ 0) : (a ||| b) &&& mask ≠ 0 := by
  intro zero
  rw [BitVec.and_comm,BitVec.and_or_distrib_left,BitVec.and_comm] at zero
  exact some (BitVec.or_eq_zero_iff.mp zero).1

theorem blank_flags (xperm : Pte) : (blank xperm).1 &&& pteU ≠ 0 ∧ (blank xperm).1 &&& pteR ≠ 0 :=
  ⟨or_and_ne (or_and_ne (by decide)),or_and_ne (or_and_ne (by decide))⟩

namespace Loading

theorem readable (loading : Loading m₀ traps pt sz m own) (below : v < userPages)
    (leaf : m.leaf pt v = some (flags,page)) : flags &&& pteR ≠ 0 := loading.resident.readable below leaf

/-- uvmalloc makes the pages up to newsz, or it changes nothing. -/
theorem uvmalloc (loading : Loading m₀ traps pt sz m own) (ram : m₀.freelist.length ≤ ramPages) {xperm : Pte} (flags : xperm >>> 10 = 0)
    (newsz : Nat) : ∃ r m' own', m.uvmalloc pt sz newsz xperm = .ok (r,m') ∧ (r = 0 → Image m₀ traps pt sz m' own') ∧
      (r ≠ 0 → r = max sz newsz ∧ Loading m₀ traps pt (max sz newsz) m' own' ∧
        ∀ v < userPages, m'.leaf pt v = grow xperm sz newsz (m.leaf pt) v) := by
  by_cases less : newsz < sz
  · refine ⟨sz,m,own,if_pos less,fun zero => by omega,fun _ => ?_⟩
    rw [Nat.max_eq_left (Nat.le_of_lt less)]
    have pages := npages_le (Nat.le_of_lt less)
    refine ⟨rfl,loading,fun v _ => (if_neg ?_).symm⟩
    omega
  have more := Nat.not_lt.mp less
  have resident := loading.resident
  have small : sz ≤ trapframe := resident.sz
  have room := loading.room
  have most : ramPages < userPages := by decide
  obtain ⟨ok,m',own',ran,changes,taken⟩ := resident.owned.uvmalloc flags more (small.trans (by decide)) (npages_user small)
    (.inr (by omega)) fun v past _ below => resident.empty past below
  -- nothing has changed
  have same : (∀ v < userPages, m'.leaf pt v = m.leaf pt v) → Image m₀ traps pt sz m' own' := fun leaves =>
    loading.toImage.resize (changes.congr fun v below => (changes.leaves v below).symm.trans (leaves v below)) small
      (fun v past below => resident.empty past below) fun v below _ _ leaf => loading.readable below leaf
  cases ok with
  | false =>
    rw [if_neg Bool.false_ne_true] at changes
    exact ⟨0,m',own',ran,fun _ => same changes.leaves,fun some => absurd rfl some⟩
  | true =>
    rw [if_pos rfl] at changes ran
    have least := taken rfl
    have grown : ∀ v < userPages, m'.leaf pt v = grow xperm sz newsz (m.leaf pt) v := changes.leaves
    have larger := npages_le more
    refine ⟨newsz,m',own',ran,fun zero => ?_,fun _ => ?_⟩
    · have none : npages newsz = npages sz := by
        rw [zero] at more ⊢
        rw [Nat.le_zero.mp more]
      exact same fun v below => (grown v below).trans (if_neg (by omega))
    · rw [Nat.max_eq_right more]
      have high := below_trapframe ram (show npages newsz ≤ m₀.freelist.length by omega)
      refine ⟨rfl,⟨loading.toImage.resize changes high (fun v past below => ?_) fun v below flags page leaf => ?_,fun v inside => ?_,
        by omega⟩,grown⟩
      · rw [if_neg (by omega)]
        exact resident.empty (larger.trans past) below
      · split_ifs at leaf
        · cases leaf
          exact (blank_flags xperm).2
        · exact loading.readable below leaf
      · rw [grown v (Nat.lt_of_lt_of_le inside (npages_user high)),grow]
        split_ifs with new
        · exact ⟨_,_,rfl,(blank_flags xperm).1⟩
        · exact loading.mapped v (by omega)

/-- The kernel writes to a page below sz. -/
theorem setUser (loading : Loading m₀ traps pt sz m own) (inside : v < npages sz) {old : Page}
    (leaf : m.leaf pt v = some (flags,old)) (page : Page) :
    Loading m₀ traps pt sz (m.setPage (pte2pa (m.entry pt (v * pgsize))) page) own ∧
      ∀ u < userPages, (m.setPage (pte2pa (m.entry pt (v * pgsize))) page).leaf pt u =
        update (m.leaf pt) v (some (flags,page)) u := by
  have below := Nat.lt_of_lt_of_le inside (npages_user (show sz ≤ trapframe from loading.resident.sz))
  have changes := loading.resident.owned.setUser below leaf page
  refine ⟨⟨loading.toImage.update inside (loading.readable below leaf) changes,fun u inside' => ?_,loading.room⟩,changes.leaves⟩
  rw [changes.leaves u (Nat.lt_of_lt_of_le inside' (npages_user (show sz ≤ trapframe from loading.resident.sz)))]
  by_cases here : u = v
  · rw [here,update_self]
    obtain ⟨flags',page',leaf',user⟩ := loading.mapped v inside
    rw [leaf] at leaf'
    cases leaf'
    exact ⟨_,_,rfl,user⟩
  · rw [update_of_ne here]
    exact loading.mapped u inside'

theorem walkaddr (loading : Loading m₀ traps pt sz m own) (inside : v < npages sz) :
    m.walkaddr pt (v * pgsize) = pte2pa (m.entry pt (v * pgsize)) ∧ m.walkaddr pt (v * pgsize) ≠ 0 := by
  have below := Nat.lt_of_lt_of_le inside (npages_user (show sz ≤ trapframe from loading.resident.sz))
  obtain ⟨flags,page,leaf,user⟩ := loading.mapped v inside
  have low : v * pgsize < maxva := by
    simp only [userPages,trapframe,trampoline,maxva,pgsize] at *
    omega
  unfold Memory.leaf at leaf
  split_ifs at leaf with valid
  cases leaf
  rw [pteFlags_mask (by decide)] at user
  have found : m.walkaddr pt (v * pgsize) = pte2pa (m.entry pt (v * pgsize)) := by
    rw [m.walkaddr_entry low,if_neg valid,if_neg user]
  refine ⟨found,?_⟩
  rw [found]
  exact Nat.ne_of_gt (loading.resident.owns.small (loading.resident.owned.userPage below valid)).1

end Loading

/-! loadseg. -/

def overlay (file : File) (offset va n start : Nat) (leaves : Nat → Option (Pte × Page)) (v : Nat) : Option (Pte × Page) :=
  (leaves v).map fun leaf => (leaf.1,fun k =>
    if k < pgsize ∧ va + start ≤ v * pgsize + k ∧ v * pgsize + k < va + n then file.getD (offset + (v * pgsize + k - va)) 0 else leaf.2 k)

section
variable {offset n : BitVec 32}

theorem readi_full {off : BitVec 32} (some : 0 < n.toNat) (full : (readi file off n).length = n.toNat) :
    off.toNat + n.toNat ≤ file.length ∧ readi file off n = (file.drop off.toNat).take n.toNat := by
  unfold readi at full ⊢
  split_ifs at full ⊢ with bad
  · exact absurd full (by simp only [List.length_nil]; omega)
  · rw [List.length_take,List.length_drop] at full
    exact ⟨by omega,rfl⟩

theorem getD_chunk {k : Nat} (inside : k < len) : ((file.drop off).take len).getD k 0 = file.getD (off + k) 0 := by
  simp [List.getD,inside]

theorem chunk_toNat {i : BitVec 32} (less : i < n) :
    (if n - i < BitVec.ofNat 32 pgsize then n - i else BitVec.ofNat 32 pgsize).toNat = min (n.toNat - i.toNat) pgsize := by
  have page : (BitVec.ofNat 32 pgsize).toNat = pgsize := by decide
  have rest : (n - i).toNat = n.toNat - i.toNat := BitVec.toNat_sub_of_le (BitVec.le_of_lt less)
  split_ifs with short
  · rw [BitVec.lt_def,rest,page] at short
    rw [rest,Nat.min_eq_left (Nat.le_of_lt short)]
  · rw [BitVec.lt_def,rest,page] at short
    rw [page,Nat.min_eq_right (Nat.not_lt.mp short)]

theorem overlay_nothing {start : Nat} (nothing : len ≤ start) (v : Nat) :
    overlay file off va len start leaves v = leaves v := by
  unfold overlay
  cases leaves v with
  | none => rfl
  | some leaf =>
    refine congrArg (fun bytes => some (leaf.1,bytes)) (funext fun k => if_neg ?_)
    omega

theorem overlay_step (here : leaves (w + j) = some (flags,page))
    (stored : leaves' = update leaves (w + j)
      (some (flags,copyAt page 0 ((file.drop (off + j * pgsize)).take (min (len - j * pgsize) pgsize)))))
    (inside : off + j * pgsize + min (len - j * pgsize) pgsize ≤ file.length) (v : Nat) :
    overlay file off (w * pgsize) len ((j + 1) * pgsize) leaves' v = overlay file off (w * pgsize) len (j * pgsize) leaves v := by
  have length : ((file.drop (off + j * pgsize)).take (min (len - j * pgsize) pgsize)).length = min (len - j * pgsize) pgsize := by
    rw [List.length_take,List.length_drop]
    omega
  unfold overlay
  rw [stored]
  by_cases same : v = w + j
  · rw [same,update_self,here]
    refine congrArg (fun bytes => some (flags,bytes)) (funext fun k => ?_)
    dsimp only
    rw [if_neg (by simp only [pgsize]; omega),copyAt,length]
    by_cases chunk : k < min (len - j * pgsize) pgsize
    · rw [if_pos ⟨Nat.zero_le k,by omega⟩,if_pos (by simp only [pgsize] at *; omega),Nat.sub_zero,getD_chunk chunk]
      exact congrArg (file.getD · 0) (by simp only [pgsize]; omega)
    · rw [if_neg (by omega),if_neg (by simp only [pgsize] at *; omega)]
  · rw [update_of_ne same]
    cases leaves v with
    | none => rw [Option.map_none,Option.map_none]
    | some leaf =>
      refine congrArg (fun bytes => some (leaf.1,bytes)) (funext fun k => ?_)
      by_cases short : k < pgsize
      · have iff : (w * pgsize + (j + 1) * pgsize ≤ v * pgsize + k ↔ w * pgsize + j * pgsize ≤ v * pgsize + k) := by
          simp only [pgsize] at *
          omega
        simp only [iff]
      · rw [if_neg (fun both => short both.1),if_neg (fun both => short both.1)]

/-- loadseg's loop from turn j on. -/
theorem Loading.loadFrom (short : file.length < 2^32) {turns : Nat} (loading : Loading m₀ traps pt sz m own)
    (fits : w * pgsize + n.toNat ≤ npages sz * pgsize) (small : n.toNat + pgsize < 2^32) (rest : turns + j = npages n.toNat)
    (reach : 0 < turns → offset.toNat + j * pgsize < 2^32) : ∃ ok m',
      loadFrom pt (w * pgsize) file offset n turns (BitVec.ofNat 32 (j * pgsize)) m = .ok (ok,m') ∧ Loading m₀ traps pt sz m' own ∧
      (ok = true → (∀ v < userPages, m'.leaf pt v = overlay file offset.toNat (w * pgsize) n.toNat (j * pgsize) (m.leaf pt) v) ∧
        (j * pgsize < n.toNat → offset.toNat + n.toNat ≤ file.length)) := by
  have top := npages_user (show sz ≤ trapframe from loading.resident.sz)
  have count : npages n.toNat * pgsize < n.toNat + pgsize := by
    simp only [npages,pgsize]
    omega
  have position : (BitVec.ofNat 32 (j * pgsize)).toNat = j * pgsize := by
    have most : j * pgsize ≤ npages n.toNat * pgsize := Nat.mul_le_mul_right _ (by omega)
    rw [BitVec.toNat_ofNat,Nat.mod_eq_of_lt (by omega)]
  induction turns generalizing m j with
  | zero =>
    have past : n.toNat ≤ j * pgsize := by
      rw [show j = npages n.toNat by omega]
      exact page_end _
    refine ⟨true,m,?_,loading,fun _ => ⟨fun v _ => ?_,fun less => absurd less (by omega)⟩⟩
    · rw [Exec.loadFrom,if_neg (by rw [BitVec.lt_def,position]; omega)]
    · exact (overlay_nothing past v).symm
  | succ turns ih =>
    have less : j * pgsize < n.toNat := lt_npages.mp (by omega)
    have less' : BitVec.ofNat 32 (j * pgsize) < n := by rwa [BitVec.lt_def,position]
    have inside : w + j < npages sz := by
      refine Nat.lt_of_mul_lt_mul_right (a := pgsize) ?_
      rw [Nat.add_mul]
      omega
    have place : (w * pgsize + j * pgsize) % 2^64 = (w + j) * pgsize := by
      have less : (w + j) * pgsize < userPages * pgsize := Nat.mul_lt_mul_of_pos_right (by omega) (by decide)
      rw [← Nat.add_mul,Nat.mod_eq_of_lt (less.trans (by decide))]
    obtain ⟨found,mapped⟩ := loading.walkaddr inside
    obtain ⟨flags,page,leaf,-⟩ := loading.mapped _ inside
    have contents : m.page (pte2pa (m.entry pt ((w + j) * pgsize))) = page := by
      unfold Memory.leaf at leaf
      split_ifs at leaf
      exact congrArg Prod.snd (Option.some.inj leaf)
    have amount := chunk_toNat less'
    have start : (offset + BitVec.ofNat 32 (j * pgsize)).toNat = offset.toNat + j * pgsize := by
      rw [BitVec.toNat_add,position,Nat.mod_eq_of_lt (reach (Nat.succ_pos _))]
    unfold Exec.loadFrom
    rw [if_pos less']
    dsimp only
    rw [position] at amount ⊢
    rw [place,if_neg mapped,found,contents]
    generalize (if n - BitVec.ofNat 32 (j * pgsize) < BitVec.ofNat 32 pgsize then n - BitVec.ofNat 32 (j * pgsize)
      else BitVec.ofNat 32 pgsize) = c at amount ⊢
    obtain ⟨loading1,leaves1⟩ := loading.setUser inside leaf (copyAt page 0 (readi file (offset + BitVec.ofNat 32 (j * pgsize)) c))
    by_cases full : (readi file (offset + BitVec.ofNat 32 (j * pgsize)) c).length = c.toNat
    swap
    · rw [if_pos full]
      exact ⟨false,_,rfl,loading1,by rintro ⟨⟩⟩
    rw [if_neg (not_not.mpr full)]
    have positive : 0 < c.toNat := by
      have page : 0 < pgsize := by decide
      omega
    obtain ⟨within,bytes⟩ := readi_full positive full
    rw [start,amount] at within bytes
    have next : BitVec.ofNat 32 (j * pgsize) + BitVec.ofNat 32 pgsize = BitVec.ofNat 32 ((j + 1) * pgsize) := by
      rw [Nat.succ_mul,BitVec.ofNat_add]
    have further : (j + 1) * pgsize ≤ npages n.toNat * pgsize := Nat.mul_le_mul_right _ (by omega)
    rw [next]
    have step : (j + 1) * pgsize = j * pgsize + pgsize := Nat.succ_mul ..
    have reach1 : 0 < turns → offset.toNat + (j + 1) * pgsize < 2^32 := by
      intro more
      have later : (j + 1) * pgsize < n.toNat := lt_npages.mp (by omega)
      omega
    obtain ⟨ok,m',ran,loading',loads⟩ := ih loading1 (show turns + (j + 1) = npages n.toNat by omega) reach1
      (by rw [BitVec.toNat_ofNat,Nat.mod_eq_of_lt (by omega)])
    refine ⟨ok,m',ran,loading',fun done => ?_⟩
    obtain ⟨leaves,ends⟩ := loads done
    refine ⟨fun v below => ?_,fun _ => ?_⟩
    · rw [leaves v below,overlay,leaves1 v below,bytes]
      exact overlay_step leaf rfl within v
    · by_cases more : (j + 1) * pgsize < n.toNat
      · exact ends more
      · omega

theorem Loading.loadseg (short : file.length < 2^32) (loading : Loading m₀ traps pt sz m own)
    (aligned : va % pgsize = 0)
    (fits : va + n.toNat ≤ npages sz * pgsize) (small : n.toNat + pgsize < 2^32) (offset : BitVec 32) : ∃ ok m',
      loadseg m pt va file offset n = .ok (ok,m') ∧ Loading m₀ traps pt sz m' own ∧
      (ok = true → (∀ v < userPages, m'.leaf pt v = overlay file offset.toNat va n.toNat 0 (m.leaf pt) v) ∧
        (n.toNat = 0 ∨ offset.toNat + n.toNat ≤ file.length)) := by
  obtain ⟨w,rfl⟩ : ∃ w, va = w * pgsize := ⟨va / pgsize,(Nat.div_mul_cancel (Nat.dvd_of_mod_eq_zero aligned)).symm⟩
  obtain ⟨ok,m',ran,loading',loads⟩ := loading.loadFrom short fits small (Nat.add_zero (npages n.toNat))
    fun _ => (by rw [Nat.zero_mul]; exact offset.isLt)
  rw [Nat.zero_mul] at ran loads
  refine ⟨ok,m',ran,loading',fun done => ⟨(loads done).1,?_⟩⟩
  rcases Nat.eq_zero_or_pos n.toNat with none | some
  · exact .inl none
  · exact .inr ((loads done).2 some)

end

/-! The program headers. -/

def place (file : File) (ph : Proghdr) (sz : Nat) (leaves : Nat → Option (Pte × Page)) : Nat → Option (Pte × Page) :=
  overlay file (ph.off.setWidth 32).toNat ph.vaddr.toNat ph.filesz.toNat 0
    (grow (flags2perm ph.flags) sz (ph.vaddr.toNat + ph.memsz.toNat) leaves)

structure Sound (file : File) (ph : Proghdr) : Prop where
  size : ph.filesz.toNat ≤ ph.memsz.toNat
  wraps : ph.vaddr.toNat + ph.memsz.toNat < 2^64
  aligned : ph.vaddr.toNat % pgsize = 0
  inside : ph.filesz.toNat = 0 ∨ (ph.off.setWidth 32).toNat + ph.filesz.toNat ≤ file.length

theorem flags2perm_low (flags : BitVec 32) : flags2perm flags >>> 10 = 0 := by
  unfold flags2perm
  split_ifs <;> decide

theorem acceptable_iff {ph : Proghdr} : acceptable ph = true ↔ ph.filesz.toNat ≤ ph.memsz.toNat ∧
    ph.vaddr.toNat + ph.memsz.toNat < 2^64 ∧ ph.vaddr.toNat % pgsize = 0 := by
  have first := ph.vaddr.isLt
  have second := ph.memsz.isLt
  rw [acceptable,decide_eq_true_iff,BitVec.le_def,BitVec.le_def,BitVec.toNat_add]
  constructor
  · rintro ⟨size,wraps,aligned⟩
    exact ⟨size,by omega,aligned⟩
  · rintro ⟨size,wraps,aligned⟩
    exact ⟨size,by omega,aligned⟩

theorem Loading.loadSegment (ram : m₀.freelist.length ≤ ramPages) (short : file.length < 2^32) (loading : Loading m₀ traps pt sz m own)
    (ph : Proghdr) : ∃ ok sz' m' own', loadSegment m pt file ph sz = .ok (ok,sz',m') ∧ Image m₀ traps pt sz' m' own' ∧
      (ok = true → Loading m₀ traps pt sz' m' own' ∧ Sound file ph ∧ sz' = max sz (ph.vaddr.toNat + ph.memsz.toNat) ∧
        ∀ v < userPages, m'.leaf pt v = place file ph sz (m.leaf pt) v) := by
  unfold Exec.loadSegment
  by_cases fine : acceptable ph = true
  swap
  · rw [if_pos (Bool.eq_false_of_not_eq_true fine)]
    exact ⟨false,sz,m,own,rfl,loading.toImage,nofun⟩
  rw [if_neg (by rw [fine]; decide)]
  obtain ⟨size,wraps,aligned⟩ := acceptable_iff.mp fine
  have sum : (ph.vaddr + ph.memsz).toNat = ph.vaddr.toNat + ph.memsz.toNat := by rw [BitVec.toNat_add,Nat.mod_eq_of_lt wraps]
  obtain ⟨sz1,m1,own1,ran,fails,grows⟩ := loading.uvmalloc ram (flags2perm_low ph.flags) (ph.vaddr.toNat + ph.memsz.toNat)
  rw [sum,ran]
  dsimp only
  by_cases none : sz1 = 0
  · rw [if_pos none]
    exact ⟨false,sz,m1,own1,rfl,fails none,nofun⟩
  rw [if_neg none]
  obtain ⟨rfl,loading1,leaves1⟩ := grows none
  generalize most : max sz (ph.vaddr.toNat + ph.memsz.toNat) = sz1 at loading1 ⊢
  -- the file size is that of 64 bits, as the segment is in memory
  have last := page_end sz1
  have room : npages sz1 * pgsize ≤ ramPages * pgsize := Nat.mul_le_mul_right _ (by have room := loading1.room; omega)
  have ramSize : ramPages * pgsize = 2^27 := by decide
  have page : pgsize = 4096 := rfl
  have width : (ph.filesz.setWidth 32).toNat = ph.filesz.toNat := by
    rw [BitVec.toNat_setWidth,Nat.mod_eq_of_lt (by omega)]
  obtain ⟨ok,m2,loaded,loading2,loads⟩ := loading1.loadseg short (n := ph.filesz.setWidth 32) aligned (by omega) (by omega)
    (ph.off.setWidth 32)
  rw [loaded]
  refine ⟨ok,sz1,m2,own1,rfl,loading2.toImage,fun done => ?_⟩
  obtain ⟨leaves2,inside⟩ := loads done
  rw [width] at leaves2 inside
  refine ⟨loading2,⟨size,wraps,aligned,inside⟩,rfl,fun v below => ?_⟩
  rw [leaves2 v below,place,overlay,overlay,leaves1 v below]

def headers (file : File) : (turns : Nat) → (off : BitVec 32) → List Proghdr
  | 0, _ => []
  | turns + 1, off =>
    proghdr (readi file off (BitVec.ofNat 32 proghdrSize)) :: headers file turns (off + BitVec.ofNat 32 proghdrSize)

def assemble (file : File) : List Proghdr → (sz : Nat) → (leaves : Nat → Option (Pte × Page)) → Nat × (Nat → Option (Pte × Page))
  | [], sz, leaves => (sz,leaves)
  | ph :: rest, sz, leaves =>
    if ph.type ≠ progLoad then assemble file rest sz leaves
    else assemble file rest (max sz (ph.vaddr.toNat + ph.memsz.toNat)) (place file ph sz leaves)

theorem assemble_congr (file : File) {limit : Nat} (phs : List Proghdr) (sz : Nat)
    (same : ∀ v < limit, leaves v = leaves' v) : (assemble file phs sz leaves).1 = (assemble file phs sz leaves').1 ∧
      ∀ v < limit, (assemble file phs sz leaves).2 v = (assemble file phs sz leaves').2 v := by
  induction phs generalizing sz leaves leaves' with
  | nil => exact ⟨rfl,same⟩
  | cons ph rest ih =>
    unfold assemble
    split_ifs
    · exact ih _ same
    · refine ih _ fun v below => ?_
      rw [place,place,overlay,overlay,grow,grow,same v below]

/-- All program headers have been read and what they describe has been loaded. -/
structure Loaded (file : File) (turns : Nat) (off : BitVec 32) (sz : Nat) (m : Memory) (pt : Frame) (sz' : Nat) (m' : Memory) : Prop where
  table : turns = 0 ∨ off.toNat + turns * proghdrSize ≤ file.length
  sound : ∀ ph ∈ headers file turns off, ph.type = progLoad → Sound file ph
  size : sz' = (assemble file (headers file turns off) sz (m.leaf pt)).1
  leaves : ∀ v < userPages, m'.leaf pt v = (assemble file (headers file turns off) sz (m.leaf pt)).2 v

theorem Loading.loadSegments (ram : m₀.freelist.length ≤ ramPages) (short : file.length < 2^32) (loading : Loading m₀ traps pt sz m own)
    (turns : Nat) (off : BitVec 32) : ∃ ok sz' m' own', loadSegments pt file turns off sz m = .ok (ok,sz',m') ∧ Image m₀ traps pt sz' m' own' ∧
      (ok = true → Loading m₀ traps pt sz' m' own' ∧ Loaded file turns off sz m pt sz' m') := by
  induction turns generalizing m sz own off with
  | zero => exact ⟨true,sz,m,own,rfl,loading.toImage,fun _ => ⟨loading,.inl rfl,nofun,rfl,fun _ _ => rfl⟩⟩
  | succ turns ih =>
    have count : (BitVec.ofNat 32 proghdrSize).toNat = proghdrSize := by decide
    unfold Exec.loadSegments
    dsimp only
    by_cases full : (readi file off (BitVec.ofNat 32 proghdrSize)).length = proghdrSize
    swap
    · rw [if_pos full]
      exact ⟨false,sz,m,own,rfl,loading.toImage,nofun⟩
    rw [if_neg (not_not.mpr full)]
    obtain ⟨inside,-⟩ := readi_full (show 0 < (BitVec.ofNat 32 proghdrSize).toNat by decide)
      (show (readi file off (BitVec.ofNat 32 proghdrSize)).length = (BitVec.ofNat 32 proghdrSize).toNat by rw [count]; exact full)
    rw [count] at inside
    have next : (off + BitVec.ofNat 32 proghdrSize).toNat = off.toNat + proghdrSize := by
      rw [BitVec.toNat_add,count,Nat.mod_eq_of_lt (by omega)]
    have table : turns = 0 ∨ (off + BitVec.ofNat 32 proghdrSize).toNat + turns * proghdrSize ≤ file.length →
        turns + 1 = 0 ∨ off.toNat + (turns + 1) * proghdrSize ≤ file.length := by
      rw [next,Nat.succ_mul]
      rintro (rfl | more)
      · exact .inr (by omega)
      · exact .inr (by omega)
    by_cases other : (proghdr (readi file off (BitVec.ofNat 32 proghdrSize))).type = progLoad
    swap
    · rw [if_pos other]
      obtain ⟨ok,sz',m',own',ran,image,loads⟩ := ih loading (off + BitVec.ofNat 32 proghdrSize)
      refine ⟨ok,sz',m',own',ran,image,fun done => ?_⟩
      obtain ⟨loading',loaded⟩ := loads done
      refine ⟨loading',table loaded.table,fun ph member load => ?_,?_,fun v below => ?_⟩
      · rcases List.mem_cons.mp member with rfl | later
        · exact absurd load other
        · exact loaded.sound ph later load
      · rw [headers,assemble,if_pos other]
        exact loaded.size
      · rw [headers,assemble,if_pos other]
        exact loaded.leaves v below
    rw [if_neg (not_not.mpr other)]
    generalize here : proghdr (readi file off (BitVec.ofNat 32 proghdrSize)) = ph at other ⊢
    obtain ⟨ok1,sz1,m1,own1,ran1,image1,loads1⟩ := loading.loadSegment ram short ph
    rw [ran1]
    cases ok1 with
    | false => exact ⟨false,sz1,m1,own1,rfl,image1,nofun⟩
    | true =>
      obtain ⟨loading1,sound,rfl,leaves1⟩ := loads1 rfl
      obtain ⟨ok,sz',m',own',ran,image,loads⟩ := ih loading1 (off + BitVec.ofNat 32 proghdrSize)
      refine ⟨ok,sz',m',own',ran,image,fun done => ?_⟩
      obtain ⟨loading',loaded⟩ := loads done
      have same := assemble_congr file (headers file turns (off + BitVec.ofNat 32 proghdrSize)) (max sz (ph.vaddr.toNat + ph.memsz.toNat)) leaves1
      refine ⟨loading',table loaded.table,fun ph' member load => ?_,?_,fun v below => ?_⟩
      · rw [headers,here] at member
        rcases List.mem_cons.mp member with rfl | later
        · exact sound
        · exact loaded.sound ph' later load
      · rw [headers,here,assemble,if_neg (not_not.mpr other),← same.1]
        exact loaded.size
      · rw [headers,here,assemble,if_neg (not_not.mpr other),← same.2 v below]
        exact loaded.leaves v below

end Xv6.Exec
