import Xv6.Vm.Freeing

/-! sbrk. The user memory of a process is that of its page table below the pages of
p->sz; sbrk changes it as asked, or it changes nothing. -/
namespace Xv6.Vm
open Lib.Bytes

variable {m m' : Memory} {p p' : Proc} {own own' : Frame → Option Place}

/-! Processes. -/

/-- The address space of a process and the pages that belong to it: the tables, and
each page that is mapped below p->sz. The trampoline and the trapframe are mapped
above without PTE_U, and nothing else is. -/
structure Resident (m : Memory) (p : Proc) (own : Frame → Option Place) : Prop where
  owns : Owns m p.pagetable (npages p.sz) own
  sz : p.sz ≤ trapframe
  traps : ∀ w, w = trapframe ∨ w = trampoline → m.entry p.pagetable w &&& pteV ≠ 0 ∧ m.entry p.pagetable w &&& pteU = 0 ∧
    own (pte2pa (m.entry p.pagetable w)) = none ∧ pte2pa (m.entry p.pagetable w) ∉ m.freelist
  leaves : ∀ w < maxva, m.entry p.pagetable w &&& pteV ≠ 0 → m.entry p.pagetable w &&& pteR ≠ 0 ∧
    (w / pgsize < npages p.sz ∨ w / pgsize = trapframe / pgsize ∨ w / pgsize = trampoline / pgsize)

def userPages : Nat := trapframe / pgsize

theorem npages_user {sz : Nat} (small : sz ≤ trapframe) : npages sz ≤ userPages := by
  simp only [npages,userPages,trapframe,trampoline,maxva,pgsize] at *
  omega

theorem Owns.relimit {root : Frame} {limit limit' : Nat} (owns : Owns m root limit own) (top : limit' * pgsize ≤ maxva)
    (empty : ∀ v, v < limit ∧ limit' ≤ v ∨ v < limit' ∧ limit ≤ v → m.leaf root v = none) : Owns m root limit' own := by
  refine { owns with user := fun f v => ?_,top := top }
  rw [owns.user f v]
  constructor
  · rintro ⟨inside,valid,page⟩
    refine ⟨?_,valid,page⟩
    by_contra out
    exact valid (leaf_none.mp (empty v (.inl ⟨inside,Nat.not_lt.mp out⟩)))
  · rintro ⟨inside,valid,page⟩
    refine ⟨?_,valid,page⟩
    by_contra out
    exact valid (leaf_none.mp (empty v (.inr ⟨inside,Nat.not_lt.mp out⟩)))

namespace Resident

theorem empty (resident : Resident m p own) {v : Nat} (past : npages p.sz ≤ v) (below : v < userPages) : m.leaf p.pagetable v = none := by
  rw [leaf_none]
  by_contra valid
  have number : v * pgsize / pgsize = v := Nat.mul_div_cancel _ (by decide)
  have low : v * pgsize < maxva := by
    simp only [userPages,trapframe,trampoline,maxva,pgsize] at *
    omega
  have order : userPages ≤ trampoline / pgsize := by decide
  have last : trapframe / pgsize = userPages := rfl
  rcases (resident.leaves _ low valid).2 with inside | same | same <;> rw [number] at * <;> omega

theorem owned (resident : Resident m p own) : Owns m p.pagetable userPages own := by
  refine resident.owns.relimit (by decide) fun v range => ?_
  have most := npages_user resident.sz
  rcases range with ⟨inside,out⟩ | ⟨inside,out⟩
  · omega
  · exact resident.empty out inside

theorem shape (resident : Resident m p own) : AddressSpace m p own := by
  have owns := resident.owns
  refine ⟨⟨owns.rooted,owns.child,fun t i j k leaf small valid user => ?_,fun f free => ?_,owns.pool.nodup⟩,owns.reached,resident.sz,?_,
    owns.pool.range,resident.traps,fun w low valid => ?_⟩
  · obtain ⟨low,entry⟩ := owns.entry_of_table leaf small
    have number : ((i * 512 + j) * 512 + k) * pgsize / pgsize = (i * 512 + j) * 512 + k := Nat.mul_div_cancel _ (by decide)
    rw [← entry] at valid user ⊢
    have kernel : ∀ w, w = trapframe ∨ w = trampoline → ((i * 512 + j) * 512 + k) * pgsize / pgsize ≠ w / pgsize := by
      intro w trap same
      rw [entry_page same] at user
      exact user (resident.traps w trap).2.1
    rcases (resident.leaves _ low valid).2 with inside | same | same
    · rw [number] at inside
      exact owns.userPage inside valid
    · exact absurd same (kernel _ (.inl rfl))
    · exact absurd same (kernel _ (.inr rfl))
  · obtain ⟨low,high⟩ := owns.pool.range f free
    refine ⟨?_,Nat.lt_of_lt_of_le owns.pool.first low,Nat.lt_of_lt_of_le high owns.pool.last⟩
    cases there : own f with
    | none => rfl
    | some place => exact absurd free (owns.notFree there)
  · cases there : own 0 with
    | none => rfl
    | some place => exact absurd (owns.small there).1 (Nat.lt_irrefl 0)
  · obtain ⟨readable,place⟩ := resident.leaves w low valid
    refine ⟨readable,?_⟩
    have traps : pgrounddown trapframe = trapframe ∧ pgrounddown trampoline = trampoline := by decide
    rcases place with inside | same | same
    · exact .inl (lt_npages.mp inside)
    · exact .inr (.inl (by rw [pgrounddown,same]; exact traps.1))
    · exact .inr (.inr (by rw [pgrounddown,same]; exact traps.2))

end Resident

theorem pteFlags_mask {pte mask : Pte} (low : mask >>> 10 = 0) : pteFlags pte &&& mask = pte &&& mask := by
  rw [pteFlags,BitVec.and_assoc,BitVec.and_comm 0x3FF mask]
  exact congrArg (pte &&& ·) (mask_low low)

/-- The process after a change of its user memory, with its new size. -/
theorem Resident.resize {leaves : Nat → Option (Pte × Page)} {sz : Nat} (resident : Resident m p own)
    (changes : Changes p.pagetable userPages m own m' own' leaves) (small : sz ≤ trapframe)
    (gone : ∀ v, npages sz ≤ v → v < userPages → leaves v = none)
    (readable : ∀ v < userPages, ∀ flags page, leaves v = some (flags,page) → flags &&& pteR ≠ 0) :
    Resident m' { p with sz := sz } own' := by
  have most := npages_user small
  have apart : ∀ w, w = trapframe ∨ w = trampoline → w < maxva ∧ userPages ≤ w / pgsize := by
    rintro w (rfl | rfl) <;> decide
  refine ⟨changes.owns.relimit (npages_top (small.trans (by decide))) fun v range => ?_,small,fun w trap => ?_,fun w low valid => ?_⟩
  · rcases range with ⟨inside,out⟩ | ⟨inside,out⟩
    · rw [changes.leaves v inside]
      exact gone v out inside
    · change v < npages sz at inside
      omega
  · grind [resident.traps,changes.trades.stranger,changes.beyond]
  · dsimp only at valid ⊢
    by_cases inside : w / pgsize < userPages
    · have here : m'.entry p.pagetable w = m'.entry p.pagetable (w / pgsize * pgsize) :=
        entry_page (by rw [Nat.mul_div_cancel _ (by decide)])
      have leaf := changes.leaves _ inside
      rw [here] at valid ⊢
      rw [Memory.leaf,if_pos valid] at leaf
      refine ⟨?_,.inl ?_⟩
      · have flags := readable _ inside _ _ leaf.symm
        rwa [pteFlags_mask (by decide)] at flags
      · by_contra out
        rw [gone _ (Nat.not_lt.mp out) inside] at leaf
        cases leaf
    · grind [changes.beyond,resident.leaves,resident.sz,npages_user]

theorem Resident.view_leaf (resident : Resident m p own) {w : Nat} (below : w / pgsize < userPages) : m.view p w =
    match m.leaf p.pagetable (w / pgsize) with
    | some (flags,page) => if flags &&& pteU ≠ 0 then some (page (w % pgsize)) else none
    | none => if pgrounddown w < p.sz then some 0 else none := by
  have low : pgrounddown w < maxva := by
    simp only [pgrounddown,userPages,trapframe,trampoline,maxva,pgsize] at *
    omega
  have base : w / pgsize * pgsize = pgrounddown w := rfl
  have ne := resident.shape.walkaddr_ne low
  unfold Memory.view Memory.leaf
  rw [base]
  by_cases valid : m.entry p.pagetable (pgrounddown w) &&& pteV ≠ 0
  · rw [if_pos valid]
    dsimp only
    rw [pteFlags_mask (by decide)]
    by_cases user : m.entry p.pagetable (pgrounddown w) &&& pteU ≠ 0
    · rw [if_pos (ne.mpr ⟨valid,user⟩),if_pos user,m.walkaddr_entry low,if_neg valid,if_neg user]
    · rw [if_neg (fun mapped => user (ne.mp mapped).2),if_neg (fun both => valid both.2),if_neg user]
  · grind [Resident,Function.update_apply]

/-- A page table that proc_pagetable has made is the address space of a process
with no memory. -/
theorem Resident.born (pool : Pool m) {trampolinePage trapframePage pagetable : Frame}
    (made : m.procPagetable trampolinePage trapframePage = .ok (pagetable,m')) (some : pagetable ≠ 0)
    (trampolineOut : trampolinePage ∉ m.freelist ∧ trampolinePage < 2^44)
    (trapframeOut : trapframePage ∉ m.freelist ∧ trapframePage < 2^44) :
    ∃ own', Resident m' ⟨pagetable,0⟩ own' ∧ Trades m (fun _ => none) m' own' ∧
      ∀ w < maxva, m'.entry pagetable w = trapEntries trampolinePage trapframePage w := by
  obtain ⟨pagetable',m1,own',made',-,trades,-,found⟩ := procPagetable_spec pool trampolinePage trapframePage
  rw [made] at made'
  cases made'
  obtain ⟨owns,entries⟩ := found some
  have apart : trampoline / pgsize ≠ trapframe / pgsize := by decide
  have frame : m'.entry pagetable trapframe = pa2pte trapframePage ||| (pteR ||| pteW) ||| pteV := by
    rw [entries _ (by decide),trapEntries,if_pos rfl]
  have code : m'.entry pagetable trampoline = pa2pte trampolinePage ||| (pteR ||| pteX) ||| pteV := by
    rw [entries _ (by decide),trapEntries,if_neg apart,if_pos rfl]
  have kernel : ∀ (f : Frame) (perm : Pte), perm >>> 10 = 0 → (perm ||| pteV) &&& pteU = 0 →
      (pa2pte f ||| perm ||| pteV) &&& pteU = 0 := by
    intro f perm low user
    rw [← pteFlags_mask (by decide),pteFlags_made low]
    exact user
  have outside : ∀ f : Frame, f ∉ m.freelist → own' f = none ∧ f ∉ m'.freelist := by
    intro f out
    exact (trades.stranger out rfl).symm
  have readable : ∀ (f : Frame) (perm : Pte), perm >>> 10 = 0 → (perm ||| pteV) &&& pteR ≠ 0 →
      (pa2pte f ||| perm ||| pteV) &&& pteR ≠ 0 := by
    intro f perm low read
    rw [← pteFlags_mask (by decide),pteFlags_made low]
    exact read
  have none : npages 0 = 0 := by decide
  refine ⟨own',⟨by dsimp only; rw [none]; exact owns,Nat.zero_le _,fun w trap => ?_,fun w low valid => ?_⟩,trades,entries⟩
  · rcases trap with rfl | rfl
    · dsimp only
      rw [frame,pte2pa_pa2pte trapframeOut.2 (by decide)]
      exact ⟨valid_or _,kernel _ _ (by decide) (by decide),outside _ trapframeOut.1⟩
    · dsimp only
      rw [code,pte2pa_pa2pte trampolineOut.2 (by decide)]
      exact ⟨valid_or _,kernel _ _ (by decide) (by decide),outside _ trampolineOut.1⟩
  · dsimp only at valid ⊢
    rw [entries w low,trapEntries] at valid ⊢
    split_ifs at valid ⊢ with first second
    · exact ⟨readable _ _ (by decide) (by decide),.inr (.inl first)⟩
    · exact ⟨readable _ _ (by decide) (by decide),.inr (.inr second)⟩
    · exact absurd rfl valid

/-! sbrk. -/

/-- What sbrk(n) may have done, where it returned r. -/
structure Sbrk (p : Proc) (n : BitVec 32) (m : Memory) (own : Frame → Option Place) (r : Int) (p' : Proc) (m' : Memory)
    (own' : Frame → Option Place) : Prop where
  resident : Resident m' p' own'
  table : p'.pagetable = p.pagetable
  fails : r = -1 → p'.sz = p.sz ∧ ∀ v < userPages, m'.leaf p.pagetable v = m.leaf p.pagetable v
  returns : r ≠ -1 → r = p.sz
  size : r ≠ -1 → (0 ≤ p.sz + n.toInt → (p'.sz : Int) = p.sz + n.toInt ∧ p.sz + n.toInt ≤ trapframe) ∧
    (p.sz + n.toInt < 0 → p'.sz = p.sz)
  bytes : r ≠ -1 → ∀ w < min p.sz p'.sz, m'.view p' w = m.view p w
  unmapped : r ≠ -1 → ∀ v, npages p'.sz ≤ v → v < userPages → m'.leaf p.pagetable v = none ∧
    (m.entry p.pagetable (v * pgsize) &&& pteV ≠ 0 → pte2pa (m.entry p.pagetable (v * pgsize)) ∈ m'.freelist)
  zero : r ≠ -1 → ∀ v < userPages, ∀ flags page, m.leaf p.pagetable v = none → m'.leaf p.pagetable v = some (flags,page) →
    page = fun _ => 0

theorem addInt_eq {sz : Nat} {n : BitVec 32} (small : sz ≤ trapframe) (least : 0 ≤ sz + n.toInt) : (addInt sz n : Int) = sz + n.toInt := by
  have high := BitVec.toInt_lt (x := n)
  have top : trapframe < 2^38 := by decide
  unfold addInt
  omega

theorem addInt_wraps {sz : Nat} {n : BitVec 32} (small : sz ≤ trapframe) (least : sz + n.toInt < 0) : sz ≤ addInt sz n := by
  have low := BitVec.le_toInt (x := n)
  have top : trapframe < 2^38 := by decide
  unfold addInt
  omega

theorem Resident.readable (resident : Resident m p own) {v : Nat} (below : v < userPages) {flags : Pte} {page : Page}
    (leaf : m.leaf p.pagetable v = some (flags,page)) : flags &&& pteR ≠ 0 := by
  have low : v * pgsize < maxva := by
    simp only [userPages,trapframe,trampoline,maxva,pgsize] at *
    omega
  unfold Memory.leaf at leaf
  split_ifs at leaf with valid
  cases leaf
  rw [pteFlags_mask (by decide)]
  exact (resident.leaves _ low valid).1

section
variable {n : BitVec 32} {sz : Nat} {leaves : Nat → Option (Pte × Page)}

theorem Resident.sbrk_fails (resident : Resident m p own)
    (changes : Changes p.pagetable userPages m own m' own' (m.leaf p.pagetable)) : Sbrk p n m own (-1) p m' own' := by
  have still : Resident m' p own' := resident.resize changes resident.sz (fun v past below => resident.empty past below)
    fun v below _ _ leaf => resident.readable below leaf
  exact ⟨still,rfl,fun _ => ⟨rfl,changes.leaves⟩,nofun,nofun,nofun,nofun,nofun⟩

theorem Resident.sbrk_returns (resident : Resident m p own) (changes : Changes p.pagetable userPages m own m' own' leaves)
    (small : sz ≤ trapframe) (exact : (0 ≤ p.sz + n.toInt → (sz : Int) = p.sz + n.toInt) ∧ (p.sz + n.toInt < 0 → sz = p.sz))
    (gone : ∀ v, npages sz ≤ v → v < userPages → leaves v = none)
    (kept : ∀ v, v < npages p.sz → v < npages sz → leaves v = m.leaf p.pagetable v)
    (fresh : ∀ v < userPages, ∀ flags page, leaves v = some (flags,page) → m.leaf p.pagetable v = some (flags,page) ∨
      (flags,page) = blank pteW)
    (loses : npages sz < npages p.sz → ∀ f place, own' f = some place → own f = some place) :
    Sbrk p n m own p.sz { p with sz := sz } m' own' := by
  have most := npages_user resident.sz
  have resident' : Resident m' { p with sz := sz } own' := by
    refine resident.resize changes small gone fun v below flags page leaf => ?_
    rcases fresh v below flags page leaf with old | new
    · exact resident.readable below old
    · cases new
      decide
  refine ⟨resident',rfl,fun error => ?_,fun _ => rfl,fun _ => ⟨fun least => ?_,exact.2⟩,fun _ w inside => ?_,fun _ v past below => ⟨?_,?_⟩,
    fun _ v below flags page before after => ?_⟩
  · exact absurd error (by omega)
  · have same := exact.1 least
    refine ⟨same,?_⟩
    rw [← same]
    exact Int.ofNat_le.mpr small
  · change w < min p.sz sz at inside
    have bounds := pgrounddown_le w
    have first : w / pgsize < npages p.sz := lt_npages.mpr (show pgrounddown w < p.sz by omega)
    have second : w / pgsize < npages sz := lt_npages.mpr (show pgrounddown w < sz by omega)
    have below : w / pgsize < userPages := by omega
    rw [resident'.view_leaf below,resident.view_leaf below]
    dsimp only
    rw [changes.leaves _ below,kept _ first second,if_pos (show pgrounddown w < sz by omega),if_pos (show pgrounddown w < p.sz by omega)]
  · rw [changes.leaves v below]
    exact gone v past below
  · intro valid
    have mine := resident.owned.userPage below valid
    have mapped : v < npages p.sz := by
      by_contra out
      exact valid (leaf_none.mp (resident.empty (Nat.not_lt.mp out) below))
    have less : npages sz < npages p.sz := Nat.lt_of_le_of_lt past mapped
    have lost : own' (pte2pa (m.entry p.pagetable (v * pgsize))) = none := by
      cases there : own' (pte2pa (m.entry p.pagetable (v * pgsize))) with
      | none => rfl
      | some place =>
        have before := loses less _ _ there
        rw [mine] at before
        cases before
        have valid' := ((changes.owns.user _ v).mp there).2.1
        have leaf := changes.leaves v below
        rw [gone v past below,leaf_none] at leaf
        exact absurd leaf valid'
    exact ((changes.trades.conserves _).mpr (.inr (by rw [mine]; nofun))).resolve_right fun owned => owned lost
  · rw [changes.leaves v below] at after
    rcases fresh v below flags page after with old | new
    · rw [before] at old
      cases old
    · cases new
      rfl

end

/-- sbrk is exact or has no effect. -/
theorem sbrk_exact (resident : Resident m p own) (n t : BitVec 32) : ∃ r p' m' own',
    m.sysSbrk p n t = .ok (r,p',m') ∧ Sbrk p n m own r p' m' own' := by
  have most : trapframe ≤ maxva := by decide
  have user := npages_user resident.sz
  have still := Changes.refl resident.owned
  unfold Memory.sysSbrk Memory.growproc
  by_cases negative : n.toInt < 0
  · obtain ⟨m',own',freed,changes,loses⟩ := resident.owned.uvmdealloc (addInt p.sz n) (resident.sz.trans most) user
    rw [if_pos (.inr negative),if_neg (by omega),if_pos negative,freed]
    refine ⟨p.sz,_,m',own',rfl,resident.sbrk_returns changes ((Nat.min_le_left ..).trans resident.sz) ⟨fun least => ?_,fun wraps => ?_⟩
      (fun v past below => ?_) (fun v _ inside => ?_) (fun v below flags page leaf => ?_) fun _ => loses⟩
    · have same := addInt_eq resident.sz least
      rw [Nat.min_eq_right (by omega)]
      exact same
    · exact Nat.min_eq_left (addInt_wraps resident.sz wraps)
    · grind [resident.empty]
    · have bound := npages_le (Nat.min_le_right p.sz (addInt p.sz n))
      rw [if_neg (by omega)]
    · left
      split_ifs at leaf
      exact leaf
  have least : 0 ≤ (p.sz : Int) + n.toInt := by omega
  have sum := addInt_eq resident.sz least
  by_cases eager : t = Memory.sbrkEager
  · rw [if_pos (.inl eager)]
    by_cases positive : 0 < n.toInt
    · rw [if_pos positive]
      by_cases high : trapframe < addInt p.sz n
      · rw [if_pos high]
        exact ⟨-1,p,m,own,rfl,resident.sbrk_fails still⟩
      have small : addInt p.sz n ≤ trapframe := Nat.not_lt.mp high
      have more : npages p.sz ≤ npages (addInt p.sz n) := npages_le (by omega)
      obtain ⟨ok,m',own',grown,changes,-⟩ := resident.owned.uvmalloc (show pteW >>> 10 = 0 by decide) (show p.sz ≤ addInt p.sz n by omega)
        (resident.sz.trans most) user (.inl (npages_user small)) fun v past _ below => resident.empty past below
      rw [if_neg high,grown]
      cases ok with
      | false => exact ⟨-1,p,m',own',rfl,resident.sbrk_fails changes⟩
      | true =>
        refine ⟨p.sz,{ p with sz := addInt p.sz n },m',own',?_,resident.sbrk_returns changes small ⟨fun _ => sum,fun wraps => absurd least (by omega)⟩
          (fun v past below => ?_) (fun v inside _ => ?_) (fun v below flags page leaf => ?_) fun less => absurd more (by omega)⟩
        · have some : addInt p.sz n ≠ 0 := by omega
          simp only [Except.map,if_true,if_neg some]
        · rw [if_pos rfl,if_neg (by omega)]
          exact resident.empty (more.trans past) below
        · rw [if_pos rfl,if_neg (by omega)]
        · rw [if_pos rfl] at leaf
          split_ifs at leaf
          · exact .inr (Option.some.inj leaf).symm
          · exact .inl leaf
    · have zero : n.toInt = 0 := by omega
      rw [if_neg positive,if_neg negative]
      exact ⟨p.sz,p,m,own,rfl,resident.sbrk_returns still resident.sz ⟨fun _ => by omega,fun _ => rfl⟩
        (fun v past below => resident.empty past below) (fun _ _ _ => rfl) (fun _ _ _ _ leaf => .inl leaf) fun _ _ _ => id⟩
  · rw [if_neg (not_or.mpr ⟨eager,negative⟩),if_neg (by omega)]
    by_cases high : trapframe < addInt p.sz n
    · rw [if_pos high]
      exact ⟨-1,p,m,own,rfl,resident.sbrk_fails still⟩
    · rw [if_neg high]
      have more : npages p.sz ≤ npages (addInt p.sz n) := npages_le (by omega)
      exact ⟨p.sz,_,m,own,rfl,resident.sbrk_returns still (Nat.not_lt.mp high) ⟨fun _ => sum,fun wraps => absurd least (by omega)⟩
        (fun v past below => resident.empty (more.trans past) below) (fun _ _ _ => rfl) (fun _ _ _ _ leaf => .inl leaf) fun _ _ _ => id⟩

theorem bare_pool : Pool bare := ⟨by decide,by decide,by decide,by decide⟩

theorem bare_born : ∃ m own, Resident m ⟨2,0⟩ own := by
  have ran : ((bare.procPagetable 8 1).toOption.any fun made => decide (made.1 = 2)) = true := by decide +kernel
  obtain ⟨⟨pagetable,m⟩,made,two⟩ := (Option.any_eq_true _ _).mp ran
  cases of_decide_eq_true two
  cases result : bare.procPagetable 8 1 with
  | error e =>
    rw [result] at made
    cases made
  | ok found =>
    rw [result] at made
    cases made
    obtain ⟨own,resident,-⟩ := Resident.born bare_pool result (by decide) ⟨by decide,by decide⟩ ⟨by decide,by decide⟩
    exact ⟨m,own,resident⟩

theorem sbrk_exact_first : ∃ m own, Resident m ⟨2,0⟩ own ∧ ∃ r p' m' own', m.sysSbrk ⟨2,0⟩ 100 1 = .ok (r,p',m') ∧
    Sbrk ⟨2,0⟩ 100 m own r p' m' own' := by
  obtain ⟨m,own,resident⟩ := bare_born
  exact ⟨m,own,resident,sbrk_exact resident 100 1⟩

end Xv6.Vm
