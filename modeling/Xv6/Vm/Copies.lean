import Xv6.Vm.Faults
import Mathlib.Data.Finset.Image
import Mathlib.Data.Finset.Card
import Mathlib.Order.Interval.Finset.Nat

/-! copyin and copyout against the user's view of memory. A page below p->sz that
is not mapped reads as zero; a copy makes it, for which it needs a free page and one
for each table that is missing. -/
namespace Xv6.Vm
open Lib.Bytes

variable {m m' : Memory} {p : Proc} {own own' : Frame → Option Place}
variable {w w' : Nat}

/-! What a range of pages costs. -/

section
variable {absent : Nat → Bool} {has : List Nat → Bool} {v : Nat} {vs : Finset Nat}

def upper (v : Nat) : List Nat := [px 2 (v * pgsize)]

def lower (v : Nat) : List Nat := [px 2 (v * pgsize),px 1 (v * pgsize)]

def demand (absent : Nat → Bool) (has : List Nat → Bool) (vs : Finset Nat) : Nat :=
  (vs.filter fun v => absent v = true).card +
    (((vs.filter fun v => absent v = true).image upper ∪ (vs.filter fun v => absent v = true).image lower).filter
      fun path => has path = false).card

theorem demand_present (present : absent v = false) : demand absent has (insert v vs) = demand absent has vs := by
  rw [demand,demand,Finset.filter_insert,if_neg (by rw [present]; decide)]

theorem demand_congr {absent' : Nat → Bool} {has' : List Nat → Bool} (pages : ∀ v ∈ vs, absent' v = absent v)
    (tables : ∀ v ∈ vs, has' (upper v) = has (upper v) ∧ has' (lower v) = has (lower v)) :
    demand absent' has' vs = demand absent has vs := by
  have same : vs.filter (fun v => absent' v = true) = vs.filter fun v => absent v = true :=
    Finset.filter_congr fun v member => by rw [pages v member]
  rw [demand,demand,same]
  refine congrArg (_ + ·) (congrArg Finset.card (Finset.filter_congr fun path member => ?_))
  rcases Finset.mem_union.mp member with first | second
  · obtain ⟨v,inside,rfl⟩ := Finset.mem_image.mp first
    rw [(tables v (Finset.mem_filter.mp inside).1).1]
  · obtain ⟨v,inside,rfl⟩ := Finset.mem_image.mp second
    rw [(tables v (Finset.mem_filter.mp inside).1).2]

theorem demand_absent (absent' : Nat → Bool) (has' : List Nat → Bool) (missing : absent v = true) (new : v ∉ vs) (others : ∀ u ∈ vs, absent' u = absent u)
    (made : ∀ u ∈ vs, (has' (upper u) = true ↔ has (upper u) = true ∨ upper u = upper v) ∧
      (has' (lower u) = true ↔ has (lower u) = true ∨ lower u = lower v)) :
    demand absent has (insert v vs) = 1 + ((if has (upper v) = true then 0 else 1) + (if has (lower v) = true then 0 else 1)) +
      demand absent' has' vs := by
  have same : vs.filter (fun u => absent' u = true) = vs.filter fun u => absent u = true :=
    Finset.filter_congr fun u member => by rw [others u member]
  rw [demand,demand,same,Finset.filter_insert,if_pos missing,Finset.card_insert_of_notMem (by simp [new])]
  generalize lazy : vs.filter (fun u => absent u = true) = us
  have inside : ∀ u ∈ us, u ∈ vs := by
    intro u member
    rw [← lazy] at member
    exact (Finset.mem_filter.mp member).1
  have apart : ∀ u w, upper u ≠ lower w := fun u w same => absurd (congrArg List.length same) (by simp [upper,lower])
  -- what is missing for v, and what is still missing for the others
  have split : ((insert v us).image upper ∪ (insert v us).image lower).filter (fun path => has path = false) =
      (({upper v,lower v} : Finset (List Nat)).filter fun path => has path = false) ∪
        (us.image upper ∪ us.image lower).filter fun path => has' path = false := by
    ext path
    simp only [Finset.image_insert,Finset.mem_filter,Finset.mem_union,Finset.mem_insert,Finset.mem_singleton,Finset.mem_image]
    constructor
    · grind
    · grind
  have disjoint : Disjoint (({upper v,lower v} : Finset (List Nat)).filter fun path => has path = false)
      ((us.image upper ∪ us.image lower).filter fun path => has' path = false) := by
    rw [Finset.disjoint_left]
    simp only [Finset.mem_filter,Finset.mem_union,Finset.mem_insert,Finset.mem_singleton,Finset.mem_image,not_and,Bool.not_eq_false]
    rintro path ⟨rfl | rfl,-⟩ (⟨u,member,same⟩ | ⟨u,member,same⟩)
    · rw [← same]
      exact (made u (inside u member)).1.mpr (.inr same)
    · exact absurd same.symm (apart v u)
    · exact absurd same (apart u v)
    · rw [← same]
      exact (made u (inside u member)).2.mpr (.inr same)
  have pair : (({upper v,lower v} : Finset (List Nat)).filter fun path => has path = false).card =
      (if has (upper v) = true then 0 else 1) + (if has (lower v) = true then 0 else 1) := by
    have other := apart v v
    rw [Finset.filter_insert,Finset.filter_singleton]
    cases has (upper v) <;> cases has (lower v) <;> simp [other]
  rw [split,Finset.card_union_of_disjoint disjoint,pair]
  omega

end

/-! The user's view. -/

namespace Memory

def view (m : Memory) (p : Proc) (w : Nat) : Option Byte :=
  if m.walkaddr p.pagetable (pgrounddown w) ≠ 0 then some (m.page (m.walkaddr p.pagetable (pgrounddown w)) (w % pgsize))
  else if pgrounddown w < p.sz ∧ m.entry p.pagetable (pgrounddown w) &&& pteV = 0 then some 0 else none

def allows (m : Memory) (p : Proc) (write : Bool) (w : Nat) : Prop :=
  pgrounddown w < maxva ∧
    ((m.entry p.pagetable (pgrounddown w) &&& pteV ≠ 0 ∧ m.entry p.pagetable (pgrounddown w) &&& pteU ≠ 0 ∧
        (write = true → m.entry p.pagetable (pgrounddown w) &&& pteW ≠ 0)) ∨
      (m.entry p.pagetable (pgrounddown w) &&& pteV = 0 ∧ pgrounddown w < p.sz))

def cost (m : Memory) (p : Proc) (vs : Finset Nat) : Nat :=
  demand (fun v => decide (m.entry p.pagetable (v * pgsize) &&& pteV = 0)) (fun path => (m.reach path p.pagetable).isSome) vs

end Memory

def pagesOf (va len : Nat) : Finset Nat := (Finset.Ico va (va + len)).image (· / pgsize)

theorem missing_tables (m : Memory) (root : Frame) (v : Nat) : m.missing (v * pgsize) 2 root =
    (if (m.reach (upper v) root).isSome = true then 0 else 1) + (if (m.reach (lower v) root).isSome = true then 0 else 1) := by
  simp only [Memory.missing,upper,lower,Memory.reach]
  split_ifs <;> simp_all

theorem entry_page {root : Frame} (same : w / pgsize = w' / pgsize) : m.entry root w = m.entry root w' := by
  rw [Memory.entry,Memory.entryFrom,tableFrom_page same,px_page same,Memory.entry,Memory.entryFrom]

theorem vpn_eq (low : w < maxva) : vpn w = w / pgsize := by
  simp only [vpn,px,pgsize,maxva] at *
  omega

theorem AddressSpace.place (shape : AddressSpace m p own) (low : w < maxva) (valid : m.entry p.pagetable w &&& pteV ≠ 0)
    (user : m.entry p.pagetable w &&& pteU ≠ 0) : own (pte2pa (m.entry p.pagetable w)) = some (.user (w / pgsize)) := by
  rw [Memory.entry,Memory.entryFrom] at valid user ⊢
  cases found : m.tableFrom w 2 p.pagetable with
  | none =>
    rw [found] at valid
    exact absurd (BitVec.zero_and) valid
  | some t =>
    rw [found] at valid user
    have leaf := shape.space.leaf t _ _ _ (tableFrom_owned shape.space.tree shape.space.root rfl found) (px_lt ..) valid user
    rw [← vpn_eq low]
    exact leaf

theorem AddressSpace.walkaddr_ne (shape : AddressSpace m p own) (low : w < maxva) :
    m.walkaddr p.pagetable w ≠ 0 ↔ m.entry p.pagetable w &&& pteV ≠ 0 ∧ m.entry p.pagetable w &&& pteU ≠ 0 := by
  rw [m.walkaddr_entry low]
  split_ifs with invalid kernel
  · exact ⟨fun zero => absurd rfl zero,fun ⟨valid,_⟩ => absurd invalid valid⟩
  · exact ⟨fun zero => absurd rfl zero,fun ⟨_,user⟩ => absurd kernel user⟩
  · refine ⟨fun _ => ⟨invalid,kernel⟩,fun _ zero => ?_⟩
    have place := shape.place low invalid kernel
    rw [zero,shape.null] at place
    cases place

theorem AddressSpace.walkaddr_place (shape : AddressSpace m p own) (low : w < maxva)
    (mapped : m.walkaddr p.pagetable w ≠ 0) : own (m.walkaddr p.pagetable w) = some (.user (w / pgsize)) := by
  obtain ⟨valid,user⟩ := (shape.walkaddr_ne low).mp mapped
  rw [m.walkaddr_entry low,if_neg valid,if_neg user]
  exact shape.place low valid user

theorem view_congr (entries : ∀ w < maxva, m'.entry p.pagetable w = m.entry p.pagetable w)
    (pages : ∀ w < maxva, m.walkaddr p.pagetable w ≠ 0 → m'.page (m.walkaddr p.pagetable w) = m.page (m.walkaddr p.pagetable w))
    (w : Nat) (low : pgrounddown w < maxva) : m'.view p w = m.view p w := by
  have same : m'.walkaddr p.pagetable (pgrounddown w) = m.walkaddr p.pagetable (pgrounddown w) := by
    rw [Memory.walkaddr_entry _ low,Memory.walkaddr_entry _ low,entries _ low]
  rw [Memory.view,Memory.view,same,entries _ low]
  split_ifs with mapped
  · rw [pages _ low mapped]
  · rfl
  · rfl

theorem AddressSpace.view_high (shape : AddressSpace m p own) (high : maxva ≤ pgrounddown w) : m.view p w = none := by
  have past : ¬pgrounddown w < p.sz := by
    have sz := shape.sz
    have most : trapframe ≤ maxva := by decide
    omega
  rw [Memory.view,m.walkaddr_high high,if_neg (fun zero => zero rfl),if_neg (fun both => past both.1)]

theorem AddressSpace.page_of_user (shape : AddressSpace m p own) (confined : Confined m m' own own' [])
    (low : w < maxva)
    (mapped : m.walkaddr p.pagetable w ≠ 0) : m'.page (m.walkaddr p.pagetable w) = m.page (m.walkaddr p.pagetable w) := by
  have place := shape.walkaddr_place low mapped
  refine confined.others _ (fun path there => ?_) (fun free => ?_) (by simp)
  · rw [place] at there
    cases there
  · rw [(shape.space.free _ free).1] at place
    cases place

theorem base_of_aligned {va : Nat} (aligned : va % pgsize = 0) : pgrounddown va = va := by
  have split := Nat.div_add_mod va pgsize
  rw [pgrounddown,Nat.mul_comm]
  omega

/-! One page. -/

/-- What a turn of a copy finds at the page base va: the page `pa0`, faulted in if
that is necessary, or 0. -/
structure Serves (p : Proc) (va : Nat) (m : Memory) (own : Frame → Option Place) (pa0 : Frame) (m' : Memory)
    (own' : Frame → Option Place) : Prop where
  shape : AddressSpace m' p own'
  confined : Confined m m' own own' []
  view : ∀ w, m'.view p w = m.view p w
  found : pa0 ≠ 0 ↔ m.allows p false va ∧ (m.entry p.pagetable va &&& pteV = 0 → 1 + m.missing va 2 p.pagetable ≤ m.freelist.length)
  mapped : pa0 ≠ 0 → m'.walkaddr p.pagetable va = pa0
  page : pa0 ≠ 0 → pa0 ∈ m.freelist ∨ own pa0 = some (.user (va / pgsize))
  writable : pa0 ≠ 0 → (m'.entry p.pagetable va &&& pteW ≠ 0 ↔
    m.entry p.pagetable va &&& pteV = 0 ∨ m.entry p.pagetable va &&& pteW ≠ 0)
  stays : ∀ w < maxva, m.entry p.pagetable w &&& pteV ≠ 0 → m'.entry p.pagetable w = m.entry p.pagetable w
  entries : ∀ w < maxva, w / pgsize ≠ va / pgsize → m'.entry p.pagetable w = m.entry p.pagetable w
  cost : pa0 ≠ 0 → ∀ vs, va / pgsize ∉ vs → (∀ v ∈ vs, v * pgsize < maxva) →
    (m.cost p (insert (va / pgsize) vs) ≤ m.freelist.length ↔ m'.cost p vs ≤ m'.freelist.length)

section
variable {va : Nat}

theorem AddressSpace.present (shape : AddressSpace m p own) (aligned : va % pgsize = 0) (low : va < maxva)
    (mapped : m.walkaddr p.pagetable va ≠ 0) : Serves p va m own (m.walkaddr p.pagetable va) m own := by
  obtain ⟨valid,user⟩ := (shape.walkaddr_ne low).mp mapped
  have base := base_of_aligned aligned
  refine ⟨shape,.refl m own,fun _ => rfl,?_,fun _ => rfl,fun _ => .inr (shape.walkaddr_place low mapped),fun _ => ?_,
    fun _ _ _ => rfl,fun _ _ _ => rfl,fun _ vs _ _ => ?_⟩
  · refine ⟨fun _ => ⟨⟨by rw [base]; exact low,.inl ⟨by rw [base]; exact valid,by rw [base]; exact user,nofun⟩⟩,
      fun invalid => absurd invalid valid⟩,fun _ => mapped⟩
  · exact ⟨.inr,fun either => either.resolve_left valid⟩
  · rw [Memory.cost,demand_present]
    · rfl
    · rw [decide_eq_false_iff_not,← entry_page (w := va) (by rw [Nat.mul_div_cancel _ (by decide)])]
      exact valid

theorem AddressSpace.absent (shape : AddressSpace m p own) (shape' : AddressSpace m' p own') (confined : Confined m m' own own' [])
    (entries : ∀ w < maxva, m'.entry p.pagetable w = m.entry p.pagetable w)
    (refused : ¬(m.allows p false va ∧
      (m.entry p.pagetable va &&& pteV = 0 → 1 + m.missing va 2 p.pagetable ≤ m.freelist.length))) :
    Serves p va m own 0 m' own' := by
  have nothing : ∀ {P : Prop}, (0 : Frame) ≠ 0 → P := fun zero => absurd rfl zero
  refine ⟨shape',confined,fun w => ?_,⟨nothing,fun served => absurd served refused⟩,nothing,nothing,nothing,
    fun w low _ => entries w low,fun w low _ => entries w low,nothing⟩
  by_cases low : pgrounddown w < maxva
  · exact view_congr entries (fun u high mapped => shape.page_of_user confined high mapped) w low
  · rw [shape'.view_high (Nat.not_lt.mp low),shape.view_high (Nat.not_lt.mp low)]

/-- A page of the freelist has been mapped. -/
theorem AddressSpace.faulted {mem : Frame} (shape : AddressSpace m p own) (shape' : AddressSpace m' p own')
    (confined : Confined m m' own own' []) (aligned : va % pgsize = 0) (low : va < maxva) (inside : va < p.sz)
    (invalid : m.entry p.pagetable va &&& pteV = 0) (enough : 1 + m.missing va 2 p.pagetable ≤ m.freelist.length)
    (maps : Maps p va m mem m') : Serves p va m own mem m' own' := by
  have base := base_of_aligned aligned
  have flags : (pteW ||| pteU ||| pteR) >>> 10 = 0 := by decide
  have entry : m'.entry p.pagetable va = pa2pte mem ||| (pteW ||| pteU ||| pteR) ||| pteV := by
    rw [maps.entries va low,if_pos rfl]
  have mapped : m'.walkaddr p.pagetable va = mem := by
    rw [m'.walkaddr_entry low,entry,if_neg (valid_or _),if_neg (user_or _),pte2pa_pa2pte maps.small flags]
  have positive : mem ≠ 0 := Nat.ne_of_gt (shape.space.free mem maps.member).2.1
  have entries : ∀ w < maxva, w / pgsize ≠ va / pgsize → m'.entry p.pagetable w = m.entry p.pagetable w := by
    intro w high other
    rw [maps.entries w high,if_neg other]
  refine ⟨shape',confined,fun w => ?_,⟨fun _ => ⟨⟨by rw [base]; exact low,.inr ⟨by rw [base]; exact invalid,by rw [base]; exact inside⟩⟩,
    fun _ => enough⟩,fun _ => positive⟩,fun _ => mapped,fun _ => .inl maps.member,fun _ => ?_,fun w high valid => ?_,entries,
    fun _ vs new small => ?_⟩
  · by_cases high : pgrounddown w < maxva
    · by_cases same : w / pgsize = va / pgsize
      · have here : pgrounddown w = va := by rw [pgrounddown,same]; exact base
        have before : m.walkaddr p.pagetable va = 0 := by rw [m.walkaddr_entry low,if_pos invalid]
        rw [Memory.view,Memory.view,here,mapped,before,if_pos positive,if_neg (fun zero => zero rfl),if_pos ⟨inside,invalid⟩,maps.zero]
      · have other : pgrounddown w / pgsize ≠ va / pgsize := by rw [pgrounddown_div]; exact same
        have walk : m'.walkaddr p.pagetable (pgrounddown w) = m.walkaddr p.pagetable (pgrounddown w) := by
          rw [Memory.walkaddr_entry _ high,Memory.walkaddr_entry _ high,entries _ high other]
        rw [Memory.view,Memory.view,walk,entries _ high other]
        split_ifs with there
        · rw [shape.page_of_user confined high there]
        · rfl
        · rfl
    · rw [shape'.view_high (Nat.not_lt.mp high),shape.view_high (Nat.not_lt.mp high)]
  · rw [entry]
    exact ⟨fun _ => .inl invalid,fun _ => (flags_or _).2⟩
  · refine entries w high fun same => valid ?_
    rw [entry_page same]
    exact invalid
  · have number : va / pgsize * pgsize = va := base
    have total : m.cost p (insert (va / pgsize) vs) = 1 + m.missing va 2 p.pagetable + m'.cost p vs := by
      have paths : indices va 2 = lower (va / pgsize) := by rw [lower,number]; rfl
      rw [Memory.cost,demand_absent (fun v => decide (m'.entry p.pagetable (v * pgsize) &&& pteV = 0))
        (fun path => (m'.reach path p.pagetable).isSome) (by rw [number]; exact decide_eq_true invalid) new (fun u member => ?_)
        fun u member => ⟨?_,?_⟩]
      · have cost := missing_tables m p.pagetable (va / pgsize)
        rw [number] at cost
        rw [cost]
        rfl
      · have other : u * pgsize / pgsize ≠ va / pgsize := by
          rw [Nat.mul_div_cancel _ (by decide)]
          rintro rfl
          exact new member
        rw [entries _ (small u member) other]
      · grind [AddressSpace,Confined,Maps,Serves,upper,lower,px,pgsize,Function.update_apply]
      · rw [maps.tables (lower u) (by simp [lower]) (by simp [lower,px_lt]),paths]
        refine or_congr Iff.rfl ⟨fun initial => initial.eq_of_length (by simp [lower]),fun same => ?_⟩
        rw [same]
    rw [total,maps.taken,List.length_drop]
    omega

/-- The first half of a turn of copyin or copyout never panics, and it fails only if
the page is not allowed or cannot be had. -/
theorem AddressSpace.serves (shape : AddressSpace m p own) (aligned : va % pgsize = 0) : ∃ pa0 m' own',
    m.userPage p p.pagetable va = .ok (pa0,m') ∧ Serves p va m own pa0 m' own' := by
  unfold Memory.userPage
  dsimp only
  have base := base_of_aligned aligned
  have refuse : ∀ reason : ¬(m.allows p false va ∧
      (m.entry p.pagetable va &&& pteV = 0 → 1 + m.missing va 2 p.pagetable ≤ m.freelist.length)), Serves p va m own 0 m own :=
    fun reason => shape.absent shape (.refl m own) (fun _ _ => rfl) reason
  by_cases mapped : m.walkaddr p.pagetable va ≠ 0
  · have low : va < maxva := by
      by_contra high
      exact mapped (m.walkaddr_high (Nat.not_lt.mp high))
    exact ⟨_,m,own,if_neg mapped,shape.present aligned low mapped⟩
  rw [if_pos (not_not.mp mapped)]
  unfold Memory.vmfault
  by_cases past : p.sz ≤ va
  · refine ⟨0,m,own,if_pos past,refuse ?_⟩
    rintro ⟨⟨low,⟨valid,user,-⟩ | ⟨-,inside⟩⟩,-⟩
    · rw [base] at low valid user
      exact mapped ((shape.walkaddr_ne low).mpr ⟨valid,user⟩)
    · rw [base] at inside
      omega
  have low : va < maxva := by
    have sz := shape.sz
    have most : trapframe ≤ maxva := by decide
    omega
  rw [if_neg past,base,m.ismapped_entry low]
  by_cases valid : m.entry p.pagetable va &&& pteV ≠ 0
  · rw [decide_eq_true valid]
    refine ⟨0,m,own,rfl,refuse ?_⟩
    rintro ⟨⟨-,⟨-,user,-⟩ | ⟨invalid,-⟩⟩,-⟩
    · rw [base] at user
      exact mapped ((shape.walkaddr_ne low).mpr ⟨valid,user⟩)
    · rw [base] at invalid
      exact valid invalid
  · rw [decide_eq_false valid]
    have invalid := not_not.mp valid
    obtain ⟨mem,m',own',faults,shape',confined,enough,maps,same⟩ := faultPage_spec shape aligned low (Nat.not_le.mp past) invalid
    refine ⟨mem,m',own',faults,?_⟩
    by_cases found : mem = 0
    · subst found
      refine shape.absent shape' confined (same rfl) ?_
      rintro ⟨-,some⟩
      exact enough.mpr (some invalid) rfl
    · exact shape.faulted shape' confined aligned low (Nat.not_le.mp past) invalid (enough.mp found) (maps found).1

/-- A user page has been written. -/
structure Stored (p : Proc) (va : Nat) (m : Memory) (own : Frame → Option Place) (page : Page) (m' : Memory) : Prop where
  shape : AddressSpace m' p own
  view : ∀ w, m'.view p w = if w / pgsize = va / pgsize then some (page (w % pgsize)) else m.view p w
  entries : ∀ w, m'.entry p.pagetable w = m.entry p.pagetable w
  cost : ∀ vs, m'.cost p vs = m.cost p vs
  free : m'.freelist = m.freelist

theorem AddressSpace.store (shape : AddressSpace m p own) (aligned : va % pgsize = 0) (low : va < maxva)
    (mapped : m.walkaddr p.pagetable va ≠ 0) (page : Page) :
    Stored p va m own page (m.setPage (m.walkaddr p.pagetable va) page) ∧
      Confined m (m.setPage (m.walkaddr p.pagetable va) page) own own [m.walkaddr p.pagetable va] := by
  have place := shape.walkaddr_place low mapped
  have notTable : ∀ path, own (m.walkaddr p.pagetable va) ≠ some (.table path) := by
    intro path there
    rw [place] at there
    cases there
  have pages : ∀ g, g ≠ m.walkaddr p.pagetable va → (m.setPage (m.walkaddr p.pagetable va) page).page g = m.page g :=
    fun g other => Function.update_of_ne other ..
  have tables : ∀ g path, own g = some (.table path) → (m.setPage (m.walkaddr p.pagetable va) page).page g = m.page g := by
    intro g path there
    refine pages g ?_
    rintro rfl
    exact notTable path there
  have linked : Linked m (m.setPage (m.walkaddr p.pagetable va) page) own := linked_setPage notTable
  have entries : ∀ w, (m.setPage (m.walkaddr p.pagetable va) page).entry p.pagetable w = m.entry p.pagetable w :=
    fun w => entries_of_tables shape.space.tree tables shape.space.root rfl
  have confined : Confined m (m.setPage (m.walkaddr p.pagetable va) page) own own [m.walkaddr p.pagetable va] :=
    ⟨fun _ _ => id,fun _ none _ => none,fun _ => id,fun g _ _ other => pages g (by simpa using other)⟩
  have shape' : AddressSpace (m.setPage (m.walkaddr p.pagetable va) page) p own :=
    shape.still confined (shape.space.outside tables shape.space.free shape.space.nodup)
      (linked.reached shape.space.tree shape.reached fun _ _ => id) ⟨rfl,rfl⟩ shape.null fun w _ => entries w
  refine ⟨⟨shape',fun w => ?_,entries,fun vs => ?_,rfl⟩,confined⟩
  · by_cases high : pgrounddown w < maxva
    · have walk : (m.setPage (m.walkaddr p.pagetable va) page).walkaddr p.pagetable (pgrounddown w) =
          m.walkaddr p.pagetable (pgrounddown w) := by
        rw [Memory.walkaddr_entry _ high,Memory.walkaddr_entry _ high,entries]
      rw [Memory.view,Memory.view,walk,entries]
      by_cases same : w / pgsize = va / pgsize
      · have here : pgrounddown w = va := by rw [pgrounddown,same]; exact base_of_aligned aligned
        rw [if_pos same,here,if_pos mapped]
        exact congrArg (fun page : Page => some (page (w % pgsize))) (Function.update_self ..)
      · rw [if_neg same]
        split_ifs with there
        · rw [pages]
          intro equal
          have other := shape.walkaddr_place high there
          rw [equal,place,pgrounddown_div] at other
          exact same (Place.user.inj (Option.some.inj other)).symm
        · rfl
        · rfl
    · grind [AddressSpace,Confined,Stored,pgrounddown,base_of_aligned,shape'.view_high,shape.view_high]
  · refine demand_congr (fun v _ => by rw [entries]) fun v _ => ⟨?_,?_⟩
    · rw [linked.reach shape.space.tree shape.space.root (by simp [upper]) (by simp [upper,px_lt])]
    · rw [linked.reach shape.space.tree shape.space.root (by simp [lower]) (by simp [lower,px_lt])]

end

/-! Ranges. -/

section
variable {va len n : Nat}

theorem pgrounddown_le (va : Nat) : pgrounddown va ≤ va ∧ va < pgrounddown va + pgsize := by
  have split := Nat.div_add_mod va pgsize
  have small := Nat.mod_lt va (show 0 < pgsize by decide)
  rw [pgrounddown,Nat.mul_comm]
  omega

theorem page_iff (va w : Nat) : w / pgsize = va / pgsize ↔ pgrounddown va ≤ w ∧ w < pgrounddown va + pgsize := by
  rw [Nat.div_eq_iff (by decide),pgrounddown]
  have positive : 0 < pgsize := by decide
  omega

theorem mem_chunk (chunk : n = min (pgsize - (va - pgrounddown va)) len) (w : Nat) : va ≤ w ∧ w < va + len ↔
    (va ≤ w ∧ w < va + n) ∨ (pgrounddown va + pgsize ≤ w ∧ w < pgrounddown va + pgsize + (len - n)) := by
  have bounds := pgrounddown_le va
  omega

theorem chunk_page (chunk : n = min (pgsize - (va - pgrounddown va)) len) (inside : va ≤ w ∧ w < va + n) :
    w / pgsize = va / pgsize := by
  have bounds := pgrounddown_le va
  exact (page_iff va w).mpr (by omega)

theorem mem_pagesOf (va len v : Nat) : v ∈ pagesOf va len ↔ ∃ w, (va ≤ w ∧ w < va + len) ∧ w / pgsize = v := by
  simp [pagesOf]

theorem pagesOf_chunk (some : 0 < len) (chunk : n = min (pgsize - (va - pgrounddown va)) len) :
    pagesOf va len = insert (va / pgsize) (pagesOf (pgrounddown va + pgsize) (len - n)) ∧
      va / pgsize ∉ pagesOf (pgrounddown va + pgsize) (len - n) := by
  constructor
  · ext v
    rw [Finset.mem_insert,mem_pagesOf,mem_pagesOf]
    constructor
    · rintro ⟨w,inside,rfl⟩
      rcases (mem_chunk chunk w).mp inside with first | later
      · exact .inl (chunk_page chunk first)
      · exact .inr ⟨w,later,rfl⟩
    · rintro (rfl | ⟨w,later,rfl⟩)
      · exact ⟨va,by omega,rfl⟩
      · exact ⟨w,(mem_chunk chunk w).mpr (.inr later),rfl⟩
  · rw [mem_pagesOf]
    rintro ⟨w,later,same⟩
    have bounds := (page_iff va w).mp same
    omega

end

theorem allows_page {write : Bool} (same : pgrounddown w = pgrounddown w') :
    m.allows p write w ↔ m.allows p write w' := by
  rw [Memory.allows,Memory.allows,same]

theorem allows_congr {write : Bool} (entries : pgrounddown w < maxva →
      m'.entry p.pagetable (pgrounddown w) = m.entry p.pagetable (pgrounddown w)) :
    m'.allows p write w ↔ m.allows p write w := by
  unfold Memory.allows
  constructor
  · rintro ⟨low,rest⟩
    rw [entries low] at rest
    exact ⟨low,rest⟩
  · rintro ⟨low,rest⟩
    rw [← entries low] at rest
    exact ⟨low,rest⟩

theorem cost_insert {va : Nat} {vs : Finset Nat} (aligned : va % pgsize = 0) (new : va / pgsize ∉ vs)
    (invalid : m.entry p.pagetable va &&& pteV = 0) : 1 + m.missing va 2 p.pagetable ≤ m.cost p (insert (va / pgsize) vs) := by
  have number : va / pgsize * pgsize = va := base_of_aligned aligned
  have tables := missing_tables m p.pagetable (va / pgsize)
  rw [number] at tables
  rw [Memory.cost,demand_absent (fun v => decide (m.entry p.pagetable (v * pgsize) &&& pteV = 0))
    (fun path => (m.reach path p.pagetable).isSome || decide (path = upper (va / pgsize)) || decide (path = lower (va / pgsize)))
    (by rw [number]; exact decide_eq_true invalid) new (fun _ _ => rfl) fun u _ => ⟨?_,?_⟩,← tables]
  · exact Nat.le_add_right ..
  · have apart : upper u ≠ lower (va / pgsize) := fun same => absurd (congrArg List.length same) (by simp [upper,lower])
    simp [apart]
  · have apart : lower u ≠ upper (va / pgsize) := fun same => absurd (congrArg List.length same) (by simp [upper,lower])
    simp [apart]

/-- A copy of a range can be done: every page is allowed, and kalloc has the pages
that are not there. -/
def Memory.grants (m : Memory) (p : Proc) (write : Bool) (va len : Nat) : Prop :=
  (∀ w, va ≤ w → w < va + len → m.allows p write w) ∧ m.cost p (pagesOf va len) ≤ m.freelist.length

section
variable {va len n : Nat} {write : Bool} {pa0 : Frame} {m2 : Memory}

theorem pgrounddown_aligned (va : Nat) : pgrounddown va % pgsize = 0 := Nat.mul_mod_left ..

theorem pgrounddown_idem (va : Nat) : pgrounddown (pgrounddown va) = pgrounddown va := base_of_aligned (pgrounddown_aligned va)

theorem pgrounddown_ne {va : Nat} (later : pgrounddown va + pgsize ≤ w) :
    pgrounddown w / pgsize ≠ pgrounddown va / pgsize := by
  rw [pgrounddown_div,pgrounddown_div]
  intro same
  have bounds := (page_iff va w).mp same
  omega

theorem Serves.refuses (serves : Serves p (pgrounddown va) m own 0 m' own') (some : 0 < len) : ¬m.grants p write va len := by
  rintro ⟨allowed,cost⟩
  have here := allowed va (Nat.le_refl _) (by omega)
  refine serves.found.mpr ⟨?_,fun invalid => ?_⟩ rfl
  · obtain ⟨low,⟨valid,user,-⟩ | lazy⟩ := here
    · rw [Memory.allows,pgrounddown_idem]
      exact ⟨low,.inl ⟨valid,user,nofun⟩⟩
    · rw [Memory.allows,pgrounddown_idem]
      exact ⟨low,.inr lazy⟩
  · obtain ⟨pages,new⟩ := @pagesOf_chunk va len _ some rfl
    rw [← pgrounddown_div va] at pages new
    rw [pages] at cost
    exact (cost_insert (pgrounddown_aligned va) new invalid).trans cost

/-- With the first page served, the rest decides. -/
theorem Serves.grants (serves : Serves p (pgrounddown va) m own pa0 m' own') (found : pa0 ≠ 0)
    (allowed : m.allows p write va) (entries : ∀ w, m2.entry p.pagetable w = m'.entry p.pagetable w)
    (cost : ∀ vs, m2.cost p vs = m'.cost p vs) (free : m2.freelist = m'.freelist) (some : 0 < len)
    (chunk : n = min (pgsize - (va - pgrounddown va)) len) :
    m.grants p write va len ↔ m2.grants p write (pgrounddown va + pgsize) (len - n) := by
  obtain ⟨pages,new⟩ := pagesOf_chunk some chunk
  have rest : (∀ w, va ≤ w → w < va + len → m.allows p write w) ↔
      ∀ w, pgrounddown va + pgsize ≤ w → w < pgrounddown va + pgsize + (len - n) → m2.allows p write w := by
    have same : ∀ w, pgrounddown va + pgsize ≤ w → (m2.allows p write w ↔ m.allows p write w) := by
      intro w later
      refine allows_congr fun low => ?_
      rw [entries]
      exact serves.entries _ low (pgrounddown_ne later)
    constructor
    · intro all w later inside
      obtain ⟨low,high⟩ := (mem_chunk chunk w).mpr (.inr ⟨later,inside⟩)
      exact (same w later).mpr (all w low high)
    · intro all w low high
      rcases (mem_chunk chunk w).mp ⟨low,high⟩ with first | ⟨later,inside⟩
      · refine (allows_page ?_).mp allowed
        rw [pgrounddown,pgrounddown,chunk_page chunk first]
      · exact (same w later).mp (all w later inside)
  unfold Memory.grants
  rw [rest,pages,cost,free]
  refine and_congr_right fun all => ?_
  rw [← pgrounddown_div va] at new ⊢
  refine serves.cost found _ new fun v member => ?_
  obtain ⟨w,⟨later,inside⟩,rfl⟩ := (mem_pagesOf ..).mp member
  exact (all w later inside).1

end

end Xv6.Vm
