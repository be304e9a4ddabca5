import Xv6.Vm.Loops
import Xv6.Vm.Sbrk

/-! fork. The child gets a page for every page of the parent that is mapped, and
from then on neither can change what the other sees. -/
namespace Xv6.Vm
open Lib.Bytes Function

variable {m m' : Memory} {p q : Proc} {own own' qown : Frame → Option Place}

/-! The memory of a struct proc (proc.c). -/

structure Task where
  pagetable : Frame
  sz : Nat
  trapframe : Frame

def Task.proc (task : Task) : Proc := ⟨task.pagetable,task.sz⟩

namespace Memory
variable (m : Memory)

def freeproc (task : Task) : Except Panic Memory :=
  (if task.trapframe ≠ 0 then m.kfree task.trapframe else .ok m) >>= fun m =>
    if task.pagetable ≠ 0 then m.procFreepagetable task.pagetable task.sz else .ok m

def allocproc (trampolinePage : Frame) : Except Panic (Option Task × Memory) :=
  let (trapframePage,m) := m.kalloc
  if trapframePage = 0 then (m.freeproc ⟨0,0,0⟩).map fun m => (none,m)
  else do
    let (pagetable,m) ← m.procPagetable trampolinePage trapframePage
    if pagetable = 0 then (m.freeproc ⟨0,0,trapframePage⟩).map fun m => (none,m)
    else pure (some ⟨pagetable,0,trapframePage⟩,m)

def trapframeBytes : Nat := 288

def a0 : Nat := 14

def childFrame (parent child : Page) : Page := set64 (copyAt child 0 ((List.range trapframeBytes).map parent)) a0 0

/-- kfork as far as memory is concerned; none for -1. `slot` says that there is an
UNUSED slot. -/
def kfork (trampolinePage : Frame) (p : Task) (slot : Bool) : Except Panic (Option Task × Memory) :=
  if slot = false then .ok (none,m)
  else
    match m.allocproc trampolinePage with
    | .error e => .error e
    | .ok (none,m) => .ok (none,m)
    | .ok (some np,m) =>
      match m.uvmcopy p.pagetable np.pagetable p.sz with
      | .error e => .error e
      | .ok (false,m) => (m.freeproc np).map fun m => (none,m)
      | .ok (true,m) =>
        .ok (some { np with sz := p.sz },m.setPage np.trapframe (childFrame (m.page p.trapframe) (m.page np.trapframe)))

end Memory

/-! uvmcopy. -/

section
variable {old new : Frame} {limit : Nat} {oown nown : Frame → Option Place}

theorem Owns.leaf_bystander {root : Frame} {other : Frame → Option Place} (owns : Owns m root limit other) (trades : Trades m own m' own')
    (apart : ∀ f, other f ≠ none → own f = none) (pool : Pool m') {v : Nat} (inside : v < limit) : m'.leaf root v = m.leaf root v := by
  obtain ⟨-,entries,pages⟩ := owns.bystander trades apart pool
  exact leaf_congr (entries _) fun valid => (pages _ _ (owns.userPage inside valid)).1

theorem kalloc_page {g : Frame} (out : g ∉ m.freelist) : m.kalloc.2.page g = m.page g := by
  unfold Memory.kalloc
  split
  · rfl
  next f rest free =>
    have other : g ≠ f := by
      rintro rfl
      exact out (by rw [free]; exact List.mem_cons_self)
    exact update_of_ne other ..

theorem pteFlags_low (pte : Pte) : pteFlags pte >>> 10 = 0 := by
  rw [pteFlags,BitVec.ushiftRight_and_distrib]
  exact BitVec.and_zero

theorem pteFlags_valid {pte : Pte} (valid : pte &&& pteV ≠ 0) : pteFlags pte ||| pteV = pteFlags pte := by
  rw [← pteFlags_mask (by decide)] at valid
  generalize pteFlags pte = flags at valid ⊢
  have first : flags.getLsbD 0 = true := by grind [pteV]
  refine BitVec.eq_of_getLsbD_eq fun i _ => ?_
  rw [BitVec.getLsbD_or,show pteV = BitVec.twoPow 64 0 from rfl,BitVec.getLsbD_twoPow]
  by_cases same : 0 = i
  · rw [← same,first]
    rfl
  · simp [same]

/-- The pages of the old table are copied to the new one, which has none of them yet;
or the new one has none at all. -/
theorem Owns.copyFrom (owns : Owns m old limit oown) (fresh : Owns m new limit nown) (apart : ∀ f, oown f ≠ none → nown f = none)
    {turns i : Nat} (fits : i + turns ≤ limit) (empty : ∀ v, i ≤ v → v < limit → m.leaf new v = none) : ∃ ok m' nown',
    Memory.copyFrom old new turns (i * pgsize) m = .ok (ok,m') ∧ Changes new limit m nown m' nown'
      (if ok = true then fun v => if i ≤ v ∧ v < i + turns then m.leaf old v else m.leaf new v else fun _ => none) := by
  induction turns generalizing m nown i with
  | zero =>
    refine ⟨true,m,nown,rfl,?_⟩
    rw [if_pos rfl]
    refine (Changes.refl fresh).congr fun v _ => ?_
    rw [if_neg (by omega)]
  | succ turns ih =>
    have inside : i < limit := by omega
    have low : i * pgsize < maxva := Nat.lt_of_lt_of_le (Nat.mul_lt_mul_of_pos_right inside (by decide)) owns.top
    -- a page that is not there stays away
    have skip : m.leaf old i = none → ∃ ok m' nown',
        Memory.copyFrom old new turns (i * pgsize + pgsize) m = .ok (ok,m') ∧ Changes new limit m nown m' nown'
          (if ok = true then fun v => if i ≤ v ∧ v < i + (turns + 1) then m.leaf old v else m.leaf new v else fun _ => none) := by
      intro hole
      obtain ⟨ok,m',nown',copied,changes⟩ := ih owns fresh apart (show i + 1 + turns ≤ limit by omega) fun v later => empty v (by omega)
      rw [Nat.succ_mul] at copied
      refine ⟨ok,m',nown',copied,changes.congr fun v below => ?_⟩
      cases ok with
      | false => rw [if_neg Bool.false_ne_true,if_neg Bool.false_ne_true]
      | true => grind
    unfold Memory.copyFrom
    rw [m.walk_false old low]
    cases found : m.tableFrom (i * pgsize) 2 old with
    | none =>
      refine skip (leaf_none.mpr ?_)
      rw [Memory.entry,Memory.entryFrom,found]
      exact BitVec.zero_and
    | some t =>
      have entry := entry_found found
      dsimp only [Option.map_some]
      rw [← entry]
      by_cases invalid : m.entry old (i * pgsize) &&& pteV = 0
      · rw [if_pos invalid]
        exact skip (leaf_none.mpr invalid)
      rw [if_neg invalid]
      obtain ⟨mem,m1,nown1,made,first,-⟩ := fresh.newPage inside (empty i (Nat.le_refl i) inside) (pteFlags_low (m.entry old (i * pgsize)))
        fun m' => m'.page (pte2pa (m.entry old (i * pgsize)))
      rw [made]
      have page : m.kalloc.2.page (pte2pa (m.entry old (i * pgsize))) = m.page (pte2pa (m.entry old (i * pgsize))) :=
        kalloc_page (owns.notFree (owns.userPage inside invalid))
      have copy : m.leaf old i = some (pteFlags (m.entry old (i * pgsize)),m.page (pte2pa (m.entry old (i * pgsize)))) := if_pos invalid
      rw [pteFlags_valid invalid,page,← copy] at first
      change ∃ ok m' nown', (if mem = 0 then _ else _) = _ ∧ _
      by_cases none : mem = 0
      · rw [if_pos none] at first ⊢
        obtain ⟨m2,nown2,unmapped,second,-⟩ := first.owns.uvmunmap (show 0 + i ≤ limit by omega)
        rw [Nat.mul_div_cancel _ (by decide)]
        rw [Nat.zero_mul] at unmapped
        refine ⟨false,m2,nown2,by rw [unmapped]; rfl,?_⟩
        refine (first.trans second).congr fun v below => ?_
        rw [if_neg Bool.false_ne_true,first.leaves v below]
        by_cases early : 0 ≤ v ∧ v < 0 + i
        · rw [if_pos early]
        · rw [if_neg early]
          exact empty v (by omega) below
      · rw [if_neg none] at first ⊢
        obtain ⟨owns1,-,others⟩ := owns.bystander first.trades apart first.owns.pool
        have leaves : ∀ v < limit, m1.leaf old v = m.leaf old v :=
          fun v below => owns.leaf_bystander first.trades apart first.owns.pool below
        have apart1 : ∀ f, oown f ≠ Option.none → nown1 f = Option.none := by
          intro f owned
          obtain ⟨place,there⟩ := Option.ne_none_iff_exists'.mp owned
          exact (others f place there).2
        obtain ⟨ok,m2,nown2,copied,second⟩ := ih owns1 first.owns apart1 (show i + 1 + turns ≤ limit by omega) fun v later below => by
          rw [first.leaves v below,update_of_ne (by omega)]
          exact empty v (by omega) below
        rw [Nat.succ_mul] at copied
        refine ⟨ok,m2,nown2,copied,(first.trans second).congr fun v below => ?_⟩
        cases ok with
        | false => rw [if_neg Bool.false_ne_true,if_neg Bool.false_ne_true]
        | true => grind [first.leaves]

end

/-! Processes that come and go. -/

def Same (q : Proc) (m m' : Memory) : Prop :=
  (∀ w, m'.entry q.pagetable w = m.entry q.pagetable w) ∧ ∀ w, m'.view q w = m.view q w

theorem Same.trans {m'' : Memory} (first : Same q m m') (second : Same q m' m'') : Same q m m'' :=
  ⟨fun w => (second.1 w).trans (first.1 w),fun w => (second.2 w).trans (first.2 w)⟩

theorem AddressSpace.same (shape : AddressSpace m p own) (shape' : AddressSpace m' p own')
    (entries : ∀ w, m'.entry p.pagetable w = m.entry p.pagetable w) (pages : ∀ f place, own f = some place → m'.page f = m.page f) :
    Same p m m' := by
  refine ⟨entries,fun w => ?_⟩
  by_cases low : pgrounddown w < maxva
  · exact view_congr (fun w _ => entries w) (fun w low mapped => pages _ _ (shape.walkaddr_place low mapped)) w low
  · rw [shape.view_high (Nat.not_lt.mp low),shape'.view_high (Nat.not_lt.mp low)]

/-- The pages that were free are free, and nothing else has changed. -/
structure Restored (m m' : Memory) : Prop where
  pool : Pool m'
  free : ∀ f, f ∈ m'.freelist ↔ f ∈ m.freelist
  pages : ∀ f, f ∉ m.freelist → m'.page f = m.page f
  bounds : m'.first = m.first ∧ m'.last = m.last

theorem Trades.restored (trades : Trades m (fun _ => none) m' fun _ => none) (pool : Pool m') : Restored m m' := by
  refine ⟨pool,fun f => ?_,fun f out => trades.outside f out rfl,trades.bounds⟩
  have conserves := trades.conserves f
  simpa using conserves

/-- A process keeps its memory while only pages that were free change. -/
theorem Resident.undisturbed (resident : Resident m p own) (pool : Pool m') (free : ∀ f ∈ m'.freelist, f ∈ m.freelist)
    (pages : ∀ f, f ∉ m.freelist → m'.page f = m.page f) (bounds : m'.first = m.first ∧ m'.last = m.last) :
    Resident m' p own ∧ Same p m m' ∧ ∀ v < userPages, m'.leaf p.pagetable v = m.leaf p.pagetable v := by
  have owns := resident.owns
  have mine : ∀ f place, own f = some place → m'.page f = m.page f := fun f place owned => pages f (owns.notFree owned)
  have entries : ∀ w, m'.entry p.pagetable w = m.entry p.pagetable w :=
    fun w => entries_of_tables owns.tree (fun f path owned => mine f _ owned) owns.rooted rfl
  have resident' : Resident m' p own := by
    refine ⟨owns.outside (fun f path owned => mine f _ owned) bounds pool fun f place owned inside => owns.notFree owned (free f inside),
      resident.sz,fun w trap => ?_,fun w low valid => ?_⟩
    · grind [resident.traps]
    · rw [entries] at valid ⊢
      exact resident.leaves w low valid
  refine ⟨resident',resident.shape.same resident'.shape entries mine,fun v below => ?_⟩
  exact leaf_congr (entries _) fun valid => mine _ _ (resident.owned.userPage below valid)

/-- A task that was made of free pages, with its trapframe. -/
structure Made (m : Memory) (task : Task) (m' : Memory) (own : Frame → Option Place) : Prop where
  resident : Resident m' task.proc own
  taken : task.trapframe ∈ m.freelist
  nobody : own task.trapframe = none
  out : task.trapframe ∉ m'.freelist
  frame : m'.entry task.pagetable trapframe = pa2pte task.trapframe ||| (pteR ||| pteW) ||| pteV
  conserves : ∀ f, f ≠ task.trapframe → (f ∈ m'.freelist ∨ own f ≠ none ↔ f ∈ m.freelist)
  pages : ∀ f, f ∉ m.freelist → m'.page f = m.page f
  bounds : m'.first = m.first ∧ m'.last = m.last

namespace Made
variable {task : Task}

theorem free (made : Made m task m' own) : ∀ f ∈ m'.freelist, f ∈ m.freelist := by
  intro f inside
  by_cases same : f = task.trapframe
  · rw [same]
    exact made.taken
  · exact (made.conserves f same).mp (.inl inside)

theorem fresh (made : Made m task m' own) {f : Frame} (owned : own f ≠ none) : f ∈ m.freelist := by
  refine (made.conserves f ?_).mp (.inr owned)
  rintro rfl
  exact owned made.nobody

theorem managed (made : Made m task m' own) (pool : Pool m) : m'.first ≤ task.trapframe ∧ task.trapframe < m'.last := by
  rw [made.bounds.1,made.bounds.2]
  exact pool.range _ made.taken

theorem freeproc (made : Made m task m' own) (pool : Pool m) : ∃ m'', m'.freeproc task = .ok m'' ∧ Restored m m'' := by
  have managed := made.managed pool
  have owns := made.resident.owns
  have positive : task.trapframe ≠ 0 := Nat.ne_of_gt (Nat.lt_of_lt_of_le owns.pool.first managed.1)
  have table : task.pagetable ≠ 0 := Nat.ne_of_gt (owns.small owns.rooted).1
  obtain ⟨freed,owns1⟩ := owns.kfree made.nobody managed made.out
  have page : ∀ f, f ≠ task.trapframe → (m'.freed task.trapframe).page f = m'.page f := fun f other => update_of_ne other ..
  have entries : ∀ w, (m'.freed task.trapframe).entry task.pagetable w = m'.entry task.pagetable w := by
    intro w
    refine entries_of_tables owns.tree (fun f path owned => page f ?_) owns.rooted rfl
    rintro rfl
    rw [made.nobody] at owned
    cases owned
  obtain ⟨m'',gone,pool'',trades⟩ := owns1.procFreepagetable made.resident.sz fun w low valid => by
    rw [show task.proc.pagetable = task.pagetable from rfl,entries] at valid
    exact (made.resident.leaves w low valid).2
  refine ⟨m'',?_,pool'',fun f => ?_,fun f out => ?_,trades.bounds.1.trans made.bounds.1,trades.bounds.2.trans made.bounds.2⟩
  · rw [Memory.freeproc,if_pos positive,freed]
    change (if task.pagetable ≠ 0 then _ else _) = _
    rw [if_pos table]
    exact gone
  · grind [trades.conserves,made.taken,made.conserves,mem_freed]
  · have other : f ≠ task.trapframe := by
      rintro rfl
      exact out made.taken
    have nobody : own f = none := by
      by_contra owned
      exact out (made.fresh owned)
    have stays : f ∉ (m'.freed task.trapframe).freelist := by
      rw [mem_freed]
      rintro (same | inside)
      · exact other same
      · exact out (made.free f inside)
    rw [trades.outside f stays nobody,page f other,made.pages f out]

theorem resize {own' : Frame → Option Place} {m'' : Memory} {leaves : Nat → Option (Pte × Page)} {sz : Nat} (made : Made m task m' own)
    (changes : Changes task.pagetable userPages m' own m'' own' leaves) (small : sz ≤ trapframe)
    (gone : ∀ v, npages sz ≤ v → v < userPages → leaves v = none)
    (readable : ∀ v < userPages, ∀ flags page, leaves v = some (flags,page) → flags &&& pteR ≠ 0) :
    Made m { task with sz := sz } m'' own' := by
  obtain ⟨out,nobody⟩ := changes.trades.stranger made.out made.nobody
  refine ⟨made.resident.resize changes small gone readable,made.taken,nobody,out,?_,fun f other => ?_,fun f free => ?_,
    changes.trades.bounds.1.trans made.bounds.1,changes.trades.bounds.2.trans made.bounds.2⟩
  · exact (changes.beyond trapframe (by decide) (by decide)).trans made.frame
  · exact (changes.trades.conserves f).trans (made.conserves f other)
  · grind [made.free,made.fresh,changes.trades.outside,made.pages]

theorem setFrame (made : Made m task m' own) (page : Page) : Made m task (m'.setPage task.trapframe page) own := by
  have owns := made.resident.owns
  have same : ∀ f place, own f = some place → (m'.setPage task.trapframe page).page f = m'.page f := by
    intro f place owned
    refine update_of_ne ?_ ..
    rintro rfl
    rw [made.nobody] at owned
    cases owned
  have entries : ∀ w, (m'.setPage task.trapframe page).entry task.pagetable w = m'.entry task.pagetable w :=
    fun w => entries_of_tables owns.tree (fun f path owned => same f _ owned) owns.rooted rfl
  refine ⟨⟨owns.outside (fun f path owned => same f _ owned) ⟨rfl,rfl⟩ ⟨owns.pool.first,owns.pool.last,owns.pool.range,owns.pool.nodup⟩
    fun f place owned => owns.notFree owned,made.resident.sz,fun w trap => ?_,fun w low valid => ?_⟩,made.taken,made.nobody,made.out,
    (entries _).trans made.frame,made.conserves,fun f out => ?_,made.bounds⟩
  · rw [show task.proc.pagetable = task.pagetable from rfl,entries]
    exact made.resident.traps w trap
  · rw [show task.proc.pagetable = task.pagetable from rfl,entries] at valid ⊢
    exact made.resident.leaves w low valid
  · have other : f ≠ task.trapframe := by
      rintro rfl
      exact out made.taken
    exact (update_of_ne other ..).trans (made.pages f out)

theorem setFrame_leaf (made : Made m task m' own) (page : Page) {v : Nat} (below : v < userPages) :
    (m'.setPage task.trapframe page).leaf task.pagetable v = m'.leaf task.pagetable v := by
  have owns := made.resident.owned
  have same : ∀ f place, own f = some place → (m'.setPage task.trapframe page).page f = m'.page f := by
    intro f place owned
    refine update_of_ne ?_ ..
    rintro rfl
    rw [made.nobody] at owned
    cases owned
  exact leaf_congr (entries_of_tables owns.tree (fun f path owned => same f _ owned) owns.rooted rfl)
    fun valid => same _ _ (owns.userPage below valid)

end Made

/-- allocproc makes a task with no memory, or it gives back what it took. -/
theorem allocproc_spec (pool : Pool m) {trampolinePage : Frame} (code : trampolinePage ∉ m.freelist ∧ trampolinePage < 2^44) :
    ∃ r m', m.allocproc trampolinePage = .ok (r,m') ∧ (r = none → Restored m m') ∧
      ∀ task, r = some task → task.sz = 0 ∧ ∃ own, Made m task m' own := by
  unfold Memory.allocproc
  cases free : m.freelist with
  | nil =>
    have none : m.kalloc = (0,m) := by
      unfold Memory.kalloc
      rw [free]
    rw [none]
    exact ⟨Option.none,m,rfl,fun _ => ⟨pool,fun _ => Iff.rfl,fun _ _ => rfl,rfl,rfl⟩,nofun⟩
  | cons f rest =>
    have member : f ∈ m.freelist := by
      rw [free]
      exact List.mem_cons_self
    have managed := pool.range f member
    have positive : f ≠ 0 := Nat.ne_of_gt (Nat.lt_of_lt_of_le pool.first managed.1)
    have distinct := pool.nodup
    rw [free,List.nodup_cons] at distinct
    rw [kalloc_cons free]
    dsimp only
    rw [if_neg positive]
    generalize start : { m with freelist := rest }.fill f 5 = m1
    have list : m1.freelist = rest := by rw [← start]; rfl
    have bounds : m1.first = m.first ∧ m1.last = m.last := by rw [← start]; exact ⟨rfl,rfl⟩
    have page : ∀ g, g ≠ f → m1.page g = m.page g := by
      intro g other
      rw [← start]
      exact update_of_ne other ..
    have later : ∀ g ∈ rest, g ∈ m.freelist := by
      intro g inside
      rw [free]
      exact List.mem_cons_of_mem _ inside
    have pool1 : Pool m1 := by grind [Made,Pool,Restored,update_apply]
    have outside : ∀ g, g ∉ m.freelist → g ≠ f ∧ g ∉ m1.freelist := by
      intro g out
      rw [list]
      exact ⟨fun same => out (same ▸ member),fun inside => out (later g inside)⟩
    obtain ⟨pagetable,m2,own,ran,pool2,trades,none,-⟩ := procPagetable_spec pool1 trampolinePage f
    rw [ran]
    change ∃ r m', (if pagetable = 0 then _ else _) = _ ∧ _
    by_cases failed : pagetable = 0
    · rw [if_pos failed]
      rw [none failed] at trades
      have back := trades.restored pool2
      have freed : m2.kfree f = .ok (m2.freed f) := by
        refine if_neg (not_or.mpr ⟨Nat.not_lt.mpr ?_,Nat.not_le.mpr ?_⟩)
        · rw [back.bounds.1,bounds.1]
          exact managed.1
        · rw [back.bounds.2,bounds.2]
          exact managed.2
      refine ⟨Option.none,m2.freed f,?_,fun _ => ⟨⟨pool2.first,pool2.last,fun g inside => ?_,?_⟩,fun g => ?_,fun g out => ?_,?_⟩,nofun⟩
      · rw [Memory.freeproc,if_pos (show (Task.mk 0 0 f).trapframe ≠ 0 from positive)]
        rw [freed]
        rfl
      · change m2.first ≤ g ∧ g < m2.last
        rcases mem_freed.mp inside with rfl | old
        · rw [back.bounds.1,back.bounds.2,bounds.1,bounds.2]
          exact managed
        · exact pool2.range g old
      · refine List.nodup_cons.mpr ⟨fun inside => ?_,pool2.nodup⟩
        rw [back.free,list] at inside
        exact distinct.1 inside
      · rw [mem_freed,back.free,list,← List.mem_cons,← free]
      · obtain ⟨other,out'⟩ := outside g out
        exact (update_of_ne other ..).trans ((back.pages g out').trans (page g other))
      · exact ⟨back.bounds.1.trans bounds.1,back.bounds.2.trans bounds.2⟩
    · rw [if_neg failed]
      have first : f ∉ m1.freelist := by rw [list]; exact distinct.1
      obtain ⟨own,resident,trades,entries⟩ := Resident.born pool1 ran failed
        ⟨(outside _ code.1).2,code.2⟩ ⟨first,Nat.lt_of_lt_of_le managed.2 pool.last⟩
      obtain ⟨gone,nobody⟩ := trades.stranger first rfl
      refine ⟨some ⟨pagetable,0,f⟩,m2,rfl,nofun,fun task same => ?_⟩
      cases same
      refine ⟨rfl,own,resident,member,nobody,gone,?_,fun g other => ?_,fun g out => ?_,trades.bounds.1.trans bounds.1,
        trades.bounds.2.trans bounds.2⟩
      · rw [entries _ (by decide),trapEntries,if_pos rfl]
      · grind [trades.conserves]
      · obtain ⟨other,out'⟩ := outside g out
        rw [trades.outside g out' rfl,page g other]

/-! What a process does to its memory. -/

inductive Act
  | write (va : Nat) (b : Byte) -- a store of the user's program
  | copyout (va : Nat) (src : List Byte)
  | fault (va : Nat)

namespace Memory

def userWrite (m : Memory) (p : Proc) (va : Nat) (b : Byte) : Memory :=
  let pa := m.walkaddr p.pagetable (pgrounddown va)
  if pa ≠ 0 ∧ m.entry p.pagetable (pgrounddown va) &&& pteW ≠ 0 then m.setPage pa (copyAt (m.page pa) (va % pgsize) [b]) else m

def act (p : Proc) (m : Memory) : Act → Except Panic Memory
  | .write va b => .ok (m.userWrite p va b)
  | .copyout va src => (m.copyout p p.pagetable va src).map fun (_,_,m) => m
  | .fault va => (m.vmfault p p.pagetable va).map fun (_,m) => m

def acts (p : Proc) : List Act → Memory → Except Panic Memory
  | [], m => .ok m
  | a :: rest, m => m.act p a >>= acts p rest

def interleave (p q : Proc) : List (Bool × Act) → Memory → Except Panic Memory
  | [], m => .ok m
  | (first,a) :: rest, m => m.act (if first then p else q) a >>= interleave p q rest

end Memory

theorem AddressSpace.act (shape : AddressSpace m p own) (a : Act) : ∃ m' own' pages, m.act p a = .ok m' ∧ AddressSpace m' p own' ∧
    Confined m m' own own' pages ∧ ∀ f ∈ pages, f ∈ m.freelist ∨ own f ≠ none := by
  have idle : ∃ m' own' pages, (.ok m : Except Panic Memory) = .ok m' ∧ AddressSpace m' p own' ∧ Confined m m' own own' pages ∧
      ∀ f ∈ pages, f ∈ m.freelist ∨ own f ≠ none := ⟨m,own,[],rfl,shape,.refl m own,nofun⟩
  cases a with
  | write va b =>
    unfold Memory.act Memory.userWrite
    dsimp only
    split_ifs with allowed
    · have low : pgrounddown va < maxva := by
        by_contra high
        exact allowed.1 (m.walkaddr_high (Nat.not_lt.mp high))
      obtain ⟨stored,confined⟩ := shape.store (pgrounddown_aligned va) low allowed.1
        (copyAt (m.page (m.walkaddr p.pagetable (pgrounddown va))) (va % pgsize) [b])
      refine ⟨_,own,_,rfl,stored.shape,confined,fun f member => .inr ?_⟩
      rw [List.mem_singleton.mp member,shape.walkaddr_place low allowed.1]
      nofun
    · exact idle
  | copyout va src =>
    obtain ⟨ok,pages,m',own',copied,result⟩ : ∃ ok pages m' own', Memory.copyoutFrom p p.pagetable src.length va src m =
        .ok (ok,pages,m') ∧ CopiedOut p va src m own ok pages m' own' :=
      copyoutFrom_copies shape (Nat.le_refl src.length)
    refine ⟨m',own',pages,?_,result.leaves.shape,result.leaves.confined,fun f member => ?_⟩
    · rw [Memory.act,Memory.copyout,copied]
      rfl
    · rcases (result.leaves.pages f member).1 with free | ⟨v,owned⟩
      · exact .inl free
      · exact .inr (by rw [owned]; nofun)
  | fault va =>
    unfold Memory.act Memory.vmfault
    dsimp only
    by_cases out : p.sz ≤ va
    · rw [if_pos out]
      exact idle
    rw [if_neg out]
    have bounds := pgrounddown_le va
    have inside : pgrounddown va < p.sz := by omega
    have low : pgrounddown va < maxva := Nat.lt_of_lt_of_le inside (shape.sz.trans (by decide))
    rw [m.ismapped_entry low]
    by_cases invalid : m.entry p.pagetable (pgrounddown va) &&& pteV = 0
    · rw [decide_eq_false (not_not.mpr invalid)]
      obtain ⟨mem,m',own',faulted,shape',confined,-⟩ := faultPage_spec shape (pgrounddown_aligned va) low inside invalid
      dsimp only
      rw [faulted]
      exact ⟨m',own',[],rfl,shape',confined,nofun⟩
    · rw [decide_eq_true invalid]
      exact idle

/-- A process whose pages are not the other's does not notice what the other does. -/
theorem AddressSpace.bystander {pages : List Frame} (other : AddressSpace m q qown) (shape : AddressSpace m' p own')
    (confined : Confined m m' own own' pages) (inside : ∀ f ∈ pages, f ∈ m.freelist ∨ own f ≠ none)
    (apart : ∀ f, qown f ≠ none → own f = none) :
    AddressSpace m' q qown ∧ Same q m m' ∧ ∀ f, qown f ≠ none → own' f = none := by
  have out : ∀ f place, qown f = some place → f ∉ m.freelist := by
    intro f place owned free
    rw [(other.space.free f free).1] at owned
    cases owned
  have nobody : ∀ f place, qown f = some place → own f = none := fun f place owned => apart f (by rw [owned]; nofun)
  have page : ∀ f place, qown f = some place → m'.page f = m.page f := by grind [confined.others]
  have tables : ∀ f path, qown f = some (.table path) → m'.page f = m.page f := fun f path owned => page f _ owned
  have entries : ∀ w, m'.entry q.pagetable w = m.entry q.pagetable w :=
    fun w => entries_of_tables other.space.tree tables other.space.root rfl
  have linked : Linked m m' qown := fun t path k owned _ => by rw [Memory.pte,Memory.pte,tables t path owned]
  have shape' : AddressSpace m' q qown := by
    refine ⟨other.space.outside tables (fun f free => other.space.free f (confined.free f free)) shape.space.nodup,
      linked.reached other.space.tree other.reached fun _ _ => id,other.sz,other.null,shape.range,fun w trap => ?_,fun w low valid => ?_⟩
    · grind [other.traps,confined.free]
    · rw [entries] at valid ⊢
      exact other.leaves w low valid
  refine ⟨shape',other.same shape' entries page,fun f owned => ?_⟩
  obtain ⟨place,there⟩ := Option.ne_none_iff_exists'.mp owned
  exact confined.fresh f (apart f owned) (out f place there)

/-- Two processes that share no page. -/
structure Apart (m : Memory) (p q : Proc) (own qown : Frame → Option Place) : Prop where
  first : AddressSpace m p own
  second : AddressSpace m q qown
  apart : ∀ f, qown f ≠ none → own f = none

namespace Apart

theorem symm (apart : Apart m p q own qown) : Apart m q p qown own := by
  refine ⟨apart.second,apart.first,fun f owned => ?_⟩
  by_contra other
  exact owned (apart.apart f other)

theorem act (apart : Apart m p q own qown) (a : Act) : ∃ m' own', m.act p a = .ok m' ∧ Apart m' p q own' qown ∧ Same q m m' := by
  obtain ⟨m',own',pages,ran,shape,confined,inside⟩ := apart.first.act a
  obtain ⟨shape',same,apart'⟩ := apart.second.bystander shape confined inside apart.apart
  exact ⟨m',own',ran,⟨shape,shape',apart'⟩,same⟩

theorem acts (apart : Apart m p q own qown) (l : List Act) : ∃ m', Memory.acts p l m = .ok m' ∧ Same q m m' := by
  induction l generalizing m own with
  | nil => exact ⟨m,rfl,fun _ => rfl,fun _ => rfl⟩
  | cons a rest ih =>
    obtain ⟨m1,own1,ran,apart1,same1⟩ := apart.act a
    obtain ⟨m2,rest2,same2⟩ := ih apart1
    exact ⟨m2,by rw [Memory.acts,ran]; exact rest2,same1.trans same2⟩

theorem interleave (apart : Apart m p q own qown) (l : List (Bool × Act)) : ∃ m' own' qown',
    Memory.interleave p q l m = .ok m' ∧ Apart m' p q own' qown' := by
  induction l generalizing m own qown with
  | nil => exact ⟨m,own,qown,rfl,apart⟩
  | cons a rest ih =>
    obtain ⟨first,a⟩ := a
    cases first with
    | true =>
      obtain ⟨m1,own1,ran,apart1,-⟩ := apart.act a
      obtain ⟨m2,own2,qown2,rest2,apart2⟩ := ih apart1
      exact ⟨m2,own2,qown2,by rw [Memory.interleave,if_pos rfl,ran]; exact rest2,apart2⟩
    | false =>
      obtain ⟨m1,qown1,ran,apart1,-⟩ := apart.symm.act a
      obtain ⟨m2,own2,qown2,rest2,apart2⟩ := ih apart1.symm
      exact ⟨m2,own2,qown2,by rw [Memory.interleave,if_neg (by decide),ran]; exact rest2,apart2⟩

end Apart

/-! fork. -/

/-- Whatever the two have done in between, the acts of one leave the memory of the
other as it is. -/
def Isolated (m : Memory) (p q : Proc) : Prop :=
  ∀ before : List (Bool × Act), ∃ m1, Memory.interleave p q before m = .ok m1 ∧ ∀ l : List Act,
    (∃ m2, Memory.acts p l m1 = .ok m2 ∧ Same q m1 m2) ∧ ∃ m2, Memory.acts q l m1 = .ok m2 ∧ Same p m1 m2

theorem Apart.isolated (apart : Apart m p q own qown) : Isolated m p q := by
  intro before
  obtain ⟨m1,own1,qown1,ran,apart1⟩ := apart.interleave before
  exact ⟨m1,ran,fun l => ⟨apart1.acts l,apart1.symm.acts l⟩⟩

/-- The child np that kfork has made. -/
structure Forked (m : Memory) (p np : Task) (own : Frame → Option Place) (m' : Memory) (cown : Frame → Option Place) : Prop where
  parent : Resident m' p.proc own
  child : Resident m' np.proc cown
  size : np.sz = p.sz
  others : ∀ f, f ∉ m.freelist → m'.page f = m.page f
  leaves : ∀ v < userPages, m'.leaf np.pagetable v = m.leaf p.pagetable v ∧ m'.leaf p.pagetable v = m.leaf p.pagetable v
  views : ∀ w, w / pgsize < userPages → m'.view np.proc w = m.view p.proc w ∧ m'.view p.proc w = m.view p.proc w
  unshared : ∀ v < userPages, ∀ u < userPages, m'.entry p.pagetable (v * pgsize) &&& pteV ≠ 0 →
    m'.entry np.pagetable (u * pgsize) &&& pteV ≠ 0 → pte2pa (m'.entry p.pagetable (v * pgsize)) ≠ pte2pa (m'.entry np.pagetable (u * pgsize))
  isolated : Isolated m' p.proc np.proc

theorem Made.forked {task np : Task} {cown : Frame → Option Place} (made : Made m np m' cown) (resident : Resident m task.proc own)
    (size : np.sz = task.sz) (leaves : ∀ v < userPages, m'.leaf np.pagetable v = m.leaf task.pagetable v) :
    Forked m task np own m' cown := by
  obtain ⟨parent,same,leaves'⟩ := resident.undisturbed made.resident.owns.pool made.free made.pages made.bounds
  have apart : ∀ f, cown f ≠ none → own f = none := by
    intro f other
    by_contra owned
    obtain ⟨place,there⟩ := Option.ne_none_iff_exists'.mp owned
    exact resident.owns.notFree there (made.fresh other)
  refine ⟨parent,made.resident,size,made.pages,fun v below => ⟨leaves v below,leaves' v below⟩,fun w below => ⟨?_,same.2 w⟩,
    fun v below u below' valid valid' shared => ?_,Apart.isolated ⟨parent.shape,made.resident.shape,apart⟩⟩
  · rw [made.resident.view_leaf below,resident.view_leaf below]
    rw [show np.proc.pagetable = np.pagetable from rfl,leaves _ below,show np.proc.sz = task.proc.sz from size]
    rfl
  · have first := parent.owned.userPage below valid
    have second := made.resident.owned.userPage below' valid'
    rw [show np.proc.pagetable = np.pagetable from rfl,← shared] at second
    have nobody := apart _ (by rw [second]; nofun)
    rw [show task.pagetable = task.proc.pagetable from rfl,first] at nobody
    cases nobody

/-- fork copies the memory of the parent and isolates the two; if it fails nothing
has changed. -/
theorem kfork_copies {task : Task} (resident : Resident m task.proc own) {trampolinePage : Frame}
    (code : trampolinePage ∉ m.freelist ∧ trampolinePage < 2^44) (slot : Bool) : ∃ r m', m.kfork trampolinePage task slot = .ok (r,m') ∧
      (r = none → Restored m m' ∧ Resident m' task.proc own ∧ Same task.proc m m') ∧
      (∀ np, r = some np → ∃ cown, Forked m task np own m' cown) ∧
      ∀ np m1 m2, m.allocproc trampolinePage = .ok (some np,m1) → m1.uvmcopy task.pagetable np.pagetable task.sz = .ok (false,m2) →
        r = none := by
  have pool := resident.owns.pool
  have fails : ∀ {m'}, Restored m m' → Restored m m' ∧ Resident m' task.proc own ∧ Same task.proc m m' := by
    grind [Forked,Resident,Restored,Task,resident.undisturbed]
  cases slot with
  | false => exact ⟨none,m,rfl,fun _ => fails ⟨pool,fun _ => Iff.rfl,fun _ _ => rfl,rfl,rfl⟩,nofun,fun _ _ _ _ _ => rfl⟩
  | true =>
    unfold Memory.kfork
    rw [if_neg (by decide)]
    obtain ⟨r,m1,allocated,failed,found⟩ := allocproc_spec pool code
    rw [allocated]
    cases r with
    | none => exact ⟨none,m1,rfl,fun _ => fails (failed rfl),nofun,fun _ _ _ _ _ => rfl⟩
    | some np =>
      obtain ⟨zero,cown,made⟩ := found np rfl
      have mine : ∀ f, own f ≠ none → cown f = none := by
        intro f owned
        by_contra other
        obtain ⟨place,there⟩ := Option.ne_none_iff_exists'.mp owned
        exact resident.owns.notFree there (made.fresh other)
      obtain ⟨parent1,-,leaves1⟩ := resident.undisturbed made.resident.owns.pool made.free made.pages made.bounds
      have most := npages_user resident.sz
      have empty : ∀ v < userPages, m1.leaf np.pagetable v = none := by
        intro v below
        refine made.resident.empty ?_ below
        rw [show np.proc.sz = 0 from zero]
        exact Nat.zero_le v
      obtain ⟨ok,m2,cown2,copied,changes⟩ := parent1.owned.copyFrom made.resident.owned mine
        (show 0 + npages task.sz ≤ userPages by rw [Nat.zero_add]; exact most) fun v _ below => empty v below
      rw [Nat.zero_mul] at copied
      have ran : m1.uvmcopy task.pagetable np.pagetable task.sz = .ok (ok,m2) := copied
      dsimp only
      rw [ran]
      cases ok with
      | false =>
        have none' : Made m np m2 cown2 := by
          have blank := made.resize changes (Nat.zero_le trapframe) (fun _ _ _ => rfl) (fun _ _ _ _ => nofun)
          rwa [show { np with sz := 0 } = np by rw [← zero]] at blank
        obtain ⟨m3,freed,restored⟩ := none'.freeproc pool
        refine ⟨none,m3,by dsimp only; rw [freed]; rfl,fun _ => fails restored,nofun,fun _ _ _ _ _ => rfl⟩
      | true =>
        rw [if_pos rfl] at changes
        change Changes np.pagetable userPages m1 cown m2 cown2
          (fun v => if 0 ≤ v ∧ v < 0 + npages task.sz then m1.leaf task.pagetable v else m1.leaf np.pagetable v) at changes
        change ∀ v < userPages, m1.leaf task.pagetable v = m.leaf task.pagetable v at leaves1
        have leaves : ∀ v < userPages, m2.leaf np.pagetable v = m.leaf task.pagetable v := by
          intro v below
          rw [changes.leaves v below]
          by_cases inside : v < npages task.sz
          · rw [if_pos ⟨Nat.zero_le v,by omega⟩,leaves1 v below]
          · rw [if_neg (by omega),empty v below]
            exact (resident.empty (Nat.not_lt.mp inside) below).symm
        have grown : Made m { np with sz := task.sz } m2 cown2 := by
          refine made.resize changes resident.sz (fun v past below => ?_) fun v below flags page leaf => ?_
          · rw [← changes.leaves v below,leaves v below]
            exact resident.empty past below
          · rw [← changes.leaves v below,leaves v below] at leaf
            exact resident.readable below leaf
        have forked : ∀ page, Forked m task { np with sz := task.sz } own (m2.setPage np.trapframe page) cown2 := fun page =>
          (grown.setFrame page).forked resident rfl fun v below => (grown.setFrame_leaf page below).trans (leaves v below)
        dsimp only
        generalize Memory.childFrame (m2.page task.trapframe) (m2.page np.trapframe) = page
        refine ⟨some { np with sz := task.sz },m2.setPage np.trapframe page,rfl,nofun,fun np' same => ?_,
          fun np' m1' m2' allocated' ran' => ?_⟩
        · cases same
          exact ⟨cown2,forked page⟩
        · cases allocated'
          rw [ran] at ran'
          cases ran'

def roomy : Memory := ⟨fun _ _ => 0,[2,3,4,5,6,7,8,9],1,10⟩

def sleeper : Task := ⟨2,2 * pgsize,1⟩

theorem roomy_forks : ∃ m, roomy.procPagetable 10 1 = .ok (2,m) ∧ ∃ np m', m.kfork 10 sleeper true = .ok (some np,m') := by
  have ran : ((roomy.procPagetable 10 1).toOption.any fun made => decide (made.1 = 2) &&
      (made.2.kfork 10 sleeper true).toOption.any fun forked => forked.1.isSome) = true := by decide +kernel
  obtain ⟨⟨pagetable,m⟩,made,two⟩ := (Option.any_eq_true _ _).mp ran
  obtain ⟨two,forks⟩ := Bool.and_eq_true_iff.mp two
  obtain ⟨⟨np,m'⟩,forked,some⟩ := (Option.any_eq_true _ _).mp forks
  obtain ⟨np,rfl⟩ := Option.isSome_iff_exists.mp some
  cases of_decide_eq_true two
  refine ⟨m,?_,np,m',?_⟩
  · cases result : roomy.procPagetable 10 1 with
    | error e =>
      rw [result] at made
      cases made
    | ok found =>
      rw [result] at made
      cases made
      rfl
  · cases result : m.kfork 10 sleeper true with
    | error e =>
      rw [result] at forked
      cases forked
    | ok found =>
      rw [result] at forked
      cases forked
      rfl

theorem kfork_copies_sleeper : ∃ m own np m' cown, Resident m sleeper.proc own ∧ m.kfork 10 sleeper true = .ok (some np,m') ∧
    Forked m sleeper np own m' cown := by
  obtain ⟨m,made,np,m',forked⟩ := roomy_forks
  obtain ⟨own,resident,trades,-⟩ := Resident.born ⟨by decide,by decide,by decide,by decide⟩ made (by decide) ⟨by decide,by decide⟩
    ⟨by decide,by decide⟩
  have grown : Resident m sleeper.proc own := resident.resize (Changes.refl resident.owned) (by decide)
    (fun v _ below => resident.empty (Nat.zero_le v) below) fun v below _ _ leaf => resident.readable below leaf
  obtain ⟨r,m1,ran,-,copies,-⟩ := kfork_copies grown (show 10 ∉ m.freelist ∧ 10 < 2^44 from ⟨(trades.stranger (by decide) rfl).1,by decide⟩) true
  rw [forked] at ran
  cases ran
  obtain ⟨cown,copies⟩ := copies np rfl
  exact ⟨m,own,np,m',cown,grown,forked,copies⟩

end Xv6.Vm
