import Xv6.Vm.Changes

/-! Page tables are made and freed. freewalk frees every table of a page table
once, if nothing is mapped any more. -/
namespace Xv6.Vm
open Lib.Bytes Function List

variable {m m' m₀ : Memory} {root : Frame} {limit : Nat} {own own' : Frame → Option Place}

/-! freewalk. -/

structure Frees (m m' : Memory) (freed : List Frame) : Prop where
  freelist : m'.freelist = freed ++ m.freelist
  nodup : freed.Nodup
  bounds : m'.first = m.first ∧ m'.last = m.last

section
variable {t : Frame} {path : List Nat}

theorem Owns.table_at (owns : Owns m root limit own) {f : Frame} (mine : own t = some (.table path)) (there : own f = some (.table path)) :
    f = t := by
  have found := (owns.reached t path mine).2.2
  rw [(owns.reached f path there).2.2] at found
  exact Option.some.inj found

theorem Owns.below_valid (owns : Owns m root limit own) (mine : own t = some (.table path)) {f : Frame} {k : Nat} {more : List Nat}
    (there : own f = some (.table (path ++ k :: more))) : path.length < 2 ∧ k < 512 ∧ m.pte t k &&& pteV ≠ 0 := by
  obtain ⟨deep,small,found⟩ := owns.reached f _ there
  rw [Memory.reach_append,(owns.reached t path mine).2.2,Option.bind_some,Memory.reach] at found
  rw [length_append,length_cons] at deep
  refine ⟨by omega,small k (by simp),fun invalid => ?_⟩
  rw [if_neg (not_not.mpr invalid)] at found
  cases found

/-- freewalk's loop, from entry i of the table t. -/
theorem Owns.freeEntries (owns : Owns m₀ root limit own) (mine : own t = some (.table path))
    (clear : path.length = 2 → ∀ k < 512, m₀.pte t k &&& pteV = 0) {below : Frame → Memory → Except Panic Memory}
    (frees : ∀ c k, own c = some (.table (path ++ [k])) → ∀ m, m.first = m₀.first ∧ m.last = m₀.last →
      (∀ f more, own f = some (.table (path ++ [k] ++ more)) → m.page f = m₀.page f) → ∃ m' freed, below c m = .ok m' ∧
        Frees m m' freed ∧ (∀ f, f ∈ freed ↔ ∃ more, own f = some (.table (path ++ [k] ++ more))) ∧
        ∀ f, f ∉ freed → m'.page f = m.page f)
    {turns i : Nat} (rest : i + turns = 512) (bounds : m.first = m₀.first ∧ m.last = m₀.last)
    (entries : ∀ k, i ≤ k → k < 512 → m.pte t k = m₀.pte t k)
    (pages : ∀ k, i ≤ k → ∀ f more, own f = some (.table (path ++ k :: more)) → m.page f = m₀.page f) :
    ∃ m' freed, Memory.freeEntries below t turns i m = .ok m' ∧ Frees m m' freed ∧
      (∀ f, f ∈ freed ↔ ∃ k more, i ≤ k ∧ own f = some (.table (path ++ k :: more))) ∧
      ∀ f, f ∉ freed → f ≠ t → m'.page f = m.page f := by
  induction turns generalizing i m with
  | zero =>
    refine ⟨m,[],rfl,⟨rfl,nodup_nil,rfl,rfl⟩,fun f => ?_,fun _ _ _ => rfl⟩
    refine ⟨nofun,fun ⟨k,more,later,there⟩ => ?_⟩
    have small := (owns.below_valid mine there).2.1
    omega
  | succ turns ih =>
    have here := entries i (Nat.le_refl i) (by omega)
    rw [Memory.freeEntries,here]
    by_cases valid : m₀.pte t i &&& pteV ≠ 0
    · have high : path.length < 2 := by
        have deep := (owns.reached t path mine).1
        by_contra last
        exact valid (clear (by omega) i (by omega))
      have child := owns.child t path i mine high (by omega) valid
      rw [if_pos ⟨valid,owns.bare t path i mine high (by omega) valid⟩]
      obtain ⟨m1,freed1,walked,frees1,exact1,same1⟩ := frees _ i child m bounds fun f more there =>
        pages i (Nat.le_refl i) f more (by rw [there,append_assoc]; rfl)
      -- the freed pages have i on their path
      have elsewhere : ∀ f path', own f = some (.table path') → (∀ more, path' ≠ path ++ [i] ++ more) → f ∉ freed1 := by
        intro f path' there apart inside
        obtain ⟨more,other⟩ := (exact1 f).mp inside
        rw [there] at other
        exact apart more (Place.table.inj (Option.some.inj other))
      have self : t ∉ freed1 := elsewhere t path mine fun more same => by simp at same
      have later : ∀ k more more', i + 1 ≤ k → path ++ k :: more ≠ path ++ [i] ++ more' := by
        intro k more more' next same
        rw [append_assoc] at same
        have heads := append_cancel_left same
        cases heads
        omega
      obtain ⟨m2,freed2,rest2,frees2,exact2,same2⟩ := ih (i := i + 1) (m := m1.setPte t i 0) (by omega)
        ⟨frees1.bounds.1.trans bounds.1,frees1.bounds.2.trans bounds.2⟩
        (fun k next small => by
          rw [Memory.pte_setPte_ne (by omega),Memory.pte,same1 t self]
          exact entries k (by omega) small)
        (fun k next f more there => by
          have other : f ≠ t := by
            rintro rfl
            rw [mine] at there
            simp at there
          rw [show (m1.setPte t i 0).page f = m1.page f from update_of_ne other ..,
            same1 f (elsewhere f _ there fun more' => later k more more' next)]
          exact pages k (by omega) f more there)
      refine ⟨m2,freed2 ++ freed1,by rw [walked]; exact rest2,⟨?_,?_,?_⟩,fun f => ?_,fun f out other => ?_⟩
      · rw [frees2.freelist,append_assoc,← frees1.freelist]
        rfl
      · grind [frees2.nodup,frees1.nodup]
      · exact ⟨frees2.bounds.1.trans frees1.bounds.1,frees2.bounds.2.trans frees1.bounds.2⟩
      · rw [mem_append,exact1,exact2]
        constructor
        · rintro (⟨k,more,next,there⟩ | ⟨more,there⟩)
          · exact ⟨k,more,by omega,there⟩
          · exact ⟨i,more,Nat.le_refl i,by rw [there,append_assoc]; rfl⟩
        · rintro ⟨k,more,next,there⟩
          rcases Nat.eq_or_lt_of_le next with rfl | next
          · exact .inr ⟨more,by rw [there,append_assoc]; rfl⟩
          · exact .inl ⟨k,more,next,there⟩
      · rw [mem_append,not_or] at out
        rw [same2 f out.1 other,show (m1.setPte t i 0).page f = m1.page f from update_of_ne other ..,same1 f out.2]
    · rw [if_neg (fun both => valid both.1),if_neg valid]
      obtain ⟨m2,freed2,rest2,frees2,exact2,same2⟩ := ih (i := i + 1) (by omega) bounds (fun k next => entries k (by omega))
        fun k next => pages k (by omega)
      refine ⟨m2,freed2,rest2,frees2,fun f => (exact2 f).trans ?_,same2⟩
      constructor
      · rintro ⟨k,more,next,there⟩
        exact ⟨k,more,by omega,there⟩
      · grind [Frees,Memory,Owns,owns.below_valid]

/-- freewalk at the table t frees it and the tables below. -/
theorem Owns.freewalkFrom (owns : Owns m₀ root limit own)
    (clear : ∀ t path k, own t = some (.table path) → path.length = 2 → k < 512 → m₀.pte t k &&& pteV = 0)
    {levels : Nat} (mine : own t = some (.table path)) (deep : path.length + levels = 3)
    (bounds : m.first = m₀.first ∧ m.last = m₀.last)
    (pages : ∀ f more, own f = some (.table (path ++ more)) → m.page f = m₀.page f) :
    ∃ m' freed, Memory.freewalkFrom levels t m = .ok m' ∧ Frees m m' freed ∧
      (∀ f, f ∈ freed ↔ ∃ more, own f = some (.table (path ++ more))) ∧ ∀ f, f ∉ freed → m'.page f = m.page f := by
  induction levels generalizing t path m with
  | zero =>
    have short := (owns.reached t path mine).1
    omega
  | succ levels ih =>
    have first : m.page t = m₀.page t := pages t [] (by rw [append_nil]; exact mine)
    obtain ⟨m1,freed,walked,frees,exact1,same⟩ := owns.freeEntries mine (fun two k => clear t path k mine two)
      (fun c k child m bounds pages => ih child (by rw [length_append,length_singleton]; omega) bounds pages)
      (show 0 + 512 = 512 from rfl) bounds (fun k _ _ => by rw [Memory.pte,Memory.pte,first])
      fun k _ f more there => pages f (k :: more) there
    have self : t ∉ freed := by
      intro inside
      obtain ⟨k,more,-,there⟩ := (exact1 t).mp inside
      rw [mine] at there
      simp at there
    obtain ⟨low,high,-⟩ := owns.held t _ mine
    have freed_t : m1.kfree t = .ok (m1.freed t) := by
      refine if_neg (not_or.mpr ⟨?_,?_⟩)
      · rw [frees.bounds.1,bounds.1]
        exact Nat.not_lt.mpr low
      · rw [frees.bounds.2,bounds.2]
        exact Nat.not_le.mpr high
    refine ⟨m1.freed t,t :: freed,?_,⟨?_,nodup_cons.mpr ⟨self,frees.nodup⟩,frees.bounds⟩,fun f => ?_,fun f out => ?_⟩
    · rw [Memory.freewalkFrom,walked]
      exact freed_t
    · exact congrArg (t :: ·) frees.freelist
    · rw [mem_cons,exact1]
      constructor
      · rintro (rfl | ⟨k,more,-,there⟩)
        · exact ⟨[],by rw [append_nil]; exact mine⟩
        · exact ⟨k :: more,there⟩
      · rintro ⟨more,there⟩
        cases more with
        | nil =>
          rw [append_nil] at there
          exact .inl (owns.table_at mine there)
        | cons k more => exact .inr ⟨k,more,Nat.zero_le k,there⟩
    · rw [mem_cons,not_or] at out
      exact (update_of_ne out.1 ..).trans (same f out.2 out.1)

end

theorem Owns.entry_of_table (owns : Owns m root limit own) {t : Frame} {i j k : Nat} (leaf : own t = some (.table [i,j])) (small : k < 512) :
    ((i * 512 + j) * 512 + k) * pgsize < maxva ∧ m.entry root (((i * 512 + j) * 512 + k) * pgsize) = m.pte t k := by
  obtain ⟨-,bound,found⟩ := owns.reached t _ leaf
  have half := owns.low t i [j] leaf
  have second := bound j (by simp)
  have indices : px 2 (((i * 512 + j) * 512 + k) * pgsize) = i ∧ px 1 (((i * 512 + j) * 512 + k) * pgsize) = j ∧
      px 0 (((i * 512 + j) * 512 + k) * pgsize) = k := by
    simp only [px,pgsize]
    omega
  refine ⟨by simp only [pgsize,maxva]; omega,?_⟩
  rw [Memory.entry,Memory.entryFrom,← m.reach_indices,Vm.indices,Vm.indices,Vm.indices,indices.1,indices.2.1,found,indices.2.2]
  rfl

/-- With nothing mapped, freewalk frees each table exactly once and touches no
other page. -/
theorem Owns.freewalk (owns : Owns m root limit own) (clear : ∀ w < maxva, m.entry root w &&& pteV = 0) : ∃ m' freed,
    m.freewalk root = .ok m' ∧ Frees m m' freed ∧ (∀ f, f ∈ freed ↔ own f ≠ none) ∧ ∀ f, f ∉ freed → m'.page f = m.page f := by
  have bottom : ∀ t path k, own t = some (.table path) → path.length = 2 → k < 512 → m.pte t k &&& pteV = 0 := by
    intro t path k leaf two small
    match path with
    | [i,j] =>
      obtain ⟨low,same⟩ := owns.entry_of_table leaf small
      rw [← same]
      exact clear _ low
  obtain ⟨m',freed,walked,frees,all,same⟩ := owns.freewalkFrom bottom owns.rooted (show [].length + 3 = 3 from rfl)
    ⟨rfl,rfl⟩ fun _ _ _ => rfl
  refine ⟨m',freed,walked,frees,fun f => (all f).trans ?_,same⟩
  constructor
  · rintro ⟨path,there⟩
    change own f = some (.table path) at there
    rw [there]
    nofun
  · intro owned
    obtain ⟨place,there⟩ := Option.ne_none_iff_exists'.mp owned
    cases place with
    | table path => exact ⟨path,there⟩
    | user v =>
      obtain ⟨inside,valid,-⟩ := (owns.user f v).mp there
      have low : v * pgsize < maxva := Nat.lt_of_lt_of_le (Nat.mul_lt_mul_of_pos_right inside (by decide)) owns.top
      exact absurd (clear _ low) valid

theorem Owns.frees (owns : Owns m root limit own) {freed : List Frame} (frees : Frees m m' freed) (all : ∀ f, f ∈ freed ↔ own f ≠ none)
    (same : ∀ f, f ∉ freed → m'.page f = m.page f) : Pool m' ∧ Trades m own m' fun _ => none := by
  refine ⟨⟨?_,?_,fun f inside => ?_,?_⟩,fun f => ?_,fun f _ nobody => same f fun inside => (all f).mp inside nobody,frees.bounds⟩
  · rw [frees.bounds.1]
    exact owns.pool.first
  · rw [frees.bounds.2]
    exact owns.pool.last
  · rw [frees.freelist,mem_append,all] at inside
    rw [frees.bounds.1,frees.bounds.2]
    rcases inside with owned | free
    · obtain ⟨place,there⟩ := Option.ne_none_iff_exists'.mp owned
      obtain ⟨low,high,-⟩ := owns.held f place there
      exact ⟨low,high⟩
    · exact owns.pool.range f free
  · rw [frees.freelist]
    refine nodup_append.mpr ⟨frees.nodup,owns.pool.nodup,?_⟩
    rintro f inside _ free rfl
    obtain ⟨place,there⟩ := Option.ne_none_iff_exists'.mp ((all f).mp inside)
    exact owns.notFree there free
  · rw [frees.freelist,mem_append,all]
    exact ⟨fun either => either.elim Or.symm fun none => absurd rfl none,fun either => .inl either.symm⟩

/-! Entries above the limit. -/

/-- The entries have become what `entry` says; no page of the owner has changed. -/
structure Remaps (root : Frame) (limit : Nat) (m : Memory) (own : Frame → Option Place) (m' : Memory)
    (own' : Frame → Option Place) (entry : Nat → Pte) : Prop where
  owns : Owns m' root limit own'
  entries : ∀ w < maxva, m'.entry root w = entry w
  leaves : ∀ v < limit, m'.leaf root v = m.leaf root v
  trades : Trades m own m' own'

section
variable {va : Nat} {t f : Frame} {entry entry' : Nat → Pte} {m'' : Memory} {own'' : Frame → Option Place}

theorem Remaps.refl (owns : Owns m root limit own) : Remaps root limit m own m own (m.entry root) :=
  ⟨owns,fun _ _ => rfl,fun _ _ => rfl,.refl m own⟩

theorem Remaps.trans (first : Remaps root limit m own m' own' entry) (second : Remaps root limit m' own' m'' own'' entry') :
    Remaps root limit m own m'' own'' entry' :=
  ⟨second.owns,second.entries,fun v inside => (second.leaves v inside).trans (first.leaves v inside),first.trades.trans second.trades⟩

theorem Remaps.congr (remaps : Remaps root limit m own m' own' entry) (same : ∀ w < maxva, entry w = entry' w) :
    Remaps root limit m own m' own' entry' :=
  { remaps with entries := fun w low => (remaps.entries w low).trans (same w low) }

theorem Grown.remaps (grown : Grown root m m' own own') (owns : Owns m root limit own) (owns' : Owns m' root limit own') :
    Remaps root limit m own m' own' (m.entry root) := by
  refine ⟨owns',fun w _ => grown.entries w,fun v inside => ?_,grown.conserves,fun g out nobody => ?_,grown.bounds⟩
  · grind [Grown,Owns,Remaps,leaf_congr,grown.entries,owns.userPage,grown.pages,owns.notFree]
  · exact grown.pages g (fun path there => by rw [nobody] at there; cases there) out

theorem Owns.remap (owns : Owns m root limit own) (low : va < maxva) (high : limit ≤ va / pgsize)
    (found : m.tableFrom va 2 root = some t) (pte : Pte) : Remaps root limit m own (m.setPte t (px 0 va) pte) own
      fun w => if w / pgsize = va / pgsize then pte else m.entry root w := by
  have leaf := owns.leafTable found
  refine ⟨owns.setForeign low high found,fun w below => entry_setPte owns.tree low below found,fun v inside => ?_,fun _ => Iff.rfl,
    fun g _ nobody => update_of_ne ?_ ..,rfl,rfl⟩
  · have stored := owns.entry_at pte low found inside
    rw [if_neg (by omega)] at stored
    refine leaf_congr stored fun valid => update_of_ne ?_ ..
    intro equal
    have mine := owns.userPage inside valid
    rw [equal,leaf] at mine
    cases mine
  · rintro rfl
    rw [nobody] at leaf
    cases leaf

theorem Owns.walk (owns : Owns m root limit own) (low : va < maxva) : ∃ found m' own',
    Memory.walkFrom va true 2 root m = (found,m') ∧ Remaps root limit m own m' own' (m.entry root) ∧
      ∀ t, found = some t → m'.tableFrom va 2 root = some t := by
  obtain ⟨found,m',own',walked,owns',grown,there⟩ := owns.walkFrom low 2 owns.rooted rfl
  exact ⟨found,m',own',walked,grown.remaps owns owns',there⟩

theorem entry_found (found : m.tableFrom va 2 root = some t) : m.entry root va = m.pte t (px 0 va) := by
  rw [Memory.entry,Memory.entryFrom,found]
  rfl

/-- A page of somebody else is mapped above the limit. -/
theorem Owns.mapForeign (owns : Owns m root limit own) (aligned : va % pgsize = 0) (low : va < maxva) (high : limit ≤ va / pgsize)
    (invalid : m.entry root va &&& pteV = 0) (f : Frame) (perm : Pte) : ∃ ok m' own',
    m.mappages root va pgsize f perm = .ok (ok,m') ∧ Remaps root limit m own m' own'
      fun w => if ok = true ∧ w / pgsize = va / pgsize then pa2pte f ||| perm ||| pteV else m.entry root w := by
  obtain ⟨found,m1,own1,walked,remaps,there⟩ := owns.walk low
  rw [mappages_walk aligned low walked]
  cases found with
  | none => exact ⟨false,m1,own1,rfl,remaps.congr fun w _ => by rw [if_neg (by simp)]⟩
  | some t =>
    have table := there t rfl
    have here : m1.pte t (px 0 va) = m.entry root va := by rw [← entry_found table,remaps.entries va low]
    refine ⟨true,_,own1,by dsimp only; rw [if_neg (by rw [here]; exact not_not.mpr invalid)],
      (remaps.trans (remaps.owns.remap low high table _)).congr fun w below => ?_⟩
    rw [remaps.entries w below]
    simp only [true_and]

/-- A page above the limit is unmapped and stays with its owner. -/
theorem Owns.unmapForeign (owns : Owns m root limit own) (low : va < maxva) (high : limit ≤ va / pgsize) : ∃ m',
    m.unmapPage root va false = .ok m' ∧ Remaps root limit m own m' own
      fun w => if w / pgsize = va / pgsize ∧ m.entry root va &&& pteV ≠ 0 then 0 else m.entry root w := by
  unfold Memory.unmapPage
  rw [m.walk_false root low]
  have absent : m.entry root va &&& pteV = 0 → Remaps root limit m own m own
      fun w => if w / pgsize = va / pgsize ∧ m.entry root va &&& pteV ≠ 0 then 0 else m.entry root w :=
    fun invalid => (Remaps.refl owns).congr fun w _ => by rw [if_neg (fun both => both.2 invalid)]
  cases found : m.tableFrom va 2 root with
  | none =>
    refine ⟨m,rfl,absent ?_⟩
    rw [Memory.entry,Memory.entryFrom,found]
    exact BitVec.zero_and
  | some t =>
    have here := entry_found found
    dsimp only [Option.map_some]
    rw [← here]
    by_cases invalid : m.entry root va &&& pteV = 0
    · rw [if_pos invalid]
      exact ⟨m,rfl,absent invalid⟩
    · grind [owns.remap]

theorem uvmunmap_one (aligned : va % pgsize = 0) (low : va < maxva) : m.uvmunmap root va 1 false = m.unmapPage root va false := by
  have turns : ((va + 1 * pgsize) % 2^64 - va) / pgsize = 1 := by
    simp only [pgsize,maxva] at *
    omega
  unfold Memory.uvmunmap
  rw [if_neg (not_not.mpr aligned),turns,Memory.unmapFrom]
  cases m.unmapPage root va false <;> rfl

end

/-! Page tables of processes. -/

theorem Owns.uvmfree_zero (owns : Owns m root limit own) (clear : ∀ w < maxva, m.entry root w &&& pteV = 0) : ∃ m',
    m.uvmfree root 0 = .ok m' ∧ Pool m' ∧ Trades m own m' fun _ => none := by
  obtain ⟨m',freed,walked,frees,all,same⟩ := owns.freewalk clear
  exact ⟨m',walked,owns.frees frees all same⟩

theorem uvmcreate_spec (pool : Pool m) : (m.freelist = [] ∧ m.uvmcreate = (0,m)) ∨ ∃ pagetable m' own',
    pagetable ≠ 0 ∧ m.uvmcreate = (pagetable,m') ∧ Owns m' pagetable 0 own' ∧ (∀ w, m'.entry pagetable w = 0) ∧
      Trades m (fun _ => none) m' own' := by
  cases free : m.freelist with
  | nil =>
    left
    refine ⟨rfl,?_⟩
    unfold Memory.uvmcreate
    rw [Memory.kalloc,free]
    rfl
  | cons f rest =>
    right
    obtain ⟨low,high⟩ := pool.range f (by rw [free]; exact mem_cons_self)
    have nodup := pool.nodup
    rw [free] at nodup
    have positive : f ≠ 0 := Nat.ne_of_gt (Nat.lt_of_lt_of_le pool.first low)
    have empty : ∀ k, (fetched m rest f).pte f k = 0 := Memory.pte_fill_zero _ f
    have entries : ∀ w, (fetched m rest f).entry f w = 0 := fun w => Memory.entryFrom_empty empty
    have table : ∀ t path, (if t = f then some (Place.table []) else none) = some (.table path) → t = f ∧ path = [] := by
      intro t path there
      split_ifs at there with same
      cases there
      exact ⟨same,rfl⟩
    refine ⟨f,fetched m rest f,fun g => if g = f then some (.table []) else none,positive,?_,⟨if_pos rfl,?_,?_,?_,?_,?_,?_,?_,?_⟩,
      entries,fun g => ?_,fun g out _ => fetched_page ?_,rfl,rfl⟩
    · unfold Memory.uvmcreate
      rw [kalloc_cons free]
      exact if_neg positive
    · intro t path k there _ _ valid
      rw [(table t path there).1,empty] at valid
      exact absurd rfl valid
    · intro t path k there _ _ valid
      rw [(table t path there).1,empty] at valid
      exact absurd rfl valid
    · intro t path there
      obtain ⟨rfl,rfl⟩ := table t path there
      exact ⟨by simp,by simp,rfl⟩
    · intro t k path there
      cases (table t _ there).2
    · intro g v
      refine ⟨fun there => ?_,fun all => absurd all.1 (Nat.not_lt_zero v)⟩
      split_ifs at there
      cases there
    · intro g place there
      split_ifs at there with same
      rw [same]
      exact ⟨low,high,(nodup_cons.mp nodup).1⟩
    · exact ⟨pool.first,pool.last,fun g inside => pool.range g (by rw [free]; exact mem_cons_of_mem _ inside),
        (nodup_cons.mp nodup).2⟩
    · rw [Nat.zero_mul]
      exact Nat.zero_le _
    · change g ∈ rest ∨ _ ↔ _
      rw [free,mem_cons]
      by_cases same : g = f
      · rw [if_pos same]
        exact ⟨fun _ => .inl (.inl same),fun _ => .inr (by rintro ⟨⟩)⟩
      · rw [if_neg same]
        exact or_congr ⟨.inr,fun member => member.resolve_left same⟩ Iff.rfl
    · rintro rfl
      exact out (by rw [free]; exact mem_cons_self)

def trapEntries (trampolinePage trapframePage : Frame) (w : Nat) : Pte :=
  if w / pgsize = trapframe / pgsize then pa2pte trapframePage ||| (pteR ||| pteW) ||| pteV
  else if w / pgsize = trampoline / pgsize then pa2pte trampolinePage ||| (pteR ||| pteX) ||| pteV else 0

/-- proc_pagetable makes such a page table of free pages, or it takes nothing. -/
theorem procPagetable_spec (pool : Pool m) (trampolinePage trapframePage : Frame) : ∃ pagetable m' own',
    m.procPagetable trampolinePage trapframePage = .ok (pagetable,m') ∧ Pool m' ∧ Trades m (fun _ => none) m' own' ∧
      (pagetable = 0 → own' = fun _ => none) ∧ (pagetable ≠ 0 → Owns m' pagetable 0 own' ∧
        ∀ w < maxva, m'.entry pagetable w = trapEntries trampolinePage trapframePage w) := by
  unfold Memory.procPagetable
  rcases uvmcreate_spec pool with ⟨-,none⟩ | ⟨pagetable,m1,own1,positive,made,owns1,empty,trades1⟩
  · rw [none]
    exact ⟨0,m,fun _ => Option.none,rfl,pool,.refl m _,fun _ => rfl,fun some => absurd rfl some⟩
  rw [made]
  dsimp only
  rw [if_neg positive]
  obtain ⟨ok,m2,own2,mapped,remaps2⟩ := owns1.mapForeign (show trampoline % pgsize = 0 by decide) (by decide) (Nat.zero_le _)
    (by rw [empty]; rfl) trampolinePage (pteR ||| pteX)
  rw [mapped]
  have trades2 := trades1.trans remaps2.trades
  cases ok with
  | false =>
    obtain ⟨m3,freed,pool3,trades3⟩ := remaps2.owns.uvmfree_zero fun w low => by
      rw [remaps2.entries w low,if_neg (by simp),empty]
      rfl
    refine ⟨0,m3,fun _ => none,?_,pool3,trades2.trans trades3,fun _ => rfl,fun some => absurd rfl some⟩
    change (m2.uvmfree pagetable 0).map _ = _
    rw [freed]
    rfl
  | true =>
    have apart : trapframe / pgsize ≠ trampoline / pgsize := by decide
    obtain ⟨ok,m3,own3,mapped3,remaps3⟩ := remaps2.owns.mapForeign (show trapframe % pgsize = 0 by decide) (by decide) (Nat.zero_le _)
      (by rw [remaps2.entries _ (by decide),if_neg (fun both => apart both.2),empty]; rfl) trapframePage (pteR ||| pteW)
    have trades3 := trades2.trans remaps3.trades
    dsimp only [bind,Except.bind]
    rw [mapped3]
    cases ok with
    | true =>
      refine ⟨pagetable,m3,own3,rfl,remaps3.owns.pool,trades3,fun zero => absurd zero positive,fun _ => ⟨remaps3.owns,fun w low => ?_⟩⟩
      rw [remaps3.entries w low,remaps2.entries w low,empty]
      simp only [true_and,trapEntries]
    | false =>
      obtain ⟨m4,unmapped,remaps4⟩ := remaps3.owns.unmapForeign (show trampoline < maxva by decide) (Nat.zero_le _)
      have here : m3.entry pagetable trampoline &&& pteV ≠ 0 := by
        rw [remaps3.entries _ (by decide),if_neg (by simp),remaps2.entries _ (by decide),if_pos ⟨rfl,rfl⟩]
        exact valid_or _
      obtain ⟨m5,freed,pool5,trades5⟩ := remaps4.owns.uvmfree_zero fun w low => by
        rw [remaps4.entries w low]
        by_cases same : w / pgsize = trampoline / pgsize
        · rw [if_pos ⟨same,here⟩]
          rfl
        · rw [if_neg (fun both => same both.1),remaps3.entries w low,if_neg (by simp),remaps2.entries w low,
            if_neg (fun both => same both.2),empty]
          rfl
      refine ⟨0,m5,fun _ => none,?_,pool5,(trades3.trans remaps4.trades).trans trades5,fun _ => rfl,fun some => absurd rfl some⟩
      change (do
        let m ← m3.uvmunmap pagetable trampoline 1 false
        (m.uvmfree pagetable 0).map fun m => (0,m)) = _
      rw [uvmunmap_one (by decide) (by decide),unmapped]
      change (m4.uvmfree pagetable 0).map _ = _
      rw [freed]
      rfl

/-- proc_freepagetable frees the tables and the user pages of a page table that has
nothing else but the trampoline and the trapframe. -/
theorem Owns.procFreepagetable {sz : Nat} (owns : Owns m root (npages sz) own) (small : sz ≤ trapframe)
    (rest : ∀ w < maxva, m.entry root w &&& pteV ≠ 0 →
      w / pgsize < npages sz ∨ w / pgsize = trapframe / pgsize ∨ w / pgsize = trampoline / pgsize) :
    ∃ m', m.procFreepagetable root sz = .ok m' ∧ Pool m' ∧ Trades m own m' fun _ => none := by
  have most : npages sz ≤ trapframe / pgsize := by
    simp only [npages,trapframe,trampoline,maxva,pgsize] at *
    omega
  have less : trapframe / pgsize ≤ trampoline / pgsize := by decide
  obtain ⟨m1,unmapped1,remaps1⟩ := owns.unmapForeign (show trampoline < maxva by decide) (by omega)
  obtain ⟨m2,unmapped2,remaps2⟩ := remaps1.owns.unmapForeign (show trapframe < maxva by decide) most
  obtain ⟨m3,own3,unmapped3,changes,-⟩ := remaps2.owns.uvmunmap (show 0 + npages sz ≤ npages sz by omega)
  -- nothing is mapped any more
  have clear : ∀ w < maxva, m3.entry root w &&& pteV = 0 := by
    intro w low
    by_cases below : w / pgsize < npages sz
    · have gone := changes.leaves _ below
      rw [if_pos ⟨Nat.zero_le _,by rwa [Nat.zero_add]⟩,leaf_none] at gone
      rwa [entry_page (show w / pgsize = w / pgsize * pgsize / pgsize by rw [Nat.mul_div_cancel _ (by decide)])]
    · rw [changes.beyond w low (Nat.not_lt.mp below),remaps2.entries w low]
      by_cases frame : w / pgsize = trapframe / pgsize ∧ m1.entry root trapframe &&& pteV ≠ 0
      · rw [if_pos frame]
        rfl
      rw [if_neg frame]
      by_contra valid
      have first := remaps1.entries w low
      by_cases tramp : w / pgsize = trampoline / pgsize ∧ m.entry root trampoline &&& pteV ≠ 0
      · rw [if_pos tramp] at first
        rw [first] at valid
        exact valid rfl
      · rw [if_neg tramp] at first
        have before := valid
        rw [first] at before
        rcases rest w low before with inside | same | same
        · exact below inside
        · exact frame ⟨same,by rw [← entry_page same]; exact valid⟩
        · exact tramp ⟨same,by rw [← entry_page same]; exact before⟩
  obtain ⟨m4,freed,walked,frees,all,same⟩ := changes.owns.freewalk clear
  obtain ⟨pool,trades⟩ := changes.owns.frees frees all same
  refine ⟨m4,?_,pool,((remaps1.trades.trans remaps2.trades).trans changes.trades).trans trades⟩
  have users : (if 0 < sz then m2.uvmunmap root 0 (pgroundup sz / pgsize) true else .ok m2) = .ok m3 := by
    have high : trapframe ≤ maxva := by decide
    rw [Nat.zero_mul] at unmapped3
    by_cases some : 0 < sz
    · rw [if_pos some,pgroundup_eq (small.trans high),Nat.mul_div_cancel _ (by decide)]
      exact unmapped3
    · rw [if_neg some,← unmapped3,show sz = 0 by omega]
      rfl
  have last : m2.uvmfree root sz = .ok m4 := by
    unfold Memory.uvmfree
    rw [users]
    exact walked
  unfold Memory.procFreepagetable
  rw [uvmunmap_one (by decide) (by decide),unmapped1]
  change (do
    let m ← m1.uvmunmap root trapframe 1 false
    m.uvmfree root sz) = _
  rw [uvmunmap_one (by decide) (by decide),unmapped2]
  exact last

end Xv6.Vm
