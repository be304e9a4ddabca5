import Xv6.Vm.Copies
import Xv6.Vm.Regions

/-! Page tables that own their pages. `own` gives the place of each page that
belongs to a page table: its tables, and the pages that its PTEs below a limit map.
What lies above the limit is mapped there but belongs to somebody else, as the
trampoline does. Every page that kalloc manages is free, or it belongs to somebody. -/
namespace Xv6.Vm
open Lib.Bytes Function List

variable {m m' m'' : Memory} {root : Frame} {limit : Nat} {own own' own'' : Frame → Option Place}

structure Pool (m : Memory) : Prop where
  first : 0 < m.first
  last : m.last ≤ 2^44
  range : ∀ f ∈ m.freelist, m.first ≤ f ∧ f < m.last
  nodup : m.freelist.Nodup

structure Owns (m : Memory) (root : Frame) (limit : Nat) (own : Frame → Option Place) : Prop where
  rooted : own root = some (.table [])
  child : ∀ t path k, own t = some (.table path) → path.length < 2 → k < 512 → m.pte t k &&& pteV ≠ 0 →
    own (pte2pa (m.pte t k)) = some (.table (path ++ [k]))
  bare : ∀ t path k, own t = some (.table path) → path.length < 2 → k < 512 → m.pte t k &&& pteV ≠ 0 →
    m.pte t k &&& (pteR ||| pteW ||| pteX) = 0
  reached : Reached m root own
  low : ∀ f k path, own f = some (.table (k :: path)) → k < 256
  user : ∀ f v, own f = some (.user v) ↔
    v < limit ∧ m.entry root (v * pgsize) &&& pteV ≠ 0 ∧ pte2pa (m.entry root (v * pgsize)) = f
  held : ∀ f place, own f = some place → m.first ≤ f ∧ f < m.last ∧ f ∉ m.freelist
  pool : Pool m
  top : limit * pgsize ≤ maxva

theorem Owns.tree (owns : Owns m root limit own) : Tree m root own := ⟨owns.rooted,owns.child⟩

theorem Owns.small (owns : Owns m root limit own) {f : Frame} {place : Place} (owned : own f = some place) : 0 < f ∧ f < 2^44 := by
  obtain ⟨low,high,-⟩ := owns.held f place owned
  exact ⟨Nat.lt_of_lt_of_le owns.pool.first low,Nat.lt_of_lt_of_le high owns.pool.last⟩

/-- The tables are all that the ownership depends on. -/
theorem Owns.outside (owns : Owns m root limit own) (tables : ∀ f path, own f = some (.table path) → m'.page f = m.page f)
    (bounds : m'.first = m.first ∧ m'.last = m.last) (pool : Pool m') (held : ∀ f place, own f = some place → f ∉ m'.freelist) :
    Owns m' root limit own := by
  have pte : ∀ t path k, own t = some (.table path) → m'.pte t k = m.pte t k := by
    intro t path k owned
    rw [Memory.pte,Memory.pte,tables t path owned]
  have entries : ∀ w, m'.entry root w = m.entry root w := fun w => entries_of_tables owns.tree tables owns.rooted rfl
  have linked : Linked m m' own := fun t path k owned _ => pte t path k owned
  refine ⟨owns.rooted,fun t path k owned => ?_,fun t path k owned => ?_,linked.reached owns.tree owns.reached fun _ _ => id,owns.low,
    fun f v => ?_,fun f place owned => ?_,pool,owns.top⟩
  · rw [pte t path k owned]
    exact owns.child t path k owned
  · rw [pte t path k owned]
    exact owns.bare t path k owned
  · rw [entries]
    exact owns.user f v
  · obtain ⟨low,high,-⟩ := owns.held f place owned
    rw [bounds.1,bounds.2]
    exact ⟨low,high,held f place owned⟩

/-! Making tables. -/

structure Grown (root : Frame) (m m' : Memory) (own own' : Frame → Option Place) : Prop where
  keeps : ∀ f place, own f = some place → own' f = some place
  new : ∀ f place, own' f = some place → own f = some place ∨ ∃ path, place = .table path
  entries : ∀ w, m'.entry root w = m.entry root w
  links : ∀ t path k, own t = some (.table path) → path.length < 2 → m.pte t k &&& pteV ≠ 0 → m'.pte t k = m.pte t k
  conserves : ∀ f, f ∈ m'.freelist ∨ own' f ≠ none ↔ f ∈ m.freelist ∨ own f ≠ none
  free : ∀ f ∈ m'.freelist, f ∈ m.freelist
  pages : ∀ f, (∀ path, own f ≠ some (.table path)) → f ∉ m.freelist → m'.page f = m.page f
  bounds : m'.first = m.first ∧ m'.last = m.last

namespace Grown

theorem refl (root : Frame) (m : Memory) (own : Frame → Option Place) : Grown root m m own own :=
  ⟨fun _ _ => id,fun _ _ => .inl,fun _ => rfl,fun _ _ _ _ _ _ => rfl,fun _ => Iff.rfl,fun _ => id,fun _ _ _ => rfl,rfl,rfl⟩

theorem notTable (grown : Grown root m m' own own') {f : Frame} (table : ∀ path, own f ≠ some (.table path))
    (out : f ∉ m.freelist) : ∀ path, own' f ≠ some (.table path) := by
  intro path now
  rcases (grown.conserves f).mp (.inr (by rw [now]; nofun)) with free | owned
  · exact out free
  · obtain ⟨place,there⟩ := Option.ne_none_iff_exists'.mp owned
    have kept := grown.keeps f place there
    rw [now] at kept
    cases kept
    exact table path there

theorem trans (first : Grown root m m' own own') (second : Grown root m' m'' own' own'') : Grown root m m'' own own'' := by
  refine ⟨fun f place owned => second.keeps f place (first.keeps f place owned),fun f place owned => ?_,
    fun w => (second.entries w).trans (first.entries w),fun t path k owned high valid => ?_,
    fun f => (second.conserves f).trans (first.conserves f),fun f free => first.free f (second.free f free),fun f table out => ?_,
    second.bounds.1.trans first.bounds.1,second.bounds.2.trans first.bounds.2⟩
  · rcases second.new f place owned with old | table
    · exact first.new f place old
    · exact .inr table
  · have same := first.links t path k owned high valid
    rw [second.links t path k (first.keeps t _ owned) high (by rwa [same]),same]
  · rw [second.pages f (first.notTable table out) fun free => out (first.free f free),first.pages f table out]

end Grown

theorem shift_mask (x : Pte) {mask : Pte} (low : mask >>> 10 = 0) : x <<< 10 &&& mask = 0 := by
  apply BitVec.eq_of_getLsbD_eq
  intro i bound
  rw [BitVec.getLsbD_and,BitVec.getLsbD_shiftLeft]
  by_cases small : i < 10
  · simp [small]
  · have bit := congrArg (fun y : Pte => y.getLsbD (i - 10)) low
    simp only [BitVec.getLsbD_ushiftRight] at bit
    rw [show 10 + (i - 10) = i by omega] at bit
    simp [bit]

theorem table_bare (f : Frame) : (pa2pte f ||| pteV) &&& (pteR ||| pteW ||| pteX) = 0 := by
  rw [BitVec.and_comm,BitVec.and_or_distrib_left,BitVec.and_comm,pa2pte,shift_mask _ (by decide)]
  decide

section
variable {t f : Frame} {path : List Nat} {k : Nat} {rest : List Frame}

/-- A page that has been taken from the freelist and cleared becomes the table at
entry k of table t. -/
theorem Owns.link (owns : Owns m root limit own) (owned : own t = some (.table path)) (high : path.length < 2) (small : k < 512)
    (half : path = [] → k < 256) (invalid : ¬m.pte t k &&& pteV ≠ 0) (nobody : own f = none)
    (managed : m.first ≤ f ∧ f < m.last) (out : f ∉ m.freelist) (empty : ∀ j, m.pte f j = 0) :
    Owns (m.setPte t k (pa2pte f ||| pteV)) root limit (update own f (some (.table (path ++ [k])))) ∧
      ∀ w, (m.setPte t k (pa2pte f ||| pteV)).entry root w = m.entry root w := by
  have range : f < 2^44 := Nat.lt_of_lt_of_le managed.2 owns.pool.last
  have made := pte2pa_table range
  have was : ∀ g place, own g = some place → g ≠ f := by
    rintro g place there rfl
    rw [nobody] at there
    cases there
  have owner : ∀ g, g ≠ f → update own f (some (.table (path ++ [k]))) g = own g :=
    fun g other => update_of_ne other ..
  have here : (m.setPte t k (pa2pte f ||| pteV)).pte t k = pa2pte f ||| pteV := Memory.pte_setPte ..
  have old : ∀ t' j, ¬(t' = t ∧ j = k) → (m.setPte t k (pa2pte f ||| pteV)).pte t' j = m.pte t' j :=
    fun t' j other => Memory.pte_setPte_ne other
  have empty' : ∀ j, (m.setPte t k (pa2pte f ||| pteV)).pte f j = 0 := by
    intro j
    rw [old f j fun same => was t _ owned same.1.symm,empty]
  have entries : ∀ w level t' path', own t' = some (.table path') → path'.length + level = 2 →
      (m.setPte t k (pa2pte f ||| pteV)).entryFrom w level t' = m.entryFrom w level t' := by
    intro w level t' path' there deep
    induction level generalizing t' path' with
    | zero =>
      refine old t' _ ?_
      rintro ⟨rfl,-⟩
      rw [owned] at there
      cases there
      omega
    | succ level ih =>
      rw [Memory.entryFrom_succ,Memory.entryFrom_succ]
      by_cases same : t' = t ∧ px (level + 1) w = k
      · rw [same.1,same.2,here,if_pos (valid_or _),made,if_neg invalid]
        exact Memory.entryFrom_empty empty'
      · rw [old t' _ same]
        split_ifs with valid
        · refine ih _ (path' ++ [px (level + 1) w]) (owns.child t' path' _ there (by omega) (px_lt ..) valid) ?_
          rw [length_append,length_singleton]
          omega
        · rfl
  have links : ∀ t' path' j, own t' = some (.table path') → path'.length < 2 → m.pte t' j &&& pteV ≠ 0 →
      (m.setPte t k (pa2pte f ||| pteV)).pte t' j = m.pte t' j := by
    intro t' path' j there _ valid
    refine old t' j ?_
    rintro ⟨rfl,rfl⟩
    exact invalid valid
  have whole : ∀ w, (m.setPte t k (pa2pte f ||| pteV)).entry root w = m.entry root w :=
    fun w => entries w 2 root [] owns.rooted rfl
  -- a table of the new tree is the new one or an old one
  have cases : ∀ g path', update own f (some (.table (path ++ [k]))) g = some (.table path') →
      (g = f ∧ path' = path ++ [k]) ∨ (g ≠ f ∧ own g = some (.table path')) := by
    intro g path' there
    by_cases new : g = f
    · rw [new,update_self] at there
      cases there
      exact .inl ⟨new,rfl⟩
    · rw [owner g new] at there
      exact .inr ⟨new,there⟩
  refine ⟨⟨?_,fun t' path' j there shallow bound valid => ?_,fun t' path' j there shallow bound valid => ?_,
    fun g path' there => ?_,fun g j path' there => ?_,fun g v => ?_,fun g place there => ?_,?_,owns.top⟩,whole⟩
  · rw [owner root (was root _ owns.rooted)]
    exact owns.rooted
  · grind [Owns,update_apply]
  · rcases cases t' path' there with ⟨rfl,-⟩ | ⟨other,mine⟩
    · rw [empty'] at valid
      exact absurd rfl valid
    · by_cases same : t' = t ∧ j = k
      · obtain ⟨rfl,rfl⟩ := same
        rw [here]
        exact table_bare f
      · rw [old t' j same] at valid ⊢
        exact owns.bare t' path' j mine shallow bound valid
  · rcases cases g path' there with ⟨rfl,rfl⟩ | ⟨-,there⟩
    · obtain ⟨-,bound,found⟩ := owns.reached t path owned
      refine ⟨by rw [length_append,length_singleton]; omega,fun j member => ?_,?_⟩
      · rcases mem_append.mp member with inside | last
        · exact bound j inside
        · rw [mem_singleton.mp last]
          exact small
      · rw [Memory.reach_append,reach_links owns.tree links owns.rooted (by simpa using Nat.le_of_lt high) bound found,
          Option.bind_some,Memory.reach,here,if_pos (valid_or _),made]
        rfl
    · obtain ⟨deep,bound,found⟩ := owns.reached g path' there
      exact ⟨deep,bound,reach_links owns.tree links owns.rooted (by simpa using deep) bound found⟩
  · rcases cases g (j :: path') there with ⟨-,same⟩ | ⟨-,there⟩
    · cases path with
      | nil =>
        cases same
        exact half rfl
      | cons i path =>
        cases same
        exact owns.low t j path owned
    · exact owns.low g j path' there
  · rw [whole,← owns.user g v]
    by_cases new : g = f
    · rw [new,update_self,nobody]
      exact ⟨by rintro ⟨⟩,by rintro ⟨⟩⟩
    · rw [owner g new]
  · by_cases new : g = f
    · rw [new]
      exact ⟨managed.1,managed.2,out⟩
    · rw [owner g new] at there
      exact owns.held g place there
  · exact ⟨owns.pool.first,owns.pool.last,owns.pool.range,owns.pool.nodup⟩

/-- A page has been taken from the freelist. -/
theorem Owns.take (owns : Owns m root limit own) (free : m.freelist = f :: rest) (list : m'.freelist = rest)
    (pages : ∀ g, g ≠ f → m'.page g = m.page g) (bounds : m'.first = m.first ∧ m'.last = m.last) :
    Owns m' root limit own ∧ own f = none ∧ f ∉ rest ∧ m.first ≤ f ∧ f < m.last := by
  have member : f ∈ m.freelist := by rw [free]; exact mem_cons_self
  have nodup := owns.pool.nodup
  rw [free] at nodup
  have nobody : own f = none := by
    cases there : own f with
    | none => rfl
    | some place => exact absurd member (owns.held f place there).2.2
  refine ⟨owns.outside (fun g path there => pages g ?_) bounds ⟨?_,?_,fun g inside => ?_,?_⟩ fun g place there inside => ?_,nobody,
    (nodup_cons.mp nodup).1,owns.pool.range f member⟩
  · rintro rfl
    rw [nobody] at there
    cases there
  · rw [bounds.1]
    exact owns.pool.first
  · rw [bounds.2]
    exact owns.pool.last
  · rw [list] at inside
    rw [bounds.1,bounds.2]
    exact owns.pool.range g (by rw [free]; exact mem_cons_of_mem _ inside)
  · rw [list]
    exact (nodup_cons.mp nodup).2
  · rw [list] at inside
    exact (owns.held g place there).2.2 (by rw [free]; exact mem_cons_of_mem _ inside)

theorem Owns.makeTable (owns : Owns m root limit own) (owned : own t = some (.table path)) (high : path.length < 2) (small : k < 512)
    (half : path = [] → k < 256) (invalid : ¬m.pte t k &&& pteV ≠ 0) (free : m.freelist = f :: rest) :
    Owns (({ m with freelist := rest }.fill f 5).fill f 0 |>.setPte t k (pa2pte f ||| pteV)) root limit
        (update own f (some (.table (path ++ [k])))) ∧
      Grown root m (({ m with freelist := rest }.fill f 5).fill f 0 |>.setPte t k (pa2pte f ||| pteV)) own
        (update own f (some (.table (path ++ [k])))) := by
  obtain ⟨owns1,nobody,out,managed⟩ := owns.take free (show (fetched m rest f).freelist = rest from rfl)
    (fun g other => fetched_page other) ⟨rfl,rfl⟩
  have was : ∀ g place, own g = some place → g ≠ f := by
    rintro g place there rfl
    rw [nobody] at there
    cases there
  have pte1 : ∀ g j, g ≠ f → (fetched m rest f).pte g j = m.pte g j := by
    intro g j other
    rw [Memory.pte,Memory.pte,fetched_page other]
  have invalid1 : ¬(fetched m rest f).pte t k &&& pteV ≠ 0 := by rwa [pte1 t k (was t _ owned)]
  obtain ⟨owns2,entries⟩ := owns1.link owned high small half invalid1 nobody managed out (Memory.pte_fill_zero _ f)
  refine ⟨owns2,fun g place there => ?_,fun g place there => ?_,fun w => ?_,fun t' path' j there _ valid => ?_,fun g => ?_,
    fun g inside => ?_,fun g table outside => ?_,rfl,rfl⟩
  · rw [update_of_ne (was g place there)]
    exact there
  · by_cases new : g = f
    · rw [new,update_self] at there
      exact .inr ⟨_,(Option.some.inj there).symm⟩
    · rw [update_of_ne new] at there
      exact .inl there
  · refine (entries w).trans (entries_of_tables owns.tree (fun g path' there => fetched_page (was g _ there)) owns.rooted rfl)
  · have same := pte1 t' j (was t' _ there)
    refine (Memory.pte_setPte_ne ?_).trans same
    rintro ⟨rfl,rfl⟩
    exact invalid valid
  · change g ∈ rest ∨ _ ↔ _
    rw [free,mem_cons]
    by_cases new : g = f
    · rw [new,update_self]
      exact ⟨fun _ => .inl (.inl rfl),fun _ => .inr (by rintro ⟨⟩)⟩
    · rw [update_of_ne new]
      exact ⟨fun either => either.imp .inr id,fun either => either.imp (fun member => member.resolve_left new) id⟩
  · rw [free]
    exact mem_cons_of_mem _ inside
  · have other : g ≠ f := by
      rintro rfl
      exact outside (by rw [free]; exact mem_cons_self)
    have elsewhere : g ≠ t := by
      rintro rfl
      exact table path owned
    refine (update_of_ne elsewhere ..).trans (fetched_page other)

end

theorem px_two_lt {va : Nat} (low : va < maxva) : px 2 va < 256 := by
  simp only [px,maxva] at *
  omega

theorem Owns.walkFrom {va : Nat} (low : va < maxva) (level : Nat) {t : Frame} {path : List Nat} (owns : Owns m root limit own)
    (owned : own t = some (.table path)) (deep : path.length + level = 2) :
    ∃ found m' own', Memory.walkFrom va true level t m = (found,m') ∧ Owns m' root limit own' ∧ Grown root m m' own own' ∧
      ∀ t', found = some t' → m'.tableFrom va level t = some t' := by
  induction level generalizing m own t path with
  | zero => exact ⟨some t,m,own,rfl,owns,.refl root m own,fun t' same => same⟩
  | succ level ih =>
    have high : path.length < 2 := by omega
    have deep' : (path ++ [px (level + 1) va]).length + level = 2 := by
      rw [length_append,length_singleton]
      omega
    have half : path = [] → px (level + 1) va < 256 := by
      rintro rfl
      rw [length_nil] at deep
      rw [show level + 1 = 2 by omega]
      exact px_two_lt low
    rw [Memory.walkFrom,Memory.below]
    by_cases valid : m.pte t (px (level + 1) va) &&& pteV ≠ 0
    · have child := owns.child t path _ owned high (px_lt ..) valid
      obtain ⟨found,m',own',walked,owns',grown,there⟩ := ih owns child deep'
      rw [if_pos valid]
      refine ⟨found,m',own',walked,owns',grown,fun t' same => ?_⟩
      rw [Memory.tableFrom,grown.links t path _ owned high valid,if_pos valid]
      exact there t' same
    · rw [if_neg valid,if_pos rfl]
      cases free : m.freelist with
      | nil =>
        refine ⟨none,m,own,?_,owns,.refl root m own,by rintro _ ⟨⟩⟩
        rw [Memory.kalloc,free]
        rfl
      | cons f rest =>
        have managed := owns.pool.range f (by rw [free]; exact mem_cons_self)
        have positive : f ≠ 0 := Nat.ne_of_gt (Nat.lt_of_lt_of_le owns.pool.first managed.1)
        have small : f < 2^44 := Nat.lt_of_lt_of_le managed.2 owns.pool.last
        obtain ⟨owns1,grown1⟩ := owns.makeTable owned high (px_lt ..) half valid free
        obtain ⟨found,m',own',walked,owns',grown,there⟩ := ih owns1 (update_self ..) deep'
        rw [kalloc_cons free]
        dsimp only
        rw [if_neg positive]
        refine ⟨found,m',own',walked,owns',grown1.trans grown,fun t' same => ?_⟩
        have stored := grown.links t path (px (level + 1) va) (grown1.keeps t _ owned) high
        rw [Memory.pte_setPte] at stored
        rw [Memory.tableFrom,stored (valid_or _),if_pos (valid_or _),pte2pa_table small]
        exact there t' same

/-! Storing PTEs. -/

section
variable {va : Nat} {t : Frame} {pte : Pte}

theorem Owns.leafTable (owns : Owns m root limit own) (found : m.tableFrom va 2 root = some t) :
    own t = some (.table [px 2 va,px 1 va]) := tableFrom_owned owns.tree owns.rooted rfl found

theorem Owns.entry_at (owns : Owns m root limit own) (pte : Pte) (low : va < maxva) (found : m.tableFrom va 2 root = some t) {v : Nat}
    (inside : v < limit) : (m.setPte t (px 0 va) pte).entry root (v * pgsize) =
      if v = va / pgsize then pte else m.entry root (v * pgsize) := by
  have high : v * pgsize < maxva := Nat.lt_of_lt_of_le (Nat.mul_lt_mul_of_pos_right inside (by decide)) owns.top
  rw [entry_setPte owns.tree low high found,Nat.mul_div_cancel _ (by decide)]

/-- The PTE of va is stored; `own'` says who owns the pages now. -/
theorem Owns.setLeaf (owns : Owns m root limit own) (low : va < maxva) (found : m.tableFrom va 2 root = some t)
    (tables : ∀ f path, own' f = some (.table path) ↔ own f = some (.table path))
    (user : ∀ f v, own' f = some (.user v) ↔ v < limit ∧
      (if v = va / pgsize then pte else m.entry root (v * pgsize)) &&& pteV ≠ 0 ∧
        pte2pa (if v = va / pgsize then pte else m.entry root (v * pgsize)) = f)
    (held : ∀ f place, own' f = some place → m.first ≤ f ∧ f < m.last ∧ f ∉ m.freelist) :
    Owns (m.setPte t (px 0 va) pte) root limit own' := by
  have leaf := owns.leafTable found
  have linked : Linked m (m.setPte t (px 0 va) pte) own := linked_setPte leaf
  refine ⟨(tables root []).mpr owns.rooted,fun t' path k there high small valid => ?_,fun t' path k there high small valid => ?_,
    linked.reached owns.tree owns.reached fun f path => (tables f path).mp,fun f k path there => owns.low f k path ((tables f _).mp there),
    fun f v => ?_,held,⟨owns.pool.first,owns.pool.last,owns.pool.range,owns.pool.nodup⟩,owns.top⟩
  · rw [linked t' path k ((tables t' path).mp there) high] at valid ⊢
    exact (tables _ _).mpr (owns.child t' path k ((tables t' path).mp there) high small valid)
  · rw [linked t' path k ((tables t' path).mp there) high] at valid ⊢
    exact owns.bare t' path k ((tables t' path).mp there) high small valid
  · rw [user f v]
    refine and_congr_right fun inside => ?_
    rw [owns.entry_at pte low found inside]

theorem Owns.setForeign (owns : Owns m root limit own) (low : va < maxva) (high : limit ≤ va / pgsize)
    (found : m.tableFrom va 2 root = some t) : Owns (m.setPte t (px 0 va) pte) root limit own := by
  refine owns.setLeaf low found (fun _ _ => Iff.rfl) (fun f v => ?_) owns.held
  rw [owns.user f v]
  refine and_congr_right fun inside => ?_
  rw [if_neg (by omega)]

theorem Owns.setFlags (owns : Owns m root limit own) (low : va < maxva) (found : m.tableFrom va 2 root = some t)
    (valid : pte &&& pteV ≠ 0 ↔ m.entry root va &&& pteV ≠ 0) (page : pte2pa pte = pte2pa (m.entry root va)) :
    Owns (m.setPte t (px 0 va) pte) root limit own := by
  refine owns.setLeaf low found (fun _ _ => Iff.rfl) (fun f v => ?_) owns.held
  rw [owns.user f v]
  refine and_congr_right fun inside => ?_
  by_cases same : v = va / pgsize
  · have here : m.entry root (v * pgsize) = m.entry root va := entry_page (by rw [Nat.mul_div_cancel _ (by decide),same])
    rw [if_pos same,here,page,valid]
  · rw [if_neg same]

/-- A page that belongs to nobody is mapped. -/
theorem Owns.mapLeaf {f : Frame} (owns : Owns m root limit own) (low : va < maxva) (inside : va / pgsize < limit)
    (found : m.tableFrom va 2 root = some t) (invalid : m.entry root va &&& pteV = 0) (valid : pte &&& pteV ≠ 0)
    (page : pte2pa pte = f) (nobody : own f = none) (managed : m.first ≤ f ∧ f < m.last) (out : f ∉ m.freelist) :
    Owns (m.setPte t (px 0 va) pte) root limit (update own f (some (.user (va / pgsize)))) := by
  have here : m.entry root (va / pgsize * pgsize) = m.entry root va := entry_page (by rw [Nat.mul_div_cancel _ (by decide)])
  refine owns.setLeaf low found (fun g path => ?_) (fun g v => ?_) fun g place there => ?_
  · by_cases new : g = f
    · rw [new,update_self,nobody]
      exact ⟨nofun,nofun⟩
    · rw [update_of_ne new]
  · grind [owns.user,update_apply]
  · by_cases new : g = f
    · rw [new]
      exact ⟨managed.1,managed.2,out⟩
    · rw [update_of_ne new] at there
      exact owns.held g place there

/-- A page is unmapped and belongs to nobody then. -/
theorem Owns.unmapLeaf (owns : Owns m root limit own) (low : va < maxva) (inside : va / pgsize < limit)
    (found : m.tableFrom va 2 root = some t) (valid : m.entry root va &&& pteV ≠ 0) :
    own (pte2pa (m.entry root va)) = some (.user (va / pgsize)) ∧
      Owns (m.setPte t (px 0 va) 0) root limit (update own (pte2pa (m.entry root va)) none) := by
  have here : m.entry root (va / pgsize * pgsize) = m.entry root va := entry_page (by rw [Nat.mul_div_cancel _ (by decide)])
  have mine : own (pte2pa (m.entry root va)) = some (.user (va / pgsize)) :=
    (owns.user _ _).mpr ⟨inside,by rwa [here],by rw [here]⟩
  refine ⟨mine,owns.setLeaf low found (fun g path => ?_) (fun g v => ?_) fun g place there => ?_⟩
  · by_cases same : g = pte2pa (m.entry root va)
    · rw [same,update_self,mine]
      exact ⟨nofun,nofun⟩
    · rw [update_of_ne same]
  · by_cases same : v = va / pgsize
    · rw [if_pos same]
      refine ⟨fun there => ?_,fun all => absurd rfl all.2.1⟩
      by_cases gone : g = pte2pa (m.entry root va)
      · rw [gone,update_self] at there
        cases there
      · rw [update_of_ne gone,owns.user g v,same,here] at there
        exact absurd there.2.2.symm gone
    · rw [if_neg same,← owns.user g v]
      by_cases gone : g = pte2pa (m.entry root va)
      · rw [gone,update_self,mine]
        refine ⟨nofun,fun other => ?_⟩
        cases other
        exact absurd rfl same
      · rw [update_of_ne gone]
  · by_cases gone : g = pte2pa (m.entry root va)
    · rw [gone,update_self] at there
      cases there
    · rw [update_of_ne gone] at there
      exact owns.held g place there

end

end Xv6.Vm
