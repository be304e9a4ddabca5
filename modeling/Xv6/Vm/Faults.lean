import Xv6.Vm.Strings

/-! What a page fault costs. walk takes one page of the freelist for each table
that is missing on the way to a PTE, and vmfault one more for the page itself; it
fails only if there are fewer. -/
namespace Xv6.Vm
open Lib.Bytes Function List

variable {m m' : Memory} {root : Frame} {own own' : Frame → Option Place}
variable {f t : Frame} {own2 : Frame → Option Place} {pages : List Frame} {below path : List Nat} {m2 : Memory}
  {k level : Nat} {found : Option Frame}

namespace Memory

def reach (m : Memory) : (path : List Nat) → (t : Frame) → Option Frame
  | [], t => some t
  | k :: path, t => if m.pte t k &&& pteV ≠ 0 then reach m path (pte2pa (m.pte t k)) else none

def missing (m : Memory) (va : Nat) : (level : Nat) → (t : Frame) → Nat
  | 0, _ => 0
  | level + 1, t =>
    if m.pte t (px (level + 1) va) &&& pteV ≠ 0 then missing m va level (pte2pa (m.pte t (px (level + 1) va))) else level + 1

theorem reach_append (m : Memory) (first second : List Nat) (t : Frame) :
    m.reach (first ++ second) t = (m.reach first t).bind fun u => m.reach second u := by
  induction first generalizing t with
  | nil => rfl
  | cons k first ih =>
    rw [cons_append,reach,reach]
    split_ifs
    · exact ih _
    · rfl

theorem reach_indices (m : Memory) (va level : Nat) (t : Frame) : m.reach (indices va level) t = m.tableFrom va level t := by
  induction level generalizing t with
  | zero => rfl
  | succ level ih =>
    rw [indices,reach,tableFrom]
    split_ifs
    · exact ih _
    · rfl

theorem missing_empty {va : Nat} (empty : ∀ k, m.pte t k = 0) : m.missing va level t = level := by
  cases level with
  | zero => rfl
  | succ level => simp [missing,empty]

end Memory

/-- A table that belongs to the address space is where its path leads to. -/
def Reached (m : Memory) (root : Frame) (own : Frame → Option Place) : Prop :=
  ∀ f path, own f = some (.table path) → path.length ≤ 2 ∧ (∀ k ∈ path, k < 512) ∧ m.reach path root = some f

theorem reach_owned (tree : Tree m root own) (owned : own t = some (.table path))
    (deep : path.length + below.length ≤ 2) (small : ∀ k ∈ below, k < 512) (found : m.reach below t = some f) :
    own f = some (.table (path ++ below)) := by
  induction below generalizing t path with
  | nil =>
    cases found
    rwa [append_nil]
  | cons k below ih =>
    rw [length_cons] at deep
    rw [Memory.reach] at found
    split_ifs at found with valid
    have child := tree.child t path k owned (by omega) (small k mem_cons_self) valid
    rw [append_cons]
    exact ih child (by rw [length_append,length_singleton]; omega)
      (fun k' member => small k' (mem_cons_of_mem _ member)) found

theorem reach_links (tree : Tree m root own)
    (links : ∀ t path k, own t = some (.table path) → path.length < 2 → m.pte t k &&& pteV ≠ 0 → m'.pte t k = m.pte t k)
    (owned : own t = some (.table path)) (deep : path.length + below.length ≤ 2) (small : ∀ k ∈ below, k < 512)
    (found : m.reach below t = some f) : m'.reach below t = some f := by
  induction below generalizing t path with
  | nil => exact found
  | cons k below ih =>
    rw [length_cons] at deep
    rw [Memory.reach] at found
    split_ifs at found with valid
    have child := tree.child t path k owned (by omega) (small k mem_cons_self) valid
    rw [Memory.reach,links t path k owned (by omega) valid,if_pos valid]
    exact ih child (by rw [length_append,length_singleton]; omega)
      (fun k' member => small k' (mem_cons_of_mem _ member)) found

theorem Grows.reach (grows : Grows root m m' own own') (space : Space m root own)
    (owned : own t = some (.table path)) (deep : path.length + below.length ≤ 2) (small : ∀ k ∈ below, k < 512)
    (found : m.reach below t = some f) : m'.reach below t = some f :=
  reach_links space.tree grows.links owned deep small found

theorem Grows.reached (grows : Grows root m m' own own') (space : Space m root own) (reached : Reached m root own)
    (owned : own f = some (.table path)) : m'.reach path root = some f := by
  obtain ⟨deep,small,found⟩ := reached f path owned
  exact grows.reach space space.root (by simpa using deep) small found

/-- What walk with alloc has done on its way from a table at `path`: `new` says
which pages are tables now. -/
structure Walks (root : Frame) (va level : Nat) (t : Frame) (path : List Nat) (m : Memory) (own : Frame → Option Place)
    (found : Option Frame) (m' : Memory) (own' : Frame → Option Place) : Prop where
  grows : Grows root m m' own own'
  reached : Reached m' root own'
  table : ∀ t', found = some t' → m'.tableFrom va level t = some t' ∧ own' t' = some (.table (path ++ indices va level))
  new : ∀ f place, own' f = some place → own f = some place ∨ ∃ more, place = .table (path ++ more) ∧ more <+: indices va level
  taken : m'.freelist = m.freelist.drop (m.missing va level t)
  enough : found.isSome = true ↔ m.missing va level t ≤ m.freelist.length

theorem Reached.table {rest : List Frame} (space : Space m root own)
    (reached : Reached m root own) (owned : own t = some (.table path)) (high : path.length < 2) (small : k < 512)
    (invalid : ¬m.pte t k &&& pteV ≠ 0) (free : m.freelist = f :: rest) :
    Reached (({ m with freelist := rest }.fill f 5).fill f 0 |>.setPte t k (pa2pte f ||| pteV)) root
      (update own f (some (.table (path ++ [k])))) := by
  have grows := table_grows space owned high invalid free
  obtain ⟨-,-,range⟩ := space.free f (by rw [free]; exact mem_cons_self)
  intro g path' there
  rw [update_apply] at there
  split_ifs at there with new
  · cases there
    obtain ⟨-,bound,-⟩ := reached t path owned
    refine ⟨by rw [length_append,length_singleton]; omega,fun k' member => ?_,?_⟩
    · rcases mem_append.mp member with inside | last
      · exact bound k' inside
      · rw [mem_singleton.mp last]
        exact small
    · rw [Memory.reach_append,grows.reached space reached owned,Option.bind_some,Memory.reach,Memory.pte_setPte,
        if_pos (valid_or _),pte2pa_table range,new]
      rfl
  · obtain ⟨deep,bound,-⟩ := reached g path' there
    exact ⟨deep,bound,grows.reached space reached there⟩

theorem walkFrom_walks (va level : Nat) (space : Space m root own) (reached : Reached m root own)
    (owned : own t = some (.table path)) (deep : path.length + level = 2) :
    ∃ found m' own', Memory.walkFrom va true level t m = (found,m') ∧ Walks root va level t path m own found m' own' := by
  induction level generalizing m own t path with
  | zero =>
    refine ⟨some t,m,own,rfl,.refl space,reached,fun t' same => ?_,fun f place there => .inl there,rfl,?_⟩
    · cases same
      exact ⟨rfl,by rw [indices,append_nil]; exact owned⟩
    · exact ⟨fun _ => Nat.zero_le _,fun _ => rfl⟩
  | succ level ih =>
    have high : path.length < 2 := by omega
    have deep' : (path ++ [px (level + 1) va]).length + level = 2 := by
      rw [length_append,length_singleton]
      omega
    -- a path below the entry is one below the table
    have onPath : ∀ place, (∃ more, place = Place.table (path ++ [px (level + 1) va] ++ more) ∧ more <+: indices va level) →
        ∃ more, place = .table (path ++ more) ∧ more <+: indices va (level + 1) := by
      rintro place ⟨more,rfl,initial⟩
      exact ⟨px (level + 1) va :: more,by rw [append_assoc]; rfl,cons_prefix_cons.mpr ⟨rfl,initial⟩⟩
    have cost : m.missing va (level + 1) t = if m.pte t (px (level + 1) va) &&& pteV ≠ 0 then
        m.missing va level (pte2pa (m.pte t (px (level + 1) va))) else level + 1 := rfl
    rw [Memory.walkFrom,Memory.below]
    by_cases valid : m.pte t (px (level + 1) va) &&& pteV ≠ 0
    · have child := space.child t path _ owned high (px_lt ..) valid
      obtain ⟨found,m',own',walked,walks⟩ := ih space reached child deep'
      rw [if_pos valid] at cost ⊢
      refine ⟨found,m',own',walked,walks.grows,walks.reached,fun t' same => ?_,fun f place there => ?_,
        by rw [cost]; exact walks.taken,by rw [cost]; exact walks.enough⟩
      · obtain ⟨table,place⟩ := walks.table t' same
        refine ⟨?_,by rw [indices,append_cons]; exact place⟩
        rw [Memory.tableFrom,walks.grows.links t path _ owned high valid,if_pos valid]
        exact table
      · exact (walks.new f place there).imp id (onPath place)
    · rw [if_neg valid] at cost ⊢
      rw [if_pos rfl]
      cases free : m.freelist with
      | nil =>
        refine ⟨none,m,own,?_,.refl space,reached,by rintro _ ⟨⟩,fun f place there => .inl there,by rw [free,drop_nil],?_⟩
        · rw [Memory.kalloc,free]
          rfl
        · rw [free,cost]
          exact ⟨by rintro ⟨⟩,fun enough => absurd enough (by simp)⟩
      | cons f rest =>
        obtain ⟨nobody,positive,small⟩ := space.free f (by rw [free]; exact mem_cons_self)
        have apart : t ≠ f := by
          rintro rfl
          rw [owned] at nobody
          cases nobody
        have grows := table_grows space owned high valid free
        have reached1 := reached.table space owned high (px_lt ..) valid free
        have new : update own f (some (.table (path ++ [px (level + 1) va]))) f =
            some (.table (path ++ [px (level + 1) va])) := update_self ..
        obtain ⟨found,m',own',walked,walks⟩ := ih grows.space reached1 new deep'
        have empty : ∀ j, (({ m with freelist := rest }.fill f 5).fill f 0 |>.setPte t (px (level + 1) va)
            (pa2pte f ||| pteV)).pte f j = 0 := by
          intro j
          rw [Memory.pte_setPte_ne (fun same => apart same.1.symm),Memory.pte_fill_zero]
        have taken := walks.taken
        have enough := walks.enough
        rw [Memory.missing_empty empty] at taken enough
        rw [kalloc_cons free]
        dsimp only
        rw [if_neg (Nat.ne_of_gt positive)]
        refine ⟨found,m',own',walked,grows.trans walks.grows,walks.reached,fun t' same => ?_,fun g place there => ?_,?_,?_⟩
        · obtain ⟨table,place⟩ := walks.table t' same
          refine ⟨?_,by rw [indices,append_cons]; exact place⟩
          have stored := walks.grows.links t path (px (level + 1) va) (grows.keeps t _ owned) high
          rw [Memory.pte_setPte] at stored
          rw [Memory.tableFrom,stored (valid_or _),if_pos (valid_or _),pte2pa_table small]
          exact table
        · rcases walks.new g place there with old | later
          · rw [update_apply] at old
            split_ifs at old with mine
            · cases old
              exact .inr (onPath _ ⟨[],by rw [append_nil], nil_prefix⟩)
            · exact .inl old
          · exact .inr (onPath place later)
        · rw [taken,free,cost]
          rfl
        · rw [enough,free,cost,length_cons]
          exact Nat.succ_le_succ_iff.symm

/-! Address spaces. -/

structure Confined (m m' : Memory) (own own' : Frame → Option Place) (pages : List Frame) : Prop where
  keeps : ∀ f place, own f = some place → own' f = some place
  fresh : ∀ f, own f = none → f ∉ m.freelist → own' f = none
  free : ∀ f ∈ m'.freelist, f ∈ m.freelist
  others : ∀ f, (∀ path, own f ≠ some (.table path)) → f ∉ m.freelist → f ∉ pages → m'.page f = m.page f

theorem Confined.refl (m : Memory) (own : Frame → Option Place) : Confined m m own own [] :=
  ⟨fun _ _ => id,fun _ none _ => none,fun _ => id,fun _ _ _ _ => rfl⟩

theorem Confined.trans {m'' : Memory} {own'' : Frame → Option Place} {pages' : List Frame}
    (first : Confined m m' own own' pages) (second : Confined m' m'' own' own'' pages') :
    Confined m m'' own own'' (pages ++ pages') := by
  refine ⟨fun f place owned => second.keeps f place (first.keeps f place owned),fun f none out => ?_,
    fun f inside => first.free f (second.free f inside),fun f table out elsewhere => ?_⟩
  · exact second.fresh f (first.fresh f none out) fun inside => out (first.free f inside)
  · rw [mem_append,not_or] at elsewhere
    have table' : ∀ path, own' f ≠ some (.table path) := by
      intro path now
      cases before : own f with
      | none =>
        rw [first.fresh f before out] at now
        cases now
      | some place =>
        rw [first.keeps f place before] at now
        cases now
        exact table path before
    rw [second.others f table' (fun inside => out (first.free f inside)) elsewhere.2,first.others f table out elsewhere.1]

/-- The shape of the address space of a process: `own` are the pages that belong
to it, the tables each at its path and the user pages each at one address. Besides
the two pages of the trampoline, which have no PTE_U and belong to the kernel, only
pages below p->sz are mapped. -/
structure AddressSpace (m : Memory) (p : Proc) (own : Frame → Option Place) : Prop where
  space : Space m p.pagetable own
  reached : Reached m p.pagetable own
  sz : p.sz ≤ trapframe
  null : own 0 = none
  range : ∀ f ∈ m.freelist, m.first ≤ f ∧ f < m.last
  traps : ∀ w, w = trapframe ∨ w = trampoline → m.entry p.pagetable w &&& pteV ≠ 0 ∧ m.entry p.pagetable w &&& pteU = 0 ∧
    own (pte2pa (m.entry p.pagetable w)) = none ∧ pte2pa (m.entry p.pagetable w) ∉ m.freelist
  leaves : ∀ w < maxva, m.entry p.pagetable w &&& pteV ≠ 0 → m.entry p.pagetable w &&& pteR ≠ 0 ∧
    (pgrounddown w < p.sz ∨ pgrounddown w = trapframe ∨ pgrounddown w = trampoline)

variable {p : Proc}

/-- The address space after a change that leaves the entries alone. -/
theorem AddressSpace.still (shape : AddressSpace m p own) (confined : Confined m m' own own' pages)
    (space : Space m' p.pagetable own') (reached : Reached m' p.pagetable own') (range : m'.first = m.first ∧ m'.last = m.last)
    (null : own' 0 = none) (entries : ∀ w < maxva, m'.entry p.pagetable w = m.entry p.pagetable w) : AddressSpace m' p own' := by
  refine ⟨space,reached,shape.sz,null,fun f inside => ?_,fun w trap => ?_,fun w low valid => ?_⟩
  · rw [range.1,range.2]
    exact shape.range f (confined.free f inside)
  · obtain ⟨valid,user,nobody,out⟩ := shape.traps w trap
    have low : w < maxva := by rcases trap with rfl | rfl <;> decide
    rw [entries w low]
    exact ⟨valid,user,confined.fresh _ nobody out,fun inside => out (confined.free _ inside)⟩
  · rw [entries w low] at valid ⊢
    exact shape.leaves w low valid

/-! Page faults. -/

def Linked (m m' : Memory) (own : Frame → Option Place) : Prop :=
  ∀ t path k, own t = some (.table path) → path.length < 2 → m'.pte t k = m.pte t k

theorem Linked.missing (linked : Linked m m' own) (tree : Tree m root own) {va : Nat}
    (owned : own t = some (.table path)) (deep : path.length + level = 2) : m'.missing va level t = m.missing va level t := by
  induction level generalizing t path with
  | zero => rfl
  | succ level ih =>
    rw [Memory.missing,Memory.missing,linked t path _ owned (by omega)]
    split_ifs with valid
    · refine ih (tree.child t path _ owned (by omega) (px_lt ..) valid) ?_
      rw [length_append,length_singleton]
      omega
    · rfl

theorem Linked.reach (linked : Linked m m' own) (tree : Tree m root own) (owned : own t = some (.table path))
    (deep : path.length + below.length ≤ 2) (small : ∀ k ∈ below, k < 512) :
    m'.reach below t = m.reach below t := by
  induction below generalizing t path with
  | nil => rfl
  | cons k below ih =>
    rw [length_cons] at deep
    rw [Memory.reach,Memory.reach,linked t path k owned (by omega)]
    split_ifs with valid
    · refine ih (tree.child t path k owned (by omega) (small k mem_cons_self) valid) ?_ fun k' member =>
        small k' (mem_cons_of_mem _ member)
      rw [length_append,length_singleton]
      omega
    · rfl

theorem Linked.reached (linked : Linked m m' own) (tree : Tree m root own) (reached : Reached m root own)
    (tables : ∀ f path, own' f = some (.table path) → own f = some (.table path)) : Reached m' root own' := by
  intro f path owned
  obtain ⟨deep,small,found⟩ := reached f path (tables f path owned)
  exact ⟨deep,small,by rw [linked.reach tree tree.root (by simpa using deep) small]; exact found⟩

theorem linked_setPage {page : Page} (table : ∀ path, own f ≠ some (.table path)) : Linked m
    (m.setPage f page) own := by
  intro t path k owned _
  have other : t ≠ f := by
    rintro rfl
    exact table path owned
  simp [Memory.pte,Memory.setPage,other]

theorem linked_setPte {i j : Nat} {pte : Pte} (leaf : own t = some (.table [i,j])) : Linked m
    (m.setPte t k pte) own := by
  intro g path k' owned high
  refine Memory.pte_setPte_ne ?_
  rintro ⟨rfl,-⟩
  rw [leaf] at owned
  cases owned
  exact absurd high (by simp)

theorem walkFrom_bounds (va level : Nat) (alloc : Bool) (t : Frame) (m : Memory) :
    (Memory.walkFrom va alloc level t m).2.first = m.first ∧ (Memory.walkFrom va alloc level t m).2.last = m.last := by
  induction level generalizing t m with
  | zero => exact ⟨rfl,rfl⟩
  | succ level ih =>
    have below : ∀ k, (m.below t k alloc).2.first = m.first ∧ (m.below t k alloc).2.last = m.last := by
      intro k
      have taken : m.kalloc.2.first = m.first ∧ m.kalloc.2.last = m.last := by
        unfold Memory.kalloc
        split <;> exact ⟨rfl,rfl⟩
      unfold Memory.below
      dsimp only
      split_ifs
      · exact ⟨rfl,rfl⟩
      · exact taken
      · exact taken
      · exact ⟨rfl,rfl⟩
    have start := below (px (level + 1) va)
    rw [Memory.walkFrom]
    split
    next t' m1 stopped =>
      rw [stopped] at start
      exact start
    next t' m1 found =>
      rw [found] at start
      obtain ⟨first,last⟩ := ih t' m1
      exact ⟨first.trans start.1,last.trans start.2⟩

/-- vmfault has mapped the page `mem` of the freelist at va. -/
structure Maps (p : Proc) (va : Nat) (m : Memory) (mem : Frame) (m' : Memory) : Prop where
  entries : ∀ w < maxva, m'.entry p.pagetable w =
    if w / pgsize = va / pgsize then pa2pte mem ||| (pteW ||| pteU ||| pteR) ||| pteV else m.entry p.pagetable w
  small : mem < 2^44
  zero : ∀ k, m'.page mem k = 0
  tables : ∀ path, path.length ≤ 2 → (∀ k ∈ path, k < 512) →
    ((m'.reach path p.pagetable).isSome = true ↔ (m.reach path p.pagetable).isSome = true ∨ path <+: indices va 2)
  taken : m'.freelist = m.freelist.drop (1 + m.missing va 2 p.pagetable)
  member : mem ∈ m.freelist

theorem entries_of_tables (tree : Tree m root own)
    (same : ∀ f path, own f = some (.table path) → m'.page f = m.page f) {va : Nat}
    (owned : own t = some (.table path)) (deep : path.length + level = 2) :
    m'.entryFrom va level t = m.entryFrom va level t := by
  have pte : ∀ t path k, own t = some (.table path) → m'.pte t k = m.pte t k := by
    intro t path k owned
    rw [Memory.pte,Memory.pte,same t _ owned]
  induction level generalizing t path with
  | zero => exact pte t path _ owned
  | succ level ih =>
    rw [Memory.entryFrom_succ,Memory.entryFrom_succ,pte t path _ owned]
    split_ifs with valid
    · refine ih (tree.child t path _ owned (by omega) (px_lt ..) valid) ?_
      rw [length_append,length_singleton]
      omega
    · rfl

theorem Space.outside (space : Space m root own) (same : ∀ f path, own f = some (.table path) → m'.page f = m.page f)
    (free : ∀ f ∈ m'.freelist, own f = none ∧ 0 < f ∧ f < 2^44) (nodup : m'.freelist.Nodup) : Space m' root own := by
  have pte : ∀ t path k, own t = some (.table path) → m'.pte t k = m.pte t k := by
    intro t path k owned
    rw [Memory.pte,Memory.pte,same t _ owned]
  refine ⟨space.root,fun t path k owned => ?_,fun t i j k owned => ?_,free,nodup⟩
  · rw [pte t path k owned]
    exact space.child t path k owned
  · rw [pte t _ k owned]
    exact space.leaf t i j k owned

theorem mappages_walk {va : Nat} {perm : Pte} (aligned : va % pgsize = 0) (low : va < maxva)
    (walked : Memory.walkFrom va true 2 root m = (found,m')) :
    m.mappages root va pgsize f perm = match found with
      | none => .ok (false,m')
      | some t => if m'.pte t (px 0 va) &&& pteV ≠ 0 then .error .remap
        else .ok (true,m'.setPte t (px 0 va) (pa2pte f ||| perm ||| pteV)) := by
  have walk : m.walk root va true = .ok (found.map fun t => (t,px 0 va),m') := by
    rw [Memory.walk,if_neg (by omega),walked]
  unfold Memory.mappages
  rw [if_neg (by omega),if_neg (by decide),if_neg (by decide),show pgsize / pgsize = 0 + 1 from rfl,Memory.mapFrom,walk]
  cases found with
  | none => rfl
  | some t => rfl

theorem flags_or (pte : Pte) : (pte ||| (pteW ||| pteU ||| pteR) ||| pteV) &&& pteR ≠ 0 ∧
    (pte ||| (pteW ||| pteU ||| pteR) ||| pteV) &&& pteW ≠ 0 := by
  constructor
  · intro zero
    have bit := congrArg (fun x : Pte => x.getLsbD 1) zero
    simp [pteV,pteU,pteR,pteW] at bit
  · intro zero
    have bit := congrArg (fun x : Pte => x.getLsbD 2) zero
    simp [pteV,pteU,pteR,pteW] at bit

section
variable {va mem : Nat} {rest : List Frame}

def fetched (m : Memory) (rest : List Frame) (f : Frame) : Memory := ({ m with freelist := rest }.fill f 5).fill f 0

theorem fetched_page {g : Frame} (other : g ≠ mem) : (fetched m rest mem).page g = m.page g := by
  simp [fetched,Memory.fill,Memory.setPage,other]

theorem AddressSpace.fetched (shape : AddressSpace m p own) (free : m.freelist = mem :: rest) :
    Grows p.pagetable m (fetched m rest mem) own own ∧ Linked m (fetched m rest mem) own ∧
      Reached (Vm.fetched m rest mem) p.pagetable own := by
  have grows := alloc_grows shape.space free
  obtain ⟨nobody,-,-⟩ := shape.space.free mem (by rw [free]; exact mem_cons_self)
  have linked : Linked m (Vm.fetched m rest mem) own := by
    intro t path k owned _
    have other : t ≠ mem := by
      rintro rfl
      rw [owned] at nobody
      cases nobody
    rw [Memory.pte,Memory.pte,fetched_page other]
  exact ⟨grows,linked,linked.reached shape.space.tree shape.reached fun _ _ => id⟩

theorem AddressSpace.null_fresh (shape : AddressSpace m p own) (confined : Confined m m' own own' pages) :
    own' 0 = none := by
  refine confined.fresh 0 shape.null fun inside => ?_
  have positive := (shape.space.free 0 inside).2.1
  exact Nat.lt_irrefl 0 positive

/-- The page cannot be mapped for want of a table and goes back to the freelist. -/
theorem AddressSpace.giveBack (shape : AddressSpace m p own)
    (free : m.freelist = mem :: rest) (bounds : m2.first = m.first ∧ m2.last = m.last)
    (walks : Walks p.pagetable va 2 p.pagetable [] (Vm.fetched m rest mem) own found m2 own2) :
    ∃ m', m2.kfree mem = .ok m' ∧ AddressSpace m' p own2 ∧ Confined m m' own own2 [] ∧
      ∀ w < maxva, m'.entry p.pagetable w = m.entry p.pagetable w := by
  obtain ⟨first,last⟩ := shape.range mem (by rw [free]; exact mem_cons_self)
  obtain ⟨nobody,positive,small⟩ := shape.space.free mem (by rw [free]; exact mem_cons_self)
  have nodup := shape.space.nodup
  rw [free] at nodup
  have out : mem ∉ rest := (nodup_cons.mp nodup).1
  obtain ⟨grows,-,-⟩ := shape.fetched free
  have total := grows.trans walks.grows
  have nobody2 : own2 mem = none := walks.grows.fresh mem nobody out
  have kept : mem ∉ m2.freelist := fun inside => out (walks.grows.free mem inside)
  have pages : ∀ g, g ≠ mem → ({ m2.fill mem 1 with freelist := mem :: m2.freelist } : Memory).page g = m2.page g := by
    intro g other
    simp [Memory.fill,Memory.setPage,other]
  have owned : ∀ g path, own2 g = some (.table path) →
      ({ m2.fill mem 1 with freelist := mem :: m2.freelist } : Memory).page g = m2.page g := by
    intro g path there
    refine pages g ?_
    rintro rfl
    rw [nobody2] at there
    cases there
  have confined : Confined m { m2.fill mem 1 with freelist := mem :: m2.freelist } own own2 [] := by
    refine ⟨total.keeps,total.fresh,fun g inside => ?_,fun g table outside _ => ?_⟩
    · rcases mem_cons.mp inside with rfl | later
      · rw [free]
        exact mem_cons_self
      · exact total.free g later
    · have other : g ≠ mem := by
        rintro rfl
        exact outside (by rw [free]; exact mem_cons_self)
      rw [pages g other,total.others g table outside]
  have entries : ∀ w < maxva, ({ m2.fill mem 1 with freelist := mem :: m2.freelist } : Memory).entry p.pagetable w =
      m.entry p.pagetable w := by
    intro w _
    rw [Memory.entry,entries_of_tables walks.grows.space.tree owned walks.grows.space.root rfl,
      total.entries w 2 p.pagetable [] shape.space.root rfl]
    rfl
  refine ⟨_,?_,shape.still confined (walks.grows.space.outside owned (fun g inside => ?_) ?_) ?_ bounds
    (shape.null_fresh confined) entries,confined,entries⟩
  · rw [Memory.kfree,bounds.1,bounds.2,if_neg (not_or.mpr ⟨Nat.not_lt.mpr first,Nat.not_le.mpr last⟩)]
  · rcases mem_cons.mp inside with rfl | later
    · exact ⟨nobody2,positive,small⟩
    · exact walks.grows.space.free g later
  · exact nodup_cons.mpr ⟨kept,walks.grows.space.nodup⟩
  · refine Linked.reached (fun t path k there _ => ?_) walks.grows.space.tree walks.reached fun _ _ => id
    rw [Memory.pte,Memory.pte,owned t _ there]

/-- The page is mapped at va. -/
theorem AddressSpace.mapPage (shape : AddressSpace m p own)
    (free : m.freelist = mem :: rest) (bounds : m2.first = m.first ∧ m2.last = m.last) (aligned : va % pgsize = 0)
    (low : va < maxva) (inside : va < p.sz)
    (walks : Walks p.pagetable va 2 p.pagetable [] (Vm.fetched m rest mem) own (some t) m2 own2) :
    AddressSpace (m2.setPte t (px 0 va) (pa2pte mem ||| (pteW ||| pteU ||| pteR) ||| pteV)) p
        (update own2 mem (some (.user (vpn va)))) ∧
      Confined m (m2.setPte t (px 0 va) (pa2pte mem ||| (pteW ||| pteU ||| pteR) ||| pteV)) own
        (update own2 mem (some (.user (vpn va)))) [] ∧
      Maps p va m mem (m2.setPte t (px 0 va) (pa2pte mem ||| (pteW ||| pteU ||| pteR) ||| pteV)) := by
  obtain ⟨nobody,positive,small⟩ := shape.space.free mem (by rw [free]; exact mem_cons_self)
  have nodup := shape.space.nodup
  rw [free] at nodup
  have out : mem ∉ rest := (nodup_cons.mp nodup).1
  obtain ⟨grows,linked1,-⟩ := shape.fetched free
  have total := grows.trans walks.grows
  obtain ⟨table,leaf⟩ := walks.table t rfl
  have nobody2 : own2 mem = none := walks.grows.fresh mem nobody out
  have kept : mem ∉ m2.freelist := fun inside => out (walks.grows.free mem inside)
  have low10 : (pteW ||| pteU ||| pteR) >>> 10 = 0 := by decide
  have page : ∀ g, g ≠ t → (m2.setPte t (px 0 va) (pa2pte mem ||| (pteW ||| pteU ||| pteR) ||| pteV)).page g = m2.page g :=
    fun g other => update_of_ne other ..
  have tables : ∀ g path, update own2 mem (some (.user (vpn va))) g = some (.table path) → own2 g = some (.table path) := by
    intro g path there
    rw [update_apply] at there
    split_ifs at there with mine
    · cases there
    · exact there
  have entries : ∀ w < maxva, (m2.setPte t (px 0 va) (pa2pte mem ||| (pteW ||| pteU ||| pteR) ||| pteV)).entry p.pagetable w =
      if w / pgsize = va / pgsize then pa2pte mem ||| (pteW ||| pteU ||| pteR) ||| pteV else m.entry p.pagetable w := by
    intro w high
    rw [entry_setPte total.space.tree low high table]
    have before : m2.entry p.pagetable w = m.entry p.pagetable w := total.entries w 2 _ [] shape.space.root rfl
    rw [before]
  have linked2 : Linked m2 (m2.setPte t (px 0 va) (pa2pte mem ||| (pteW ||| pteU ||| pteR) ||| pteV)) own2 := linked_setPte leaf
  have confined : Confined m (m2.setPte t (px 0 va) (pa2pte mem ||| (pteW ||| pteU ||| pteR) ||| pteV)) own
      (update own2 mem (some (.user (vpn va)))) [] := by
    refine ⟨fun g place there => ?_,fun g none outside => ?_,total.free,fun g notTable outside _ => ?_⟩
    · have other : g ≠ mem := by
        rintro rfl
        rw [nobody] at there
        cases there
      rw [update_of_ne other]
      exact total.keeps g place there
    · have other : g ≠ mem := by
        rintro rfl
        exact outside (by rw [free]; exact mem_cons_self)
      rw [update_of_ne other]
      exact total.fresh g none outside
    · have other : g ≠ t := by
        rintro rfl
        cases before : own g with
        | none =>
          rw [total.fresh g before outside] at leaf
          cases leaf
        | some place =>
          rw [total.keeps g place before] at leaf
          cases leaf
          exact notTable _ before
      rw [page g other,total.others g notTable outside]
  have base : ∀ w, w / pgsize = va / pgsize → pgrounddown w = va := by
    intro w same
    rw [pgrounddown,same]
    have split := Nat.div_add_mod va pgsize
    rw [Nat.mul_comm]
    omega
  have traps : ∀ w, w = trapframe ∨ w = trampoline → w < maxva ∧ ¬w / pgsize = va / pgsize := by
    intro w trap
    have sz := shape.sz
    refine ⟨by rcases trap with rfl | rfl <;> decide,fun same => ?_⟩
    have here := base w same
    have least : trapframe ≤ pgrounddown w := by rcases trap with rfl | rfl <;> decide
    omega
  have space := map_space total.space table nobody2 kept small low10
  refine ⟨⟨space,linked2.reached total.space.tree walks.reached tables,shape.sz,shape.null_fresh confined,fun g inside' => ?_,
    fun w trap => ?_,fun w high valid => ?_⟩,confined,entries,small,fun k => ?_,fun path deep bound => ?_,?_,?_⟩
  · change m2.first ≤ g ∧ g < m2.last
    rw [bounds.1,bounds.2]
    exact shape.range g (total.free g inside')
  · obtain ⟨high,other⟩ := traps w trap
    obtain ⟨valid,user,nobody',outside⟩ := shape.traps w trap
    rw [entries w high,if_neg other]
    exact ⟨valid,user,confined.fresh _ nobody' outside,fun inside' => outside (total.free _ inside')⟩
  · rw [entries w high] at valid ⊢
    split_ifs at valid ⊢ with same
    · exact ⟨(flags_or _).1,.inl (by rw [base w same]; exact inside)⟩
    · exact shape.leaves w high valid
  · have other : mem ≠ t := by
      rintro rfl
      rw [nobody2] at leaf
      cases leaf
    rw [page mem other,walks.grows.others mem (fun path there => by rw [nobody] at there; cases there) out]
    simp [Vm.fetched,Memory.fill,Memory.setPage]
  · rw [linked2.reach total.space.tree total.space.root (by simpa using deep) bound]
    constructor
    · intro some
      obtain ⟨g,found⟩ := Option.isSome_iff_exists.mp some
      have there := reach_owned total.space.tree total.space.root (by simpa using deep) bound found
      rw [nil_append] at there
      rcases walks.new g _ there with old | ⟨more,same,initial⟩
      · left
        rw [(shape.reached g _ old).2.2]
        rfl
      · right
        cases same
        exact initial
    · rintro (old | ⟨more,same⟩)
      · obtain ⟨g,found⟩ := Option.isSome_iff_exists.mp old
        rw [total.reach shape.space shape.space.root (by simpa using deep) bound found]
        rfl
      · have whole := m2.reach_indices va 2 p.pagetable
        rw [← same,Memory.reach_append,table] at whole
        cases found : m2.reach path p.pagetable with
        | none =>
          rw [found] at whole
          cases whole
        | some g => rfl
  · change m2.freelist = _
    rw [walks.taken,linked1.missing shape.space.tree shape.space.root rfl,free,Nat.add_comm]
    rfl
  · rw [free]
    exact mem_cons_self

/-- A fault at a page below p->sz that is not mapped: it never panics, and it fails
only if there are too few pages for the page and its tables. -/
theorem faultPage_spec (shape : AddressSpace m p own) (aligned : va % pgsize = 0) (low : va < maxva) (inside : va < p.sz)
    (invalid : m.entry p.pagetable va &&& pteV = 0) :
    ∃ mem m' own', m.faultPage p va = .ok (mem,m') ∧ AddressSpace m' p own' ∧ Confined m m' own own' [] ∧
      (mem ≠ 0 ↔ 1 + m.missing va 2 p.pagetable ≤ m.freelist.length) ∧
      (mem ≠ 0 → Maps p va m mem m' ∧ own' mem = some (.user (vpn va))) ∧
      (mem = 0 → ∀ w < maxva, m'.entry p.pagetable w = m.entry p.pagetable w) := by
  unfold Memory.faultPage
  cases free : m.freelist with
  | nil =>
    refine ⟨0,m,own,by rw [Memory.kalloc,free]; rfl,shape,.refl m own,?_,fun some => absurd rfl some,fun _ _ _ => rfl⟩
    rw [length_nil]
    exact ⟨fun some => absurd rfl some,fun some => absurd some (by omega)⟩
  | cons mem rest =>
    obtain ⟨-,positive,-⟩ := shape.space.free mem (by rw [free]; exact mem_cons_self)
    obtain ⟨grows,linked,reached⟩ := shape.fetched free
    obtain ⟨found,m2,own2,walked,walks⟩ := walkFrom_walks va 2 grows.space reached grows.space.root rfl
    have bounds : m2.first = m.first ∧ m2.last = m.last := by
      have same := walkFrom_bounds va 2 true p.pagetable (fetched m rest mem)
      rw [walked] at same
      exact same
    have enough := walks.enough
    rw [linked.missing shape.space.tree shape.space.root rfl] at enough
    change found.isSome = true ↔ _ ≤ rest.length at enough
    rw [kalloc_cons free]
    dsimp only
    rw [if_neg (Nat.ne_of_gt positive)]
    rw [show Memory.fill (Memory.fill { m with freelist := rest } mem 5) mem 0 = fetched m rest mem from rfl,
      mappages_walk aligned low walked,length_cons]
    cases found with
    | none =>
      obtain ⟨m3,freed,shape3,confined,entries⟩ := shape.giveBack free bounds walks
      refine ⟨0,m3,own2,by dsimp only; rw [freed]; rfl,shape3,confined,?_,fun some => absurd rfl some,fun _ => entries⟩
      have short : ¬m.missing va 2 p.pagetable ≤ rest.length := fun some => by cases enough.mpr some
      exact ⟨fun some => absurd rfl some,fun some => absurd some (by omega)⟩
    | some t =>
      obtain ⟨table,-⟩ := walks.table t rfl
      have entry : m2.pte t (px 0 va) = m.entry p.pagetable va := by
        have same := (grows.trans walks.grows).entries va 2 p.pagetable [] shape.space.root rfl
        rw [Memory.entryFrom,table] at same
        exact same
      obtain ⟨shape3,confined,maps⟩ := shape.mapPage free bounds aligned low inside walks
      refine ⟨mem,_,_,by dsimp only; rw [if_neg (by rw [entry]; exact not_not.mpr invalid)],shape3,confined,?_,
        fun _ => ⟨maps,update_self ..⟩,fun zero => absurd zero (Nat.ne_of_gt positive)⟩
      have some := enough.mp rfl
      exact ⟨fun _ => by omega,fun _ => Nat.ne_of_gt positive⟩

end

end Xv6.Vm
