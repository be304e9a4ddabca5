import Xv6.Vm.Model
import Mathlib.Tactic

/-! Page tables as maps from virtual pages to PTEs. A page that belongs to an
address space has one place in it: a table, reached by the indices on its path,
or a user page. As long as this is so and the free pages belong to nobody, walk
with alloc changes no entry, and storing a PTE changes one. -/
namespace Xv6.Vm
open Lib.Bytes Function List
variable {t' : Frame} {rest : List Frame} {path : List Nat} {level va w : Nat} {perm pte : Pte}

theorem pa2pte_shift {f : Nat} (small : f < 2^44) : pa2pte f >>> 10 = BitVec.ofNat 64 f := by
  apply BitVec.eq_of_toNat_eq
  simp only [pa2pte,BitVec.toNat_ushiftRight,BitVec.toNat_shiftLeft,BitVec.toNat_ofNat,Nat.shiftLeft_eq,
    Nat.shiftRight_eq_div_pow]
  omega

theorem pte2pa_pa2pte {f : Nat} (small : f < 2^44) (low : perm >>> 10 = 0) :
    pte2pa (pa2pte f ||| perm ||| pteV) = f := by
  have one : pteV >>> 10 = 0 := by decide
  rw [pte2pa,BitVec.ushiftRight_or_distrib,BitVec.ushiftRight_or_distrib,pa2pte_shift small,low,one]
  change ((BitVec.ofNat 64 f ||| 0#64 ||| 0#64) <<< 12).toNat / pgsize = f
  simp only [BitVec.or_zero,BitVec.toNat_shiftLeft,BitVec.toNat_ofNat,Nat.shiftLeft_eq,pgsize]
  omega

theorem pte2pa_table {f : Nat} (small : f < 2^44) : pte2pa (pa2pte f ||| pteV) = f := by
  have same : pte2pa (pa2pte f ||| 0#64 ||| pteV) = f := pte2pa_pa2pte small rfl
  rwa [BitVec.or_zero] at same

theorem valid_or (pte : Pte) : (pte ||| pteV) &&& pteV ≠ 0 := by
  intro zero
  have bit := congrArg (fun x : Pte => x.getLsbD 0) zero
  simp [pteV] at bit

theorem user_or (pte : Pte) : (pte ||| (pteW ||| pteU ||| pteR) ||| pteV) &&& pteU ≠ 0 := by
  intro zero
  have bit := congrArg (fun x : Pte => x.getLsbD 4) zero
  simp [pteV,pteU,pteR,pteW] at bit

inductive Place
  | table (path : List Nat)
  | user (vpn : Nat)

def indices (va : Nat) : Nat → List Nat
  | 0 => []
  | level + 1 => px (level + 1) va :: indices va level

theorem px_lt (level va : Nat) : px level va < 512 := Nat.mod_lt _ (by decide)

theorem same_page (low : va < maxva) (low' : w < maxva) (two : px 2 va = px 2 w) (one : px 1 va = px 1 w)
    (zero : px 0 va = px 0 w) : va / pgsize = w / pgsize := by
  simp only [px,pgsize,maxva] at *
  omega

theorem px_page (same : va / pgsize = w / pgsize) (level : Nat) : px level va = px level w := by
  have split : ∀ a : Nat, a / 2^(12 + 9 * level) = a / pgsize / 2^(9 * level) := by
    intro a
    rw [pgsize,Nat.div_div_eq_div_mul,Nat.pow_add]
  rw [px,px,split,split,same]

/-- `own` gives the place of every page that belongs to the address space of the
page table at root. -/
structure Space (m : Memory) (root : Frame) (own : Frame → Option Place) : Prop where
  root : own root = some (.table [])
  child : ∀ t path k, own t = some (.table path) → path.length < 2 → k < 512 → m.pte t k &&& pteV ≠ 0 →
    own (pte2pa (m.pte t k)) = some (.table (path ++ [k]))
  leaf : ∀ t i j k, own t = some (.table [i,j]) → k < 512 → m.pte t k &&& pteV ≠ 0 → m.pte t k &&& pteU ≠ 0 →
    own (pte2pa (m.pte t k)) = some (.user ((i * 512 + j) * 512 + k))
  free : ∀ f ∈ m.freelist, own f = none ∧ 0 < f ∧ f < 2^44
  nodup : m.freelist.Nodup

structure Tree (m : Memory) (root : Frame) (own : Frame → Option Place) : Prop where
  root : own root = some (.table [])
  child : ∀ t path k, own t = some (.table path) → path.length < 2 → k < 512 → m.pte t k &&& pteV ≠ 0 →
    own (pte2pa (m.pte t k)) = some (.table (path ++ [k]))

theorem Space.tree {m : Memory} {root : Frame} {own : Frame → Option Place} (space : Space m root own) : Tree m root own :=
  ⟨space.root,space.child⟩

namespace Memory

def tableFrom (m : Memory) (va : Nat) : (level : Nat) → (t : Frame) → Option Frame
  | 0, t => some t
  | level + 1, t =>
    if m.pte t (px (level + 1) va) &&& pteV ≠ 0 then tableFrom m va level (pte2pa (m.pte t (px (level + 1) va))) else none

def entryFrom (m : Memory) (va level : Nat) (t : Frame) : Pte :=
  ((m.tableFrom va level t).map fun t => m.pte t (px 0 va)).getD 0

def entry (m : Memory) (root : Frame) (va : Nat) : Pte := m.entryFrom va 2 root

theorem entryFrom_succ (m : Memory) (va level : Nat) (t : Frame) : m.entryFrom va (level + 1) t =
    if m.pte t (px (level + 1) va) &&& pteV ≠ 0 then m.entryFrom va level (pte2pa (m.pte t (px (level + 1) va))) else 0 := by
  rw [entryFrom,tableFrom]
  split_ifs <;> rfl

section
variable {m : Memory} {t f : Frame} {k : Nat}

@[simp] theorem pte_setPte (m : Memory) (t : Frame) (k : Nat) (pte : Pte) : (m.setPte t k pte).pte t k = pte := by
  simp [Memory.pte,setPte,setPage]

theorem pte_setPte_ne {k' : Nat} (other : ¬(t' = t ∧ k' = k)) :
    (m.setPte t k pte).pte t' k' = m.pte t' k' := by
  simp only [Memory.pte,setPte,setPage]
  by_cases same : t' = t
  · subst same
    rw [update_self,get64_set64_ne _ _ fun equal => other ⟨rfl,equal⟩]
  · rw [update_of_ne same]

theorem pte_fill_zero (m : Memory) (t : Frame) (k : Nat) : (m.fill t 0).pte t k = 0 := by
  simp only [Memory.pte,fill,setPage,update_self]
  exact get64_zero k

theorem pte_fill_ne {c : Byte} (other : t ≠ f) : (m.fill f c).pte t k = m.pte t k := by
  simp [Memory.pte,fill,setPage,other]

theorem walkFrom_false (m : Memory) (va level : Nat) (t : Frame) :
    walkFrom va false level t m = (m.tableFrom va level t,m) := by
  induction level generalizing t with
  | zero => rfl
  | succ level ih => grind [walkFrom,below,tableFrom]

theorem walk_false (m : Memory) (root : Frame) (low : va < maxva) :
    m.walk root va false = .ok ((m.tableFrom va 2 root).map fun t => (t,px 0 va),m) := by
  rw [walk,if_neg (by omega),walkFrom_false]

theorem walkaddr_entry (m : Memory) {root : Frame} (low : va < maxva) :
    m.walkaddr root va = if m.entry root va &&& pteV = 0 then 0 else if m.entry root va &&& pteU = 0 then 0
      else pte2pa (m.entry root va) := by
  rw [walkaddr,m.walk_false root low,entry,entryFrom]
  cases m.tableFrom va 2 root with
  | none => simp
  | some t => rfl

theorem walkaddr_high (m : Memory) {root : Frame} (high : maxva ≤ va) : m.walkaddr root va = 0 := by
  rw [walkaddr,walk,if_pos high]

theorem ismapped_entry (m : Memory) {root : Frame} (low : va < maxva) :
    m.ismapped root va = .ok (decide (m.entry root va &&& pteV ≠ 0)) := by
  rw [ismapped,m.walk_false root low,entry,entryFrom]
  cases m.tableFrom va 2 root with
  | none => simp [bind,Except.bind,pure,Except.pure]
  | some t => rfl

theorem entryFrom_empty (empty : ∀ k, m.pte t k = 0) : m.entryFrom va level t = 0 := by
  cases level with
  | zero => exact empty _
  | succ level => simp [entryFrom_succ,empty]

end

end Memory

/-- What walk with alloc may do: pages of the freelist become tables. -/
structure Grows (root : Frame) (m m' : Memory) (own own' : Frame → Option Place) : Prop where
  space : Space m' root own'
  keeps : ∀ f place, own f = some place → own' f = some place
  fresh : ∀ f, own f = none → f ∉ m.freelist → own' f = none
  free : ∀ f ∈ m'.freelist, f ∈ m.freelist
  entries : ∀ va level t path, own t = some (.table path) → path.length + level = 2 →
    m'.entryFrom va level t = m.entryFrom va level t
  links : ∀ t path k, own t = some (.table path) → path.length < 2 → m.pte t k &&& pteV ≠ 0 → m'.pte t k = m.pte t k
  others : ∀ f, (∀ path, own f ≠ some (.table path)) → f ∉ m.freelist → m'.page f = m.page f

namespace Grows
variable {root : Frame} {m m' m'' : Memory} {own own' own'' : Frame → Option Place}

theorem refl (space : Space m root own) : Grows root m m own own :=
  ⟨space,fun _ _ => id,fun _ none _ => none,fun _ => id,fun _ _ _ _ _ _ => rfl,fun _ _ _ _ _ _ => rfl,
    fun _ _ _ => rfl⟩

theorem trans (first : Grows root m m' own own') (second : Grows root m' m'' own' own'') : Grows root m m'' own own'' := by
  refine ⟨second.space,fun f place owned => second.keeps f place (first.keeps f place owned),fun f none out => ?_,
    fun f inside => first.free f (second.free f inside),fun va level t path owned deep => ?_,
    fun t path k owned high valid => ?_,fun f table out => ?_⟩
  · exact second.fresh f (first.fresh f none out) fun inside => out (first.free f inside)
  · rw [second.entries va level t path (first.keeps t _ owned) deep,first.entries va level t path owned deep]
  · have same := first.links t path k owned high valid
    rw [second.links t path k (first.keeps t _ owned) high (by rwa [same]),same]
  · have out' : f ∉ m'.freelist := fun inside => out (first.free f inside)
    have table' : ∀ path, own' f ≠ some (.table path) := by
      intro path now
      cases before : own f with
      | none =>
        rw [first.fresh f before out] at now
        cases now
      | some place =>
        rw [first.keeps f place before] at now
        cases now
        exact table path before
    rw [second.others f table' out',first.others f table out]

end Grows

section
variable {root : Frame} {m : Memory} {own : Frame → Option Place}

theorem kalloc_cons {f : Frame} (free : m.freelist = f :: rest) :
    m.kalloc = (f,{ m with freelist := rest }.fill f 5) := by
  rw [Memory.kalloc,free]

theorem alloc_grows {f : Frame} (space : Space m root own) (free : m.freelist = f :: rest) :
    Grows root m ({ m with freelist := rest }.fill f 5 |>.fill f 0) own own := by
  obtain ⟨nobody,-,-⟩ := space.free f (by rw [free]; exact mem_cons_self)
  have nodup := space.nodup
  rw [free] at nodup
  generalize after : ({ m with freelist := rest }.fill f 5 |>.fill f 0) = m'
  have list : m'.freelist = rest := by rw [← after]; rfl
  have page : ∀ g, g ≠ f → m'.page g = m.page g := by
    intro g other
    rw [← after]
    simp [Memory.fill,Memory.setPage,other]
  have was : ∀ g place, own g = some place → g ≠ f := by
    rintro g place there rfl
    rw [nobody] at there
    cases there
  have pte : ∀ g place k, own g = some place → m'.pte g k = m.pte g k := by
    intro g place k there
    rw [Memory.pte,Memory.pte,page g (was g place there)]
  refine ⟨⟨space.root,fun t path k owned => ?_,fun t i j k owned => ?_,fun g inside => ?_,?_⟩,fun _ _ => id,
    fun _ none _ => none,fun g inside => ?_,fun va level t path owned deep => ?_,fun t path k owned _ _ => ?_,
    fun g _ out => page g ?_⟩
  · rw [pte t _ k owned]
    exact space.child t path k owned
  · rw [pte t _ k owned]
    exact space.leaf t i j k owned
  · rw [list] at inside
    exact space.free g (by rw [free]; exact mem_cons_of_mem _ inside)
  · rw [list]
    exact (nodup_cons.mp nodup).2
  · rw [list] at inside
    rw [free]
    exact mem_cons_of_mem _ inside
  · induction level generalizing t path with
    | zero => exact pte t _ _ owned
    | succ level ih =>
      rw [Memory.entryFrom_succ,Memory.entryFrom_succ,pte t _ _ owned]
      split_ifs with valid
      · refine ih _ _ (space.child t path _ owned (by omega) (px_lt ..) valid) ?_
        rw [length_append,length_singleton]
        omega
      · rfl
  · exact pte t _ k owned
  · rintro rfl
    exact out (by rw [free]; exact mem_cons_self)

/-- A page from the freelist becomes the table at entry k of table t. -/
theorem table_grows {t f : Frame} {k : Nat} (space : Space m root own)
    (owned : own t = some (.table path)) (high : path.length < 2)
    (invalid : ¬m.pte t k &&& pteV ≠ 0) (free : m.freelist = f :: rest) :
    Grows root m (({ m with freelist := rest }.fill f 5).fill f 0 |>.setPte t k (pa2pte f ||| pteV)) own
      (update own f (some (.table (path ++ [k])))) := by
  obtain ⟨nobody,positive,small⟩ := space.free f (by rw [free]; exact mem_cons_self)
  have nodup := space.nodup
  rw [free] at nodup
  generalize after : (({ m with freelist := rest }.fill f 5).fill f 0 |>.setPte t k (pa2pte f ||| pteV)) = m'
  have list : m'.freelist = rest := by rw [← after]; rfl
  have apart : t ≠ f := by
    rintro rfl
    rw [owned] at nobody
    cases nobody
  have made := pte2pa_table small
  have here : m'.pte t k = pa2pte f ||| pteV := by
    rw [← after,Memory.pte_setPte]
  have empty : ∀ j, m'.pte f j = 0 := by
    intro j
    rw [← after,Memory.pte_setPte_ne (fun same => apart same.1.symm),Memory.pte_fill_zero]
  have old : ∀ t' j, t' ≠ f → ¬(t' = t ∧ j = k) → m'.pte t' j = m.pte t' j := by
    intro t' j other elsewhere
    rw [← after,Memory.pte_setPte_ne elsewhere,Memory.pte_fill_ne other,Memory.pte_fill_ne other]
    rfl
  have page : ∀ g, g ≠ f → g ≠ t → m'.page g = m.page g := by
    intro g other elsewhere
    rw [← after]
    simp [Memory.setPte,Memory.fill,Memory.setPage,other,elsewhere]
  have was : ∀ g place, own g = some place → g ≠ f := by
    rintro g place there rfl
    rw [nobody] at there
    cases there
  have free' : ∀ g ∈ rest, g ≠ f := by
    rintro g inside rfl
    exact (nodup_cons.mp nodup).1 inside
  have owner : ∀ g, g ≠ f → update own f (some (.table (path ++ [k]))) g = own g :=
    fun g other => update_of_ne other ..
  refine ⟨⟨?_,?_,?_,?_,?_⟩,?_,?_,?_,?_,?_,?_⟩
  · rw [owner root (was root _ space.root)]
    exact space.root
  · grind [space.child]
  · grind [space.leaf]
  · intro g inside
    rw [list] at inside
    rw [owner g (free' g inside)]
    exact space.free g (by rw [free]; exact mem_cons_of_mem _ inside)
  · rw [list]
    exact (nodup_cons.mp nodup).2
  · intro g place there
    rw [owner g (was g place there)]
    exact there
  · intro g none out
    rw [owner g]
    · exact none
    · rintro rfl
      exact out (by rw [free]; exact mem_cons_self)
  · intro g inside
    rw [list] at inside
    rw [free]
    exact mem_cons_of_mem _ inside
  · intro va level t' path' there deep
    induction level generalizing t' path' with
    | zero =>
      have same : ¬(t' = t ∧ px 0 va = k) := by
        rintro ⟨rfl,-⟩
        rw [owned] at there
        cases there
        omega
      exact old t' _ (was t' _ there) same
    | succ level ih =>
      rw [Memory.entryFrom_succ,Memory.entryFrom_succ]
      by_cases same : t' = t ∧ px (level + 1) va = k
      · rw [same.1,same.2,here,if_pos (valid_or _),made,if_neg invalid]
        exact Memory.entryFrom_empty empty
      · rw [old t' _ (was t' _ there) same]
        split_ifs with valid
        · refine ih _ (path' ++ [px (level + 1) va]) ?_ ?_
          · exact space.child t' path' _ there (by omega) (px_lt ..) valid
          · rw [length_append,length_singleton]
            omega
        · rfl
  · intro t' path' j there _ valid
    refine old t' j (was t' _ there) ?_
    rintro ⟨rfl,rfl⟩
    exact invalid valid
  · intro g table out
    refine page g ?_ ?_
    · rintro rfl
      exact out (by rw [free]; exact mem_cons_self)
    · rintro rfl
      exact table path owned

theorem walkFrom_grows (va level : Nat) {t : Frame} (space : Space m root own)
    (owned : own t = some (.table path)) (deep : path.length + level = 2) :
    ∃ found m' own', Memory.walkFrom va true level t m = (found,m') ∧ Grows root m m' own own' ∧
      ∀ t', found = some t' → m'.tableFrom va level t = some t' ∧ own' t' = some (.table (path ++ indices va level)) := by
  induction level generalizing m own t path with
  | zero =>
    refine ⟨some t,m,own,rfl,.refl space,?_⟩
    rintro t' same
    cases same
    exact ⟨rfl,by rw [indices,append_nil]; exact owned⟩
  | succ level ih =>
    have high : path.length < 2 := by omega
    have deep' : (path ++ [px (level + 1) va]).length + level = 2 := by
      rw [length_append,length_singleton]
      omega
    rw [Memory.walkFrom,Memory.below]
    by_cases valid : m.pte t (px (level + 1) va) &&& pteV ≠ 0
    · have child := space.child t path _ owned high (px_lt ..) valid
      obtain ⟨found,m',own',walked,grows,there⟩ := ih space child deep'
      rw [if_pos valid]
      refine ⟨found,m',own',walked,grows,fun t' same => ?_⟩
      obtain ⟨table,place⟩ := there t' same
      refine ⟨?_,by rw [indices,append_cons]; exact place⟩
      rw [Memory.tableFrom,grows.links t path _ owned high valid,if_pos valid]
      exact table
    · rw [if_neg valid,if_pos rfl]
      cases free : m.freelist with
      | nil =>
        refine ⟨none,m,own,?_,.refl space,nofun⟩
        rw [Memory.kalloc,free]
        rfl
      | cons f rest =>
        obtain ⟨-,positive,small⟩ := space.free f (by rw [free]; exact mem_cons_self)
        have grows := table_grows space owned high valid free
        have new : update own f (some (.table (path ++ [px (level + 1) va]))) f =
            some (.table (path ++ [px (level + 1) va])) := update_self ..
        obtain ⟨found,m',own',walked,grows',there⟩ := ih grows.space new deep'
        rw [kalloc_cons free]
        dsimp only
        rw [if_neg (Nat.ne_of_gt positive)]
        refine ⟨found,m',own',walked,grows.trans grows',fun t' same => ?_⟩
        obtain ⟨table,place⟩ := there t' same
        refine ⟨?_,by rw [indices,append_cons]; exact place⟩
        have stored := grows'.links t path (px (level + 1) va) (grows.keeps t _ owned) high
        rw [Memory.pte_setPte] at stored
        rw [Memory.tableFrom,stored (valid_or _),if_pos (valid_or _),pte2pa_table small]
        exact table

theorem tableFrom_owned {t : Frame} (tree : Tree m root own)
    (owned : own t = some (.table path)) (deep : path.length + level = 2) (found : m.tableFrom va level t = some t') :
    own t' = some (.table (path ++ indices va level)) := by
  induction level generalizing t path with
  | zero =>
    cases found
    rwa [indices,append_nil]
  | succ level ih =>
    rw [Memory.tableFrom] at found
    split_ifs at found with valid
    have child := tree.child t path _ owned (by omega) (px_lt ..) valid
    have place := ih child (by rw [length_append,length_singleton]; omega) found
    rwa [indices,append_cons]

theorem tableFrom_setPte {i j k : Nat} {t : Frame} (tree : Tree m root own)
    (leaf : own t = some (.table [i,j])) (owned : own t' = some (.table path)) (deep : path.length + level = 2) :
    (m.setPte t k pte).tableFrom va level t' = m.tableFrom va level t' := by
  induction level generalizing t' path with
  | zero => rfl
  | succ level ih =>
    have other : ¬(t' = t ∧ px (level + 1) va = k) := by
      rintro ⟨rfl,-⟩
      rw [leaf] at owned
      cases owned
      simp only [length_cons,length_nil] at deep
      omega
    rw [Memory.tableFrom,Memory.tableFrom,Memory.pte_setPte_ne other]
    split_ifs with valid
    · refine ih (tree.child t' path _ owned (by omega) (px_lt ..) valid) ?_
      rw [length_append,length_singleton]
      omega
    · rfl

theorem tableFrom_page {t : Frame} (same : w / pgsize = va / pgsize) :
    m.tableFrom w level t = m.tableFrom va level t := by
  induction level generalizing t with
  | zero => rfl
  | succ level ih => rw [Memory.tableFrom,Memory.tableFrom,px_page same,ih]

/-- Storing the PTE of va changes no other entry. -/
theorem entry_setPte {t : Frame} (tree : Tree m root own) (low : va < maxva) (low' : w < maxva)
    (found : m.tableFrom va 2 root = some t) :
    (m.setPte t (px 0 va) pte).entry root w = if w / pgsize = va / pgsize then pte else m.entry root w := by
  have leaf := tableFrom_owned tree tree.root rfl found
  rw [Memory.entry,Memory.entryFrom,tableFrom_setPte tree leaf tree.root rfl,Memory.entry,Memory.entryFrom]
  split_ifs with same
  · rw [tableFrom_page same,found,Option.map_some,Option.getD_some,px_page same 0,Memory.pte_setPte]
  · refine congrArg (fun found => Option.getD found 0) (Option.map_congr fun t' there => Memory.pte_setPte_ne ?_)
    rintro ⟨rfl,zero⟩
    have place := tableFrom_owned tree tree.root rfl there
    rw [leaf] at place
    simp only [indices,nil_append,Option.some.injEq,Place.table.injEq,cons.injEq] at place
    exact same (same_page low' low place.1.symm place.2.1.symm zero)

theorem mappages_page {f : Frame} {m' : Memory} (space : Space m root own) (low : va < maxva)
    (maps : m.mappages root va pgsize f perm = .ok (true,m')) :
    ∃ m1 own1 t, Grows root m m1 own own1 ∧ m1.tableFrom va 2 root = some t ∧
      m' = m1.setPte t (px 0 va) (pa2pte f ||| perm ||| pteV) := by
  obtain ⟨found,m1,own1,walked,grows,there⟩ := walkFrom_grows va 2 space space.root rfl
  have walk : m.walk root va true = .ok (found.map fun t => (t,px 0 va),m1) := by
    rw [Memory.walk,if_neg (by omega),walked]
  unfold Memory.mappages at maps
  split_ifs at maps
  rw [show pgsize / pgsize = 0 + 1 from rfl,Memory.mapFrom,walk] at maps
  cases found with
  | none => cases maps
  | some t =>
    change (if m1.pte t (px 0 va) &&& pteV ≠ 0 then _ else _) = _ at maps
    split_ifs at maps
    cases maps
    exact ⟨m1,own1,t,grows,(there t rfl).1,rfl⟩

def vpn (va : Nat) : Nat := (px 2 va * 512 + px 1 va) * 512 + px 0 va

/-- A page that belongs to nobody is mapped at va. -/
theorem map_space {t f : Frame} (space : Space m root own) (found : m.tableFrom va 2 root = some t)
    (nobody : own f = none) (out : f ∉ m.freelist) (small : f < 2^44) (low : perm >>> 10 = 0) :
    Space (m.setPte t (px 0 va) (pa2pte f ||| perm ||| pteV)) root (update own f (some (.user (vpn va)))) := by
  have leaf := tableFrom_owned space.tree space.root rfl found
  have was : ∀ g place, own g = some place → g ≠ f := by
    rintro g place there rfl
    rw [nobody] at there
    cases there
  have owner : ∀ g, g ≠ f → update own f (some (.user (vpn va))) g = own g :=
    fun g other => update_of_ne other ..
  have table : ∀ g path, update own f (some (.user (vpn va))) g = some (.table path) → own g = some (.table path) := by
    intro g path there
    by_cases new : g = f
    · rw [new,update_self] at there
      cases there
    · rwa [owner g new] at there
  refine ⟨?_,?_,?_,?_,space.nodup⟩
  · rw [owner root (was root _ space.root)]
    exact space.root
  · intro t' path k there high small' valid
    have there := table t' path there
    have other : ¬(t' = t ∧ k = px 0 va) := by
      rintro ⟨rfl,-⟩
      rw [leaf] at there
      cases there
      simp [indices] at high
    rw [Memory.pte_setPte_ne other] at valid ⊢
    have below := space.child t' path k there high small' valid
    rw [owner _ (was _ _ below)]
    exact below
  · intro t' i j k there small' valid user
    have there := table t' _ there
    by_cases same : t' = t ∧ k = px 0 va
    · obtain ⟨rfl,rfl⟩ := same
      rw [leaf] at there
      cases there
      rw [Memory.pte_setPte,pte2pa_pa2pte small low,update_self,vpn]
    · rw [Memory.pte_setPte_ne same] at valid user ⊢
      have below := space.leaf t' i j k there small' valid user
      rw [owner _ (was _ _ below)]
      exact below
  · intro g inside
    have other : g ≠ f := by
      rintro rfl
      exact out inside
    rw [owner g other]
    exact space.free g inside

end

end Xv6.Vm
