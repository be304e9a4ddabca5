import Xv6.Vm.Sbrk

/-! Page tables are finite maps. Whatever calls are made on the page tables of the
kernel, in any order and with any pages from kalloc, each table holds what a map from
page numbers to pages and flags holds after the same calls. -/
namespace Xv6.Vm.Paging
open Lib.Bytes Function

variable {m m' : Memory} {root : Frame} {limit : Nat} {own own' : Frame → Option Place}

/-! Loops over ranges above the limit. -/

section
variable {perm : Pte} {f v count turns : Nat}

def ranged (perm : Pte) (f : Frame) (v count : Nat) (entry : Nat → Pte) (w : Nat) : Pte :=
  if v ≤ w / pgsize ∧ w / pgsize < v + count then pa2pte (f + (w / pgsize - v)) ||| perm ||| pteV else entry w

theorem ranged_zero (entry : Nat → Pte) (w : Nat) : ranged perm f v 0 entry w = entry w := if_neg (by omega)

theorem ranged_cons (entry : Nat → Pte) (w : Nat) : ranged perm (f + 1) (v + 1) count
    (fun w => if w / pgsize = v then pa2pte f ||| perm ||| pteV else entry w) w = ranged perm f v (count + 1) entry w := by
  unfold ranged
  dsimp only
  by_cases first : w / pgsize = v
  · rw [if_neg (by omega),if_pos first,if_pos (by omega),first,Nat.sub_self]
    rfl
  · grind

theorem fits_next (fits : (v + (count + 1)) * pgsize ≤ maxva) : v * pgsize < maxva ∧ (v + 1 + count) * pgsize ≤ maxva := by
  have page : 0 < pgsize := by decide
  have same : v + 1 + count = v + (count + 1) := by omega
  refine ⟨Nat.lt_of_lt_of_le (Nat.mul_lt_mul_of_pos_right (by omega) page) fits,?_⟩
  exact (Nat.le_of_eq (congrArg (· * pgsize) same)).trans fits

/-- mappages maps a first part of its range, all of it if it returns 0; it panics only
if a page of the range is mapped. -/
theorem mapFrom_spec (owns : Owns m root limit own) (high : limit ≤ v) (fits : (v + count) * pgsize ≤ maxva) :
    (Memory.mapFrom root perm count (v * pgsize) f m = .error .remap ∧
      ∃ u, v ≤ u ∧ u < v + count ∧ m.entry root (u * pgsize) &&& pteV ≠ 0) ∨
    ∃ ok m' own' j, Memory.mapFrom root perm count (v * pgsize) f m = .ok (ok,m') ∧ j ≤ count ∧ (ok = true ↔ j = count) ∧
      Remaps root limit m own m' own' (ranged perm f v j (m.entry root)) := by
  induction count generalizing m own v f with
  | zero =>
    exact .inr ⟨true,m,own,0,rfl,Nat.le_refl _,⟨fun _ => rfl,fun _ => rfl⟩,
      (Remaps.refl owns).congr fun w _ => (ranged_zero _ w).symm⟩
  | succ count ih =>
    have number : v * pgsize / pgsize = v := Nat.mul_div_cancel _ (by decide)
    obtain ⟨low,fits'⟩ := fits_next fits
    obtain ⟨found,m1,own1,walked,remaps,there⟩ := owns.walk low
    have walk : m.walk root (v * pgsize) true = .ok (found.map fun t => (t,px 0 (v * pgsize)),m1) := by
      rw [Memory.walk,if_neg (by omega),walked]
    rw [Memory.mapFrom,walk]
    cases found with
    | none =>
      refine .inr ⟨false,m1,own1,0,rfl,Nat.zero_le _,by simp,remaps.congr fun w _ => (ranged_zero _ w).symm⟩
    | some t =>
      have table := there t rfl
      have here : m1.pte t (px 0 (v * pgsize)) = m.entry root (v * pgsize) := by rw [← entry_found table,remaps.entries _ low]
      change (if m1.pte t (px 0 (v * pgsize)) &&& pteV ≠ 0 then _ else _) = _ ∧ _ ∨ _
      by_cases mapped : m.entry root (v * pgsize) &&& pteV ≠ 0
      · rw [here,if_pos mapped]
        exact .inl ⟨rfl,v,Nat.le_refl v,by omega,mapped⟩
      · have stored := remaps.owns.remap low (by rw [number]; exact high) table (pa2pte f ||| perm ||| pteV)
        rw [number] at stored
        have entry : ∀ w < maxva, (if w / pgsize = v then pa2pte f ||| perm ||| pteV else m1.entry root w) =
            if w / pgsize = v then pa2pte f ||| perm ||| pteV else m.entry root w := by
          intro w below
          rw [remaps.entries w below]
        have next := ih (f := f + 1) stored.owns (show limit ≤ v + 1 by omega) fits'
        rw [Nat.succ_mul] at next
        change _ ∨ ∃ ok m' own' j, (if m1.pte t (px 0 (v * pgsize)) &&& pteV ≠ 0 then _ else _) = _ ∧ _
        rw [here,if_neg mapped]
        rcases next with ⟨failed,u,least,most,valid⟩ | ⟨ok,m2,own2,j,returned,most,all,rest⟩
        · refine .inl ⟨failed,u,by omega,by omega,?_⟩
          have below : u * pgsize < maxva := by
            simp only [pgsize,maxva] at fits ⊢
            omega
          have other : ¬u * pgsize / pgsize = v := by
            rw [Nat.mul_div_cancel _ (by decide)]
            omega
          rwa [stored.entries _ below,if_neg other,remaps.entries _ below] at valid
        · refine .inr ⟨ok,m2,own2,j + 1,returned,by omega,all.trans Nat.succ_inj.symm,((remaps.trans stored).trans rest).congr fun w below => ?_⟩
          rw [← ranged_cons,ranged,ranged,stored.entries w below,entry w below]

theorem unmapFrom_spec (owns : Owns m root limit own) (high : limit ≤ v) (fits : (v + turns) * pgsize ≤ maxva) : ∃ m',
    Memory.unmapFrom root false turns (v * pgsize) m = .ok m' ∧ Remaps root limit m own m' own
      fun w => if (v ≤ w / pgsize ∧ w / pgsize < v + turns) ∧ m.entry root w &&& pteV ≠ 0 then 0 else m.entry root w := by
  induction turns generalizing m v with
  | zero => exact ⟨m,rfl,(Remaps.refl owns).congr fun w _ => by rw [if_neg (by omega)]⟩
  | succ turns ih =>
    have number : v * pgsize / pgsize = v := Nat.mul_div_cancel _ (by decide)
    obtain ⟨low,fits'⟩ := fits_next fits
    obtain ⟨m1,unmapped,first⟩ := owns.unmapForeign low (by rw [number]; exact high)
    obtain ⟨m2,rest,second⟩ := ih first.owns (show limit ≤ v + 1 by omega) fits'
    refine ⟨m2,?_,(first.trans second).congr fun w below => ?_⟩
    · rw [Memory.unmapFrom,unmapped]
      rw [Nat.succ_mul] at rest
      exact rest
    · rw [first.entries w below,number]
      by_cases here : w / pgsize = v
      · have same : m.entry root w = m.entry root (v * pgsize) := entry_page (by rw [here,number])
        rw [if_neg (by omega),same]
        by_cases valid : m.entry root (v * pgsize) &&& pteV ≠ 0
        · rw [if_pos ⟨here,valid⟩,if_pos ⟨by omega,valid⟩]
        · rw [if_neg (fun both => valid both.2),if_neg (fun both => valid both.2)]
      · grind

end

/-! Maps. -/

abbrev Map := Nat → Option (Frame × Pte)

abbrev Maps := Frame → Option Map

def encode : Option (Frame × Pte) → Pte
  | none => 0
  | some (f,flags) => pa2pte f ||| flags

def Map.mapped (map : Map) (v count : Nat) (f : Frame) (perm : Pte) : Map := fun u =>
  if v ≤ u ∧ u < v + count then some (f + (u - v),perm ||| pteV) else map u

def Map.unmapped (map : Map) (v count : Nat) : Map := fun u => if v ≤ u ∧ u < v + count then none else map u

def Map.cleared (map : Map) (v : Nat) : Map := fun u =>
  if u = v then (map u).map fun (f,flags) => (f,flags &&& ~~~pteU) else map u

def Map.Sound (map : Map) : Prop := ∀ v f flags, map v = some (f,flags) → f < 2^44 ∧ flags >>> 10 = 0 ∧ flags &&& pteV ≠ 0

section
variable {f : Frame} {flags : Pte} {map : Map}

theorem pte2pa_low (small : f < 2^44) (low : flags >>> 10 = 0) : pte2pa (pa2pte f ||| flags) = f := by
  have whole : pte2pa (pa2pte f ||| 0#64 ||| pteV) = f := pte2pa_pa2pte small rfl
  have same : (pa2pte f ||| flags) >>> 10 = (pa2pte f ||| 0#64 ||| pteV) >>> 10 := by
    rw [BitVec.ushiftRight_or_distrib,low,BitVec.ushiftRight_or_distrib,BitVec.ushiftRight_or_distrib]
    change _ ||| 0#64 = _ ||| 0#64 ||| 0#64
    rw [BitVec.or_zero,BitVec.or_zero]
  rw [pte2pa,same,← pte2pa]
  exact whole

theorem pteFlags_low (low : flags >>> 10 = 0) : pteFlags (pa2pte f ||| flags) = flags := by
  have apart : pa2pte f &&& 0x3FF = 0 := shift_mask _ (by decide)
  rw [pteFlags,BitVec.and_comm,BitVec.and_or_distrib_left,BitVec.and_comm,apart,BitVec.and_comm]
  exact BitVec.zero_or.trans (mask_low low)

theorem encode_valid (sound : map.Sound) (v : Nat) : encode (map v) &&& pteV ≠ 0 ↔ map v ≠ none := by
  cases found : map v with
  | none => exact ⟨fun zero => absurd BitVec.zero_and zero,fun none => absurd rfl none⟩
  | some leaf =>
    obtain ⟨f,flags⟩ := leaf
    obtain ⟨-,low,valid⟩ := sound v f flags found
    refine ⟨fun _ => nofun,fun _ => ?_⟩
    rw [encode,← pteFlags_mask (by decide),pteFlags_low low]
    exact valid

theorem and_not_of_zero {x mask : Pte} (zero : x &&& mask = 0) : x &&& ~~~mask = x := by
  apply BitVec.eq_of_getLsbD_eq
  intro i bound
  have bit : (x.getLsbD i && mask.getLsbD i) = false := by
    rw [← BitVec.getLsbD_and,zero]
    exact BitVec.getLsbD_zero
  rw [BitVec.getLsbD_and,BitVec.getLsbD_not]
  cases left : x.getLsbD i with
  | false => rfl
  | true =>
    rw [left,Bool.true_and] at bit
    rw [bit,decide_eq_true bound]
    rfl

theorem encode_cleared (f : Frame) (flags : Pte) : (pa2pte f ||| flags) &&& ~~~pteU = pa2pte f ||| (flags &&& ~~~pteU) := by
  have apart : pa2pte f &&& ~~~pteU = pa2pte f := and_not_of_zero (shift_mask _ (by decide))
  rw [BitVec.and_comm,BitVec.and_or_distrib_left,BitVec.and_comm,apart,BitVec.and_comm]

theorem Map.Sound.mapped {perm : Pte} {v count : Nat} (sound : map.Sound) (fits : f + count ≤ 2^44) (low : perm >>> 10 = 0) :
    (map.mapped v count f perm).Sound := by
  intro u g flags there
  unfold Map.mapped at there
  split_ifs at there with inside
  · cases there
    refine ⟨?_,or_low low,valid_or perm⟩
    have frames : f + (u - v) < f + count := Nat.add_lt_add_left (by omega) f
    exact Nat.lt_of_lt_of_le frames fits
  · exact sound u g flags there

theorem Map.Sound.unmapped {v count : Nat} (sound : map.Sound) : (map.unmapped v count).Sound := by
  intro u g flags there
  unfold Map.unmapped at there
  split_ifs at there
  exact sound u g flags there

theorem Map.Sound.cleared {v : Nat} (sound : map.Sound) : (map.cleared v).Sound := by
  intro u g flags there
  unfold Map.cleared at there
  split_ifs at there
  · obtain ⟨⟨f,before⟩,found,same⟩ := Option.map_eq_some_iff.mp there
    cases same
    obtain ⟨small,low,valid⟩ := sound u g before found
    refine ⟨small,?_,?_⟩
    · rw [BitVec.ushiftRight_and_distrib,low]
      exact BitVec.zero_and
    · rw [BitVec.and_assoc,show ~~~pteU &&& pteV = pteV from rfl]
      exact valid
  · exact sound u g flags there

end

/-! The calls, with what they return. -/

inductive Call
  | uvmcreate (pagetable : Frame)
  | walk (pagetable : Frame) (va : Nat) (alloc : Bool)
  | mappages (pagetable : Frame) (va size : Nat) (pa : Frame) (perm : Pte) (ok : Bool)
  | uvmunmap (pagetable : Frame) (va npages : Nat)
  | uvmclear (pagetable : Frame) (va : Nat)
  | freewalk (pagetable : Frame)
  | rest -- whatever else the kernel does with pages that are not in a table

structure State where
  memory : Memory
  tables : List Frame

def InTable (m : Memory) (root f : Frame) : Prop :=
  ∃ path : List Nat, path.length ≤ 2 ∧ (∀ k ∈ path, k < 512) ∧ m.reach path root = some f

def Step (s : State) : Call → State → Prop
  | .uvmcreate pagetable, s' => s.memory.uvmcreate = (pagetable,s'.memory) ∧
      s'.tables = if pagetable = 0 then s.tables else pagetable :: s.tables
  | .walk pagetable va alloc, s' => pagetable ∈ s.tables ∧ va < maxva ∧
      (∃ slot, s.memory.walk pagetable va alloc = .ok (slot,s'.memory)) ∧ s'.tables = s.tables
  | .mappages pagetable va size pa perm ok, s' => pagetable ∈ s.tables ∧ va + size ≤ maxva ∧ pa + size / pgsize ≤ 2^44 ∧
      perm >>> 10 = 0 ∧ s.memory.mappages pagetable va size pa perm = .ok (ok,s'.memory) ∧ s'.tables = s.tables
  | .uvmunmap pagetable va npages, s' => pagetable ∈ s.tables ∧ va + npages * pgsize ≤ maxva ∧
      s.memory.uvmunmap pagetable va npages false = .ok s'.memory ∧ s'.tables = s.tables
  | .uvmclear pagetable va, s' => pagetable ∈ s.tables ∧ va < maxva ∧ s.memory.uvmclear pagetable va = .ok s'.memory ∧
      s'.tables = s.tables
  | .freewalk pagetable, s' => pagetable ∈ s.tables ∧ (∀ w < maxva, s.memory.entry pagetable w &&& pteV = 0) ∧
      s.memory.freewalk pagetable = .ok s'.memory ∧ s'.tables = s.tables.erase pagetable
  | .rest, s' => (∀ root ∈ s.tables, ∀ f, InTable s.memory root f → s'.memory.page f = s.memory.page f ∧ f ∉ s'.memory.freelist) ∧
      Pool s'.memory ∧ (s'.memory.first = s.memory.first ∧ s'.memory.last = s.memory.last) ∧ s'.tables = s.tables

def Spec (maps : Maps) : Call → Maps → Prop
  | .uvmcreate pagetable, maps' => (pagetable = 0 ∧ maps' = maps) ∨
      (maps pagetable = none ∧ maps' = update maps pagetable (some fun _ => none))
  | .walk .., maps' => maps' = maps
  | .mappages pagetable va size pa perm ok, maps' => ∃ map count, maps pagetable = some map ∧ count ≤ size / pgsize ∧
      (ok = true ↔ count = size / pgsize) ∧ maps' = update maps pagetable (some (map.mapped (va / pgsize) count pa perm))
  | .uvmunmap pagetable va npages, maps' => ∃ map, maps pagetable = some map ∧
      maps' = update maps pagetable (some (map.unmapped (va / pgsize) npages))
  | .uvmclear pagetable va, maps' => ∃ map, maps pagetable = some map ∧
      maps' = update maps pagetable (some (map.cleared (va / pgsize)))
  | .freewalk pagetable, maps' => maps' = update maps pagetable none
  | .rest, maps' => maps' = maps

def Runs : State → List Call → State → Prop
  | s, [], s' => s' = s
  | s, call :: calls, s' => ∃ s1, Step s call s1 ∧ Runs s1 calls s'

def Obeys : Maps → List Call → Maps → Prop
  | maps, [], maps' => maps' = maps
  | maps, call :: calls, maps' => ∃ maps1, Spec maps call maps1 ∧ Obeys maps1 calls maps'

/-! The invariant. -/

/-- The tables hold the maps; `own` gives the pages of each table. -/
structure Represents (s : State) (maps : Maps) (own : Frame → Frame → Option Place) : Prop where
  live : ∀ root, root ∈ s.tables ↔ (maps root).isSome = true
  nodup : s.tables.Nodup
  pool : Pool s.memory
  owns : ∀ root map, maps root = some map → Owns s.memory root 0 (own root)
  entries : ∀ root map, maps root = some map → ∀ w < maxva, s.memory.entry root w = encode (map (w / pgsize))
  sound : ∀ root map, maps root = some map → map.Sound
  apart : ∀ root map root' map', maps root = some map → maps root' = some map' → root ≠ root' →
    ∀ f, own root f ≠ none → own root' f = none

section
variable {s s' : State} {maps : Maps} {owner : Frame → Frame → Option Place} {map map' : Map}

namespace Represents

theorem inTable (rep : Represents s maps owner) (live : maps root = some map) {f : Frame} :
    owner root f ≠ none ↔ InTable s.memory root f := by
  have owns := rep.owns root map live
  constructor
  · intro owned
    obtain ⟨place,there⟩ := Option.ne_none_iff_exists'.mp owned
    cases place with
    | table path => exact ⟨path,owns.reached f path there⟩
    | user v => exact absurd ((owns.user f v).mp there).1 (Nat.not_lt_zero v)
  · rintro ⟨path,deep,small,found⟩
    rw [reach_owned owns.tree owns.rooted (by simpa using deep) small found]
    nofun

/-- The table at root is new or has changed; the others are as they were. -/
theorem install (rep : Represents s maps owner) {tables : List Frame} (owns : Owns m' root 0 own')
    (entries : ∀ w < maxva, m'.entry root w = encode (map' (w / pgsize))) (sound : map'.Sound)
    (member : ∀ r, r ∈ tables ↔ r = root ∨ r ∈ s.tables) (nodup : tables.Nodup)
    (others : ∀ r map, r ≠ root → maps r = some map → Owns m' r 0 (owner r) ∧ (∀ w, m'.entry r w = s.memory.entry r w) ∧
      ∀ f place, owner r f = some place → m'.page f = s.memory.page f ∧ own' f = none) :
    Represents ⟨m',tables⟩ (update maps root (some map')) (update owner root own') := by
  have cases : ∀ r map, update maps root (some map') r = some map → (r = root ∧ map = map') ∨ (r ≠ root ∧ maps r = some map) := by
    grind [update_apply]
  refine ⟨fun r => ?_,nodup,owns.pool,fun r map there => ?_,fun r map there w low => ?_,fun r map there => ?_,
    fun r map r' map'' there there' other f owned => ?_⟩
  · grind [rep.live,update_apply]
  · rcases cases r map there with ⟨rfl,-⟩ | ⟨other,before⟩
    · rw [update_self]
      exact owns
    · rw [update_of_ne other]
      exact (others r map other before).1
  · rcases cases r map there with ⟨rfl,rfl⟩ | ⟨other,before⟩
    · exact entries w low
    · rw [(others r map other before).2.1]
      exact rep.entries r map before w low
  · rcases cases r map there with ⟨-,rfl⟩ | ⟨-,before⟩
    · exact sound
    · exact rep.sound r map before
  · rcases cases r map there with ⟨mine,-⟩ | ⟨mine,before⟩
    · rcases cases r' map'' there' with ⟨mine',-⟩ | ⟨mine',before'⟩
      · exact absurd (mine.trans mine'.symm) other
      · rw [mine,update_self] at owned
        rw [update_of_ne mine']
        by_contra both
        obtain ⟨place,held⟩ := Option.ne_none_iff_exists'.mp both
        exact owned ((others r' map'' mine' before').2.2 f place held).2
    · rw [update_of_ne mine] at owned
      rcases cases r' map'' there' with ⟨mine',-⟩ | ⟨mine',before'⟩
      · rw [mine',update_self]
        obtain ⟨place,held⟩ := Option.ne_none_iff_exists'.mp owned
        exact ((others r map mine before).2.2 f place held).2
      · rw [update_of_ne mine']
        exact rep.apart r map r' map'' before before' other f owned

/-- One table has changed. -/
theorem change (rep : Represents s maps owner) (live : maps root = some map) {entry : Nat → Pte}
    (remaps : Remaps root 0 s.memory (owner root) m' own' entry) (entries : ∀ w < maxva, entry w = encode (map' (w / pgsize)))
    (sound : map'.Sound) :
    Represents ⟨m',s.tables⟩ (update maps root (some map')) (update owner root own') := by
  have member : root ∈ s.tables := (rep.live root).mpr (by rw [live]; rfl)
  refine rep.install remaps.owns (fun w low => (remaps.entries w low).trans (entries w low)) sound (fun r => ?_) rep.nodup
    fun r map other there => ?_
  · refine ⟨.inr,?_⟩
    rintro (rfl | there)
    · exact member
    · exact there
  · exact (rep.owns r map there).bystander remaps.trades (fun f owned => rep.apart r map root _ there live other f owned) remaps.owns.pool

theorem still (rep : Represents s maps owner) (live : maps root = some map)
    (remaps : Remaps root 0 s.memory (owner root) m' own' (s.memory.entry root)) :
    ∃ owner', Represents ⟨m',s.tables⟩ maps owner' := by
  have same := rep.change live remaps (rep.entries root map live) (rep.sound root map live)
  rw [← live,update_eq_self] at same
  exact ⟨_,same⟩

/-- A new table. -/
theorem create (rep : Represents s maps owner) {pagetable : Frame} (made : s.memory.uvmcreate = (pagetable,m')) :
    (pagetable = 0 ∧ Represents ⟨m',s.tables⟩ maps owner) ∨ (pagetable ≠ 0 ∧ maps pagetable = none ∧
      ∃ owner', Represents ⟨m',pagetable :: s.tables⟩ (update maps pagetable (some fun _ => none)) owner') := by
  rcases uvmcreate_spec rep.pool with ⟨-,none⟩ | ⟨pagetable',m1,own',positive,made',owns,empty,trades⟩
  · rw [none] at made
    cases made
    exact .inl ⟨rfl,rep⟩
  rw [made] at made'
  cases made'
  have free : pagetable ∈ s.memory.freelist :=
    ((trades.conserves pagetable).mp (.inr (by rw [owns.rooted]; nofun))).resolve_right (fun owned => owned rfl)
  have fresh : maps pagetable = Option.none := by
    cases there : maps pagetable with
    | none => rfl
    | some map => exact absurd free ((rep.owns _ map there).notFree (rep.owns _ map there).rooted)
  refine .inr ⟨positive,fresh,_,rep.install owns (fun w _ => empty w) nofun (fun r => List.mem_cons) ?_ fun r map _ there => ?_⟩
  · refine List.nodup_cons.mpr ⟨fun member => ?_,rep.nodup⟩
    have some := (rep.live pagetable).mp member
    rw [fresh] at some
    cases some
  · exact (rep.owns r map there).bystander trades (fun _ _ => rfl) owns.pool

/-- A table is freed. -/
theorem remove (rep : Represents s maps owner) (live : maps root = some map) (pool : Pool m')
    (trades : Trades s.memory (owner root) m' fun _ => none) :
    Represents ⟨m',s.tables.erase root⟩ (update maps root none) owner := by
  have others : ∀ r map, update maps root none r = some map → r ≠ root ∧ maps r = some map := by
    intro r map there
    by_cases same : r = root
    · rw [same,update_self] at there
      cases there
    · rw [update_of_ne same] at there
      exact ⟨same,there⟩
  have bystander : ∀ r map, update maps root none r = some map → Owns m' r 0 (owner r) ∧
      ∀ w, m'.entry r w = s.memory.entry r w := by
    intro r map there
    obtain ⟨other,before⟩ := others r map there
    obtain ⟨owns,entries,-⟩ := (rep.owns r map before).bystander trades
      (fun f owned => rep.apart r map root _ before live other f owned) pool
    exact ⟨owns,entries⟩
  refine ⟨fun r => ?_,rep.nodup.erase root,pool,fun r map there => (bystander r map there).1,fun r map there w low => ?_,
    fun r map there => rep.sound r map (others r map there).2,
    fun r map r' map' there there' => rep.apart r map r' map' (others r map there).2 (others r' map' there').2⟩
  · grind [rep.nodup.mem_erase_iff,rep.live,update_apply]
  · rw [(bystander r map there).2]
    exact rep.entries r map (others r map there).2 w low

theorem rest (rep : Represents s maps owner) (bounds : m'.first = s.memory.first ∧ m'.last = s.memory.last) (pool : Pool m')
    (tables : ∀ root ∈ s.tables, ∀ f, InTable s.memory root f → m'.page f = s.memory.page f ∧ f ∉ m'.freelist) :
    Represents ⟨m',s.tables⟩ maps owner := by
  have mine : ∀ r map, maps r = some map → ∀ f place, owner r f = some place → m'.page f = s.memory.page f ∧ f ∉ m'.freelist := by
    intro r map there f place held
    exact tables r ((rep.live r).mpr (by rw [there]; rfl)) f ((rep.inTable there).mp (by rw [held]; nofun))
  refine ⟨rep.live,rep.nodup,pool,fun r map there => ?_,fun r map there w low => ?_,rep.sound,rep.apart⟩
  · exact (rep.owns r map there).outside (fun f path held => (mine r map there f _ held).1) bounds pool
      fun f place held => (mine r map there f place held).2
  · have owns := rep.owns r map there
    refine Eq.trans (entries_of_tables owns.tree (fun f path held => (mine r map there f _ held).1) owns.rooted rfl) ?_
    exact rep.entries r map there w low

theorem uvmclear (rep : Represents s maps owner) (live : maps root = some map) {va : Nat} (low : va < maxva)
    (cleared : s.memory.uvmclear root va = .ok m') :
    ∃ owner', Represents ⟨m',s.tables⟩ (update maps root (some (map.cleared (va / pgsize)))) owner' := by
  have owns := rep.owns root map live
  unfold Memory.uvmclear at cleared
  rw [s.memory.walk_false root low] at cleared
  cases found : s.memory.tableFrom va 2 root with
  | none =>
    rw [found] at cleared
    cases cleared
  | some t =>
    rw [found] at cleared
    cases cleared
    refine ⟨_,rep.change live (owns.remap low (Nat.zero_le _) found _) (fun w below => ?_) (rep.sound root map live).cleared⟩
    rw [← entry_found found,rep.entries root map live va low,rep.entries root map live w below,Map.cleared]
    split_ifs with same
    · rw [same]
      cases map (va / pgsize) with
      | none => exact BitVec.zero_and
      | some leaf => exact encode_cleared leaf.1 leaf.2
    · rfl

theorem mappages (rep : Represents s maps owner) (live : maps root = some map) {va size pa : Nat} {perm : Pte} {ok : Bool}
    (fits : va + size ≤ maxva) (pages : pa + size / pgsize ≤ 2^44) (low : perm >>> 10 = 0)
    (returned : s.memory.mappages root va size pa perm = .ok (ok,m')) : ∃ count owner', count ≤ size / pgsize ∧
      (ok = true ↔ count = size / pgsize) ∧
      Represents ⟨m',s.tables⟩ (update maps root (some (map.mapped (va / pgsize) count pa perm))) owner' := by
  unfold Memory.mappages at returned
  split_ifs at returned with first second third
  have aligned : va / pgsize * pgsize = va := base_of_aligned (not_not.mp first)
  have whole : size / pgsize * pgsize = size := base_of_aligned (not_not.mp second)
  have range : (va / pgsize + size / pgsize) * pgsize ≤ maxva := by rwa [Nat.add_mul,aligned,whole]
  rw [← aligned] at returned
  rcases mapFrom_spec (rep.owns root map live) (Nat.zero_le _) range with ⟨failed,-⟩ | ⟨ok',m1,own',count,mapped,most,all,remaps⟩
  · rw [failed] at returned
    cases returned
  rw [mapped] at returned
  cases returned
  have bound : pa + count ≤ 2^44 := (Nat.add_le_add_left most pa).trans pages
  refine ⟨count,_,most,all,rep.change live remaps (fun w below => ?_) ((rep.sound root map live).mapped bound low)⟩
  rw [ranged,Map.mapped,rep.entries root map live w below]
  split_ifs
  · exact BitVec.or_assoc ..
  · rfl

theorem uvmunmap (rep : Represents s maps owner) (live : maps root = some map) {va npages : Nat} (fits : va + npages * pgsize ≤ maxva)
    (returned : s.memory.uvmunmap root va npages false = .ok m') :
    ∃ owner', Represents ⟨m',s.tables⟩ (update maps root (some (map.unmapped (va / pgsize) npages))) owner' := by
  unfold Memory.uvmunmap at returned
  split_ifs at returned with first
  have aligned : va / pgsize * pgsize = va := base_of_aligned (not_not.mp first)
  have range : (va / pgsize + npages) * pgsize ≤ maxva := by rwa [Nat.add_mul,aligned]
  rw [← aligned,unmap_turns range] at returned
  obtain ⟨m1,unmapped,remaps⟩ := unmapFrom_spec (rep.owns root map live) (Nat.zero_le _) range
  rw [unmapped] at returned
  cases returned
  refine ⟨_,rep.change live remaps (fun w below => ?_) (rep.sound root map live).unmapped⟩
  rw [rep.entries root map live w below,Map.unmapped]
  have valid := encode_valid (rep.sound root map live) (w / pgsize)
  by_cases inside : va / pgsize ≤ w / pgsize ∧ w / pgsize < va / pgsize + npages
  · rw [if_pos inside]
    by_cases there : map (w / pgsize) = none
    · rw [if_neg (fun both => valid.mp both.2 there),there]
    · rw [if_pos ⟨inside,valid.mpr there⟩]
      rfl
  · rw [if_neg inside,if_neg (fun both => inside both.1)]

theorem empty (rep : Represents s maps owner) (live : maps root = some map) (none : ∀ v, map v = none) :
    ∀ w < maxva, s.memory.entry root w &&& pteV = 0 := by
  intro w low
  rw [rep.entries root map live w low,none]
  exact BitVec.zero_and

theorem map_of (rep : Represents s maps owner) (member : root ∈ s.tables) : ∃ map, maps root = some map :=
  Option.isSome_iff_exists.mp ((rep.live root).mp member)

/-- The maps do what the calls do. -/
theorem step (rep : Represents s maps owner) {call : Call} (stepped : Step s call s') :
    ∃ maps' owner', Spec maps call maps' ∧ Represents s' maps' owner' := by
  obtain ⟨m',tables⟩ := s'
  cases call with
  | uvmcreate pagetable =>
    obtain ⟨made,rfl⟩ := stepped
    rcases rep.create made with ⟨rfl,rep'⟩ | ⟨positive,fresh,owner',rep'⟩
    · exact ⟨maps,owner,.inl ⟨rfl,rfl⟩,by rw [if_pos rfl]; exact rep'⟩
    · exact ⟨_,owner',.inr ⟨fresh,rfl⟩,by rw [if_neg positive]; exact rep'⟩
  | walk pagetable va alloc =>
    obtain ⟨member,low,⟨slot,walked⟩,rfl⟩ := stepped
    obtain ⟨map,live⟩ := rep.map_of member
    have owns := rep.owns pagetable map live
    cases alloc with
    | false =>
      rw [s.memory.walk_false pagetable low] at walked
      cases walked
      exact ⟨maps,owner,rfl,rep⟩
    | true =>
      obtain ⟨found,m1,own1,walked1,remaps,-⟩ := owns.walk low
      rw [Memory.walk,if_neg (by omega),walked1] at walked
      cases walked
      obtain ⟨owner',rep'⟩ := rep.still live remaps
      exact ⟨maps,owner',rfl,rep'⟩
  | mappages pagetable va size pa perm ok =>
    obtain ⟨member,fits,pages,low,returned,rfl⟩ := stepped
    obtain ⟨map,live⟩ := rep.map_of member
    obtain ⟨count,owner',most,all,rep'⟩ := rep.mappages live fits pages low returned
    exact ⟨_,owner',⟨map,count,live,most,all,rfl⟩,rep'⟩
  | uvmunmap pagetable va npages =>
    obtain ⟨member,fits,returned,rfl⟩ := stepped
    obtain ⟨map,live⟩ := rep.map_of member
    obtain ⟨owner',rep'⟩ := rep.uvmunmap live fits returned
    exact ⟨_,owner',⟨map,live,rfl⟩,rep'⟩
  | uvmclear pagetable va =>
    obtain ⟨member,low,returned,rfl⟩ := stepped
    obtain ⟨map,live⟩ := rep.map_of member
    obtain ⟨owner',rep'⟩ := rep.uvmclear live low returned
    exact ⟨_,owner',⟨map,live,rfl⟩,rep'⟩
  | freewalk pagetable =>
    obtain ⟨member,clear,returned,rfl⟩ := stepped
    obtain ⟨map,live⟩ := rep.map_of member
    have owns := rep.owns pagetable map live
    obtain ⟨m1,freed,walked,frees,all,same⟩ := owns.freewalk clear
    rw [walked] at returned
    cases returned
    obtain ⟨pool,trades⟩ := owns.frees frees all same
    exact ⟨_,owner,rfl,rep.remove live pool trades⟩
  | rest =>
    obtain ⟨same,pool,bounds,rfl⟩ := stepped
    exact ⟨maps,owner,rfl,rep.rest bounds pool same⟩

theorem runs (rep : Represents s maps owner) {calls : List Call} (ran : Runs s calls s') :
    ∃ maps' owner', Obeys maps calls maps' ∧ Represents s' maps' owner' := by
  induction calls generalizing s maps owner with
  | nil =>
    cases ran
    exact ⟨maps,owner,rfl,rep⟩
  | cons call calls ih =>
    obtain ⟨s1,stepped,ran⟩ := ran
    obtain ⟨maps1,owner1,spec,rep1⟩ := rep.step stepped
    obtain ⟨maps2,owner2,obeys,rep2⟩ := ih rep1 ran
    exact ⟨maps2,owner2,⟨maps1,spec,obeys⟩,rep2⟩

end Represents

theorem booted (pool : Pool m) : Represents ⟨m,[]⟩ (fun _ => none) fun _ _ => none :=
  ⟨fun _ => ⟨nofun,nofun⟩,List.nodup_nil,pool,nofun,nofun,nofun,nofun⟩

/-! What the calls find. -/

def Finds (m : Memory) (root : Frame) (va : Nat) : Option (Frame × Pte) → Prop
  | none => ∃ slot, m.walk root va false = .ok (slot,m) ∧ ∀ t k, slot = some (t,k) → m.pte t k = 0
  | some (f,flags) => ∃ t k, m.walk root va false = .ok (some (t,k),m) ∧ m.pte t k = pa2pte f ||| flags ∧ pte2pa (m.pte t k) = f ∧
      pteFlags (m.pte t k) = flags

/-- The table at root holds this map: walk finds its leaves, and the calls return
unless they must not be made. -/
structure Holds (m : Memory) (root : Frame) (map : Map) : Prop where
  finds : ∀ va < maxva, Finds m root va (map (va / pgsize))
  walk : ∀ va < maxva, ∀ alloc, ∃ slot m', m.walk root va alloc = .ok (slot,m')
  mappages : ∀ va size pa perm, va % pgsize = 0 → size % pgsize = 0 → 0 < size → va + size ≤ maxva →
    (∀ v, va / pgsize ≤ v → v < va / pgsize + size / pgsize → map v = none) → ∃ ok m', m.mappages root va size pa perm = .ok (ok,m')
  uvmunmap : ∀ va npages, va % pgsize = 0 → va + npages * pgsize ≤ maxva → ∃ m', m.uvmunmap root va npages false = .ok m'
  uvmclear : ∀ va < maxva, map (va / pgsize) ≠ none → ∃ m', m.uvmclear root va = .ok m'
  freewalk : (∀ v, map v = none) → ∃ m' freed, m.freewalk root = .ok m' ∧ m'.freelist = freed ++ m.freelist ∧ freed.Nodup ∧
    ∀ f, f ∈ freed ↔ InTable m root f

theorem Represents.finds (rep : Represents s maps owner) (live : maps root = some map) {va : Nat} (low : va < maxva) :
    Finds s.memory root va (map (va / pgsize)) := by
  have entry := rep.entries root map live va low
  have walk := s.memory.walk_false root low
  cases leaf : map (va / pgsize) with
  | none =>
    refine ⟨_,walk,fun t k slot => ?_⟩
    obtain ⟨t',found,same⟩ := Option.map_eq_some_iff.mp slot
    cases same
    rw [← entry_found found,entry,leaf]
    rfl
  | some leaf' =>
    obtain ⟨f,flags⟩ := leaf'
    obtain ⟨small,bits,-⟩ := rep.sound root map live _ f flags leaf
    have valid := (encode_valid (rep.sound root map live) (va / pgsize)).mpr (by rw [leaf]; nofun)
    cases found : s.memory.tableFrom va 2 root with
    | none =>
      rw [← entry,Memory.entry,Memory.entryFrom,found] at valid
      exact absurd BitVec.zero_and valid
    | some t =>
      rw [found] at walk
      have stored : s.memory.pte t (px 0 va) = pa2pte f ||| flags := by
        rw [← entry_found found,entry,leaf]
        rfl
      exact ⟨t,px 0 va,walk,stored,by rw [stored]; exact pte2pa_low small bits,by rw [stored]; exact pteFlags_low bits⟩

theorem Represents.holds (rep : Represents s maps owner) (live : maps root = some map) : Holds s.memory root map := by
  have owns := rep.owns root map live
  refine ⟨fun va low => rep.finds live low,fun va low alloc => ?_,fun va size pa perm aligned whole some fits free => ?_,
    fun va npages aligned fits => ?_,fun va low mapped => ?_,fun none => ?_⟩
  · rw [Memory.walk,if_neg (by omega)]
    exact ⟨_,_,rfl⟩
  · have base : va / pgsize * pgsize = va := base_of_aligned aligned
    have bytes : size / pgsize * pgsize = size := base_of_aligned whole
    have range : (va / pgsize + size / pgsize) * pgsize ≤ maxva := by rwa [Nat.add_mul,base,bytes]
    unfold Memory.mappages
    rw [if_neg (not_not.mpr aligned),if_neg (not_not.mpr whole),if_neg (by omega)]
    rcases @mapFrom_spec _ _ _ _ perm pa _ _ owns (Nat.zero_le _) range with ⟨-,u,least,most,valid⟩ | ⟨ok,m',-,-,returned,-⟩
    · have below : u * pgsize < maxva := Nat.lt_of_lt_of_le (Nat.mul_lt_mul_of_pos_right most (by decide)) range
      rw [rep.entries root map live _ below,Nat.mul_div_cancel _ (by decide),free u least most] at valid
      exact absurd BitVec.zero_and valid
    · rw [base] at returned
      exact ⟨ok,m',returned⟩
  · have base : va / pgsize * pgsize = va := base_of_aligned aligned
    have range : (va / pgsize + npages) * pgsize ≤ maxva := by rwa [Nat.add_mul,base]
    obtain ⟨m',unmapped,-⟩ := unmapFrom_spec owns (Nat.zero_le _) range
    unfold Memory.uvmunmap
    rw [if_neg (not_not.mpr aligned),← base,unmap_turns range,unmapped]
    exact ⟨m',rfl⟩
  · have valid := (encode_valid (rep.sound root map live) (va / pgsize)).mpr mapped
    rw [← rep.entries root map live va low,Memory.entry,Memory.entryFrom] at valid
    unfold Memory.uvmclear
    rw [s.memory.walk_false root low]
    cases found : s.memory.tableFrom va 2 root with
    | none =>
      rw [found] at valid
      exact absurd BitVec.zero_and valid
    | some t => exact ⟨_,rfl⟩
  · obtain ⟨m',freed,walked,frees,all,-⟩ := owns.freewalk (rep.empty live none)
    exact ⟨m',freed,walked,frees.freelist,frees.nodup,fun f => (all f).trans (rep.inTable live)⟩

end

/-- Page tables are finite maps: after any calls on tables that start from
uvmcreate, each table holds the map that the calls make. -/
theorem page_tables_are_maps (pool : Pool m) {calls : List Call} {s : State} (ran : Runs ⟨m,[]⟩ calls s) : ∃ maps,
    Obeys (fun _ => none) calls maps ∧ (∀ root, root ∈ s.tables ↔ (maps root).isSome = true) ∧
      ∀ root map, maps root = some map → Holds s.memory root map := by
  obtain ⟨maps,owner,obeys,rep⟩ := (booted pool).runs ran
  exact ⟨maps,obeys,rep.live,fun root map live => rep.holds live⟩

theorem page_tables_are_maps_two : Pool bare ∧ ∃ s, Runs ⟨bare,[]⟩ [.uvmcreate 2,.mappages 2 pgsize (2 * pgsize) 9 pteR true] s ∧
    ∃ maps, Obeys (fun _ => none) [.uvmcreate 2,.mappages 2 pgsize (2 * pgsize) 9 pteR true] maps ∧
      (∀ root, root ∈ s.tables ↔ (maps root).isSome = true) ∧ ∀ root map, maps root = some map → Holds s.memory root map := by
  have first : bare.uvmcreate = (2,bare.uvmcreate.2) := rfl
  have second : ((bare.uvmcreate.2.mappages 2 pgsize (2 * pgsize) 9 pteR).toOption.any fun made => made.1) = true := by decide +kernel
  obtain ⟨⟨ok,m'⟩,made,yes⟩ := (Option.any_eq_true _ _).mp second
  cases result : bare.uvmcreate.2.mappages 2 pgsize (2 * pgsize) 9 pteR with
  | error e =>
    rw [result] at made
    cases made
  | ok found =>
    rw [result] at made
    cases made
    cases yes
    have ran : Runs ⟨bare,[]⟩ [.uvmcreate 2,.mappages 2 pgsize (2 * pgsize) 9 pteR true] ⟨m',[2]⟩ :=
      ⟨⟨bare.uvmcreate.2,[2]⟩,⟨first,rfl⟩,⟨m',[2]⟩,⟨List.mem_singleton.mpr rfl,by decide,by decide,by decide,result,rfl⟩,rfl⟩
    exact ⟨bare_pool,_,ran,page_tables_are_maps bare_pool ran⟩

end Xv6.Vm.Paging
