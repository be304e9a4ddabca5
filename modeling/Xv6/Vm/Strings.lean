import Xv6.Vm.Tables

/-! Strings from user memory. copyinstr does not fault pages in: where a string
goes on in a page below p->sz that has no memory yet, it fails, although the same
string is read once the page is there. -/
namespace Xv6.Vm
open Lib.Bytes
variable {m m' : Memory} {p : Proc} {own : Frame → Option Place} {va mem : Nat}

/-- What vmfault did if it returned a page: the page is all zero, it is mapped at
va where there was none, and the other user pages are as they were. -/
structure Faulted (m m' : Memory) (pagetable : Frame) (va mem : Nat) : Prop where
  unmapped : m.walkaddr pagetable (pgrounddown va) = 0
  mapped : ∀ w, m'.walkaddr pagetable w = if w / pgsize = va / pgsize then mem else m.walkaddr pagetable w
  zero : ∀ k, m'.page mem k = 0
  others : ∀ w, m.walkaddr pagetable w ≠ 0 → m'.page (m.walkaddr pagetable w) = m.page (m.walkaddr pagetable w)

theorem pgrounddown_div (a : Nat) : pgrounddown a / pgsize = a / pgsize := Nat.mul_div_cancel _ (by decide)

theorem walkaddr_user {root : Frame} {w : Nat} (space : Space m root own) (mapped : m.walkaddr root w ≠ 0) :
    ∃ v, own (m.walkaddr root w) = some (.user v) := by
  by_cases low : w < maxva
  · rw [m.walkaddr_entry low] at mapped ⊢
    split_ifs at mapped ⊢ with valid user
    · exact absurd rfl mapped
    · exact absurd rfl mapped
    · rw [Memory.entry,Memory.entryFrom] at valid user ⊢
      cases found : m.tableFrom w 2 root with
      | none =>
        simp [found] at valid
      | some t =>
        rw [found] at valid user
        exact ⟨_,space.leaf t _ _ _ (tableFrom_owned space.tree space.root rfl found) (px_lt ..) valid user⟩
  · exact absurd (m.walkaddr_high (by omega)) mapped

theorem vmfault_cases (faults : m.vmfault p p.pagetable va = .ok (mem,m')) (found : mem ≠ 0) :
    va < p.sz ∧ pgrounddown va < maxva ∧ ¬m.entry p.pagetable (pgrounddown va) &&& pteV ≠ 0 ∧ ∃ rest,
      m.freelist = mem :: rest ∧ ({ m with freelist := rest }.fill mem 5 |>.fill mem 0).mappages p.pagetable (pgrounddown va)
        pgsize mem (pteW ||| pteU ||| pteR) = .ok (true,m') := by
  unfold Memory.vmfault at faults
  split at faults
  · cases faults
    exact absurd rfl found
  next high =>
    split at faults
    · cases faults
    · cases faults
      exact absurd rfl found
    next unmapped =>
      have low : pgrounddown va < maxva := by
        by_contra top
        simp only [Memory.ismapped,Memory.walk,if_pos (Nat.le_of_not_lt top)] at unmapped
        cases unmapped
      rw [m.ismapped_entry low] at unmapped
      refine ⟨by omega,low,of_decide_eq_false (Except.ok.inj unmapped),?_⟩
      unfold Memory.faultPage at faults
      cases free : m.freelist with
      | nil =>
        rw [Memory.kalloc,free] at faults
        cases faults
        exact absurd rfl found
      | cons f rest =>
        rw [kalloc_cons free] at faults
        dsimp only at faults
        split at faults
        · cases faults
          exact absurd rfl found
        · split at faults
          · cases faults
          next maps =>
            cases faults
            exact ⟨rest,rfl,maps⟩
          next m1 _ =>
            cases freed : m1.kfree f <;> rw [freed] at faults <;> cases faults
            exact absurd rfl found

theorem vmfault_faulted (space : Space m p.pagetable own) (faults : m.vmfault p p.pagetable va = .ok (mem,m'))
    (found : mem ≠ 0) : Faulted m m' p.pagetable va mem ∧ ∃ own', Space m' p.pagetable own' := by
  obtain ⟨-,low,invalid,rest,free,maps⟩ := vmfault_cases faults found
  obtain ⟨nobody,positive,small⟩ := space.free mem (by rw [free]; exact List.mem_cons_self)
  have nodup := space.nodup
  rw [free] at nodup
  have out := (List.nodup_cons.mp nodup).1
  have taken := alloc_grows space free
  obtain ⟨m1,own1,t,grown,table,rfl⟩ := mappages_page taken.space low maps
  have grows := taken.trans grown
  have nobody1 : own1 mem = none := grown.fresh mem nobody out
  have flags : (pteW ||| pteU ||| pteR) >>> 10 = 0 := by decide
  have leaf := tableFrom_owned grows.space.tree grows.space.root rfl table
  have page : ∀ g, g ≠ t → (m1.setPte t (px 0 (pgrounddown va)) (pa2pte mem ||| (pteW ||| pteU ||| pteR) ||| pteV)).page g =
      m1.page g := fun g other => Function.update_of_ne other ..
  refine ⟨⟨?_,fun w => ?_,fun k => ?_,fun w mapped => ?_⟩,_,
    map_space grows.space table nobody1 (fun inside => out (grown.free mem inside)) small flags⟩
  · simp only [not_not] at invalid
    rw [m.walkaddr_entry low,if_pos invalid]
  · by_cases high : w < maxva
    · rw [Memory.walkaddr_entry _ high,m.walkaddr_entry high,entry_setPte grows.space.tree low high table,pgrounddown_div]
      by_cases same : w / pgsize = va / pgsize
      · simp only [if_pos same]
        rw [if_neg (valid_or _),if_neg (user_or _),pte2pa_pa2pte small flags]
      · have before : m1.entry p.pagetable w = m.entry p.pagetable w := grows.entries w 2 _ [] space.root rfl
        simp only [if_neg same,before]
    · have other : ¬w / pgsize = va / pgsize := by
        simp only [pgrounddown,pgsize,maxva] at *
        omega
      rw [if_neg other,Memory.walkaddr_high _ (by omega),Memory.walkaddr_high _ (by omega)]
  · have other : mem ≠ t := by
      rintro rfl
      rw [leaf] at nobody1
      cases nobody1
    rw [page mem other,grown.others mem (by simp [nobody]) out]
    simp [Memory.fill,Memory.setPage]
  · grind [grows.keeps,grows.others,space.free,walkaddr_user]

/-! The user's bytes. -/

def Memory.byteAt (m : Memory) (pagetable : Frame) (va : Nat) : Option Byte :=
  if m.walkaddr pagetable (pgrounddown va) = 0 then none
  else some (m.page (m.walkaddr pagetable (pgrounddown va)) (va % pgsize))

namespace Faulted

theorem byteAt (faulted : Faulted m m' p.pagetable va mem) (found : mem ≠ 0) (w : Nat) :
    m'.byteAt p.pagetable w = if w / pgsize = va / pgsize then some 0 else m.byteAt p.pagetable w := by
  unfold Memory.byteAt
  rw [faulted.mapped,pgrounddown_div]
  split_ifs with same none
  · rw [faulted.zero]
  · rfl
  · rw [faulted.others _ none]

end Faulted

def Memory.faultIn (p : Proc) : List Nat → Memory → Option Memory
  | [], m => some m
  | va :: rest, m =>
    match m.vmfault p p.pagetable va with
    | .ok (mem,m') => if mem = 0 then none else faultIn p rest m'
    | .error _ => none

/-- Faults put zeros where there was no page, and change no other byte. -/
theorem faultIn_byteAt {vas : List Nat} (space : Space m p.pagetable own) (faults : m.faultIn p vas = some m') :
    ∀ w, m'.byteAt p.pagetable w = if w / pgsize ∈ vas.map (· / pgsize) then some 0 else m.byteAt p.pagetable w := by
  induction vas generalizing m own with
  | nil =>
    cases faults
    simp
  | cons va rest ih =>
    intro w
    unfold Memory.faultIn at faults
    split at faults
    next mem m1 fault =>
      split_ifs at faults with none
      obtain ⟨faulted,own1,space1⟩ := vmfault_faulted space fault none
      rw [ih space1 faults w,faulted.byteAt none]
      by_cases here : w / pgsize = va / pgsize
      · simp [here]
      · simp [here]
    next => cases faults

theorem faultIn_unmapped {vas : List Nat} (space : Space m p.pagetable own) (faults : m.faultIn p vas = some m') :
    ∀ w, w / pgsize ∈ vas.map (· / pgsize) → m.byteAt p.pagetable w = none := by
  induction vas generalizing m own with
  | nil => simp
  | cons va rest ih =>
    intro w inside
    unfold Memory.faultIn at faults
    split at faults
    next mem m1 fault =>
      split_ifs at faults with none
      obtain ⟨faulted,own1,space1⟩ := vmfault_faulted space fault none
      obtain here | later := List.mem_cons.mp inside
      · have same : pgrounddown w = pgrounddown va := by rw [pgrounddown,here,pgrounddown]
        rw [Memory.byteAt,same,if_pos faulted.unmapped]
      · have after := ih space1 faults w later
        rw [faulted.byteAt none] at after
        split_ifs at after
        exact after
    next => cases faults

/-! copyinstr reads the user's bytes one after another. -/

def scan (bytes : Nat → Option Byte) : (max va : Nat) → List Byte × Bool
  | 0, _ => ([],false)
  | max + 1, va =>
    match bytes va with
    | none => ([],false)
    | some b => if b = 0 then ([0],true) else (b :: (scan bytes max (va + 1)).1,(scan bytes max (va + 1)).2)

theorem copyStr_scan (bytes : Nat → Option Byte) (page : Page) (n off va rest : Nat)
    (same : ∀ k < n, bytes (va + k) = some (page (off + k))) :
    scan bytes (n + rest) va =
      if (Memory.copyStr page n off).2 then Memory.copyStr page n off
      else ((Memory.copyStr page n off).1 ++ (scan bytes rest (va + n)).1,(scan bytes rest (va + n)).2) := by
  induction n generalizing off va with
  | zero => simp [Memory.copyStr]
  | succ n ih =>
    have here := same 0 (by omega)
    have later := ih (off + 1) (va + 1) fun k small => by
      have there := same (k + 1) (by omega)
      rwa [show va + 1 + k = va + (k + 1) by omega,show off + 1 + k = off + (k + 1) by omega]
    simp only [Nat.add_zero] at here
    rw [show n + 1 + rest = n + rest + 1 by omega,scan,here,Memory.copyStr]
    dsimp only
    by_cases null : page off = 0
    · simp [null]
    · rw [if_neg null,if_neg null,later,show va + 1 + n = va + (n + 1) by omega]
      split_ifs <;> rfl

theorem byteAt_page {root : Frame} {w k : Nat} (mapped : m.walkaddr root (pgrounddown w) ≠ 0)
    (inside : w - pgrounddown w + k < pgsize) :
    m.byteAt root (w + k) = some (m.page (m.walkaddr root (pgrounddown w)) (w - pgrounddown w + k)) := by
  have same : pgrounddown (w + k) = pgrounddown w := by
    simp only [pgrounddown,pgsize] at *
    omega
  have place : (w + k) % pgsize = w - pgrounddown w + k := by
    simp only [pgrounddown,pgsize] at *
    omega
  rw [Memory.byteAt,same,if_neg mapped,place]

theorem copyinstrFrom_scan {root : Frame} {turns srcva max : Nat} (enough : max ≤ turns) :
    m.copyinstrFrom root turns srcva max = scan (m.byteAt root) max srcva := by
  induction turns generalizing srcva max with
  | zero =>
    obtain rfl : max = 0 := by omega
    rfl
  | succ turns ih =>
    rw [Memory.copyinstrFrom]
    split_ifs with stop
    · rw [stop]
      rfl
    dsimp only
    split_ifs with unmapped
    · obtain ⟨max,rfl⟩ := Nat.exists_eq_succ_of_ne_zero stop
      rw [scan,Memory.byteAt,if_pos unmapped]
    have low : pgrounddown srcva < maxva := by
      by_contra high
      exact unmapped (m.walkaddr_high (by omega))
    have start : srcva - pgrounddown srcva < pgsize ∧ pgrounddown srcva ≤ srcva := by
      simp only [pgrounddown,pgsize]
      omega
    generalize amount : min (pgsize - (srcva - pgrounddown srcva)) max = n
    have split := copyStr_scan (m.byteAt root) (m.page (m.walkaddr root (pgrounddown srcva))) n
      (srcva - pgrounddown srcva) srcva (max - n) fun k small => byteAt_page unmapped (by omega)
    rw [show n + (max - n) = max by omega] at split
    rw [split]
    cases copied : Memory.copyStr (m.page (m.walkaddr root (pgrounddown srcva))) n (srcva - pgrounddown srcva) with
    | mk bytes gotNull =>
      cases gotNull with
      | true => rfl
      | false =>
        simp only [Bool.false_eq_true,if_false]
        rw [ih (by omega)]
        by_cases last : max - n = 0
        · simp only [last,scan]
        · have next : (pgrounddown srcva + pgsize) % 2^64 = srcva + n := by
            unfold maxva at low
            unfold pgsize at *
            omega
          rw [next]

theorem scan_eq_iff {bytes other : Nat → Option Byte} {fresh : Nat → Prop} [DecidablePred fresh]
    (absent : ∀ w, fresh w → bytes w = none) (same : ∀ w, other w = if fresh w then some 0 else bytes w) (max va : Nat) :
    scan other max va = scan bytes max va ↔
      ∀ k < max, (∀ j < k, ∃ b, b ≠ 0 ∧ bytes (va + j) = some b) → ¬fresh (va + k) := by
  induction max generalizing va with
  | zero => simp [scan]
  | succ max ih =>
    rw [scan,scan,same va]
    cases here : bytes va with
    | none =>
      by_cases new : fresh va
      · simp only [if_pos new]
        refine ⟨nofun,fun none => absurd new ?_⟩
        simpa using none 0 (by omega) (by simp)
      · simp only [if_neg new,true_iff]
        intro k small before
        cases k with
        | zero => exact new
        | succ k =>
          obtain ⟨b,-,there⟩ := before 0 (by omega)
          simp [here] at there
    | some b =>
      have old : ¬fresh va := fun new => by simp [absent va new] at here
      simp only [if_neg old]
      by_cases null : b = 0
      · simp only [if_pos null,true_iff]
        intro k small before
        cases k with
        | zero => exact old
        | succ k =>
          obtain ⟨b',nonzero,there⟩ := before 0 (by omega)
          simp only [Nat.add_zero,here,Option.some.injEq] at there
          exact absurd (there ▸ null) nonzero
      · simp only [if_neg null,Prod.mk.injEq,List.cons.injEq,true_and]
        rw [← Prod.ext_iff,ih (va + 1)]
        constructor
        · intro later k small before
          cases k with
          | zero => exact old
          | succ k => grind
        · intro all k small before
          have there := all (k + 1) (by omega) fun j less => by
            cases j with
            | zero => exact ⟨b,null,here⟩
            | succ j =>
              have step := before j (by omega)
              rwa [show va + (j + 1) = va + 1 + j by omega]
          rwa [show va + 1 + k = va + (k + 1) by omega]

theorem fetchstr_scan (m : Memory) (p : Proc) (addr : Nat) (max : Int) :
    m.fetchstr p addr max =
      let (bytes,gotNull) := scan (m.byteAt p.pagetable) (max % 2^64).toNat addr
      (if gotNull then (Memory.strlen bytes : Int) else -1,bytes) := by
  rw [Memory.fetchstr,Memory.copyinstr,copyinstrFrom_scan le_rfl]
  cases scan (m.byteAt p.pagetable) (max % 2^64).toNat addr with
  | mk bytes gotNull => cases gotNull <;> rfl

/-- Pages of the process are faulted in. A string is fetched as before exactly if
it ends, or max bytes of it, before the first of these pages. -/
theorem fetchstr_same_iff {vas : List Nat} (space : Space m p.pagetable own) (faults : m.faultIn p vas = some m')
    (addr : Nat) (max : Int) :
    m'.fetchstr p addr max = m.fetchstr p addr max ↔ ∀ k < (max % 2^64).toNat,
      (∀ j < k, ∃ b, b ≠ 0 ∧ m.byteAt p.pagetable (addr + j) = some b) → (addr + k) / pgsize ∉ vas.map (· / pgsize) := by
  rw [← scan_eq_iff (faultIn_unmapped space faults) (faultIn_byteAt space faults),fetchstr_scan,fetchstr_scan]
  constructor
  · grind
  · intro same
    rw [same]

def bare : Memory := ⟨fun _ _ => 0,[2,3,4,5,6,7],1,8⟩

def lazy : Proc := ⟨1,2 * pgsize⟩

theorem bare_space : Space bare 1 fun f => if f = 1 then some (.table []) else none := by
  have empty : ∀ t k, bare.pte t k = 0 := fun t k => get64_zero k
  refine ⟨rfl,fun t path k _ _ _ valid => ?_,fun t i j k _ _ valid => ?_,by decide,by decide⟩
  · rw [empty] at valid
    exact absurd rfl valid
  · rw [empty] at valid
    exact absurd rfl valid

/-- The string at 0 ends in the first page, and the second is faulted in. -/
theorem fetchstr_same_first : ∃ m m', (∃ own, Space m lazy.pagetable own) ∧ m.faultIn lazy [pgsize] = some m' ∧
    m.fetchstr lazy 0 128 = (0,[0]) ∧ m'.fetchstr lazy 0 128 = m.fetchstr lazy 0 128 := by
  have ran : ((bare.faultIn lazy [0]).any fun m => (m.faultIn lazy [pgsize]).isSome &&
      decide (m.fetchstr lazy 0 128 = (0,[0])) && decide (m.byteAt 1 0 = some 0)) = true := by decide +kernel
  obtain ⟨m,first,facts⟩ := (Option.any_eq_true _ _).mp ran
  simp only [Bool.and_eq_true,decide_eq_true_eq] at facts
  obtain ⟨⟨second,value⟩,null⟩ := facts
  obtain ⟨m',second⟩ := Option.isSome_iff_exists.mp second
  have space : ∃ own, Space m lazy.pagetable own := by
    unfold Memory.faultIn at first
    split at first
    next mem m1 fault =>
      split_ifs at first with none
      cases first
      exact (vmfault_faulted (p := lazy) bare_space fault none).2
    next => cases first
  obtain ⟨own,space⟩ := space
  refine ⟨m,m',⟨own,space⟩,second,value,(fetchstr_same_iff space second 0 128).mpr fun k _ before => ?_⟩
  cases k with
  | zero => decide
  | succ k =>
    obtain ⟨b,nonzero,there⟩ := before 0 (by omega)
    rw [show m.byteAt lazy.pagetable (0 + 0) = some 0 from null] at there
    exact absurd (Option.some.inj there).symm nonzero

/-- The page at 0 has no memory, and the string in it cannot be fetched; after a
fault it is the empty string. -/
theorem fetchstr_differs : (∃ own, Space bare lazy.pagetable own) ∧ ∃ m', bare.faultIn lazy [0] = some m' ∧ bare.fetchstr lazy 0 128 = (-1,[]) ∧
    m'.fetchstr lazy 0 128 = (0,[0]) := by
  have ran : ((bare.faultIn lazy [0]).any fun m => decide (m.fetchstr lazy 0 128 = (0,[0]))) = true := by decide +kernel
  obtain ⟨m',faults,value⟩ := (Option.any_eq_true _ _).mp ran
  exact ⟨⟨_,bare_space⟩,m',faults,by decide +kernel,of_decide_eq_true value⟩

end Xv6.Vm
