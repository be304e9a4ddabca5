import Xv6.Ulib.Memmove

/-! Strings in memory. A string ends at its NUL, so the loops over it are given a number
of turns in which they must find it. -/
namespace Xv6.Ulib
open Function List
variable {a : Addr} {c : Byte} {text : List Byte} {turns : Nat}

def strchr (mem : Memory) (c : Byte) : (turns : Nat) → (s : Addr) → Option (Option Addr)
  | 0, _ => none
  | turns + 1, s => if mem s = 0 then some none else if mem s = c then some (some s) else strchr mem c turns (s + 1)

def string (mem : Memory) : (turns : Nat) → (s : Addr) → Option (List Byte)
  | 0, _ => none
  | turns + 1, s => if mem s = 0 then some [] else (string mem turns (s + 1)).map (mem s :: ·)

def load (mem : Memory) (s : Addr) (n : Nat) : List Byte := (range n).map fun k => mem (s + BitVec.ofNat 64 k)

def store (mem : Memory) : (s : Addr) → List Byte → Memory
  | _, [] => mem
  | s, b :: bytes => store (update mem s b) (s + 1) bytes

/-- The bytes are in memory from s on. -/
def Holds (mem : Memory) : (s : Addr) → List Byte → Prop
  | _, [] => True
  | s, b :: bytes => mem s = b ∧ Holds mem (s + 1) bytes

variable {mem mem' : Memory} {s : Addr} {bytes : List Byte}

theorem holds_append {first second : List Byte} :
    Holds mem s (first ++ second) ↔ Holds mem s first ∧ Holds mem (s + BitVec.ofNat 64 first.length) second := by
  induction first generalizing s with
  | nil => rw [nil_append,length_nil,add_zero,Holds,true_and]
  | cons b first ih => rw [cons_append,Holds,Holds,ih,add_succ,length_cons,and_assoc]

theorem holds_iff : Holds mem s bytes ↔ ∀ k (short : k < bytes.length), mem (s + BitVec.ofNat 64 k) = bytes[k] := by
  induction bytes generalizing s with
  | nil => exact iff_of_true trivial nofun
  | cons b bytes ih =>
    rw [Holds,ih]
    constructor
    · rintro ⟨first,rest⟩ k short
      cases k with
      | zero => rw [add_zero]; exact first
      | succ k => rw [← add_succ]; exact rest k (Nat.lt_of_succ_lt_succ short)
    · intro all
      refine ⟨?_,fun k short => ?_⟩
      · have first := all 0 (Nat.succ_pos _)
        rwa [add_zero] at first
      · rw [add_succ]
        exact all (k + 1) (Nat.succ_lt_succ short)

theorem Holds.congr (holds : Holds mem s bytes) (same : ∀ k < bytes.length, mem' (s + BitVec.ofNat 64 k) = mem (s + BitVec.ofNat 64 k)) :
    Holds mem' s bytes :=
  holds_iff.mpr fun k short => (same k short).trans (holds_iff.mp holds k short)

theorem Holds.update_after (holds : Holds mem s bytes) {k : Nat} (past : bytes.length ≤ k) (small : k < 2^64) (c : Byte) :
    Holds (update mem (s + BitVec.ofNat 64 k) c) s bytes :=
  holds.congr fun j short => update_of_ne (fun same => by have equal := add_inj (by omega) small same; omega) ..

theorem Holds.update_before (holds : Holds mem (a + 1) bytes) (short : bytes.length < 2^64) (c : Byte) :
    Holds (update mem a c) (a + 1) bytes := by
  refine holds.congr fun k inside => update_of_ne (fun same => ?_) ..
  rw [add_succ] at same
  exact absurd (add_inj (by omega) (by omega) (same.trans (add_zero a).symm)) (Nat.succ_ne_zero k)

theorem load_eq (holds : Holds mem s bytes) : load mem s bytes.length = bytes := by
  refine ext_getElem (by rw [load,length_map,length_range]) fun k short inside => ?_
  simp only [load,getElem_map,getElem_range]
  exact holds_iff.mp holds k inside

theorem store_outside (away : ∀ k < bytes.length, a ≠ s + BitVec.ofNat 64 k) : store mem s bytes a = mem a := by
  induction bytes generalizing mem s with
  | nil => rfl
  | cons b bytes ih =>
    rw [length_cons] at away
    have first := away 0 (Nat.succ_pos _)
    rw [add_zero] at first
    rw [store,ih fun k short => by rw [add_succ]; exact away (k + 1) (by omega),update_of_ne first]

theorem store_holds (short : bytes.length ≤ 2^64) : Holds (store mem s bytes) s bytes := by
  induction bytes generalizing mem s with
  | nil => trivial
  | cons b bytes ih =>
    rw [length_cons] at short
    refine ⟨?_,ih (by omega)⟩
    rw [store,store_outside fun k inside same => ?_,update_self]
    rw [add_succ] at same
    exact absurd (add_inj (by omega) (by omega) ((add_zero s).trans same)) (Nat.succ_ne_zero k).symm

theorem strchr_finds {rest : List Byte} (holds : Holds mem s (text ++ c :: rest)) (real : c ≠ 0) (plain : 0 ∉ text)
    (first : c ∉ text) (enough : text.length < turns) : strchr mem c turns s = some (some (s + BitVec.ofNat 64 text.length)) := by
  induction turns generalizing s text with
  | zero => exact absurd enough (Nat.not_lt_zero _)
  | succ turns ih =>
    cases text with
    | nil =>
      rw [strchr,holds.1,if_neg real,if_pos rfl,length_nil,add_zero]
    | cons b text =>
      rw [mem_cons,not_or] at plain first
      rw [strchr,holds.1,if_neg (Ne.symm plain.1),if_neg (Ne.symm first.1),
        ih holds.2 plain.2 first.2 (Nat.lt_of_succ_lt_succ enough),add_succ,length_cons]

theorem strchr_fails (holds : Holds mem s (text ++ [0])) (plain : 0 ∉ text) (none : c ∉ text)
    (enough : text.length < turns) : strchr mem c turns s = some Option.none := by
  induction turns generalizing s text with
  | zero => exact absurd enough (Nat.not_lt_zero _)
  | succ turns ih =>
    cases text with
    | nil => rw [strchr,holds.1,if_pos rfl]
    | cons b text =>
      rw [mem_cons,not_or] at plain none
      rw [strchr,holds.1,if_neg (Ne.symm plain.1),if_neg (Ne.symm none.1),ih holds.2 plain.2 none.2 (Nat.lt_of_succ_lt_succ enough)]

theorem string_eq (holds : Holds mem s (text ++ [0])) (plain : 0 ∉ text) (enough : text.length < turns) :
    string mem turns s = some text := by
  induction turns generalizing s text with
  | zero => exact absurd enough (Nat.not_lt_zero _)
  | succ turns ih =>
    cases text with
    | nil => rw [string,holds.1,if_pos rfl]
    | cons b text =>
      rw [mem_cons,not_or] at plain
      rw [string,holds.1,if_neg (Ne.symm plain.1),ih holds.2 plain.2 (Nat.lt_of_succ_lt_succ enough),Option.map_some]

end Xv6.Ulib
