import Xv6.Fs.Calls
import Mathlib.Data.List.TakeWhile

/-! Names as C strings: what strncmp compares, what strncpy stores and what
skipelem takes off a path. -/
namespace Xv6.Fs
open Lib List

def text (n : Nat) (p : List Byte) : List Byte := (p.take n).takeWhile (· ≠ 0)

theorem text_succ (n : Nat) (p : List Byte) :
    text (n + 1) p = if p.headD 0 = 0 then [] else p.headD 0 :: text n p.tail := by
  cases p with
  | nil => rfl
  | cons b p =>
    change (b :: p.take n).takeWhile (· ≠ 0) = if b = 0 then [] else b :: text n p
    rw [takeWhile_cons]
    by_cases zero : b = 0
    · rw [if_pos zero,if_neg (by simpa using zero)]
    · rw [if_neg zero,if_pos (by simpa using zero)]
      rfl

theorem strncmp_eq_zero (n : Nat) (p q : List Byte) : strncmp n p q = 0 ↔ text n p = text n q := by
  induction n generalizing p q with
  | zero => simp [strncmp,text]
  | succ n ih =>
    rw [strncmp,text_succ,text_succ]
    generalize p.headD 0 = a
    generalize q.headD 0 = b
    by_cases same : a = b
    · subst same
      by_cases zero : a = 0
      · rw [if_neg (fun both => both.1 zero),if_pos zero,if_pos zero,Int.sub_self]
        exact ⟨fun _ => rfl,fun _ => rfl⟩
      · rw [if_pos ⟨zero,rfl⟩,if_neg zero,if_neg zero,ih,cons_inj_right]
    · rw [if_neg (fun both => same both.2)]
      have apart : (a.toNat : Int) - b.toNat ≠ 0 := by
        intro none
        exact same (BitVec.eq_of_toNat_eq (by omega))
      refine ⟨fun none => absurd none apart,fun equal => ?_⟩
      split_ifs at equal with first second second
      · exact absurd (first.trans second.symm) same
      · exact absurd (cons.inj equal).1 same

theorem text_of_short {n : Nat} {p : List Byte} (short : p.length ≤ n) (plain : 0 ∉ p) : text n p = p := by
  rw [text,take_of_length_le short,takeWhile_eq_self_iff]
  intro b inside
  simpa using fun zero : b = 0 => plain (zero ▸ inside)

theorem strncpy_eq (t : List Byte) (n : Nat) : strncpy t n = text n t ++ replicate (n - (text n t).length) 0 := rfl

theorem length_text (n : Nat) (p : List Byte) : (text n p).length ≤ n :=
  (takeWhile_sublist _).length_le.trans (length_take_le n p)

@[simp] theorem length_strncpy (t : List Byte) (n : Nat) : (strncpy t n).length = n := by
  have short := length_text n t
  rw [strncpy_eq,length_append,length_replicate]
  omega

@[simp] theorem text_strncpy (n : Nat) (t : List Byte) : text n (strncpy t n) = text n t := by
  have inside : ∀ b ∈ text n t, decide (b ≠ 0) = true := by
    intro b mine
    exact mem_takeWhile_imp (p := fun b : Byte => decide (b ≠ 0)) mine
  conv_lhs => rw [text,take_of_length_le (length_strncpy t n).le,strncpy_eq]
  rw [takeWhile_append_of_pos inside,takeWhile_replicate]
  simp

/-- A stored name is found by the name it was made of, and by no other. -/
theorem namecmp_strncpy (p q : List Byte) : namecmp p (strncpy q dirsiz) = 0 ↔ text dirsiz p = text dirsiz q := by
  rw [namecmp,strncmp_eq_zero,text_strncpy]

theorem skipelem_single {name : List Byte} (some : name ≠ []) (plain : slash ∉ name) :
    skipelem (slash :: name) = Option.some (name.take dirsiz,[]) := by
  have all : ∀ b ∈ name, decide (b ≠ slash) = true := by
    intro b inside
    simpa using fun same : b = slash => plain (same ▸ inside)
  have start : (slash :: name).dropWhile (· = slash) = name := by
    obtain ⟨b,rest,rfl⟩ := exists_cons_of_ne_nil some
    have first : b ≠ slash := by simpa using all b (.head _)
    rw [dropWhile_cons_of_pos (by simp),dropWhile_cons_of_neg (by simpa using first)]
  have whole : name.takeWhile (· ≠ slash) = name := takeWhile_eq_self_iff.mpr all
  have rest : name.dropWhile (· ≠ slash) = [] := dropWhile_eq_nil_iff.mpr all
  rw [skipelem,start,if_neg some,whole,rest]
  rfl

end Xv6.Fs
