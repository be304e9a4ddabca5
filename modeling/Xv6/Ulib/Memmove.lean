import Mathlib.Data.BitVec
import Mathlib.Logic.Function.Basic
import Xv6.Param

/-! memmove in kernel/string.c and in user/ulib.c. Both copy upwards or downwards, and
choose the direction by different tests. A copy is right if what it writes is not a byte
of the source that it has still to read. -/
namespace Xv6.Ulib
open Function

abbrev Addr := BitVec 64

abbrev Memory := Addr → Byte

def copyUp : (turns : Nat) → (s d : Addr) → Memory → Memory
  | 0, _, _, mem => mem
  | turns + 1, s, d, mem => copyUp turns (s + 1) (d + 1) (update mem d (mem s))

def copyDown : (turns : Nat) → (s d : Addr) → Memory → Memory
  | 0, _, _, mem => mem
  | turns + 1, s, d, mem => copyDown turns (s - 1) (d - 1) (update mem (d - 1) (mem (s - 1)))

/-- memmove of the kernel, where n is a uint: what it returns and the memory then. -/
def kernelMemmove (mem : Memory) (dst src : Addr) (n : BitVec 32) : Addr × Memory :=
  if n = 0 then (dst,mem)
  else if src < dst ∧ src + n.setWidth 64 > dst then (dst,copyDown n.toNat (src + n.setWidth 64) (dst + n.setWidth 64) mem)
  else (dst,copyUp n.toNat src dst mem)

/-- memmove of the user library, where n is an int. -/
def memmove (mem : Memory) (vdst vsrc : Addr) (n : BitVec 32) : Addr × Memory :=
  if vsrc > vdst then (vdst,copyUp n.toInt.toNat vsrc vdst mem)
  else (vdst,copyDown n.toInt.toNat (vsrc + n.signExtend 64) (vdst + n.signExtend 64) mem)

/-- The len bytes from src on have been moved to dst. -/
structure Moved (mem : Memory) (dst src : Addr) (len : Nat) (mem' : Memory) : Prop where
  inside : ∀ k < len, mem' (dst + BitVec.ofNat 64 k) = mem (src + BitVec.ofNat 64 k)
  outside : ∀ a, (∀ k < len, a ≠ dst + BitVec.ofNat 64 k) → mem' a = mem a

variable {mem : Memory} {dst src : Addr} {len : Nat}

theorem Moved.unique {mem₁ mem₂ : Memory} (first : Moved mem dst src len mem₁) (second : Moved mem dst src len mem₂) : mem₁ = mem₂ := by
  funext a
  by_cases there : ∃ k < len, a = dst + BitVec.ofNat 64 k
  · obtain ⟨k,short,rfl⟩ := there
    rw [first.inside k short,second.inside k short]
  · have away : ∀ k < len, a ≠ dst + BitVec.ofNat 64 k := fun k short same => there ⟨k,short,same⟩
    rw [first.outside a away,second.outside a away]

theorem add_succ (a : Addr) (k : Nat) : a + 1 + BitVec.ofNat 64 k = a + BitVec.ofNat 64 (k + 1) := by
  rw [BitVec.add_assoc,Nat.add_comm,BitVec.ofNat_add]
  rfl

theorem add_pred (a : Addr) (k : Nat) : a + BitVec.ofNat 64 (k + 1) - 1 = a + BitVec.ofNat 64 k := by
  rw [BitVec.ofNat_add,← BitVec.add_assoc]
  exact BitVec.add_sub_cancel ..

theorem add_zero (a : Addr) : a + BitVec.ofNat 64 0 = a := BitVec.add_zero a

theorem add_inj {a : Addr} {i j : Nat} (low : i < 2^64) (high : j < 2^64) (same : a + BitVec.ofNat 64 i = a + BitVec.ofNat 64 j) : i = j := by
  have numbers := congrArg BitVec.toNat (add_left_cancel same)
  rwa [BitVec.toNat_ofNat,BitVec.toNat_ofNat,Nat.mod_eq_of_lt low,Nat.mod_eq_of_lt high] at numbers

/-- A copy upwards, where no byte is written that is read later. -/
theorem copyUp_moved (short : len ≤ 2^64) (clear : ∀ i j, i < j → j < len → dst + BitVec.ofNat 64 i ≠ src + BitVec.ofNat 64 j) :
    Moved mem dst src len (copyUp len src dst mem) := by
  induction len generalizing mem dst src with
  | zero => exact ⟨fun k below => absurd below (Nat.not_lt_zero k),fun _ _ => rfl⟩
  | succ len ih =>
    obtain ⟨inside,outside⟩ := @ih (update mem dst (mem src)) (dst + 1) (src + 1) (by omega) fun i j order below => by
      rw [add_succ,add_succ]
      exact clear (i + 1) (j + 1) (by omega) (by omega)
    refine ⟨fun k below => ?_,fun a away => ?_⟩
    · cases k with
      | zero =>
        -- the first byte is not written again
        rw [add_zero,add_zero,copyUp,outside dst fun k below same => ?_,update_self]
        rw [add_succ] at same
        exact absurd (add_inj (by omega) (by omega) ((add_zero dst).trans same)) (Nat.succ_ne_zero k).symm
      | succ k =>
        have kept : src + BitVec.ofNat 64 (k + 1) ≠ dst := by
          have first := clear 0 (k + 1) (by omega) below
          rw [add_zero] at first
          exact first.symm
        rw [copyUp,← add_succ,inside k (by omega),add_succ,update_of_ne kept]
    · rw [copyUp,outside a fun k below => by rw [add_succ]; exact away (k + 1) (by omega),update_of_ne]
      have first := away 0 (by omega)
      rwa [add_zero] at first

/-- A copy downwards. -/
theorem copyDown_moved (short : len ≤ 2^64) (clear : ∀ i j, i < j → j < len → dst + BitVec.ofNat 64 j ≠ src + BitVec.ofNat 64 i) :
    Moved mem dst src len (copyDown len (src + BitVec.ofNat 64 len) (dst + BitVec.ofNat 64 len) mem) := by
  induction len generalizing mem with
  | zero => exact ⟨fun k below => absurd below (Nat.not_lt_zero k),fun _ _ => rfl⟩
  | succ len ih =>
    rw [copyDown,add_pred,add_pred]
    obtain ⟨inside,outside⟩ := @ih (update mem (dst + BitVec.ofNat 64 len) (mem (src + BitVec.ofNat 64 len))) (by omega)
      fun i j order below => clear i j order (by omega)
    refine ⟨fun k below => ?_,fun a away => ?_⟩
    · rcases Nat.lt_succ_iff_lt_or_eq.mp below with less | rfl
      · rw [inside k less,update_of_ne (clear k len less (by omega)).symm]
      · rw [outside _ fun j less same => absurd (add_inj (by omega) (by omega) same) (Nat.ne_of_gt less),update_self]
    · rw [outside a fun k less => away k (by omega),update_of_ne (away len (by omega))]

/-! The direction. -/

theorem toNat_add_of_le {a : Addr} {k : Nat} (below : k < len) (bound : a.toNat + len ≤ 2^64) : (a + BitVec.ofNat 64 k).toNat = a.toNat + k := by
  rw [BitVec.toNat_add,BitVec.toNat_ofNat,Nat.mod_eq_of_lt (show k < 2^64 by omega),Nat.mod_eq_of_lt (by omega)]

theorem clear_up (source : src.toNat + len ≤ 2^64) (target : dst.toNat + len ≤ 2^64) (order : dst.toNat ≤ src.toNat ∨ src.toNat + len ≤ dst.toNat)
    (i j : Nat) (less : i < j) (below : j < len) : dst + BitVec.ofNat 64 i ≠ src + BitVec.ofNat 64 j := by
  intro same
  have numbers := congrArg BitVec.toNat same
  rw [toNat_add_of_le (by omega) target,toNat_add_of_le below source] at numbers
  omega

theorem clear_down (source : src.toNat + len ≤ 2^64) (target : dst.toNat + len ≤ 2^64) (order : src.toNat ≤ dst.toNat)
    (i j : Nat) (less : i < j) (below : j < len) : dst + BitVec.ofNat 64 j ≠ src + BitVec.ofNat 64 i := by
  intro same
  have numbers := congrArg BitVec.toNat same
  rw [toNat_add_of_le below target,toNat_add_of_le (by omega) source] at numbers
  omega

variable {n : BitVec 32}

theorem kernelMemmove_moved (source : src.toNat + n.toNat ≤ 2^64) (target : dst.toNat + n.toNat ≤ 2^64) :
    (kernelMemmove mem dst src n).1 = dst ∧ Moved mem dst src n.toNat (kernelMemmove mem dst src n).2 := by
  have small := n.isLt
  have wide : n.setWidth 64 = BitVec.ofNat 64 n.toNat :=
    BitVec.eq_of_toNat_eq (by rw [BitVec.toNat_setWidth,BitVec.toNat_ofNat])
  unfold kernelMemmove
  by_cases none : n = 0
  · rw [if_pos none,none]
    exact ⟨rfl,fun k below => absurd below (Nat.not_lt_zero k),fun _ _ => rfl⟩
  rw [if_neg none]
  by_cases overlap : src < dst ∧ src + n.setWidth 64 > dst
  · rw [if_pos overlap,wide]
    exact ⟨rfl,copyDown_moved (by omega) (clear_down source target (Nat.le_of_lt overlap.1))⟩
  · rw [if_neg overlap]
    refine ⟨rfl,copyUp_moved (by omega) (clear_up source target ?_)⟩
    by_contra inside
    -- the source ends above dst and hence below 2^64
    refine overlap ⟨BitVec.lt_def.mpr (by omega),BitVec.lt_def.mpr ?_⟩
    rw [BitVec.toNat_add,BitVec.toNat_setWidth,Nat.mod_eq_of_lt (show n.toNat < 2^64 by omega),Nat.mod_eq_of_lt] <;> omega

theorem memmove_moved (positive : 0 ≤ n.toInt) (source : src.toNat + n.toNat ≤ 2^64) (target : dst.toNat + n.toNat ≤ 2^64) :
    (memmove mem dst src n).1 = dst ∧ Moved mem dst src n.toNat (memmove mem dst src n).2 := by
  have small := n.isLt
  have low : n.toNat < 2^31 := by
    by_contra high
    rw [BitVec.toInt_eq_toNat_cond,if_neg (by omega)] at positive
    omega
  have number : n.toInt = n.toNat := by rw [BitVec.toInt_eq_toNat_cond,if_pos (by omega)]
  have wide : n.signExtend 64 = BitVec.ofNat 64 n.toNat := by
    rw [BitVec.signExtend,number]
    rfl
  unfold memmove
  rw [number,Int.toNat_natCast,wide]
  by_cases above : src > dst
  · rw [if_pos above]
    exact ⟨rfl,copyUp_moved (by omega) (clear_up source target (.inl (Nat.le_of_lt above)))⟩
  · rw [if_neg above]
    exact ⟨rfl,copyDown_moved (by omega) (clear_down source target (Nat.not_lt.mp above))⟩

/-- Both move the bytes whatever the overlap, and hence agree. -/
theorem memmoves_move (mem : Memory) (dst src : Addr) (n : BitVec 32) (source : src.toNat + n.toNat ≤ 2^64) (target : dst.toNat + n.toNat ≤ 2^64) :
    Moved mem dst src n.toNat (kernelMemmove mem dst src n).2 ∧
      (0 ≤ n.toInt → Moved mem dst src n.toNat (memmove mem dst src n).2 ∧ memmove mem dst src n = kernelMemmove mem dst src n) := by
  obtain ⟨first,kernel⟩ := @kernelMemmove_moved mem dst src n source target
  refine ⟨kernel,fun positive => ?_⟩
  obtain ⟨second,user⟩ := @memmove_moved mem dst src n positive source target
  exact ⟨user,Prod.ext (second.trans first.symm) (user.unique kernel)⟩

theorem memmoves_move_overlap : Moved (fun a => a.setWidth 8) 2 0 (3 : BitVec 32).toNat (kernelMemmove (fun a => a.setWidth 8) 2 0 3).2 ∧
    Moved (fun a => a.setWidth 8) 2 0 (3 : BitVec 32).toNat (memmove (fun a => a.setWidth 8) 2 0 3).2 := by
  obtain ⟨kernel,user⟩ := memmoves_move (fun a => a.setWidth 8) 2 0 3 (by decide) (by decide)
  exact ⟨kernel,(user (by decide)).1⟩

end Xv6.Ulib
