import Mathlib.Logic.Function.Basic
import Mathlib.Data.Fin.Basic
import Mathlib.Data.List.Basic
import Mathlib.Data.BitVec
import Mathlib.Tactic.Ring

/-! Ring buffers addressed by free-running machine counters. The producer and
the consumer counter are never reduced modulo the capacity; only the slot they
name is. This is exact as long as the capacity divides the counter's modulus. -/
namespace Lib.Ring
open Function
variable {α : Type*} {w cap : Nat} [NeZero cap]

def slot (cap : Nat) [NeZero cap] (counter : BitVec w) : Fin cap := Fin.ofNat cap counter.toNat

/-- The `count` items from the consumer counter on, oldest first. -/
def window (data : Fin cap → α) (first : BitVec w) (count : Nat) : List α :=
  (List.range count).map (fun k => data (slot cap (first + BitVec.ofNat w k)))

theorem slot_add_val (divides : cap ∣ 2^w) (first : BitVec w) (k : Nat) :
    (slot cap (first + BitVec.ofNat w k)).val = (first.toNat + k) % cap := by
  simp only [slot,Fin.val_ofNat,BitVec.toNat_add,BitVec.toNat_ofNat,Nat.add_mod_mod]
  exact Nat.mod_mod_of_dvd _ divides

theorem slot_add_ne (divides : cap ∣ 2^w) (first : BitVec w) {i j : Nat} (less : i < j)
    (near : j < i + cap) :
    slot cap (first + BitVec.ofNat w i) ≠ slot cap (first + BitVec.ofNat w j) := by
  intro equal
  have same := congrArg Fin.val equal
  rw [slot_add_val divides,slot_add_val divides] at same
  have divided : cap ∣ j - i := by
    have zero := Nat.sub_mod_eq_zero_of_mod_eq same.symm
    rw [Nat.add_sub_add_left] at zero
    exact Nat.dvd_of_mod_eq_zero zero
  exact absurd (Nat.le_of_dvd (by omega) divided) (by omega)

theorem add_distance (first last : BitVec w) :
    first + BitVec.ofNat w (last - first).toNat = last := by
  rw [BitVec.ofNat_toNat,BitVec.setWidth_eq,BitVec.add_comm]
  exact BitVec.sub_add_cancel last first

@[simp] theorem window_zero (data : Fin cap → α) (first : BitVec w) : window data first 0 = [] := rfl

theorem window_succ (data : Fin cap → α) (first : BitVec w) (count : Nat) :
    window data first (count + 1) =
      window data first count ++ [data (slot cap (first + BitVec.ofNat w count))] := by
  simp [window,List.range_succ]

theorem window_cons (data : Fin cap → α) (first : BitVec w) (count : Nat) :
    window data first (count + 1) = data (slot cap first) :: window data (first + 1) count := by
  simp only [window,List.range_succ_eq_map,List.map_cons,List.map_map]
  congr 1
  · simp
  · apply List.map_congr_left
    intro k _
    simp only [Function.comp_apply,Nat.succ_eq_add_one]
    congr 2
    rw [BitVec.add_assoc]
    congr 1
    apply BitVec.eq_of_toNat_eq
    simp [BitVec.toNat_add,Nat.add_comm]

/-- The number of items between two counters. -/
def held (first last : BitVec w) : Nat := (last - first).toNat

theorem held_eq_zero {first last : BitVec w} : held first last = 0 ↔ first = last := by
  unfold held
  constructor
  · intro zero
    have moved := add_distance first last
    rw [zero] at moved
    simpa using moved
  · rintro rfl
    simp

theorem held_push {first last : BitVec w} (room : held first last + 1 < 2^w) :
    held first (last + 1) = held first last + 1 := by
  unfold held at *
  have moved : last + 1 - first = (last - first) + 1 := by ring
  have one : 1 % 2^w = 1 := Nat.mod_eq_of_lt (by omega)
  rw [moved,BitVec.toNat_add]
  simp only [BitVec.ofNat_eq_ofNat,BitVec.toNat_ofNat,one]
  exact Nat.mod_eq_of_lt room

theorem held_pop {first last : BitVec w} (nonempty : first ≠ last) :
    held first last = held (first + 1) last + 1 := by
  have moved : last - first = (last - (first + 1)) + 1 := by ring
  have positive : held first last ≠ 0 := fun zero => nonempty (held_eq_zero.mp zero)
  have bound := (last - (first + 1)).isLt
  unfold held at *
  rw [moved,BitVec.toNat_add] at positive ⊢
  generalize (last - (first + 1)).toNat = rest at *
  simp only [BitVec.ofNat_eq_ofNat,BitVec.toNat_ofNat,Nat.add_mod_mod] at positive ⊢
  by_cases full : rest + 1 = 2^w
  · rw [full,Nat.mod_self] at positive
    exact absurd rfl positive
  · exact Nat.mod_eq_of_lt (by omega)

/-- Storing at the producer's slot leaves the items of a ring that is not full. -/
theorem window_store (divides : cap ∣ 2^w) (data : Fin cap → α) (first last : BitVec w) (item : α)
    (room : held first last < cap) :
    window (update data (slot cap last) item) first (held first last) = window data first (held first last) := by
  have target : slot cap (first + BitVec.ofNat w (held first last)) = slot cap last := by
    unfold held
    rw [add_distance]
  apply List.map_congr_left
  intro k member
  have less := List.mem_range.mp member
  rw [update_of_ne]
  rw [← target]
  exact slot_add_ne divides first less (by omega)

/-- Advancing the producer appends the item at its slot. -/
theorem window_advance (data : Fin cap → α) {first last : BitVec w} (room : held first last + 1 < 2^w) :
    window data first (held first (last + 1)) = window data first (held first last) ++ [data (slot cap last)] := by
  rw [held_push room,window_succ]
  congr 3
  unfold held
  rw [add_distance]

/-- Storing at the producer's slot and advancing it appends one item, provided
the ring is not full. -/
theorem window_push (divides : cap ∣ 2^w) (proper : cap < 2^w) (data : Fin cap → α)
    (first last : BitVec w) (item : α) (room : held first last < cap) :
    window (update data (slot cap last) item) first (held first (last + 1)) =
      window data first (held first last) ++ [item] := by
  rw [window_advance _ (by omega),window_store divides data first last item room,update_self]

/-- Advancing the consumer past a nonempty ring removes its oldest item. -/
theorem window_pop (data : Fin cap → α) {first last : BitVec w} (nonempty : first ≠ last) :
    window data first (held first last) =
      data (slot cap first) :: window data (first + 1) (held (first + 1) last) := by
  rw [held_pop nonempty,window_cons]

theorem held_back {first last : BitVec w} (nonempty : first ≠ last) : held first last = held first (last - 1) + 1 := by
  have moved : last - 1 + 1 = last := BitVec.sub_add_cancel last 1
  have bound := (last - 1 - first).isLt
  have room : held first (last - 1) + 1 < 2^w := by
    refine lt_of_le_of_ne bound fun full => nonempty ?_
    have next : last - first = last - 1 - first + 1 := by ring
    have zero : held first last = 0 := by
      unfold held at full ⊢
      have one : (1 : BitVec w).toNat = 1 % 2^w := by simp
      rw [next,BitVec.toNat_add,one,Nat.add_mod_mod,full,Nat.mod_self]
    exact held_eq_zero.mp zero
  have pushed := held_push room
  rwa [moved] at pushed

theorem held_inj {first a b : BitVec w} (same : held first a = held first b) : a = b := by
  rw [← add_distance first a,← add_distance first b]
  exact congrArg (first + BitVec.ofNat w ·) same

theorem held_split {first middle last : BitVec w} (inside : held first middle ≤ held first last) :
    held first last = held first middle + held middle last := by
  have moved : last - middle = (last - first) - (middle - first) := by ring
  unfold held at *
  have difference : (last - middle).toNat = (last - first).toNat - (middle - first).toNat := by
    rw [moved]
    exact BitVec.toNat_sub_of_le (by rw [BitVec.le_def]; exact inside)
  omega

/-- Moving the producer back takes the newest item out. -/
theorem window_back (data : Fin cap → α) {first last : BitVec w} (nonempty : first ≠ last) :
    window data first (held first last) = window data first (held first (last - 1)) ++ [data (slot cap (last - 1))] := by
  rw [held_back nonempty,window_succ]
  congr 3
  unfold held
  rw [add_distance]

@[simp] theorem length_window (data : Fin cap → α) (first : BitVec w) (count : Nat) : (window data first count).length = count := by
  simp [window]

end Lib.Ring
