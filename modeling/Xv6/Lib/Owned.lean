import Mathlib.Tactic
import Mathlib.Data.Finset.Card

/-! Blocks of a range that are handed out one at a time. A place has at most one
block, a block is at one place only, and a bit for each block says if it has
been handed out. -/
namespace Lib

variable {ι : Type} {low high : Nat} {used used' : Nat → Bool} {holds holds' : ι → Option Nat} {b : Nat}

structure Owned (low high : Nat) (used : Nat → Bool) (holds : ι → Option Nat) : Prop where
  range : ∀ {i b}, holds i = some b → low ≤ b ∧ b < high
  once : ∀ {i j b}, holds i = some b → holds j = some b → i = j
  used : ∀ {b}, low ≤ b → b < high → (used b = true ↔ ∃ i, holds i = some b)

-- the blocks below n that are not handed out
def vacant (n : Nat) (used : Nat → Bool) : Nat := (List.range n).countP fun b => !used b

theorem vacant_congr {n : Nat} (same : ∀ b < n, used' b = used b) : vacant n used' = vacant n used :=
  List.countP_congr fun b member => by rw [same b (List.mem_range.mp member)]

theorem vacant_card (n : Nat) (used : Nat → Bool) : vacant n used = ((Finset.range n).filter fun b => used b = false).card := by
  rw [vacant,List.countP_eq_length_filter]
  have same : (Finset.range n).filter (fun b => used b = false) = ((List.range n).filter fun b => !used b).toFinset := by
    ext b
    simp
  rw [same,List.toFinset_card_of_nodup (List.nodup_range.filter _)]

theorem vacant_eq_zero {n : Nat} : vacant n used = 0 ↔ ∀ b < n, used b = true := by
  rw [vacant,List.countP_eq_zero]
  simp

theorem vacant_take {n : Nat} (inside : b < n) (free : used b = false)
    (bits : ∀ c < n, used' c = if c = b then true else used c) : vacant n used' + 1 = vacant n used := by
  rw [vacant_card,vacant_card]
  have erased : (Finset.range n).filter (fun c => used' c = false) =
      ((Finset.range n).filter fun c => used c = false).erase b := by
    ext c
    simp only [Finset.mem_filter,Finset.mem_range,Finset.mem_erase]
    constructor
    · rintro ⟨small,unused⟩
      rw [bits c small] at unused
      split_ifs at unused with same
      exact ⟨same,small,unused⟩
    · rintro ⟨other,small,unused⟩
      exact ⟨small,by rw [bits c small,if_neg other,unused]⟩
  have member : b ∈ (Finset.range n).filter fun c => used c = false := by simp [inside,free]
  rw [erased,Finset.card_erase_add_one member]

namespace Owned

theorem congr (owned : Owned low high used holds) (bits : ∀ b, low ≤ b → b < high → used' b = used b)
    (same : ∀ i, holds' i = holds i) : Owned low high used' holds' := by
  refine ⟨fun {i b} held => ?_,fun {i j b} held held' => ?_,fun {b} least most => ?_⟩
  · exact owned.range (same i ▸ held)
  · exact owned.once (same i ▸ held) (same j ▸ held')
  · rw [bits b least most,owned.used least most]
    exact exists_congr fun i => by rw [same i]

theorem fresh (owned : Owned low high used holds) (least : low ≤ b) (most : b < high) (free : used b = false) (i : ι) :
    holds i ≠ some b := by
  intro held
  rw [(owned.used least most).mpr ⟨i,held⟩] at free
  cases free

/-- A free block is given to a place that has none. -/
theorem take [DecidableEq ι] {k : ι} (owned : Owned low high used holds) (least : low ≤ b) (most : b < high)
    (free : used b = false) (empty : holds k = none) (bits : ∀ c, low ≤ c → c < high → used' c = if c = b then true else used c)
    (same : ∀ i, holds' i = if i = k then some b else holds i) : Owned low high used' holds' := by
  have new := owned.fresh least most free
  refine ⟨fun {i c} held => ?_,fun {i j c} held held' => ?_,fun {c} small large => ?_⟩
  · rw [same i] at held
    split_ifs at held with mine
    · cases held
      exact ⟨least,most⟩
    · exact owned.range held
  · rw [same i] at held
    rw [same j] at held'
    split_ifs at held held' with mine yours yours
    · exact mine.trans yours.symm
    · cases held
      exact absurd held' (new j)
    · cases held'
      exact absurd held (new i)
    · exact owned.once held held'
  · rw [bits c small large]
    constructor
    · intro taken
      split_ifs at taken with here
      · exact ⟨k,by rw [same k,if_pos rfl,here]⟩
      · obtain ⟨i,held⟩ := (owned.used small large).mp taken
        refine ⟨i,?_⟩
        rw [same i,if_neg,held]
        rintro rfl
        rw [empty] at held
        cases held
    · rintro ⟨i,held⟩
      rw [same i] at held
      split_ifs at held with mine
      · cases held
        rw [if_pos rfl]
      · rw [(owned.used small large).mpr ⟨i,held⟩]
        split_ifs <;> rfl

end Owned

end Lib
