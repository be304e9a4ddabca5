import Mathlib.Algebra.BigOperators.Ring.Finset
import Mathlib.Data.Fintype.BigOperators

/-! Sums and counts over a finite family when one member changes. -/
namespace Lib.Count
open Function
variable {ι α : Type*}

theorem sum_update [DecidableEq ι] {s : Finset ι} (weight : α → Nat) (family : ι → α) {i : ι} (inside : i ∈ s) (value : α) :
    ∑ j ∈ s, weight (update family i value j) + weight (family i) =
      ∑ j ∈ s, weight (family j) + weight value := by
  have rest : ∑ j ∈ s.erase i, weight (update family i value j) = ∑ j ∈ s.erase i, weight (family j) := by
    apply Finset.sum_congr rfl
    intro j member
    rw [update_of_ne (Finset.ne_of_mem_erase member)]
  rw [← Finset.add_sum_erase s _ inside,← Finset.add_sum_erase s (fun j => weight (family j)) inside,rest,
    update_self]
  omega

variable [Fintype ι]

def count (test : α → Bool) (family : ι → α) : Nat := (Finset.univ.filter (fun i => test (family i))).card

theorem count_eq_sum (test : α → Bool) (family : ι → α) : count test family = ∑ i, if test (family i) then 1 else 0 :=
  Finset.card_filter _ _

theorem count_update [DecidableEq ι] (test : α → Bool) (family : ι → α) (i : ι) (value : α) :
    count test (update family i value) + (if test (family i) then 1 else 0) =
      count test family + (if test value then 1 else 0) := by
  rw [count_eq_sum,count_eq_sum]
  exact sum_update (fun value => if test value then 1 else 0) family (Finset.mem_univ i) value

theorem count_congr {test : α → Bool} {family other : ι → α} (same : ∀ i, test (family i) = test (other i)) :
    count test family = count test other := by
  simp only [count,same]

theorem count_pos {test : α → Bool} {family : ι → α} (i : ι) (holds : test (family i) = true) :
    0 < count test family :=
  Finset.card_pos.mpr ⟨i,by simp [holds]⟩

theorem count_eq_zero {test : α → Bool} {family : ι → α} :
    count test family = 0 ↔ ∀ i, test (family i) = false := by
  simp [count,Finset.filter_eq_empty_iff]

theorem eq_of_count_le_one {test : α → Bool} {family : ι → α} (few : count test family ≤ 1) {i j : ι}
    (first : test (family i) = true) (second : test (family j) = true) : i = j :=
  Finset.card_le_one.mp few i (by simp [first]) j (by simp [second])

theorem count_sum {κ : Type*} [Fintype κ] (test : α → Bool) (family : ι ⊕ κ → α) :
    count test family = count test (family ∘ Sum.inl) + count test (family ∘ Sum.inr) := by
  simp only [count_eq_sum,Fintype.sum_sum_type,Function.comp_apply]

end Lib.Count
