import Mathlib.Data.List.Basic
import Mathlib.Tactic

/-! Lists of slots that are free or hold a value under a key. With distinct keys
such a list is a finite map: it is searched from its start, a value is put into
the first free slot or after the last one, and a slot that is freed takes its
key out of the map. -/
namespace Lib.Keyed

variable {α κ : Type} {key : α → Option κ} {slots slots' : List α} {i : Nat} {a : α} {k : κ}

-- the first slot that has the key
def find [DecidableEq κ] (key : α → Option κ) (slots : List α) (k : κ) : Option Nat := slots.findIdx? fun a => key a = some k

-- the first free slot, or the place after the last one
def vacancy (key : α → Option κ) (slots : List α) : Nat := slots.findIdx fun a => (key a).isNone

def put (slots : List α) (i : Nat) (a : α) : List α := if i < slots.length then slots.set i a else slots ++ [a]

def Distinct (key : α → Option κ) (slots : List α) : Prop :=
  ∀ (i j : Nat) (a b : α), slots[i]? = some a → slots[j]? = some b → key a ≠ none → key a = key b → i = j

theorem getElem?_put (inside : i ≤ slots.length) (a : α) (j : Nat) :
    (put slots i a)[j]? = if j = i then some a else slots[j]? := by
  unfold put
  by_cases old : i < slots.length
  · rw [if_pos old,List.getElem?_set]
    by_cases same : j = i
    · rw [if_pos same.symm,if_pos same,if_pos (same ▸ old)]
    · rw [if_neg (Ne.symm same),if_neg same]
  · rw [if_neg old]
    rcases Nat.lt_trichotomy j slots.length with before | last | after
    · rw [List.getElem?_append_left before,if_neg (by omega)]
    · rw [List.getElem?_append_right (by omega),last,Nat.sub_self,if_pos (by omega)]
      rfl
    · have length : (slots ++ [a]).length = slots.length + 1 := by rw [List.length_append,List.length_singleton]
      rw [if_neg (by omega),List.getElem?_eq_none (by omega),List.getElem?_eq_none (by omega)]

theorem vacancy_le (key : α → Option κ) (slots : List α) : vacancy key slots ≤ slots.length := List.findIdx_le_length

theorem vacancy_free (there : slots[vacancy key slots]? = some a) : key a = none := by
  obtain ⟨inside,rfl⟩ := List.getElem?_eq_some_iff.mp there
  exact Option.isNone_iff_eq_none.mp (List.findIdx_getElem (w := inside))

-- one slot has another value
def Replaced (slots slots' : List α) (i : Nat) (a : α) : Prop := ∀ j, slots'[j]? = if j = i then some a else slots[j]?

theorem replaced_put (inside : i ≤ slots.length) (a : α) : Replaced slots (put slots i a) i a := getElem?_put inside a

theorem Distinct.replaced (distinct : Distinct key slots) (replaced : Replaced slots slots' i a)
    (fresh : ∀ j b, slots[j]? = some b → key a ≠ none → key b = key a → j = i) : Distinct key slots' := by
  intro j l b c first second some same
  rw [replaced] at first second
  split_ifs at first second with isFirst isSecond isSecond
  · exact isFirst.trans isSecond.symm
  · cases first
    exact absurd (fresh l c second some same.symm) isSecond
  · cases second
    exact absurd (fresh j b first (same ▸ some) same) isFirst
  · exact distinct j l b c first second some same

theorem Distinct.clear (distinct : Distinct key slots) (inside : i ≤ slots.length) (empty : key a = none) :
    Distinct key (Keyed.put slots i a) :=
  distinct.replaced (replaced_put inside a) fun _ _ _ some _ => absurd empty some

section find
variable [DecidableEq κ]

theorem find_eq_none : find key slots k = none ↔ ∀ (i : Nat) (a : α), slots[i]? = some a → key a ≠ some k := by
  rw [find,List.findIdx?_eq_none_iff]
  constructor
  · intro absent i a here
    exact of_decide_eq_false (absent a (List.mem_of_getElem? here))
  · intro absent a member
    obtain ⟨i,here⟩ := List.mem_iff_getElem?.mp member
    exact decide_eq_false (absent i a here)

theorem find_eq_some (distinct : Distinct key slots) : find key slots k = some i ↔ ∃ a, slots[i]? = some a ∧ key a = some k := by
  rw [find,List.findIdx?_eq_some_iff_getElem]
  constructor
  · rintro ⟨inside,hit,-⟩
    exact ⟨_,List.getElem?_eq_getElem inside,of_decide_eq_true hit⟩
  · rintro ⟨a,here,hit⟩
    obtain ⟨inside,rfl⟩ := List.getElem?_eq_some_iff.mp here
    refine ⟨inside,decide_eq_true hit,fun j before early => ?_⟩
    have there : slots[j]? = some slots[j] := List.getElem?_eq_getElem (by omega)
    have same := distinct i j _ _ here there (by rw [hit]; exact Option.some_ne_none k)
      (hit.trans (of_decide_eq_true early).symm)
    omega

theorem find_replaced (distinct : Distinct key slots) (replaced : Replaced slots slots' i a)
    (fresh : ∀ j b, slots[j]? = some b → key a ≠ none → key b = key a → j = i) (k : κ) :
    find key slots' k = if key a = some k then some i else if find key slots k = some i then none else find key slots k := by
  by_cases hit : key a = some k
  · rw [if_pos hit,find_eq_some (distinct.replaced replaced fresh)]
    exact ⟨a,by rw [replaced,if_pos rfl],hit⟩
  rw [if_neg hit]
  by_cases was : find key slots k = some i
  · rw [if_pos was,find_eq_none]
    intro j b here same
    rw [replaced] at here
    split_ifs at here with mine
    · cases here
      exact hit same
    · have found := (find_eq_some distinct).mpr ⟨b,here,same⟩
      rw [was] at found
      exact mine (Option.some.inj found).symm
  · rw [if_neg was]
    refine Option.ext fun j => ?_
    rw [find_eq_some (distinct.replaced replaced fresh),find_eq_some distinct,replaced]
    split_ifs with mine
    · refine ⟨fun ⟨b,here,same⟩ => ?_,fun found => absurd ((find_eq_some distinct).mpr (mine ▸ found)) was⟩
      cases here
      exact absurd same hit
    · rfl

/-- A value under a new key. -/
theorem find_put (distinct : Distinct key slots) (inside : i ≤ slots.length) (free : ∀ b, slots[i]? = some b → key b = none)
    (hit : key a = some k) (absent : find key slots k = none) (l : κ) :
    find key (put slots i a) l = if l = k then some i else find key slots l := by
  have fresh : ∀ j b, slots[j]? = some b → key a ≠ none → key b = key a → j = i :=
    fun j b here _ same => absurd (same.trans hit) (find_eq_none.mp absent j b here)
  rw [find_replaced distinct (replaced_put inside a) fresh,hit]
  by_cases mine : l = k
  · rw [if_pos (congrArg some mine.symm),if_pos mine]
  · rw [if_neg (fun same => mine (Option.some.inj same).symm),if_neg mine,if_neg]
    intro found
    obtain ⟨b,here,same⟩ := (find_eq_some distinct).mp found
    rw [free b here] at same
    cases same

theorem Distinct.put (distinct : Distinct key slots) (inside : i ≤ slots.length) (hit : key a = some k)
    (absent : find key slots k = none) : Distinct key (put slots i a) :=
  distinct.replaced (replaced_put inside a) fun j b here _ same => absurd (same.trans hit) (find_eq_none.mp absent j b here)

/-- A slot that is freed. -/
theorem find_clear (distinct : Distinct key slots) (inside : i ≤ slots.length) (empty : key a = none)
    (found : find key slots k = some i) (l : κ) :
    find key (Keyed.put slots i a) l = if l = k then none else find key slots l := by
  rw [find_replaced distinct (replaced_put inside a) (fun _ _ _ some _ => absurd empty some),empty,if_neg (by simp)]
  by_cases mine : l = k
  · rw [mine,if_pos found,if_pos rfl]
  · rw [if_neg mine,if_neg]
    intro other
    obtain ⟨b,here,same⟩ := (find_eq_some distinct).mp found
    obtain ⟨c,there,differs⟩ := (find_eq_some distinct).mp other
    obtain rfl : b = c := Option.some.inj (here.symm.trans there)
    exact mine (Option.some.inj (differs.symm.trans same))

end find
end Lib.Keyed
