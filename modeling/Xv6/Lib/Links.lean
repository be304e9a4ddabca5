import Mathlib.Logic.Function.Basic
import Mathlib.Data.List.Basic
import Mathlib.Tactic

/-! Circular doubly linked lists through a head. A node is the head, `none`, or
an element; the links are two maps of nodes that are changed in place. -/
namespace Lib
open Function List
variable {α : Type}

structure Links (α : Type) where
  next : Option α → Option α
  prev : Option α → Option α

namespace Links
variable {links links' : Links α} {x y : Option α} {a b : α} {order xs ys : List α}

/-- From x the elements of the list follow, and after them y, in both directions. -/
def Segment (links : Links α) : Option α → List α → Option α → Prop
  | x, [], y => links.next x = y ∧ links.prev y = x
  | x, a :: rest, y => links.next x = some a ∧ links.prev (some a) = x ∧ links.Segment (some a) rest y

-- the whole list
structure Ring (links : Links α) (order : List α) : Prop where
  distinct : order.Nodup
  linked : links.Segment none order none

theorem segment_append : links.Segment x (xs ++ b :: ys) y ↔ links.Segment x xs (some b) ∧ links.Segment (some b) ys y := by
  induction xs generalizing x with
  | nil => simp [Segment,and_assoc]
  | cons a rest ih => simp only [cons_append,Segment,ih,and_assoc]

theorem Segment.congr (segment : links.Segment x order y) (start : links'.next x = links.next x)
    (last : links'.prev y = links.prev y)
    (inner : ∀ a ∈ order, links'.next (some a) = links.next (some a) ∧ links'.prev (some a) = links.prev (some a)) :
    links'.Segment x order y := by
  induction order generalizing x with
  | nil => exact ⟨start.trans segment.1,last.trans segment.2⟩
  | cons a rest ih =>
    obtain ⟨next,prev,more⟩ := segment
    obtain ⟨same,back⟩ := inner a (.head _)
    exact ⟨start.trans next,back.trans prev,ih more same fun c inside => inner c (.tail _ inside)⟩

theorem Segment.before (segment : links.Segment x order y) : links.prev y = x ∨ ∃ a ∈ order, links.prev y = some a := by
  induction order generalizing x with
  | nil => exact .inl segment.2
  | cons a rest ih =>
    rcases ih segment.2.2 with here | ⟨c,inside,there⟩
    · exact .inr ⟨a,.head _,here⟩
    · exact .inr ⟨c,.tail _ inside,there⟩

theorem Segment.after (segment : links.Segment x order y) : links.next x = y ∨ ∃ a ∈ order, links.next x = some a := by
  cases order with
  | nil => exact .inl segment.1
  | cons a rest => exact .inr ⟨a,.head _,segment.1⟩

/-! Changes in place. -/

section change
variable [DecidableEq α]

-- b->next->prev = b->prev; b->prev->next = b->next
def unlink (links : Links α) (b : α) : Links α :=
  let links := { links with prev := update links.prev (links.next (some b)) (links.prev (some b)) }
  { links with next := update links.next (links.prev (some b)) (links.next (some b)) }

-- b->next = head.next; b->prev = &head; head.next->prev = b; head.next = b
def insert (links : Links α) (b : α) : Links α :=
  let links := { links with next := update links.next (some b) (links.next none) }
  let links := { links with prev := update links.prev (some b) none }
  let links := { links with prev := update links.prev (links.next none) (some b) }
  { links with next := update links.next none (some b) }

/-- Two segments around b become one. -/
theorem Segment.join (first : links.Segment x xs (some b)) (second : links.Segment (some b) ys y)
    (distinct : (xs ++ ys).Nodup) (outX : ∀ a ∈ xs ++ ys, x ≠ some a) (outY : ∀ a ∈ xs ++ ys, y ≠ some a) :
    Segment ⟨update links.next (links.prev (some b)) (links.next (some b)),
      update links.prev (links.next (some b)) (links.prev (some b))⟩ x (xs ++ ys) y := by
  induction xs generalizing x with
  | nil =>
    obtain ⟨-,back⟩ := first
    rw [back]
    cases ys with
    | nil =>
      obtain ⟨ahead,-⟩ := second
      rw [ahead]
      exact ⟨update_self ..,update_self ..⟩
    | cons c rest =>
      obtain ⟨ahead,-,more⟩ := second
      rw [ahead]
      refine ⟨update_self ..,update_self ..,more.congr ?_ ?_ fun a inside => ⟨?_,?_⟩⟩
      · exact update_of_ne (outX c (.head _)).symm _ _
      · exact update_of_ne (outY c (.head _)) _ _
      · exact update_of_ne (outX a (.tail _ inside)).symm _ _
      · refine update_of_ne (fun same => ?_) _ _
        rw [Option.some.inj same] at inside
        exact (nodup_cons.mp distinct).1 inside
  | cons a rest ih =>
    obtain ⟨ahead,back,more⟩ := first
    obtain ⟨fresh,distinct⟩ := nodup_cons.mp distinct
    refine ⟨?_,?_,ih more distinct (fun c inside same => fresh (Option.some.inj same ▸ inside))
      fun c inside => outY c (.tail _ inside)⟩
    · refine (update_of_ne (fun same => ?_) _ _).trans ahead
      rcases more.before with here | ⟨c,inside,there⟩
      · exact outX a (.head _) (same.trans here)
      · exact outX c (.tail _ (mem_append_left _ inside)) (same.trans there)
    · refine (update_of_ne (fun same => ?_) _ _).trans back
      rcases second.after with here | ⟨c,inside,there⟩
      · exact outY a (.head _) (here.symm.trans same.symm)
      · rw [there] at same
        exact fresh (mem_append_right _ (Option.some.inj same ▸ inside))

theorem Ring.unlink (ring : links.Ring (xs ++ b :: ys)) : (links.unlink b).Ring (xs ++ ys) := by
  obtain ⟨first,second⟩ := segment_append.mp ring.linked
  have distinct : (xs ++ ys).Nodup := ring.distinct.sublist (List.Sublist.append_left (sublist_cons_self b ys) xs)
  refine ⟨distinct,?_⟩
  have other : links.next (some b) ≠ some b := by
    rcases second.after with last | ⟨c,inside,there⟩
    · rw [last]
      exact nofun
    · rw [there]
      rintro same
      cases same
      exact (nodup_cons.mp (nodup_append.mp ring.distinct).2.1).1 inside
  have joined := first.join second distinct nofun nofun
  have form : links.unlink b = ⟨update links.next (links.prev (some b)) (links.next (some b)),
      update links.prev (links.next (some b)) (links.prev (some b))⟩ := by
    unfold Links.unlink
    dsimp only
    rw [update_of_ne (Ne.symm other)]
  rw [form]
  exact joined

theorem Ring.insert (ring : links.Ring order) (fresh : b ∉ order) : (links.insert b).Ring (b :: order) := by
  refine ⟨nodup_cons.mpr ⟨fresh,ring.distinct⟩,?_⟩
  have head : update links.next (some b) (links.next none) none = links.next none := by
    rw [update_of_ne (Option.some_ne_none b).symm]
  have first : links.next none ≠ some b := by
    rcases ring.linked.after with last | ⟨c,inside,there⟩
    · rw [last]
      exact nofun
    · rw [there]
      rintro same
      cases same
      exact fresh inside
  have form : links.insert b = ⟨update (update links.next (some b) (links.next none)) none (some b),
      update (update links.prev (some b) none) (links.next none) (some b)⟩ := by
    unfold Links.insert
    simp only [head]
  rw [form]
  refine ⟨?_,?_,?_⟩
  · dsimp only
    rw [update_self]
  · dsimp only
    rw [update_of_ne (Ne.symm first),update_self]
  · have linked := ring.linked
    cases order with
    | nil =>
      obtain ⟨last,-⟩ := linked
      refine ⟨?_,?_⟩
      · dsimp only
        rw [update_of_ne (by simp),update_self,last]
      · dsimp only
        rw [last,update_self]
    | cons c rest =>
      obtain ⟨ahead,-,more⟩ := linked
      have apart : some c ≠ some b := fun same => fresh (Option.some.inj same ▸ .head _)
      rw [ahead]
      refine ⟨?_,?_,more.congr ?_ ?_ fun a inside => ?_⟩
      · dsimp only
        rw [update_of_ne (by simp),update_self]
      · dsimp only
        rw [update_self]
      · dsimp only
        rw [update_of_ne (by simp),update_of_ne apart]
      · dsimp only
        rw [update_of_ne (by simp),update_of_ne (by simp)]
      · have mine : some a ≠ some b := fun same => fresh (Option.some.inj same ▸ .tail _ inside)
        have later : some a ≠ some c := fun same => (nodup_cons.mp ring.distinct).1 (Option.some.inj same ▸ inside)
        dsimp only
        rw [update_of_ne (by simp),update_of_ne mine,update_of_ne later,update_of_ne mine]
        exact ⟨rfl,rfl⟩

end change

/-! Searches. -/

-- for(b = start; b != &head; b = step(b)) if(test(b)) return b; at most `turns` elements
def search (step : Option α → Option α) (test : α → Bool) : (turns : Nat) → Option α → Option α
  | 0, _ => none
  | _ + 1, none => none
  | turns + 1, some b => if test b then some b else search step test turns (step (some b))

theorem Segment.search_next (segment : links.Segment x order none) (test : α → Bool) {turns : Nat} (enough : order.length ≤ turns) :
    search links.next test turns (links.next x) = order.find? test := by
  induction order generalizing x turns with
  | nil =>
    rw [segment.1]
    cases turns <;> rfl
  | cons a rest ih =>
    obtain ⟨turns,rfl⟩ := Nat.exists_eq_succ_of_ne_zero (show turns ≠ 0 by rw [length_cons] at enough; omega)
    rw [segment.1,search,find?_cons,ih segment.2.2 (by rw [length_cons] at enough; omega)]
    cases test a <;> rfl

theorem Segment.reverse (segment : links.Segment x order y) : Segment ⟨links.prev,links.next⟩ y order.reverse x := by
  induction order generalizing x with
  | nil => exact ⟨segment.2,segment.1⟩
  | cons a rest ih =>
    obtain ⟨ahead,back,more⟩ := segment
    rw [reverse_cons,segment_append]
    exact ⟨ih more,back,ahead⟩

end Links
end Lib
