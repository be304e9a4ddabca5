import Mathlib.Logic.Relation
import Mathlib.Tactic.SplitIfs

/-! Labelled transition systems, their reachable states and the invariant rule.
A run is a finite sequence of labelled steps from an initial state. Nothing is
assumed about fairness or about which labels are enabled in a state. -/
namespace Lib

structure System (State Label : Type*) where
  initial : State → Prop
  step : State → Label → State → Prop

namespace System
variable {State Label : Type*} {sys : System State Label}

inductive Reachable (sys : System State Label) : State → Prop
  | start (s : State) (first : sys.initial s) : Reachable sys s
  | next (s : State) (label : Label) (s' : State)
      (before : Reachable sys s) (step : sys.step s label s') : Reachable sys s'

/-- What holds initially and is kept by every step from a reachable state holds
in every reachable state. -/
theorem Reachable.invariant {inv : State → Prop} (first : ∀ s, sys.initial s → inv s)
    (keep : ∀ s label s', sys.Reachable s → inv s → sys.step s label s' → inv s')
    {s : State} (reached : sys.Reachable s) : inv s := by
  induction reached with
  | start s start => exact first s start
  | next s label s' before step ih => exact keep s label s' before ih step

-- a system whose steps are computed: at most one successor for each label
def ofStep (initial : State → Prop) (step : State → Label → Option State) : System State Label where
  initial := initial
  step s label s' := step s label = some s'

def run (step : State → Label → Option State) : State → List Label → Option State
  | s, [] => some s
  | s, label :: rest => (step s label).bind (run step · rest)

theorem Reachable.run {initial : State → Prop} {step : State → Label → Option State} {s s' : State}
    {labels : List Label} (before : (ofStep initial step).Reachable s)
    (ran : System.run step s labels = some s') : (ofStep initial step).Reachable s' := by
  induction labels generalizing s with
  | nil =>
    rw [← Option.some.inj ran]
    exact before
  | cons label rest ih =>
    obtain ⟨middle,stepped,ran⟩ := Option.bind_eq_some_iff.mp ran
    exact ih (.next _ _ _ before stepped) ran

/-- The runs all of whose steps meet a condition on the state before the step
and on its label. -/
def restrict (sys : System State Label) (allowed : State → Label → Prop) : System State Label where
  initial := sys.initial
  step s label s' := allowed s label ∧ sys.step s label s'

theorem Reachable.of_restrict {allowed : State → Label → Prop} {s : State}
    (reached : (sys.restrict allowed).Reachable s) : sys.Reachable s := by
  induction reached with
  | start s first => exact .start s first
  | next s label s' before step ih => exact .next s label s' ih step.2

theorem Reachable.run_restrict {initial : State → Prop} {step : State → Label → Option State}
    {allowed : State → Label → Prop} {s s' : State} {labels : List Label}
    (before : ((ofStep initial step).restrict allowed).Reachable s)
    (kept : ∀ s, ∀ label ∈ labels, allowed s label) (ran : System.run step s labels = some s') :
    ((ofStep initial step).restrict allowed).Reachable s' := by
  induction labels generalizing s with
  | nil =>
    rw [← Option.some.inj ran]
    exact before
  | cons label rest ih =>
    obtain ⟨middle,stepped,ran⟩ := Option.bind_eq_some_iff.mp ran
    exact ih (.next _ _ _ before ⟨kept s label (.head _),stepped⟩) (fun s l inside => kept s l (.tail _ inside)) ran

-- a step that checks the condition first
def guarded (allowed : State → Label → Prop) [∀ s label, Decidable (allowed s label)]
    (step : State → Label → Option State) (s : State) (label : Label) : Option State :=
  if allowed s label then step s label else none

theorem Reachable.run_guarded {initial : State → Prop} {step : State → Label → Option State}
    {allowed : State → Label → Prop} [∀ s label, Decidable (allowed s label)] {s s' : State} {labels : List Label}
    (before : ((ofStep initial step).restrict allowed).Reachable s)
    (ran : System.run (guarded allowed step) s labels = some s') :
    ((ofStep initial step).restrict allowed).Reachable s' := by
  induction labels generalizing s with
  | nil =>
    rw [← Option.some.inj ran]
    exact before
  | cons label rest ih =>
    obtain ⟨middle,stepped,ran⟩ := Option.bind_eq_some_iff.mp ran
    unfold guarded at stepped
    split_ifs at stepped with ok
    exact ih (.next _ _ _ before ⟨ok,stepped⟩) ran

end System
end Lib
