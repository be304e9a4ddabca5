import Mathlib.Logic.Function.Basic
import Mathlib.Tactic.SplitIfs

/-! Computations that may fail, and programs over the operations of an interface,
run against any machine that carries the operations out, with weakest
preconditions for them. One program
can be run on two machines; a simulation of the operations carries what is
proved on the abstract machine over to the concrete one. -/
namespace Lib
universe u v

-- a computation ends in post, or with an error in may
def Gives {ε α : Type} (may : ε → Prop) (result : Except ε α) (post : α → Prop) : Prop :=
  match result with
  | .ok value => post value
  | .error e => may e

namespace Gives
variable {ε α β : Type} {may : ε → Prop}

theorem of_ok {result : Except ε α} {post : α → Prop} {value : α} (gives : Gives may result post)
    (ran : result = .ok value) : post value := by
  rw [ran] at gives
  exact gives

theorem mono {result : Except ε α} {post weaker : α → Prop} (gives : Gives may result post)
    (imp : ∀ value, post value → weaker value) : Gives may result weaker := by
  cases result with
  | ok value => exact imp value gives
  | error e => exact gives

theorem bind {result : Except ε α} {next : α → Except ε β} {middle : α → Prop} {post : β → Prop}
    (first : Gives may result middle) (rest : ∀ value, middle value → Gives may (next value) post) :
    Gives may (result >>= next) post := by
  cases result with
  | ok value => exact rest value first
  | error e => exact first

theorem ite {test : Prop} [Decidable test] {first second : Except ε α} {post : α → Prop}
    (yes : test → Gives may first post) (no : ¬test → Gives may second post) :
    Gives may (if test then first else second) post := by
  split_ifs with holds
  · exact yes holds
  · exact no holds

end Gives

inductive Prog (Op : Type → Type u) (α : Type) : Type (max 1 u)
  | pure (value : α)
  | call {β : Type} (op : Op β) (rest : β → Prog Op α)

-- a machine carries one operation out, or stops with an error
abbrev Machine (Op : Type → Type u) (σ ε : Type) := {β : Type} → Op β → σ → Except ε (β × σ)

namespace Prog
variable {Op : Type → Type u} {α β : Type} {σ τ ε : Type}

def bind : Prog Op α → (α → Prog Op β) → Prog Op β
  | .pure value, next => next value
  | .call op rest, next => .call op fun reply => (rest reply).bind next

instance : Monad (Prog Op) where
  pure := .pure
  bind := .bind

theorem bind_assoc {γ : Type} (program : Prog Op α) (next : α → Prog Op β) (last : β → Prog Op γ) :
    program >>= next >>= last = program >>= fun value => next value >>= last := by
  induction program with
  | pure value => rfl
  | call op rest ih => exact congrArg (Prog.call op) (funext ih)

def perform (op : Op β) : Prog Op β := .call op .pure

def run (exec : Machine Op σ ε) : Prog Op α → σ → Except ε (α × σ)
  | .pure value, s => .ok (value,s)
  | .call op rest, s =>
    match exec op s with
    | .ok (reply,s') => (rest reply).run exec s'
    | .error e => .error e

theorem run_perform (exec : Machine Op σ ε) (op : Op β) (s : σ) : (perform op).run exec s = exec op s := by
  rw [perform,run]
  cases exec op s <;> rfl

theorem run_bind (exec : Machine Op σ ε) (program : Prog Op α) (next : α → Prog Op β) (s : σ) :
    (program >>= next).run exec s = program.run exec s >>= fun result => (next result.1).run exec result.2 := by
  induction program generalizing s with
  | pure value => rfl
  | call op rest ih =>
    change (Prog.call op fun reply => (rest reply).bind next).run exec s = _
    rw [run,run]
    cases exec op s with
    | error e => rfl
    | ok result => exact ih result.1 result.2

/-- Every run from `s` ends in `post` or stops with an error in `may`. -/
def wp (exec : Machine Op σ ε) (may : ε → Prop) : Prog Op α → (α → σ → Prop) → σ → Prop
  | .pure value, post, s => post value s
  | .call op rest, post, s =>
    match exec op s with
    | .ok (reply,s') => (rest reply).wp exec may post s'
    | .error e => may e

variable {exec : Machine Op σ ε} {may : ε → Prop}

theorem wp_mono {program : Prog Op α} {post weaker : α → σ → Prop} {s : σ}
    (holds : program.wp exec may post s) (imp : ∀ value s', post value s' → weaker value s') :
    program.wp exec may weaker s := by
  induction program generalizing s with
  | pure value => exact imp value s holds
  | call op rest ih =>
    rw [wp] at holds ⊢
    split at holds
    next reply s' ran => exact ih reply holds
    next e ran => exact holds

theorem wp_bind {program : Prog Op α} {next : α → Prog Op β} {post : β → σ → Prop} {s : σ}
    (holds : program.wp exec may (fun value s' => (next value).wp exec may post s') s) :
    (program >>= next).wp exec may post s := by
  induction program generalizing s with
  | pure value => exact holds
  | call op rest ih =>
    change (Prog.call op fun reply => (rest reply).bind next).wp exec may post s
    rw [wp] at holds ⊢
    split at holds
    next reply s' ran => exact ih reply holds
    next e ran => exact holds

theorem wp_then {program : Prog Op α} {next : α → Prog Op β} {middle : α → σ → Prop} {post : β → σ → Prop} {s : σ}
    (first : program.wp exec may middle s)
    (rest : ∀ value s', middle value s' → (next value).wp exec may post s') :
    (program >>= next).wp exec may post s :=
  wp_bind (wp_mono first rest)

theorem wp_ran {op : Op β} {post : β → σ → Prop} {s s' : σ} {reply : β} (ran : exec op s = .ok (reply,s'))
    (holds : post reply s') : (perform op).wp exec may post s := by
  rw [perform,wp,ran]
  exact holds

/-- The weakest precondition speaks about the run. -/
theorem wp_run {program : Prog Op α} {post : α → σ → Prop} {s : σ} (holds : program.wp exec may post s) :
    (∀ value s', program.run exec s = .ok (value,s') → post value s') ∧
      ∀ e, program.run exec s = .error e → may e := by
  induction program generalizing s with
  | pure value =>
    refine ⟨fun _ _ ran => ?_,fun _ ran => by simp [run] at ran⟩
    obtain ⟨rfl,rfl⟩ := Prod.mk.inj (Except.ok.inj ran)
    exact holds
  | call op rest ih =>
    rw [wp] at holds
    split at holds
    next reply s' ran =>
      have after : (Prog.call op rest).run exec s = (rest reply).run exec s' := by rw [run,ran]
      rw [after]
      exact ih reply holds
    next e ran =>
      have after : (Prog.call op rest).run exec s = .error e := by rw [run,ran]
      rw [after]
      exact ⟨nofun,fun _ same => Except.error.inj same ▸ holds⟩

theorem wp_total {program : Prog Op α} {post : α → σ → Prop} {s : σ} (holds : program.wp exec (fun _ => False) post s) :
    ∃ value s', program.run exec s = .ok (value,s') ∧ post value s' := by
  obtain ⟨done,stopped⟩ := wp_run holds
  cases result : program.run exec s with
  | ok last => exact ⟨last.1,last.2,rfl,done last.1 last.2 result⟩
  | error e => exact (stopped e result).elim

end Prog
end Lib
