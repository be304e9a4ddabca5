import Xv6.Lib.Program

/-! Calls of several threads, interleaved on one machine. A call is a program,
and a step of a thread is one operation of its program. A thread in a call has a
share, a ghost value that says what it owns of the state, and one invariant
relates the state to all shares. A program is verified from its own share
alone, against every state that the other threads may leave. -/
namespace Lib.Threads
open Function
universe u
variable {Op : Type → Type u} {T Γ σ ε α β : Type} [DecidableEq T]

structure World (Op : Type → Type u) (T σ α : Type) where
  state : σ
  calls : T → Option (Prog Op α) -- the rest of the call that a thread is in

-- a call is over once its program has a value
def settle : Prog Op α → Option (Prog Op α)
  | .pure _ => none
  | program => some program

def start (w : World Op T σ α) (t : T) (program : Prog Op α) : World Op T σ α :=
  { w with calls := update w.calls t (settle program) }

-- one operation of a thread; an operation that stops does not happen
def turn (exec : Machine Op σ ε) (w : World Op T σ α) (t : T) : Option (World Op T σ α) :=
  match w.calls t with
  | some (.call op rest) =>
    match exec op w.state with
    | .ok (reply,s) => some ⟨s,update w.calls t (settle (rest reply))⟩
    | .error _ => none
  | _ => none

variable (exec : Machine Op σ ε) (inv : (T → Option Γ) → σ → Prop)

/-- Every operation of thread t's program keeps the invariant, whatever the other
threads have done since the one before, and the program ends in `post`. -/
def Safe (t : T) : Prog Op α → (α → Γ → Prop) → Γ → Prop
  | .pure value, post, mine => post value mine
  | .call op rest, post, mine => ∀ shares s reply s', inv shares s → shares t = some mine → exec op s = .ok (reply,s') →
      ∃ mine', inv (update shares t (some mine')) s' ∧ Safe t (rest reply) post mine'

/-- The program of a whole call: at its end, or with its last operation, the
thread gives its share back. -/
def Ends (t : T) : Prog Op α → Γ → Prop
  | .pure _, mine => ∀ shares s, inv shares s → shares t = some mine → inv (update shares t none) s
  | .call op rest, mine => ∀ shares s reply s', inv shares s → shares t = some mine → exec op s = .ok (reply,s') →
      (∃ mine', inv (update shares t (some mine')) s' ∧ Ends t (rest reply) mine') ∨
        settle (rest reply) = none ∧ inv (update shares t none) s'

variable {exec inv} {t : T} {mine : Γ}

theorem Safe.mono {program : Prog Op α} {post weaker : α → Γ → Prop} (safe : Safe exec inv t program post mine)
    (imp : ∀ value mine', post value mine' → weaker value mine') : Safe exec inv t program weaker mine := by
  induction program generalizing mine with
  | pure value => exact imp value mine safe
  | call op rest ih =>
    intro shares s reply s' holds owned ran
    obtain ⟨mine',holds',safe'⟩ := safe shares s reply s' holds owned ran
    exact ⟨mine',holds',ih reply safe'⟩

theorem Safe.bind {program : Prog Op α} {next : α → Prog Op β} {middle : α → Γ → Prop} {post : β → Γ → Prop}
    (safe : Safe exec inv t program middle mine)
    (rest : ∀ value mine', middle value mine' → Safe exec inv t (next value) post mine') :
    Safe exec inv t (program >>= next) post mine := by
  induction program generalizing mine with
  | pure value => exact rest value mine safe
  | call op more ih =>
    intro shares s reply s' holds owned ran
    obtain ⟨mine',holds',safe'⟩ := safe shares s reply s' holds owned ran
    exact ⟨mine',holds',ih reply safe'⟩

theorem Safe.perform {op : Op β} {post : β → Γ → Prop}
    (step : ∀ shares s reply s', inv shares s → shares t = some mine → exec op s = .ok (reply,s') →
      ∃ mine', inv (update shares t (some mine')) s' ∧ post reply mine') :
    Safe exec inv t (Prog.perform op) post mine := step

theorem Ends.bind {program : Prog Op α} {next : α → Prog Op β} {post : α → Γ → Prop}
    (safe : Safe exec inv t program post mine) (rest : ∀ value mine', post value mine' → Ends exec inv t (next value) mine') :
    Ends exec inv t (program >>= next) mine := by
  induction program generalizing mine with
  | pure value => exact rest value mine safe
  | call op more ih =>
    intro shares s reply s' holds owned ran
    obtain ⟨mine',holds',safe'⟩ := safe shares s reply s' holds owned ran
    exact .inl ⟨mine',holds',ih reply safe'⟩

theorem Ends.of_safe {program : Prog Op α} {post : α → Γ → Prop} (safe : Safe exec inv t program post mine)
    (back : ∀ value mine', post value mine' → ∀ shares s, inv shares s → shares t = some mine' →
      inv (update shares t none) s) : Ends exec inv t program mine := by
  induction program generalizing mine with
  | pure value => exact back value mine safe
  | call op more ih =>
    intro shares s reply s' holds owned ran
    obtain ⟨mine',holds',safe'⟩ := safe shares s reply s' holds owned ran
    exact .inl ⟨mine',holds',ih reply safe'⟩

variable (exec inv)

-- the invariant holds for shares of the threads that are in a call, and each of their programs is right
def Holds (w : World Op T σ α) : Prop :=
  ∃ shares, inv shares w.state ∧ ∀ t,
    match w.calls t with
    | none => shares t = none
    | some program => ∃ mine, shares t = some mine ∧ Ends exec inv t program mine

variable {exec inv}

theorem holds_settle {w : World Op T σ α} {shares : T → Option Γ} {s : σ} {program : Prog Op α}
    (others : ∀ q, match w.calls q with
      | none => shares q = none
      | some program => ∃ mine, shares q = some mine ∧ Ends exec inv q program mine)
    (holds : inv (update shares t (some mine)) s) (ends : Ends exec inv t program mine) :
    Holds exec inv ⟨s,update w.calls t (settle program)⟩ := by
  cases program with
  | pure value =>
    have back := ends _ s holds (update_self ..)
    rw [update_idem] at back
    refine ⟨_,back,fun q => ?_⟩
    by_cases me : q = t
    · subst me
      simp [settle]
    · simpa [me] using others q
  | call op rest =>
    refine ⟨_,holds,fun q => ?_⟩
    by_cases me : q = t
    · subst me
      simpa [settle] using ends
    · simpa [me] using others q

theorem start_holds {w : World Op T σ α} {program : Prog Op α} (holds : Holds exec inv w) (idle : w.calls t = none)
    (begin_ : ∀ shares, inv shares w.state → shares t = none →
      ∃ mine, inv (update shares t (some mine)) w.state ∧ Ends exec inv t program mine) :
    Holds exec inv (start w t program) := by
  obtain ⟨shares,now,others⟩ := holds
  have mine := others t
  rw [idle] at mine
  obtain ⟨mine,after,ends⟩ := begin_ shares now mine
  exact holds_settle others after ends

theorem turn_holds {w w' : World Op T σ α} (holds : Holds exec inv w) (turned : turn exec w t = some w') :
    Holds exec inv w' := by
  obtain ⟨shares,now,others⟩ := holds
  have mine := others t
  unfold turn at turned
  split at turned
  next op rest called =>
    rw [called] at mine
    obtain ⟨mine,owned,ends⟩ := mine
    split at turned
    next reply s ran =>
      cases turned
      rcases ends shares w.state reply s now owned ran with ⟨mine',after,ends'⟩ | ⟨ended,after⟩
      · exact holds_settle others after ends'
      · refine ⟨_,after,fun q => ?_⟩
        by_cases me : q = t
        · subst me
          simp [ended]
        · simpa [me] using others q
    next => cases turned
  next => cases turned

end Lib.Threads
