import Xv6.Proc.Steps

/-! How the program counters of the processes fit the states of their slots and
the locks, in every reachable state. -/
namespace Xv6.Procs
open Lib
open Function (update update_of_ne update_self)

inductive Kind where
  | user
  | gone
  | dozing
  | asleep
  | closing -- may sleep in fileclose or iput
  | moving
  | holding -- wait_lock
  deriving DecidableEq

def Pc.kind : Pc → Kind
  | .user => .user
  | .gone => .gone
  | .waitDoze _ => .dozing
  | .waitAsleep _ => .asleep
  | .exitFiles _ _ | .exitCwd _ => .closing
  | .allocproc _ | .forkParent _ _ | .forkRunnable _ _ | .exitLock _ | .waitLock _ | .kkill _ _ => .moving
  | _ => .holding

/-- What the program counter of a slot says about its state and its locks. -/
def Fits (c : Slot) (state : ProcState) (chan : Option Chan) (kind : Kind) (held : Prop) (locked : Bool) : Prop :=
  (held ↔ kind = .holding) ∧
  match kind with
  | .user => state ≠ .zombie ∧ locked = false
  | .gone => state = .zombie
  | .dozing => state = .running ∧ locked = true
  | .asleep => (state = .sleeping ∧ chan = some (.proc c) ∨ state = .runnable) ∧ locked = false
  | .closing => (state = .running ∨ state = .runnable ∨ state = .sleeping) ∧ locked = false
  | .moving => (state = .running ∨ state = .runnable) ∧ locked = false
  | .holding => state = .running ∧ locked = false

namespace Fits
variable {c : Slot} {state : ProcState} {chan chan' : Option Chan} {kind : Kind} {held : Prop} {locked : Bool}

theorem held_iff (fits : Fits c state chan kind held locked) : held ↔ kind = .holding := fits.1

theorem wake (fits : Fits c state chan kind held locked) (asleep : state = .sleeping) :
    Fits c .runnable chan' kind held locked := by
  subst asleep
  cases kind <;> simp_all [Fits]

theorem idle (fits : Fits c state chan kind held locked) (idle : state = .unused ∨ state = .used) :
    kind = .user := by
  rcases idle with rfl | rfl <;> cases kind <;> simp_all [Fits]

theorem preempt (fits : Fits c state chan kind held locked) (running : state = .running) (free : ¬held)
    (unlocked : locked = false) : Fits c .runnable chan' kind held locked := by
  subst running
  cases kind <;> simp_all [Fits]

theorem resume (fits : Fits c state chan kind held locked) (ready : state = .runnable) (other : kind ≠ .asleep) :
    Fits c .running chan' kind held locked := by
  subst ready
  cases kind <;> simp_all [Fits]

theorem sleep (fits : Fits c state chan kind held locked) (sleeps : kind = .user ∨ kind = .closing) :
    Fits c .sleeping chan' kind held locked := by
  rcases sleeps with rfl | rfl <;> simp_all [Fits]

theorem zombie (fits : Fits c state chan kind held locked) : state = .zombie ↔ kind = .gone := by
  cases kind <;> simp_all [Fits]
  all_goals rcases fits.2 with ⟨h,_⟩
  all_goals grind

end Fits

def State.Fits (s : State) (c : Slot) : Prop :=
  Procs.Fits c (s.proc c).state (s.proc c).chan (s.pc c).kind (s.waitLock = some c) (s.locked c)

def Pc.forks : Pc → Option Slot
  | .forkParent np _ | .forkRunnable np _ => some np
  | _ => none

structure Shape (s : State) : Prop where
  fits : ∀ c, s.Fits c
  child : ∀ p np, (s.pc p).forks = some np → (s.proc np).state = .used
  single : ∀ p q np, (s.pc p).forks = some np → (s.pc q).forks = some np → p = q

section Frames
variable {s s' : State} {p j : Slot} {pc : Pc} {new : Proc}

theorem fits_at (p : Slot) (fits : ∀ c, s.Fits c)
    (rest : ∀ q, q ≠ p → s'.proc q = s.proc q ∧ s'.pc q = s.pc q ∧ s'.locked q = s.locked q ∧
      (s'.waitLock = some q ↔ s.waitLock = some q))
    (own : s'.Fits p) : ∀ c, s'.Fits c := by
  intro c
  by_cases same : c = p
  · subst same
    exact own
  · obtain ⟨proc,pc,locked,held⟩ := rest c same
    unfold State.Fits
    rw [proc,pc,locked,propext held]
    exact fits c

theorem shape_at (p : Slot) (shape : Shape s)
    (rest : ∀ q, q ≠ p → s'.proc q = s.proc q ∧ s'.pc q = s.pc q ∧ s'.locked q = s.locked q ∧
      (s'.waitLock = some q ↔ s.waitLock = some q))
    (own : s'.Fits p) (used : (s.proc p).state = .used → (s'.proc p).state = .used)
    (forks : (s'.pc p).forks = none ∨ (s'.pc p).forks = (s.pc p).forks) : Shape s' := by
  have kept : ∀ q np, (s'.pc q).forks = some np → (s.pc q).forks = some np := by
    grind
  obtain ⟨fits,child,single⟩ := shape
  refine ⟨fits_at p fits rest own,?_,?_⟩ <;> grind

theorem shape_goto (shape : Shape s)
    (own : Fits p (s.proc p).state (s.proc p).chan pc.kind (s.waitLock = some p) (s.locked p))
    (forks : pc.forks = none ∨ pc.forks = (s.pc p).forks) : Shape (s.goto p pc) := by
  refine shape_at p shape (fun q other => ⟨rfl,update_of_ne other _ _,rfl,Iff.rfl⟩) ?_ id ?_
  · simpa [State.Fits,State.goto] using own
  · simpa [State.goto] using forks

theorem shape_set (shape : Shape s)
    (own : Fits p new.state new.chan (s.pc p).kind (s.waitLock = some p) (s.locked p))
    (used : (s.proc p).state = .used → new.state = .used) : Shape (s.set p new) := by
  refine shape_at p shape (fun q other => ⟨update_of_ne other _ _,rfl,rfl,Iff.rfl⟩) ?_ ?_ (.inr rfl)
  · simpa [State.Fits,State.set] using own
  · simpa [State.set] using used

theorem shape_keep (shape : Shape s) (state : new.state = (s.proc p).state) (chan : new.chan = (s.proc p).chan) :
    Shape (s.set p new) :=
  shape_set shape (by rw [state,chan]; exact shape.fits p) fun used => state.trans used

theorem shape_move (shape : Shape s) (running : (s.proc p).state = .running)
    (kinds : pc.kind = (s.pc p).kind ∨ (s.pc p).kind ∈ [.user,.closing,.moving] ∧ pc.kind ∈ [.user,.closing,.moving])
    (forks : pc.forks = none ∨ pc.forks = (s.pc p).forks) : Shape (s.goto p pc) := by
  refine shape_goto shape ?_ forks
  have own := shape.fits p
  unfold State.Fits at own
  rcases kinds with same | ⟨before,after⟩
  · rw [same]
    exact own
  · generalize (s.pc p).kind = now at *
    generalize pc.kind = next at *
    cases now <;> cases next <;> simp_all [Fits]

theorem shape_acquire (shape : Shape s) (free : s.waitLock = none) (running : (s.proc p).state = .running)
    (before : (s.pc p).kind = .moving) (after : pc.kind = .holding) (forks : pc.forks = none) :
    Shape ({ s with waitLock := some p }.goto p pc) := by
  refine shape_at p shape (fun q other => ⟨rfl,update_of_ne other _ _,rfl,?_⟩) ?_ id ?_
  · simp [State.goto,free,other.symm]
  · have own := shape.fits p
    simp_all [State.Fits,Fits,State.goto]
  · simp [State.goto,forks]

theorem shape_release (shape : Shape s) (before : (s.pc p).kind = .holding) (running : (s.proc p).state = .running)
    (rest : ∀ q, q ≠ p → s'.proc q = s.proc q ∧ s'.pc q = s.pc q ∧ s'.locked q = s.locked q)
    (free : s'.waitLock = none)
    (own : Fits p (s'.proc p).state (s'.proc p).chan (s'.pc p).kind False (s'.locked p))
    (forks : (s'.pc p).forks = none) : Shape s' := by
  have held : s.waitLock = some p := (shape.fits p).held_iff.mpr before
  refine shape_at p shape (fun q other => ?_) ?_ (by simp [running]) (.inl forks)
  · obtain ⟨proc,pc,locked⟩ := rest q other
    exact ⟨proc,pc,locked,by simp [free,held,other.symm]⟩
  · simpa [State.Fits,free] using own

end Frames

theorem shape_leaveWait {s : State} {p : Slot} {event : Event} (shape : Shape s)
    (running : (s.proc p).state = .running) (before : (s.pc p).kind = .holding) : Shape (s.leaveWait p event) := by
  have own := shape.fits p
  refine shape_release shape before running (fun q other => ⟨rfl,update_of_ne other _ _,rfl⟩) rfl ?_ ?_
  · simp_all [State.Fits,Fits,State.leaveWait,State.emit,State.goto,Pc.kind]
  · simp [State.leaveWait,State.emit,State.goto,Pc.forks]

theorem shape_emit {s : State} {event : Event} (shape : Shape s) : Shape (s.emit event) :=
  ⟨shape.fits,shape.child,shape.single⟩

theorem shape_allocpid {s : State} (shape : Shape s) : Shape s.allocpid := ⟨shape.fits,shape.child,shape.single⟩

theorem Fits.start {c : Slot} {state state' : ProcState} {chan chan' : Option Chan} {kind : Kind} {held : Prop}
    {locked : Bool} (fits : Fits c state chan kind held locked) (idle : state = .unused ∨ state = .used)
    (alive : state' ≠ .zombie) : Fits c state' chan' kind held locked := by
  have user := fits.idle idle
  subst user
  exact ⟨fits.1,alive,fits.2.2⟩

theorem shape_unforked {s : State} {np : Slot} {new : Proc} (shape : Shape s)
    (own : Fits np new.state new.chan (s.pc np).kind (s.waitLock = some np) (s.locked np))
    (free : ∀ q, (s.pc q).forks ≠ some np) : Shape (s.set np new) := by
  refine ⟨fits_at np shape.fits (fun q other => ⟨update_of_ne other _ _,rfl,rfl,Iff.rfl⟩) ?_,?_,shape.single⟩
  · simpa [State.Fits,State.set] using own
  · intro q child making
    have other : child ≠ np := by
      rintro rfl
      exact free q making
    simpa [State.set,other] using shape.child q child making

theorem Shape.free {s : State} (shape : Shape s) {np : Slot} (unused : (s.proc np).state ≠ .used) (q : Slot) :
    (s.pc q).forks ≠ some np :=
  fun making => unused (shape.child q np making)

theorem shape_forkFound {s : State} {p np : Slot} {new : Proc} (shape : Shape s) (running : (s.proc p).state = .running)
    (at_ : s.pc p = .allocproc np) (unused : (s.proc np).state = .unused) (used : new.state = .used) (pid : BitVec 32) :
    Shape ((s.set np new).goto p (.forkParent np pid)) := by
  have other : p ≠ np := by grind
  have fresh : ∀ q, (s.pc q).forks ≠ some np := shape.free (by simp [unused])
  have filled : Shape (s.set np new) :=
    shape_unforked shape ((shape.fits np).start (.inl unused) (by simp [used])) fresh
  have self : ((s.set np new).goto p (.forkParent np pid)).pc p = .forkParent np pid := by simp [State.goto]
  have others : ∀ q, q ≠ p → ((s.set np new).goto p (.forkParent np pid)).pc q = s.pc q :=
    fun q other => update_of_ne other _ _
  have made : ((s.set np new).goto p (.forkParent np pid)).proc = (s.set np new).proc := rfl
  have now : ((s.set np new).proc np).state = .used := by simpa [State.set] using used
  refine ⟨?_,?_,?_⟩
  · have own := shape.fits p
    refine fits_at p filled.fits (fun q other => ⟨rfl,update_of_ne other _ _,rfl,Iff.rfl⟩) ?_
    simp_all [State.Fits,State.goto,State.set,Fits,Pc.kind]
  · have child := filled.child
    change ∀ q np', (s.pc q).forks = some np' → _ at child
    grind [Pc.forks]
  · have single := shape.single
    grind [Pc.forks]

theorem shape_forkRunnable {s : State} {p np : Slot} {pid : BitVec 32} (shape : Shape s)
    (running : (s.proc p).state = .running) (at_ : s.pc p = .forkRunnable np pid) :
    Shape ((s.set np { s.proc np with state := .runnable }).goto p .user) := by
  have making : (s.pc p).forks = some np := by rw [at_]; rfl
  have used := shape.child p np making
  have other : np ≠ p := by grind
  have moved : Shape (s.goto p .user) := shape_move shape running (by simp [at_,Pc.kind]) (.inl rfl)
  refine shape_unforked moved ((moved.fits np).start (.inr used) (by simp)) fun q => ?_
  by_cases same : q = p
  · subst same
    simp [State.goto,Pc.forks]
  · simp only [State.goto,update_of_ne same]
    exact fun second => same (shape.single q p np second making)

theorem shape_reap {s : State} {p pp : Slot} (shape : Shape s) (running : (s.proc p).state = .running)
    (before : (s.pc p).kind = .holding) (zombie : (s.proc pp).state = .zombie) (unlocked : s.locked pp = false) :
    Shape (s.reap p pp) := by
  have other : p ≠ pp := by grind
  have own := shape.fits pp
  have gone := own.zombie.mp zombie
  let freed := (s.set pp (freeproc (s.proc pp))).goto pp .user
  have first : Shape { freed with born := update s.born pp (s.born pp + 1) } := by
    refine shape_at pp shape (fun q other => ⟨update_of_ne other _ _,update_of_ne other _ _,rfl,
      Iff.rfl⟩) ?_ (by simp [zombie]) (.inl ?_)
    · simp_all [freed,State.Fits,State.goto,State.set,Fits,Pc.kind,freeproc]
    · simp [freed,State.goto,Pc.forks]
  refine shape_leaveWait first ?_ ?_
  · simpa [freed,State.goto,State.set,other] using running
  · simpa [freed,State.goto,State.set,other] using before

theorem shape_kill {s : State} {j : Slot} (shape : Shape s) : Shape (s.set j (s.proc j).kill) := by
  by_cases asleep : (s.proc j).state = .sleeping
  · have woken : (s.proc j).kill.state = .runnable := by simp [Proc.kill,asleep]
    refine shape_set shape ?_ (by simp [asleep])
    rw [woken]
    exact (shape.fits j).wake asleep
  · exact shape_keep shape (by simp [Proc.kill,asleep]) rfl

theorem shape_step {s s' : State} {label : Label} (shape : Shape s) (trans : Trans s label s') : Shape s' := by
  cases trans with
  | kfork p running at_ | kexit p _ running at_ | kwait p _ running at_ | kkill p _ running at_
  | allocNext p _ _ running at_ | filesClosed p _ _ _ running at_ | reparentNext p _ _ _ running at_
  | reparentDone p _ _ _ running at_ | reparentWoken p _ _ _ _ running at_ | exitWoken p _ _ _ _ running at_
  | waitNext p _ _ _ _ _ running at_ | waitSeen p _ _ _ _ running at_ | waitGoesOn p _ _ _ running at_
  | killNext p _ _ _ running at_ =>
    exact shape_move shape running (by simp [at_,Pc.kind]) (.inl rfl)
  | allocNone p _ _ running at_ | killMissed p _ _ _ running at_ =>
    exact shape_emit (shape_move shape running (by simp [at_,Pc.kind]) (.inl rfl))
  | initExits => exact ⟨shape.fits,shape.child,shape.single⟩
  | forkFails p _ np running at_ unused =>
    have other : p ≠ np := by grind
    have freed : Shape (s.allocpid.set np (freeproc (s.proc np))) :=
      shape_unforked (shape_allocpid shape) ((shape.fits np).start (.inl unused) (by simp [freeproc]))
        (shape.free (by simp [unused]))
    refine shape_emit (shape_move freed ?_ ?_ (.inl rfl))
    · simpa [State.set,State.allocpid,other] using running
    · simp [State.set,State.allocpid,at_,Pc.kind]
  | forkFound p _ np running at_ unused =>
    exact shape_forkFound (shape_allocpid shape) running at_ unused rfl _
  | forkParent p _ np pid running at_ =>
    refine shape_move (shape_keep shape rfl rfl) ?_ ?_ ?_
    · by_cases same : p = np <;> simp [State.set,same,running]
      simpa [same] using running
    · simp [State.set,at_,Pc.kind]
    · simp [State.set,at_,Pc.forks]
  | forkRunnable p _ np pid running at_ => exact shape_emit (shape_forkRunnable shape running at_)
  | closeFile p _ status fd running at_ | exitCwd p _ status running at_ =>
    refine shape_move (shape_keep shape rfl rfl) ?_ ?_ (.inl rfl)
    · simpa [State.set] using running
    · simp [State.set,at_,Pc.kind]
  | exitLock p _ status running at_ free | waitLock p _ addr running at_ free =>
    exact shape_acquire shape free running (by simp [at_,Pc.kind]) rfl rfl
  | reparent p _ status pp running at_ child =>
    refine shape_move (shape_keep shape rfl rfl) ?_ ?_ (.inl rfl)
    · by_cases same : p = pp <;> simp [State.set,same,running]
      simpa [same] using running
    · simp [State.set,at_,Pc.kind]
  | wakeNext p _ chan j next running loop =>
    generalize at_ : s.pc p = now at loop
    cases loop <;> exact shape_move shape running (by simp [at_,Pc.kind]) (.inl rfl)
  | wake p _ chan j next running loop other unlocked asleep on =>
    have woken : Shape (s.set j { s.proc j with state := .runnable }) :=
      shape_set shape ((shape.fits j).wake asleep) (by simp [asleep])
    have still : ((s.set j { s.proc j with state := .runnable }).proc p).state = .running := by
      simpa [State.set,other.symm] using running
    generalize at_ : s.pc p = now at loop
    cases loop <;> exact shape_move woken still (by simp [State.set,at_,Pc.kind]) (.inl rfl)
  | exitZombie p _ status running at_ unlocked =>
    refine shape_release shape (by simp [at_,Pc.kind]) running (fun q other => ⟨update_of_ne other _ _,
      update_of_ne other _ _,update_of_ne other _ _⟩) rfl ?_ ?_
    · simp [State.die,State.emit,State.goto,State.set,Fits,Pc.kind]
    · simp [State.die,State.emit,State.goto,Pc.forks]
  | copyoutFails p _ addr havekids pp running at_ | waitGivesUp p _ addr havekids running at_ =>
    exact shape_leaveWait shape running (by simp [at_,Pc.kind])
  | waitSleep p _ addr running at_ unlocked =>
    refine shape_release shape (by simp [at_,Pc.kind]) running (fun q other => ⟨rfl,update_of_ne other _ _,
      update_of_ne other _ _⟩) rfl ?_ ?_
    · simp [State.goto,Fits,Pc.kind,running]
    · simp [State.goto,Pc.forks]
  | waitDoze p _ addr running at_ =>
    have own := shape.fits p
    refine shape_at p shape (fun q other => ⟨update_of_ne other _ _,update_of_ne other _ _,
      update_of_ne other _ _,Iff.rfl⟩) ?_ (by simp [running]) (.inl ?_)
    · simp_all [State.Fits,State.goto,State.set,Fits,Pc.kind]
    · simp [State.goto,Pc.forks]
  | reap p _ addr havekids pp running at_ child zombie unlocked =>
    exact shape_reap shape running (by simp [at_,Pc.kind]) zombie unlocked
  | killHit p _ pid j running at_ unlocked named =>
    refine shape_emit (shape_move (shape_kill shape) ?_ ?_ (.inl rfl))
    · by_cases same : p = j
      · subst same
        simp [State.set,Proc.kill,running]
      · simpa [State.set,same] using running
    · simp [State.set,at_,Pc.kind]
  | fault p running at_ | work p _ _ _ _ running at_ => exact shape_keep shape rfl rfl
  | sleep p n running at_ =>
    refine shape_set shape ((shape.fits p).sleep ?_) (by simp [running])
    cases position : s.pc p <;> simp_all [Pc.sleeps,Pc.kind]
  | wakeup p n asleep on => exact shape_set shape ((shape.fits p).wake asleep) (by simp [asleep])
  | yield p running free unlocked =>
    exact shape_set shape ((shape.fits p).preempt running free unlocked) (by simp [running])
  | resume p ready other =>
    refine shape_set shape ((shape.fits p).resume ready ?_) (by simp [ready])
    cases position : s.pc p <;> simp_all [Pc.kind]
  | rewait p addr ready at_ =>
    have own := shape.fits p
    refine shape_at p shape (fun q other => ⟨update_of_ne other _ _,update_of_ne other _ _,rfl,
      Iff.rfl⟩) ?_ (by simp [ready]) (.inl ?_)
    · simp_all [State.Fits,State.goto,State.set,Fits,Pc.kind,Proc.resume]
    · simp [State.goto,Pc.forks]
  | switch p at_ =>
    have own := shape.fits p
    refine shape_at p shape (fun q other => ⟨rfl,rfl,update_of_ne other _ _,Iff.rfl⟩) ?_ id (.inr rfl)
    simp_all [State.Fits,Fits,Pc.kind]

theorem userinit_booted {trapframe pagetable : Ptr} (cwd : Ptr) (frame : trapframe ≠ 0) (table : pagetable ≠ 0) :
    ∃ new : Proc, new.parent = none ∧ new.state = .runnable ∧
      userinit trapframe pagetable cwd = procinit.allocpid.set 0 new := by
  refine ⟨_,?_,?_,by rw [userinit,allocFound,if_neg (not_or.mpr ⟨frame,table⟩)]⟩ <;> rfl

theorem shape_userinit (trapframe pagetable cwd : Ptr) : Shape (userinit trapframe pagetable cwd) := by
  have first : Shape procinit := by
    refine ⟨fun c => ?_,fun p np making => ?_,fun p q np making => ?_⟩
    · simp [State.Fits,Fits,procinit,zeroProc,Pc.kind]
    · simp [procinit,Pc.forks] at making
    · simp [procinit,Pc.forks] at making
  unfold userinit
  split
  · exact first
  · refine shape_set (shape_allocpid first) ?_ ?_
    · simp [State.allocpid,Fits,procinit,Pc.kind]
    · simp [State.allocpid,procinit,zeroProc]

theorem reachable_shape {s : State} (reached : system.Reachable s) : Shape s := by
  refine reached.invariant ?_ ?_
  · rintro s ⟨trapframe,pagetable,cwd,_,_,rfl⟩
    exact shape_userinit trapframe pagetable cwd
  · exact fun s label s' _ shape stepped => shape_step shape (step_trans stepped)

end Xv6.Procs
