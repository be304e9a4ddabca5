import Xv6.Sched.Shape

/-! Every step of a CPU keeps the shape: one lemma for each kind of thread code. -/
namespace Xv6.Sched
open Lib Function
open Xv6.Procs (Slot ProcState Chan)
variable {n : Nat} {s s' base : State n} {c : Fin n} {p q : Slot} {t t' : Thread} {l : Lock} {state : ProcState}
variable {frame : Frame} {guard : Nat → Nat} {context : Option Thread}

theorem Inv.of_same (inv : Inv s) (cpu : s'.cpu = s.cpu) (proc : ∀ r, (s'.proc r).state = (s.proc r).state)
    (context : s'.context = s.context) : Inv s' := by
  have runs : ∀ p t, Runs s' p t ↔ Runs s p t := by
    intro p t
    unfold Runs
    rw [cpu,context]
  have makes : ∀ p np, Making s' p np ↔ Making s p np := by
    intro p np
    simp only [Making,runs]
  refine ⟨?_,?_,?_,?_,?_,?_,?_⟩
  · rw [cpu]
    exact inv.cpu
  · rw [cpu]
    exact inv.lock
  · rw [cpu]
    exact inv.one
  · simp only [cpu,proc,context]
    exact inv.fits
  · simp only [cpu,proc,context]
    exact inv.rest
  · simp only [makes,proc]
    exact inv.making
  · simp only [makes]
    exact inv.single

structure Sets (s base : State n) (q : Slot) (state : ProcState) : Prop where
  cpu : base.cpu = s.cpu
  context : base.context = s.context
  proc : ∀ r, (base.proc r).state = if r = q then state else (s.proc r).state

theorem Sets.refl (q : Slot) : Sets s s q (s.proc q).state := by
  refine ⟨rfl,rfl,fun r => ?_⟩
  split_ifs with same
  · rw [same]
  · rfl

theorem Sets.setProc (new : Proc) : Sets s (s.setProc q new) q new.state := by
  refine ⟨rfl,rfl,fun r => ?_⟩
  by_cases same : r = q
  · simp [State.setProc,same]
  · simp [State.setProc,same]

theorem Sets.setCpu (sets : Sets s base q state) (cpu : Cpu) :
    Changes s (base.setCpu c cpu) c cpu q state (s.context q) := by
  refine ⟨?_,sets.proc,?_⟩
  · simp only [State.setCpu,sets.cpu]
  · rw [update_eq_self]
    exact sets.context

theorem acquire_cases {run : Run} (acquired : s.acquire c l run = some s') :
    s' = s.panic ∨ (∀ d, l ∉ (s.cpu d).held) ∧
      s' = s.setCpu c { s.cpu c with held := l :: (s.cpu c).held, run := run } := by
  unfold State.acquire at acquired
  split_ifs at acquired with mine other
  · exact .inl (Option.some.inj acquired).symm
  · exact .inr ⟨fun d inside => other ⟨d,inside⟩,(Option.some.inj acquired).symm⟩

theorem Inv.panic (inv : Inv s) : Inv s.panic := inv.of_same rfl (fun _ => rfl) rfl

def Slips (s : State n) (c : Fin n) (q : Slot) (state : ProcState) : Prop :=
  state = (s.proc q).state ∨ .proc q ∈ (s.cpu c).held ∧ ((s.proc q).state = .running → state = .running) ∧
    (AtRest (s.proc q).state (s.context q) → AtRest state (s.context q))

section Process
variable (inv : Inv s) (at_ : (s.cpu c).run = .process p t)
include inv at_

theorem Inv.process_acquire (acquired : s.acquire c l (.process p t') = some s')
    (before : (Run.process p t).locked = none) (locked : ∀ r, (Run.process p t').locked = some r ↔ l = .proc r)
    (fits : t'.Fits (s.proc p).state (s.context p)) (forks : t'.pc.forks = none ∨ t'.pc.forks = t.pc.forks) : Inv s' := by
  rcases acquire_cases acquired with rfl | ⟨free,rfl⟩
  · exact inv.panic
  · refine inv.process at_ ((Sets.refl p).setCpu _) (.acquire l free rfl ?_ locked) rfl rfl rfl ?_ (.inl rfl) forks ?_
    · rw [at_]
      exact before
    · exact fits
    · exact .inl

theorem Inv.process_goto (sets : Sets s base q state) (same : (Run.process p t').locked = (Run.process p t).locked)
    (fits : t'.Fits (base.proc p).state (s.context p)) (slot : q = p ∨ Slips s c q state)
    (forks : t'.pc.forks = none ∨ t'.pc.forks = t.pc.forks)
    (used : (s.proc q).state = .used → state = .used ∨ t.pc.forks = some q ∧ t'.pc.forks = none) :
    Inv (base.goto c (.process p t')) := by
  have goto : base.goto c (.process p t') = base.setCpu c { s.cpu c with run := .process p t' } := by
    simp only [State.goto,sets.cpu]
  rw [goto]
  refine inv.process at_ (sets.setCpu _) (.same rfl ?_) rfl rfl rfl ?_ (slot.imp_right fun slips => ⟨rfl,slips⟩) forks used
  · rw [at_]
    exact same
  · rw [show (base.setCpu c { s.cpu c with run := .process p t' }).context p = s.context p by
      rw [← sets.context]; rfl]
    exact fits

theorem Inv.process_release (sets : Sets s base q state) (held : l ∈ (s.cpu c).held ∨ state = (s.proc q).state)
    (locked : ∀ r, (Run.process p t').locked = some r ↔ (Run.process p t).locked = some r ∧ l ≠ .proc r)
    (fits : t'.Fits (base.proc p).state (s.context p)) (slot : q = p ∨ Slips s c q state)
    (forks : t'.pc.forks = none ∨ t'.pc.forks = t.pc.forks)
    (used : (s.proc q).state = .used → state = .used ∨ t.pc.forks = some q ∧ t'.pc.forks = none) :
    Inv (base.release c l (.process p t')) := by
  unfold State.release
  by_cases inside : l ∈ (s.cpu c).held
  · rw [sets.cpu,if_pos inside]
    refine inv.process at_ (sets.setCpu _) (.release l rfl ?_) rfl rfl rfl ?_ (slot.imp_right fun slips => ⟨rfl,slips⟩)
      forks used
    · rw [at_]
      exact locked
    · rw [show (base.setCpu c { s.cpu c with held := (s.cpu c).held.erase l, run := .process p t' }).context p =
        s.context p by rw [← sets.context]; rfl]
      exact fits
  · rw [sets.cpu,if_neg inside]
    refine inv.of_same sets.cpu (fun r => ?_) sets.context
    have same := held.resolve_left inside
    rw [show (base.panic.proc r).state = (base.proc r).state from rfl,sets.proc]
    split_ifs with me
    · rw [same,me]
    · rfl

theorem Inv.process_walk (same : (Run.process p t').locked = (Run.process p t).locked)
    (fits : t'.Fits (s.proc p).state (s.context p)) (forks : t'.pc.forks = none ∨ t'.pc.forks = t.pc.forks) :
    Inv (s.goto c (.process p t')) :=
  inv.process_goto at_ (.refl p) same fits (.inl rfl) forks .inl

theorem Inv.process_unlock
    (locked : ∀ r, (Run.process p t').locked = some r ↔ (Run.process p t).locked = some r ∧ l ≠ .proc r)
    (fits : t'.Fits (s.proc p).state (s.context p)) (forks : t'.pc.forks = none ∨ t'.pc.forks = t.pc.forks) :
    Inv (s.release c l (.process p t')) :=
  inv.process_release at_ (.refl p) (.inr rfl) locked fits (.inl rfl) forks .inl

end Process

theorem AtRest.wake (rest : AtRest .sleeping context) : AtRest .runnable context := rest

theorem Proc.wake_state (x : Proc) (chan : Option Chan) :
    (x.wake chan).state = x.state ∨ x.state = .sleeping ∧ (x.wake chan).state = .runnable := by
  unfold Proc.wake
  split_ifs with asleep
  · exact .inr ⟨asleep.1,rfl⟩
  · exact .inl rfl

theorem Proc.kill_state (x : Proc) : x.kill.state = x.state ∨ x.state = .sleeping ∧ x.kill.state = .runnable := by
  by_cases asleep : x.state = .sleeping
  · exact .inr ⟨asleep,by simp [Proc.kill,asleep]⟩
  · exact .inl (by simp [Proc.kill,asleep])

theorem Slips.woken (held : .proc q ∈ (s.cpu c).held)
    (woken : state = (s.proc q).state ∨ (s.proc q).state = .sleeping ∧ state = .runnable) : Slips s c q state := by
  rcases woken with same | ⟨asleep,rfl⟩
  · exact .inl same
  · refine .inr ⟨held,fun running => ?_,fun rest => ?_⟩
    · simp [asleep] at running
    · rw [asleep] at rest
      exact rest.wake

theorem Slips.freed (held : .proc q ∈ (s.cpu c).held) (off : (s.proc q).state ≠ .running) : Slips s c q .unused :=
  .inr ⟨held,fun running => absurd running off,fun _ => trivial⟩

theorem woken_used (woken : state = (s.proc q).state ∨ (s.proc q).state = .sleeping ∧ state = .runnable)
    (used : (s.proc q).state = .used) : state = .used := by
  rcases woken with same | ⟨asleep,-⟩
  · rw [same,used]
  · simp [asleep] at used

theorem woken_running (woken : state = (s.proc q).state ∨ (s.proc q).state = .sleeping ∧ state = .runnable)
    (running : (s.proc q).state = .running) : state = .running := by
  rcases woken with same | ⟨asleep,-⟩
  · rw [same,running]
  · simp [asleep] at running

theorem Sets.running (sets : Sets s base q state) (running : (s.proc p).state = .running)
    (still : p = q → state = .running) : (base.proc p).state = .running := by
  rw [sets.proc]
  split_ifs with same
  · exact still same
  · exact running

theorem Inv.allocproc {new : Proc} {pid : BitVec 32} {j : Slot} (inv : Inv s)
    (at_ : (s.cpu c).run = .process p ⟨[],.allocTest j⟩)
    (unused : (s.proc j).state = .unused) (used : new.state = .used) :
    Inv ((({ s with nextpid := pid }.setProc j new).setContext j (some ⟨[],.forkret⟩)).goto c
      (.process p ⟨[],.forkCopy j⟩)) := by
  have engaged : (s.cpu c).run.engages = some p := by rw [at_]; rfl
  have ok := inv.cpu c
  have running : (s.proc p).state = .running := by
    have fits := inv.fits c p engaged
    rw [at_] at fits
    exact fits
  have other : p ≠ j := by
    rintro rfl
    simp [running] at unused
  have free : ∀ r, ¬Making s r j := fun r making => by simp [inv.making r j making] at unused
  have idle : ∀ d, (s.cpu d).run.engages ≠ some j := by
    intro d busy
    have locked : .proc j ∈ (s.cpu c).held := by
      rw [ok.own,at_]
      rfl
    by_cases mine : d = c
    · rw [mine,engaged] at busy
      exact other (Option.some.inj busy)
    · have runs := inv.running busy fun held => mine (inv.lock d c _ held locked)
      simp [runs] at unused
  have changes : Changes s ((({ s with nextpid := pid }.setProc j new).setContext j (some ⟨[],.forkret⟩)).goto c
      (.process p ⟨[],.forkCopy j⟩)) c { s.cpu c with run := .process p ⟨[],.forkCopy j⟩ } j .used
      (some ⟨[],.forkret⟩) := by
    refine ⟨rfl,fun r => ?_,rfl⟩
    by_cases same : r = j
    · simp [State.goto,State.setCpu,State.setContext,State.setProc,same,used]
    · simp [State.goto,State.setCpu,State.setContext,State.setProc,same]
  generalize ((({ s with nextpid := pid }.setProc j new).setContext j (some ⟨[],.forkret⟩)).goto c
      (.process p ⟨[],.forkCopy j⟩)) = after at changes
  -- what is being made: the child just found, by p alone, and what was being made before
  have makes : ∀ r np, Making after r np → r = p ∧ np = j ∨ np ≠ j ∧ Making s r np := by
    rintro r np ⟨u,runs,making⟩
    rcases changes.runs (fun r t was => .inl (by rw [at_] at was; cases was; exact ⟨_,rfl⟩)) runs with
      mine | old | ⟨rfl,stored,-,-⟩
    · cases mine
      exact .inl ⟨rfl,(Option.some.inj making).symm⟩
    · refine .inr ⟨?_,u,old,making⟩
      rintro rfl
      exact free r ⟨u,old,making⟩
    · cases stored
      simp [ProcPc.forks] at making
  refine inv.change changes ⟨ok.nodup,?_,?_,trivial,?_⟩ (fun l inside => .inl inside) ?_ ?_ ?_ ?_ ?_ ?_ ?_
  · intro r
    rw [show (Run.process p ⟨[],.forkCopy j⟩).locked = (s.cpu c).run.locked by rw [at_]; rfl]
    exact ok.own r
  · exact ok.current.trans engaged
  · have returns := ok.returns
    rw [at_] at returns
    exact returns
  · intro r same
    exact .inl (engaged.trans same)
  · intro r same
    exact .inl (engaged.symm.trans same)
  · rintro r ⟨⟩
    rw [changes.proc,if_neg other]
    exact running
  · intro d _ busy
    exact absurd busy (idle d)
  · intro _ _
    rfl
  · grind [changes.proc,inv.making]
  · grind [inv.single]

theorem procNext_inv {pc : ProcPc} {ok : Bool} (inv : Inv s) (at_ : (s.cpu c).run = .process p ⟨[],pc⟩)
    (stepped : procNext s c p ok pc = some s') : Inv s' := by
  have engaged : (s.cpu c).run.engages = some p := by rw [at_]; rfl
  have fits := inv.fits c p engaged
  rw [at_] at fits
  -- the lock of the slot that the step looks at is held
  have holds : ∀ j, (Run.process p ⟨[],pc⟩).locked = some j → .proc j ∈ (s.cpu c).held := by
    intro j locked
    rw [(inv.cpu c).own,at_]
    exact locked
  have makes : ∀ np, pc.forks = some np → (s.proc np).state = .used := fun np making =>
    inv.making p np ⟨_,.inl ⟨c,at_⟩,making⟩
  cases pc with
  | code => cases stepped
  | forkret =>
    cases stepped
    exact inv.process_unlock at_ (by simp) fits (.inl rfl)
  | zombie =>
    cases stepped
    exact inv.panic
  | kkill pid i =>
    simp only [procNext] at stepped
    split_ifs at stepped with inside
    · exact inv.process_acquire at_ stepped rfl (by simp) fits (.inl rfl)
    · cases stepped
      exact inv.process_walk at_ rfl fits (.inl rfl)
  | kill pid j =>
    simp only [procNext] at stepped
    split_ifs at stepped with named <;> cases stepped
    · have killed := (s.proc j).kill_state
      refine inv.process_release at_ (.setProc _) (.inl (holds j rfl)) (by simp)
        ((Sets.setProc _).running fits fun same => ?_) (.inr (.woken (holds j rfl) killed)) (.inl rfl)
        fun used => .inl (woken_used killed used)
      exact woken_running killed (same ▸ fits)
    · exact inv.process_unlock at_ (by simp) fits (.inl rfl)
  | allocproc i =>
    simp only [procNext] at stepped
    split_ifs at stepped with inside
    · exact inv.process_acquire at_ stepped rfl (by simp) fits (.inl rfl)
    · cases stepped
      exact inv.process_walk at_ rfl fits (.inl rfl)
  | allocTest j =>
    simp only [procNext] at stepped
    split_ifs at stepped with unused done <;> cases stepped
    · exact inv.allocproc at_ unused rfl
    · have sets : Sets s ({ s with nextpid := s.nextpid + 1 }.setProc j (freeproc (s.proc j))) j .unused :=
        ⟨rfl,rfl,(Sets.setProc (freeproc (s.proc j))).proc⟩
      refine inv.process_release at_ sets (.inl (holds j rfl)) (by simp) (sets.running fits fun same => ?_)
        (.inr (.inl unused.symm)) (.inl rfl) fun used => by simp [unused] at used
      rw [← same] at unused
      simp [show (s.proc p).state = .running from fits] at unused
    · exact inv.process_unlock at_ (by simp) fits (.inl rfl)
  | forkCopy np =>
    have used := makes np rfl
    simp only [procNext] at stepped
    split_ifs at stepped with done <;> cases stepped
    · exact inv.process_unlock at_ (by simp) fits (.inr rfl)
    · refine inv.process_release at_ (.setProc _) (.inl (holds np rfl)) (by simp)
        ((Sets.setProc _).running fits fun same => ?_) (.inr (.freed (holds np rfl) (by simp [used]))) (.inl rfl)
        fun _ => .inr ⟨rfl,rfl⟩
      rw [← same] at used
      simp [show (s.proc p).state = .running from fits] at used
  | forkParent np => exact inv.process_acquire at_ stepped rfl (by simp) fits (.inr rfl)
  | forkAdopt np =>
    cases stepped
    exact inv.process_release at_ (.setProc _) (.inr rfl) (by simp)
      ((Sets.setProc _).running fits fun same => same ▸ fits) (.inr (.inl rfl)) (.inr rfl) .inl
  | forkReady np => exact inv.process_acquire at_ stepped rfl (by simp) fits (.inr rfl)
  | forkRun np =>
    have used := makes np rfl
    cases stepped
    refine inv.process_release at_ (.setProc _) (.inl (holds np rfl)) (by simp)
      ((Sets.setProc _).running fits fun same => ?_) (.inr (.inr ⟨holds np rfl,fun running => ?_,fun rest => ?_⟩)) (.inl rfl)
      fun _ => .inr ⟨rfl,rfl⟩
    · rw [← same] at used
      simp [show (s.proc p).state = .running from fits] at used
    · simp [used] at running
    · rw [used] at rest
      exact ⟨_,rest,rfl⟩
  | exitLock => exact inv.process_acquire at_ stepped rfl (by simp) fits (.inl rfl)
  | reparent i =>
    have plain : ∀ pc' : ProcPc, pc'.own = false → pc'.other = none → ∀ chan covered,
        Thread.Fits ⟨[.wakeup chan 0 covered],pc'⟩ (s.proc p).state (s.context p) :=
      fun pc' own other chan covered => ⟨fits,nofun,own,other⟩
    simp only [procNext] at stepped
    split_ifs at stepped with inside child <;> cases stepped
    · refine inv.process_goto at_ (.setProc _) rfl ?_ (.inr (.inl rfl)) (.inl rfl) .inl
      rw [(Sets.setProc _).running fits fun same => same ▸ fits]
      rw [show (s.proc p).state = .running from fits] at plain
      exact plain _ rfl rfl _ _
    · exact inv.process_walk at_ rfl fits (.inl rfl)
    · exact inv.process_walk at_ rfl (plain _ rfl rfl _ _) (.inl rfl)
  | exitLast => exact inv.process_acquire at_ stepped rfl (by simp) fits (.inl rfl)
  | exitSet =>
    cases stepped
    refine inv.process_goto at_ (.setProc _) rfl ?_ (.inl rfl) (.inl rfl) fun used => ?_
    · exact (Sets.setProc { s.proc p with state := .zombie }).proc p ▸ if_pos rfl
    · simp [show (s.proc p).state = .running from fits] at used
  | exitRelease =>
    cases stepped
    exact inv.process_unlock at_ (by simp) ⟨fits,rfl⟩ (.inl rfl)
  | waitLock => exact inv.process_acquire at_ stepped rfl (by simp) fits (.inl rfl)
  | waitScan i havekids =>
    simp only [procNext] at stepped
    split_ifs at stepped with inside child
    · exact inv.process_acquire at_ stepped rfl (by simp) fits (.inl rfl)
    · cases stepped
      exact inv.process_walk at_ rfl fits (.inl rfl)
    · cases stepped
      exact inv.process_walk at_ rfl fits (.inl rfl)
  | waitTest j =>
    simp only [procNext] at stepped
    split_ifs at stepped with zombie copied <;> cases stepped
    · refine inv.process_release at_ (.setProc _) (.inl (holds j rfl)) (by simp)
        ((Sets.setProc _).running fits fun same => ?_) (.inr (.freed (holds j rfl) (by simp [zombie]))) (.inl rfl)
        fun used => by simp [zombie] at used
      rw [← same] at zombie
      simp [show (s.proc p).state = .running from fits] at zombie
    · exact inv.process_unlock at_ (by simp) fits (.inl rfl)
    · exact inv.process_unlock at_ (by simp) fits (.inl rfl)
  | waitRelease =>
    cases stepped
    exact inv.process_unlock at_ (by simp) fits (.inl rfl)
  | waitKilled havekids =>
    simp only [procNext] at stepped
    split_ifs at stepped with kids
    · exact inv.process_acquire at_ stepped rfl (by simp) fits (.inl rfl)
    · cases stepped
      exact inv.process_walk at_ rfl fits (.inl rfl)
  | waitKilledTest =>
    simp only [procNext] at stepped
    split_ifs at stepped with killed <;> cases stepped
    · exact inv.process_unlock at_ (by simp) fits (.inl rfl)
    · exact inv.process_unlock at_ (by simp) ⟨fits,nofun,rfl,rfl⟩ (.inl rfl)

section Plain
variable {rest : List Frame} {pc : ProcPc}

theorem Thread.Plain.locked (plain : Thread.Plain ⟨rest,pc⟩) : (Run.process p ⟨rest,pc⟩).locked = none := by
  obtain ⟨frames,own,other⟩ := plain
  cases rest with
  | nil => simp_all
  | cons frame rest =>
    obtain ⟨own,other⟩ := frames frame (.head _)
    simp_all

theorem Thread.Plain.fits (plain : Thread.Plain ⟨rest,pc⟩) (running : state = .running) :
    Thread.Fits ⟨rest,pc⟩ state context := by
  obtain ⟨frames,own,other⟩ := plain
  cases rest with
  | nil => cases pc <;> simp_all [Thread.Fits]
  | cons frame rest =>
    have below : Thread.Plain ⟨rest,pc⟩ := ⟨fun f inside => frames f (.tail _ inside),own,other⟩
    cases frame <;> simp_all [Thread.Fits]

theorem Thread.Plain.cons (plain : Thread.Plain ⟨rest,pc⟩) (own : frame.own = false)
    (other : frame.other = none) : Thread.Plain ⟨frame :: rest,pc⟩ := by
  refine ⟨fun f inside => ?_,plain.2⟩
  rcases List.mem_cons.mp inside with rfl | inside
  · exact ⟨own,other⟩
  · exact plain.1 f inside

theorem condLock_ne {chan : Chan} : condLock guard chan ≠ .proc q := by
  cases chan <;> simp [condLock]

theorem wakeNext_process (inv : Inv s)
    (at_ : (s.cpu c).run = .process p ⟨frame :: rest,pc⟩) (running : (s.proc p).state = .running)
    (plain : Thread.Plain ⟨rest,pc⟩)
    (stepped : wakeNext guard s c (fun frames => .process p ⟨frames,pc⟩) rest frame = some s') : Inv s' := by
  cases frame <;> simp only [wakeNext] at stepped
  case wakeup chan i covered =>
    split_ifs at stepped with inside me
    · cases stepped
      exact inv.process_walk at_ rfl ⟨running,plain⟩ (.inr rfl)
    · exact inv.process_acquire at_ stepped rfl (by simp) ⟨running,plain⟩ (.inr rfl)
    · cases stepped
      exact inv.process_walk at_ plain.locked (plain.fits running) (.inr rfl)
  case wake chan j covered =>
    have held : .proc j ∈ (s.cpu c).held := by
      rw [(inv.cpu c).own,at_]
      rfl
    have woken := (s.proc j).wake_state chan
    cases stepped
    refine inv.process_release at_ (.setProc _) (.inl held) (by simp) ⟨?_,plain⟩ (.inr (.woken held woken)) (.inr rfl)
      fun used => .inl (woken_used woken used)
    exact (Sets.setProc _).running running fun same => woken_running woken (same ▸ running)
  case intr k =>
    exact inv.process_acquire at_ stepped rfl (by simp) ⟨running,plain.cons rfl rfl⟩ (.inr rfl)
  case intrDone k =>
    cases stepped
    refine inv.process_unlock at_ (fun r => ?_) (plain.fits running) (.inr rfl)
    rw [plain.locked]
    simp
  all_goals cases stepped

theorem saved_inv (inv : Inv s) (at_ : (s.cpu c).run = .process p ⟨.saved :: rest,pc⟩) :
    Inv (s.goto c (.scheduler [] (s.cpu c).context)) := by
  have engaged : (s.cpu c).run.engages = some p := by rw [at_]; rfl
  have ok := inv.cpu c
  have fits := inv.fits c p engaged
  have back := ok.returns
  rw [at_] at fits back
  obtain ⟨leaves,stored⟩ := fits
  rw [show (s.cpu c).context = .back p from back]
  have changes : Changes s (s.goto c (.scheduler [] (.back p))) c { s.cpu c with run := .scheduler [] (.back p) } p
      (s.proc p).state (s.context p) := (Sets.refl p).setCpu _
  generalize s.goto c (.scheduler [] (.back p)) = after at changes
  have makes : ∀ r np, Making after r np → Making s r np := by
    rintro r np ⟨u,runs,making⟩
    rcases changes.runs (fun r t was => .inr (by rw [at_] at was; cases was; rfl)) runs with mine | old | ⟨rfl,same,-,-⟩
    · cases mine
    · exact ⟨u,old,making⟩
    · rw [stored] at same
      cases same
      exact ⟨_,.inl ⟨c,at_⟩,making⟩
  refine inv.change changes ⟨ok.nodup,?_,?_,trivial,trivial⟩ (fun l inside => .inl inside) ?_ ?_ ?_ ?_ ?_ ?_ ?_
  · intro r
    rw [show (Run.scheduler [] (.back p)).locked = (s.cpu c).run.locked by rw [at_]; rfl]
    exact ok.own r
  · exact ok.current.trans engaged
  · intro r same
    exact .inl (engaged.trans same)
  · intro r same
    exact .inl (engaged.symm.trans same)
  · rintro r ⟨⟩
    rw [changes.proc,if_pos rfl,changes.context,update_self]
    exact leaves.rests stored
  · intro d _ _
    exact ⟨rfl,rfl⟩
  · intro idle
    exact absurd rfl idle
  · grind [changes.proc,inv.making]
  · exact fun r r' np first second => inv.single r r' np (makes r np first) (makes r' np second)

theorem frameNext_inv (inv : Inv s)
    (at_ : (s.cpu c).run = .process p ⟨frame :: rest,pc⟩)
    (stepped : frameNext guard s c p rest pc frame = some s') : Inv s' := by
  have engaged : (s.cpu c).run.engages = some p := by rw [at_]; rfl
  have fits := inv.fits c p engaged
  have ok := inv.cpu c
  rw [at_] at fits
  cases frame
  case wakeup | wake | intr | intrDone =>
    simp only [frameNext] at stepped
    exact wakeNext_process inv at_ fits.1 fits.2 stepped
  case yield => exact inv.process_acquire at_ stepped rfl (by simp) fits (.inr rfl)
  case yieldReady =>
    obtain ⟨running,plain⟩ := fits
    cases stepped
    refine inv.process_goto at_ (.setProc _) rfl ⟨?_,plain⟩ (.inl rfl) (.inr rfl) fun used => by simp [running] at used
    exact ((Sets.setProc { s.proc p with state := .runnable }).proc p).trans (if_pos rfl)
  case yieldBack =>
    obtain ⟨running,plain⟩ := fits
    cases stepped
    refine inv.process_unlock at_ (fun r => ?_) (plain.fits running) (.inr rfl)
    rw [plain.locked]
    simp
  case sleep chan => exact inv.process_acquire at_ stepped rfl (by simp) fits (.inr rfl)
  case sleepRelease chan =>
    cases stepped
    exact inv.process_unlock at_ (by simp [condLock_ne]) fits (.inr rfl)
  case sleepSet chan =>
    obtain ⟨running,plain⟩ := fits
    cases stepped
    refine inv.process_goto at_ (.setProc _) rfl ⟨?_,plain⟩ (.inl rfl) (.inr rfl) fun used => by simp [running] at used
    exact ((Sets.setProc { s.proc p with chan := some chan, state := .sleeping }).proc p).trans (if_pos rfl)
  case sleepBack chan =>
    obtain ⟨running,plain⟩ := fits
    cases stepped
    exact inv.process_release at_ (.setProc _) (.inr rfl) (by simp)
      ⟨(Sets.setProc { s.proc p with chan := none }).running running fun _ => running,plain⟩ (.inl rfl) (.inr rfl) .inl
  case sleepRelock chan =>
    obtain ⟨running,plain⟩ := fits
    refine inv.process_acquire at_ stepped rfl (fun r => ?_) (plain.fits running) (.inr rfl)
    rw [plain.locked]
    simp [condLock_ne]
  case sched =>
    simp only [frameNext] at stepped
    split_ifs at stepped with held <;> cases stepped
    · exact inv.process_walk at_ rfl fits (.inr rfl)
    · exact inv.panic
  case swtch =>
    cases stepped
    have changes : Changes s ((s.setContext p none).goto c (.process p ⟨.saving :: rest,pc⟩)) c
        { s.cpu c with run := .process p ⟨.saving :: rest,pc⟩ } p (s.proc p).state none := ⟨rfl,(Sets.refl p).proc,rfl⟩
    refine inv.process at_ changes (.same rfl ?_) rfl rfl rfl fits (.inl rfl) (.inr rfl) .inl
    rw [at_]
    rfl
  case saving =>
    cases stepped
    have changes : Changes s ((s.setContext p (some ⟨rest,pc⟩)).goto c (.process p ⟨.saved :: rest,pc⟩)) c
        { s.cpu c with run := .process p ⟨.saved :: rest,pc⟩ } p (s.proc p).state (some ⟨rest,pc⟩) :=
      ⟨rfl,(Sets.refl p).proc,rfl⟩
    refine inv.process at_ changes (.same rfl ?_) rfl rfl rfl ⟨fits,?_⟩ (.inl rfl) (.inr rfl) .inl
    · rw [at_]
      rfl
    · simp [State.goto,State.setCpu,State.setContext]
  case saved =>
    cases stepped
    exact saved_inv inv at_

end Plain

section Scheduler
variable {frames frames' : List Frame} {pc pc' : SchedPc}

theorem Inv.scheduler_acquire (inv : Inv s) (at_ : (s.cpu c).run = .scheduler frames pc)
    (acquired : s.acquire c l (.scheduler frames' pc') = some s') (before : (Run.scheduler frames pc).locked = none)
    (locked : ∀ r, (Run.scheduler frames' pc').locked = some r ↔ l = .proc r)
    (idle : (Run.scheduler frames pc).engages = none ∧ (Run.scheduler frames' pc').engages = none)
    (handles : (Run.scheduler frames' pc').Handles) (returns : (Run.scheduler frames' pc').Returns (s.cpu c).context) :
    Inv s' := by
  rcases acquire_cases acquired with rfl | ⟨free,rfl⟩
  · exact inv.panic
  · refine inv.scheduler (q := 0) at_ ((Sets.refl 0).setCpu _) (.acquire l free rfl ?_ locked) rfl rfl ?_ handles returns ?_
      (.inl rfl)
    · rw [at_]
      exact before
    · rw [at_]
      exact idle.2.trans idle.1.symm
    · intro p busy
      rw [show (Run.scheduler frames' pc').engages = some p from busy] at idle
      cases idle.2

theorem Inv.scheduler_goto (inv : Inv s) (at_ : (s.cpu c).run = .scheduler frames pc)
    (same : (Run.scheduler frames' pc').locked = (Run.scheduler frames pc).locked)
    (idle : (Run.scheduler frames pc).engages = none ∧ (Run.scheduler frames' pc').engages = none)
    (handles : (Run.scheduler frames' pc').Handles) (returns : (Run.scheduler frames' pc').Returns (s.cpu c).context) :
    Inv (s.goto c (.scheduler frames' pc')) := by
  refine inv.scheduler (q := 0) at_ ((Sets.refl 0).setCpu _) (.same rfl ?_) rfl rfl ?_ handles returns ?_ (.inl rfl)
  · rw [at_]
    exact same
  · rw [at_]
    exact idle.2.trans idle.1.symm
  · intro p busy
    rw [show (Run.scheduler frames' pc').engages = some p from busy] at idle
    cases idle.2

theorem Inv.scheduler_release (inv : Inv s) (at_ : (s.cpu c).run = .scheduler frames pc) (sets : Sets s base q state)
    (held : l ∈ (s.cpu c).held ∨ state = (s.proc q).state)
    (locked : ∀ r, (Run.scheduler frames' pc').locked = some r ↔ (Run.scheduler frames pc).locked = some r ∧ l ≠ .proc r)
    (idle : (Run.scheduler frames pc).engages = none ∧ (Run.scheduler frames' pc').engages = none)
    (handles : (Run.scheduler frames' pc').Handles) (returns : (Run.scheduler frames' pc').Returns (s.cpu c).context)
    (slot : state = (s.proc q).state ∨ .proc q ∈ (s.cpu c).held ∧ (s.proc q).state = .sleeping ∧ state = .runnable) :
    Inv (base.release c l (.scheduler frames' pc')) := by
  unfold State.release
  by_cases inside : l ∈ (s.cpu c).held
  · rw [sets.cpu,if_pos inside]
    refine inv.scheduler at_ (sets.setCpu _) (.release l rfl ?_) rfl rfl ?_ handles returns ?_ ?_
    · rw [at_]
      exact locked
    · rw [at_]
      exact idle.2.trans idle.1.symm
    · intro p busy
      rw [show (Run.scheduler frames' pc').engages = some p from busy] at idle
      cases idle.2
    · rcases slot with same | ⟨locked,asleep,rfl⟩
      · exact .inl same
      · refine .inr ⟨locked,?_,fun running => ?_,fun used => ?_,fun rest => ?_⟩
        · rw [at_]
          exact idle.1
        · simp [asleep] at running
        · simp [asleep] at used
        · rw [asleep] at rest
          exact rest.wake
  · rw [sets.cpu,if_neg inside]
    refine inv.of_same sets.cpu (fun r => ?_) sets.context
    have same := held.resolve_left inside
    rw [show (base.panic.proc r).state = (base.proc r).state from rfl,sets.proc]
    split_ifs with me
    · rw [same,me]
    · rfl

theorem handles_locked {rest : List Frame} (lower : ∀ frame ∈ rest, frame.other = none) (free : pc.locked = none) :
    (Run.scheduler rest pc).locked = none := by
  cases rest with
  | nil => exact free
  | cons frame rest => exact lower frame (.head _)

theorem handles_engages {rest : List Frame} (free : pc.locked = none) : (Run.scheduler rest pc).engages = none := by
  cases rest with
  | nil => cases pc <;> simp_all [Run.engages]
  | cons frame rest => rfl

theorem handles_rest {rest : List Frame} (lower : ∀ frame ∈ rest, frame.other = none) (free : pc.locked = none) :
    (Run.scheduler rest pc).Handles := by
  cases rest with
  | nil => trivial
  | cons frame rest => exact ⟨fun f inside => lower f (.tail _ inside),free⟩

theorem handles_returns {rest : List Frame} {context : SchedPc} (free : pc.locked = none) :
    (Run.scheduler rest pc).Returns context := by
  cases rest with
  | nil => cases pc <;> simp_all [Run.Returns]
  | cons frame rest => trivial

theorem wakeNext_scheduler {rest : List Frame} (inv : Inv s)
    (at_ : (s.cpu c).run = .scheduler (frame :: rest) pc)
    (stepped : wakeNext guard s c (fun frames => .scheduler frames pc) rest frame = some s') : Inv s' := by
  have handles := (inv.cpu c).handles
  rw [at_] at handles
  obtain ⟨lower,free⟩ := handles
  have back := handles_rest lower free
  cases frame <;> simp only [wakeNext] at stepped
  case wakeup chan i covered =>
    split_ifs at stepped with inside me
    · cases stepped
      exact inv.scheduler_goto at_ rfl ⟨rfl,rfl⟩ ⟨lower,free⟩ trivial
    · exact inv.scheduler_acquire at_ stepped rfl (by simp) ⟨rfl,rfl⟩ ⟨lower,free⟩ trivial
    · cases stepped
      exact inv.scheduler_goto at_ (handles_locked lower free) ⟨rfl,handles_engages free⟩ back (handles_returns free)
  case wake chan j covered =>
    have held : .proc j ∈ (s.cpu c).held := by
      rw [(inv.cpu c).own,at_]
      rfl
    cases stepped
    exact inv.scheduler_release at_ (.setProc _) (.inl held) (by simp) ⟨rfl,rfl⟩ ⟨lower,free⟩ trivial
      (((s.proc j).wake_state chan).imp_right fun woken => ⟨held,woken⟩)
  case intr k =>
    refine inv.scheduler_acquire at_ stepped rfl (by simp) ⟨rfl,rfl⟩ ⟨fun f inside => ?_,free⟩ trivial
    rcases List.mem_cons.mp inside with rfl | inside
    · rfl
    · exact lower f inside
  case intrDone k =>
    cases stepped
    refine inv.scheduler_release at_ (.refl 0) (.inr rfl) (fun r => ?_) ⟨rfl,handles_engages free⟩ back
      (handles_returns free) (.inl rfl)
    rw [handles_locked lower free]
    simp
  all_goals cases stepped

theorem choose_inv (inv : Inv s) (at_ : (s.cpu c).run = .scheduler [] (.look p))
    (ready : (s.proc p).state = .runnable) :
    Inv ((s.setState p .running).setCpu c { s.cpu c with proc := some p, run := .scheduler [] (.enter p) }) := by
  have ok := inv.cpu c
  have locked : .proc p ∈ (s.cpu c).held := by
    rw [ok.own,at_]
    rfl
  -- a CPU engaged with p would hold its lock, or p would be running
  have free : ∀ d, (s.cpu d).run.engages ≠ some p := by
    intro d busy
    by_cases mine : d = c
    · rw [mine,at_] at busy
      cases busy
    · have runs := inv.running busy fun held => mine (inv.lock d c _ held locked)
      simp [ready] at runs
  have changes : Changes s
      ((s.setState p .running).setCpu c { s.cpu c with proc := some p, run := .scheduler [] (.enter p) }) c
      { s.cpu c with proc := some p, run := .scheduler [] (.enter p) } p .running (s.context p) :=
    (Sets.setProc { s.proc p with state := .running }).setCpu _
  obtain ⟨making,single⟩ := changes.forks_scheduler inv at_ rfl fun used => by simp [ready] at used
  refine inv.change changes ⟨ok.nodup,?_,rfl,trivial,trivial⟩ (fun l inside => .inl inside) ?_ ?_ ?_ ?_ ?_ making single
  · intro r
    rw [show (Run.scheduler [] (.enter p)).locked = (s.cpu c).run.locked by rw [at_]; rfl]
    exact ok.own r
  · rintro r ⟨⟩
    exact .inr free
  · intro r busy
    rw [at_] at busy
    cases busy
  · rintro r ⟨⟩
    have rest := inv.rest p free
    rw [ready] at rest
    rw [changes.proc,if_pos rfl,changes.context,update_self]
    exact ⟨rfl,rest⟩
  · intro d _ busy
    exact absurd busy (free d)
  · intro idle
    exact absurd rfl idle

theorem back_inv (inv : Inv s) (at_ : (s.cpu c).run = .scheduler [] (.back p)) :
    Inv (s.setCpu c { s.cpu c with proc := none, run := .scheduler [] (.unlock p) }) := by
  have ok := inv.cpu c
  have rest := inv.fits c p (by rw [at_]; rfl)
  rw [at_] at rest
  have changes : Changes s (s.setCpu c { s.cpu c with proc := none, run := .scheduler [] (.unlock p) }) c
      { s.cpu c with proc := none, run := .scheduler [] (.unlock p) } p (s.proc p).state (s.context p) :=
    (Sets.refl p).setCpu _
  obtain ⟨making,single⟩ := changes.forks_scheduler inv at_ rfl id
  refine inv.change changes ⟨ok.nodup,?_,rfl,trivial,trivial⟩ (fun l inside => .inl inside) ?_ ?_ ?_ ?_ ?_ making single
  · intro r
    rw [show (Run.scheduler [] (.unlock p)).locked = (s.cpu c).run.locked by rw [at_]; rfl]
    exact ok.own r
  · rintro r ⟨⟩
  · intro r busy
    rw [at_] at busy
    cases busy
    exact .inr rfl
  · rintro r ⟨⟩
  · intro d _ _
    exact ⟨rfl,rfl⟩
  · exact fun _ _ => rest

theorem load_inv (inv : Inv s) (at_ : (s.cpu c).run = .scheduler [] (.load p)) (stored : s.context p = some t) :
    Inv (s.goto c (.process p t)) := by
  have engaged : (s.cpu c).run.engages = some p := by rw [at_]; rfl
  have ok := inv.cpu c
  have fits := inv.fits c p engaged
  have returns := ok.returns
  rw [at_] at fits returns
  obtain ⟨running,u,same,resumes⟩ := fits
  rw [stored] at same
  cases same
  have off : ∀ d u, (s.cpu d).run ≠ .process p u := by
    intro d u running
    have same := inv.one d c p (by rw [running]; rfl) engaged
    rw [same,at_] at running
    cases running
  have changes : Changes s (s.goto c (.process p t)) c { s.cpu c with run := .process p t } p (s.proc p).state
      (s.context p) := (Sets.refl p).setCpu _
  generalize s.goto c (.process p t) = after at changes
  have makes : ∀ r np, Making after r np → Making s r np := by
    rintro r np ⟨u,runs,making⟩
    rcases changes.runs (fun r t was => by rw [at_] at was; cases was) runs with mine | old | ⟨rfl,-,away,-⟩
    · cases mine
      exact ⟨t,.inr ⟨off,stored⟩,making⟩
    · exact ⟨u,old,making⟩
    · exact absurd rfl (away t)
  have place : (Run.process p t).locked = some p ∧ t.Fits .running (s.context p) := by
    obtain ⟨frames,pc⟩ := t
    cases frames with
    | nil =>
      cases resumes
      exact ⟨rfl,rfl⟩
    | cons frame rest => cases frame <;> simp_all [Thread.Resumes,Thread.Fits]
  refine inv.change changes ⟨ok.nodup,?_,?_,trivial,returns⟩ (fun l inside => .inl inside) ?_ ?_ ?_ ?_ ?_ ?_ ?_
  · intro r
    rw [place.1,show some p = (s.cpu c).run.locked by rw [at_]; rfl]
    exact ok.own r
  · exact ok.current.trans engaged
  · intro r same
    exact .inl (engaged.trans same)
  · intro r same
    exact .inl (engaged.symm.trans same)
  · rintro r ⟨⟩
    rw [changes.proc,if_pos rfl,changes.context,update_self,running]
    exact place.2
  · intro d _ _
    exact ⟨rfl,rfl⟩
  · intro idle
    exact absurd rfl idle
  · grind [changes.proc,inv.making]
  · exact fun r r' np first second => inv.single r r' np (makes r np first) (makes r' np second)

theorem schedNext_inv (inv : Inv s) (at_ : (s.cpu c).run = .scheduler [] pc) (stepped : schedNext s c pc = some s') :
    Inv s' := by
  cases pc <;> simp only [schedNext] at stepped
  case scan i =>
    split_ifs at stepped with inside
    · exact inv.scheduler_acquire at_ stepped rfl (by simp) ⟨rfl,rfl⟩ trivial trivial
    · cases stepped
      exact inv.scheduler_goto at_ rfl ⟨rfl,rfl⟩ trivial trivial
  case look p =>
    split_ifs at stepped with ready <;> cases stepped
    · exact choose_inv inv at_ ready
    · exact inv.scheduler_goto at_ rfl ⟨rfl,rfl⟩ trivial trivial
  case enter p =>
    cases stepped
    refine inv.scheduler (q := p) at_ ((Sets.refl p).setCpu _) (.same rfl ?_) rfl rfl ?_ trivial rfl ?_ (.inl rfl)
    · rw [at_]
      rfl
    · rw [at_]
      rfl
    · rintro r ⟨⟩
      have fits := inv.fits c p (by rw [at_]; rfl)
      rw [at_] at fits
      exact fits
  case load p =>
    obtain ⟨t,stored,rfl⟩ := Option.map_eq_some_iff.mp stepped
    exact load_inv inv at_ stored
  case back p =>
    cases stepped
    exact back_inv inv at_
  case unlock p =>
    cases stepped
    exact inv.scheduler_release at_ (.refl p) (.inr rfl) (by simp) ⟨rfl,rfl⟩ trivial trivial (.inl rfl)

end Scheduler

end Xv6.Sched
