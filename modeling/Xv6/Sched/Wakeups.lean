import Xv6.Sched.Cpus

/-! No wakeup is lost. A process on its way to sleep on a channel holds its own
lock from before it releases the condition lock until the scheduler has it back,
so a wakeup that holds the condition lock looks at its slot before it is on its
way, or finds it asleep. -/
namespace Xv6.Sched
open Lib List
open Function (update update_apply update_of_ne update_self)
open Xv6.Procs (Slot ProcState Chan)
variable {n : Nat} {guard : Nat → Nat} {s s' base : State n} {c : Fin n} {p : Slot} {run : Run}

def Run.frames : Run → List Frame
  | .scheduler frames _ => frames
  | .process _ t => t.frames

def Frame.covered : Frame → Bool
  | .wakeup _ _ covered | .wake _ _ covered => covered
  | _ => false

def Dozing (s : State n) (p : Slot) (chan : Chan) : Prop :=
  (s.proc p).state = .sleeping ∧ (s.proc p).chan = some chan ∨
    ∃ c rest pc, (s.cpu c).run = .process p ⟨.sleepSet chan :: rest,pc⟩

/-- A wakeup that was called with the condition lock still has it, and the slots it
has passed do not doze. -/
def Passed (guard : Nat → Nat) (s : State n) (held : List Lock) (chan : Option Chan) (i : Nat) : Prop :=
  (∃ l ∈ held, ∀ q, l ≠ .proc q) ∧
    ∀ ch, chan = some ch → condLock guard ch ∈ held ∧ ∀ p : Slot, p < i → ¬Dozing s p ch

def Scans (guard : Nat → Nat) (s : State n) (held : List Lock) : List Frame → Prop
  | .wakeup chan i true :: _ => Passed guard s held chan i
  | .wake chan j true :: _ => Passed guard s held chan j
  | _ => True

structure Scan (guard : Nat → Nat) (s : State n) : Prop where
  top : ∀ c, Scans guard s (s.cpu c).held (s.cpu c).run.frames
  lower : ∀ c, ∀ frame ∈ (s.cpu c).run.frames.tail, frame.covered = false
  stored : ∀ p t, s.context p = some t → ∀ frame ∈ t.frames, frame.covered = false

theorem Scans.of_uncovered {held : List Lock} {frames : List Frame}
    (uncovered : ∀ frame ∈ frames, frame.covered = false) : Scans guard s held frames := by
  match frames with
  | [] => trivial
  | frame :: rest =>
    have top := uncovered frame (.head _)
    cases frame <;> simp_all [Frame.covered,Scans]

theorem Scans.mono {held : List Lock} {frames : List Frame} (scans : Scans guard s held frames)
    (dozing : ∀ p chan, condLock guard chan ∈ held → Dozing s' p chan → Dozing s p chan) : Scans guard s' held frames := by
  have passed : ∀ chan i, Passed guard s held chan i → Passed guard s' held chan i := by
    rintro chan i ⟨some,passed⟩
    refine ⟨some,fun ch is => ⟨(passed ch is).1,fun p less doze => ?_⟩⟩
    exact (passed ch is).2 p less (dozing p ch (passed ch is).1 doze)
  cases frames with
  | nil => trivial
  | cons frame rest =>
    cases frame
    case wakeup chan i covered =>
      cases covered
      · trivial
      · exact passed chan i scans
    case wake chan j covered =>
      cases covered
      · trivial
      · exact passed chan j scans
    all_goals trivial

structure Goes (s s' : State n) (c : Fin n) (run : Run) : Prop where
  others : ∀ d, d ≠ c → s'.cpu d = s.cpu d
  mine : s'.cpu c = s.cpu c ∨ (s'.cpu c).run = run

def Calm (s s' : State n) : Prop :=
  ∀ q, (s'.proc q).state = .sleeping → (s.proc q).state = .sleeping ∧ (s'.proc q).chan = (s.proc q).chan

theorem Calm.of_eq (same : s'.proc = s.proc) : Calm s s' := fun q asleep => by rw [same] at asleep ⊢; exact ⟨asleep,rfl⟩

theorem Calm.setProc {q : Slot} {new : Proc} (cpu : s'.proc = update s.proc q new)
    (slot : new.state = .sleeping → (s.proc q).state = .sleeping ∧ new.chan = (s.proc q).chan) : Calm s s' := by
  intro r asleep
  rw [cpu] at asleep ⊢
  by_cases same : r = q
  · subst same
    rw [update_self] at asleep ⊢
    exact slot asleep
  · rw [update_of_ne same] at asleep ⊢
    exact ⟨asleep,rfl⟩

theorem Calm.dozing {chan : Chan} (calm : Calm s s') (goes : Goes s s' c run)
    (top : ∀ rest pc, run ≠ .process p ⟨.sleepSet chan :: rest,pc⟩) (dozing : Dozing s' p chan) : Dozing s p chan := by
  rcases dozing with ⟨asleep,on⟩ | ⟨d,rest,pc,runs⟩
  · obtain ⟨before,same⟩ := calm p asleep
    exact .inl ⟨before,same ▸ on⟩
  · by_cases me : d = c
    · subst me
      rcases goes.mine with same | now
      · exact .inr ⟨d,rest,pc,same ▸ runs⟩
      · exact absurd (now.symm.trans runs) (top rest pc)
    · rw [goes.others d me] at runs
      exact .inr ⟨d,rest,pc,runs⟩

theorem Scan.go (scan : Scan guard s) (goes : Goes s s' c run)
    (dozing : ∀ d, d ≠ c ∨ s'.cpu c = s.cpu c → ∀ p chan, condLock guard chan ∈ (s.cpu d).held → Dozing s' p chan →
      Dozing s p chan)
    (top : (s'.cpu c).run = run → Scans guard s' (s'.cpu c).held run.frames)
    (lower : ∀ frame ∈ run.frames.tail, frame.covered = false)
    (stored : ∀ p t, s'.context p = some t → ∀ frame ∈ t.frames, frame.covered = false) : Scan guard s' := by
  refine ⟨fun d => ?_,fun d => ?_,stored⟩
  · by_cases me : d = c
    · subst me
      rcases goes.mine with same | now
      · rw [same]
        exact (scan.top d).mono (dozing d (.inr same))
      · rw [now]
        exact top now
    · rw [goes.others d me]
      exact (scan.top d).mono (dozing d (.inl me))
  · grind [Goes,Scan,lower,Function.update_apply]

theorem Scan.calm (scan : Scan guard s) (goes : Goes s s' c run) (calm : Calm s s')
    (awake : ∀ p chan rest pc, run ≠ .process p ⟨.sleepSet chan :: rest,pc⟩)
    (top : (s'.cpu c).run = run → Scans guard s' (s'.cpu c).held run.frames)
    (lower : ∀ frame ∈ run.frames.tail, frame.covered = false)
    (stored : ∀ p t, s'.context p = some t → s.context p = some t ∨ ∀ frame ∈ t.frames, frame.covered = false) :
    Scan guard s' := by
  refine scan.go goes (fun d _ p chan _ => calm.dozing goes (awake p chan)) top lower fun p t is => ?_
  rcases stored p t is with old | new
  · exact scan.stored p t old
  · exact new

theorem Goes.setCpu {cpu : Cpu} (same : base.cpu = s.cpu) (now : cpu.run = run) : Goes s (base.setCpu c cpu) c run := by
  refine ⟨fun d other => ?_,.inr ?_⟩
  · simp [State.setCpu,same,other]
  · simpa [State.setCpu] using now

theorem Goes.panic (same : base.cpu = s.cpu) : Goes s base.panic c run :=
  ⟨fun d _ => congrFun same d,.inl (congrFun same c)⟩

theorem Goes.goto (same : base.cpu = s.cpu) : Goes s (base.goto c run) c run := .setCpu same rfl

theorem Goes.acquire {l : Lock} (acquired : s.acquire c l run = some s') :
    Goes s s' c run ∧ s'.proc = s.proc ∧ s'.context = s.context := by
  rcases acquire_cases acquired with rfl | ⟨-,rfl⟩
  · exact ⟨.panic rfl,rfl,rfl⟩
  · exact ⟨.setCpu rfl rfl,rfl,rfl⟩

theorem release_cases {l : Lock} (same : base.cpu = s.cpu) (run : Run) :
    base.release c l run = base.panic ∨ l ∈ (s.cpu c).held ∧
      base.release c l run = base.setCpu c { s.cpu c with held := (s.cpu c).held.erase l, run := run } := by
  unfold State.release
  rw [same]
  split_ifs with held
  · exact .inr ⟨held,rfl⟩
  · exact .inl rfl

theorem Goes.release {l : Lock} (same : base.cpu = s.cpu) (run : Run) : Goes s (base.release c l run) c run ∧
    (base.release c l run).proc = base.proc ∧ (base.release c l run).context = base.context := by
  rcases release_cases (c := c) (l := l) same run with panicked | ⟨-,released⟩
  · rw [panicked]
    exact ⟨.panic same,rfl,rfl⟩
  · rw [released]
    exact ⟨.setCpu same rfl,rfl,rfl⟩

inductive Calls (s : State n) (c : Fin n) : List Frame → Prop
  | none : Calls s c []
  | sched : Calls s c [.sched]
  | sleep (chan : Chan) : Calls s c [.sleep chan]
  | wakeup (p : Option Slot) : Calls s c [.wakeup (p.map .proc) 0 (decide (.wait ∈ (s.cpu c).held))]

structure Continues (s s' : State n) (c : Fin n) (p : Slot) (frames : List Frame) (pc : ProcPc) : Prop where
  goes : Goes s s' c (.process p ⟨frames,pc⟩)
  calls : Calls s c frames
  calm : Calm s s'
  stored : ∀ q t, s'.context q = some t → s.context q = some t ∨ t.frames = []
  held : ∀ frame ∈ frames, frame.covered = true → (s'.cpu c).held = (s.cpu c).held

section Continues
variable {l : Lock} {frames : List Frame} {pc : ProcPc}

theorem Continues.acquire (acquired : s.acquire c l (.process p ⟨[],pc⟩) = some s') : Continues s s' c p [] pc := by
  obtain ⟨goes,procs,contexts⟩ := Goes.acquire acquired
  exact ⟨goes,.none,.of_eq procs,fun q t is => .inl (contexts ▸ is),nofun⟩

theorem Continues.release (cpu : base.cpu = s.cpu) (context : base.context = s.context) (calm : Calm s base)
    (calls : Calls s c frames) (uncovered : ∀ frame ∈ frames, frame.covered = false) :
    Continues s (base.release c l (.process p ⟨frames,pc⟩)) c p frames pc := by
  obtain ⟨goes,procs,contexts⟩ := Goes.release (c := c) (l := l) cpu (.process p ⟨frames,pc⟩)
  refine ⟨goes,calls,fun q asleep => ?_,fun q t is => ?_,fun frame inside covered => ?_⟩
  · rw [procs] at asleep ⊢
    exact calm q asleep
  · rw [contexts,context] at is
    exact .inl is
  · simp [uncovered frame inside] at covered

theorem Continues.unlock : Continues s (s.release c l (.process p ⟨[],pc⟩)) c p [] pc :=
  .release rfl rfl (.of_eq rfl) .none nofun

theorem Continues.goto (cpu : base.cpu = s.cpu) (context : base.context = s.context) (calm : Calm s base)
    (calls : Calls s c frames) : Continues s (base.goto c (.process p ⟨frames,pc⟩)) c p frames pc := by
  refine ⟨.goto cpu,calls,calm,fun q t is => .inl (context ▸ is),fun _ _ _ => ?_⟩
  simp [State.goto,State.setCpu,cpu]

theorem Continues.walk : Continues s (s.goto c (.process p ⟨[],pc⟩)) c p [] pc := .goto rfl rfl (.of_eq rfl) .none

theorem procNext_continues {ok : Bool} (stepped : procNext s c p ok pc = some s') :
    ∃ frames pc', Continues s s' c p frames pc' := by
  cases pc <;> simp only [procNext] at stepped
  case code => cases stepped
  case forkret | waitRelease =>
    cases stepped
    exact ⟨_,_,.unlock⟩
  case zombie =>
    cases stepped
    exact ⟨[],.code,.panic rfl,.none,.of_eq rfl,fun _ _ is => .inl is,by rintro _ ⟨⟩⟩
  case kkill pid i =>
    split_ifs at stepped
    · exact ⟨_,_,.acquire stepped⟩
    · cases stepped
      exact ⟨_,_,.walk⟩
  case kill pid j =>
    split_ifs at stepped with named <;> cases stepped
    · refine ⟨_,_,.release rfl rfl (.setProc rfl fun asleep => ?_) .none (by rintro _ ⟨⟩)⟩
      by_cases was : (s.proc j).state = .sleeping <;> simp [Proc.kill,was] at asleep
    · exact ⟨_,_,.unlock⟩
  case allocproc i =>
    split_ifs at stepped
    · exact ⟨_,_,.acquire stepped⟩
    · cases stepped
      exact ⟨_,_,.walk⟩
  case allocTest j =>
    split_ifs at stepped with unused done <;> cases stepped
    · refine ⟨[],_,.goto rfl,.none,.setProc rfl (by rintro ⟨⟩),fun q t is => ?_,by rintro _ ⟨⟩⟩
      by_cases same : q = j
      · subst same
        simp only [State.goto,State.setCpu,State.setContext,update_self,Option.some.injEq] at is
        exact .inr (is ▸ rfl)
      · simp only [State.goto,State.setCpu,State.setContext,update_of_ne same] at is
        exact .inl is
    · exact ⟨_,_,.release rfl rfl (.setProc rfl (by rintro ⟨⟩)) .none (by rintro _ ⟨⟩)⟩
    · exact ⟨_,_,.unlock⟩
  case forkCopy np =>
    split_ifs at stepped <;> cases stepped
    · exact ⟨_,_,.unlock⟩
    · exact ⟨_,_,.release rfl rfl (.setProc rfl (by rintro ⟨⟩)) .none (by rintro _ ⟨⟩)⟩
  case forkParent np | forkReady np => exact ⟨_,_,.acquire stepped⟩
  case forkAdopt np =>
    cases stepped
    exact ⟨_,_,.release rfl rfl (.setProc rfl fun asleep => ⟨asleep,rfl⟩) .none (by rintro _ ⟨⟩)⟩
  case forkRun np =>
    cases stepped
    exact ⟨_,_,.release rfl rfl (.setProc rfl (by rintro ⟨⟩)) .none (by rintro _ ⟨⟩)⟩
  case exitLock | exitLast | waitLock => exact ⟨_,_,.acquire stepped⟩
  case reparent i =>
    split_ifs at stepped <;> cases stepped
    · exact ⟨_,_,.goto rfl rfl (.setProc rfl fun asleep => ⟨asleep,rfl⟩) (.wakeup (some _))⟩
    · exact ⟨_,_,.walk⟩
    · exact ⟨_,_,.goto rfl rfl (.of_eq rfl) (.wakeup _)⟩
  case exitSet =>
    cases stepped
    exact ⟨_,_,.goto rfl rfl (.setProc rfl (by rintro ⟨⟩)) .none⟩
  case exitRelease =>
    cases stepped
    exact ⟨_,_,.release rfl rfl (.of_eq rfl) .sched (by simp [Frame.covered])⟩
  case waitScan i havekids =>
    split_ifs at stepped
    · exact ⟨_,_,.acquire stepped⟩
    · cases stepped
      exact ⟨_,_,.walk⟩
    · cases stepped
      exact ⟨_,_,.walk⟩
  case waitTest j =>
    split_ifs at stepped <;> cases stepped
    · exact ⟨_,_,.release rfl rfl (.setProc rfl (by rintro ⟨⟩)) .none (by rintro _ ⟨⟩)⟩
    · exact ⟨_,_,.unlock⟩
    · exact ⟨_,_,.unlock⟩
  case waitKilled havekids =>
    split_ifs at stepped
    · exact ⟨_,_,.acquire stepped⟩
    · cases stepped
      exact ⟨_,_,.walk⟩
  case waitKilledTest =>
    split_ifs at stepped <;> cases stepped
    · exact ⟨_,_,.unlock⟩
    · exact ⟨_,_,.release rfl rfl (.of_eq rfl) (.sleep _) (by simp [Frame.covered])⟩

theorem procNext_scan {ok : Bool} (scan : Scan guard s) (stepped : procNext s c p ok pc = some s') : Scan guard s' := by
  obtain ⟨frames,pc',goes,calls,calm,stored,held⟩ := procNext_continues stepped
  refine scan.calm goes calm ?_ (fun _ => ?_) ?_ fun q t is => ?_
  · rintro q chan rest pc ⟨⟩
    cases calls
  · cases calls with
    | none | sched | sleep => trivial
    | wakeup parent =>
      by_cases covered : .wait ∈ (s.cpu c).held
      · have same := held _ (.head _) (by simpa [Frame.covered] using covered)
        simp only [Run.frames,decide_eq_true covered,Scans]
        rw [same]
        refine ⟨⟨.wait,covered,nofun⟩,fun ch is => ⟨?_,nofun⟩⟩
        obtain ⟨q,-,rfl⟩ := Option.map_eq_some_iff.mp is
        exact covered
      · simp only [Run.frames,decide_eq_false covered,Scans]
  · cases calls <;> exact nofun
  · exact (stored q t is).imp_right fun empty frame inside => by simp [empty] at inside

end Continues

theorem locked_top {frame : Frame} {rest : List Frame} (at_ : run.frames = frame :: rest) (off : frame.own = false) :
    run.locked = frame.other := by
  match run with
  | .scheduler frames pc =>
    obtain rfl : frames = frame :: rest := at_
    rfl
  | .process p ⟨frames,pc⟩ =>
    obtain rfl : frames = frame :: rest := at_
    exact if_neg (off ▸ Bool.false_ne_true)

theorem Inv.awake {chan : Option Chan} {i : Nat} {covered : Bool} {rest : List Frame} (inv : Inv s)
    (at_ : (s.cpu c).run.frames = .wakeup chan i covered :: rest) (me : (s.cpu c).proc = some p) (ch : Chan) :
    ¬Dozing s p ch := by
  rw [(inv.cpu c).current] at me
  rintro (⟨asleep,-⟩ | ⟨d,rest',pc,runs⟩)
  · have running := inv.running me (by rw [(inv.cpu c).own,locked_top at_ rfl]; nofun)
    simp [running] at asleep
  · have same := inv.one d c p (by rw [runs]; rfl) me
    rw [same] at runs
    simp [runs,Run.frames] at at_

theorem Inv.unset {chan : Chan} {d : Fin n} {rest : List Frame} {pc : ProcPc} (inv : Inv s) (held : .proc p ∈ (s.cpu c).held)
    (other : d ≠ c) : (s.cpu d).run ≠ .process p ⟨.sleepSet chan :: rest,pc⟩ := by
  intro runs
  have locked : .proc p ∈ (s.cpu d).held := by
    rw [(inv.cpu d).own,runs]
    rfl
  exact other (inv.lock d c _ locked held)

section Frames
variable {frame : Frame} {rest : List Frame}

theorem Scan.uncovered (scan : Scan guard s) (at_ : (s.cpu c).run.frames = frame :: rest) :
    ∀ f ∈ rest, f.covered = false := by
  have lower := scan.lower c
  rw [at_] at lower
  exact lower

theorem Scan.pop (scan : Scan guard s) (resume : List Frame → Run) (frames : ∀ fs, (resume fs).frames = fs)
    (at_ : (s.cpu c).run = resume (frame :: rest))
    (awake : ∀ p chan rest' pc, resume rest ≠ .process p ⟨.sleepSet chan :: rest',pc⟩)
    (goes : Goes s s' c (resume rest)) (calm : Calm s s') (context : s'.context = s.context) : Scan guard s' := by
  have lower := scan.uncovered (by rw [at_,frames])
  refine scan.calm goes calm awake (fun _ => ?_) (fun f inside => ?_) fun q t is => .inl (context ▸ is)
  · rw [frames]
    exact .of_uncovered lower
  · rw [frames] at inside
    exact lower f (mem_of_mem_tail inside)

theorem wakeNext_scan (inv : Inv s) (scan : Scan guard s) (resume : List Frame → Run) (frames : ∀ fs, (resume fs).frames = fs)
    (at_ : (s.cpu c).run = resume (frame :: rest))
    (awake : ∀ p chan rest' pc, resume rest ≠ .process p ⟨.sleepSet chan :: rest',pc⟩)
    (stepped : wakeNext guard s c resume rest frame = some s') : Scan guard s' := by
  have at' : (s.cpu c).run.frames = frame :: rest := by rw [at_,frames]
  have lower := scan.uncovered at'
  have top := scan.top c
  rw [at'] at top
  -- a frame other than sleepSet is innermost
  have other : ∀ f fs, (∀ chan, f ≠ .sleepSet chan) → ∀ p chan rest' pc,
      resume (f :: fs) ≠ .process p ⟨.sleepSet chan :: rest',pc⟩ := by
    intro f fs ne p chan rest' pc same
    have both := congrArg Run.frames same
    rw [frames] at both
    cases both
    exact ne chan rfl
  cases frame <;> simp only [wakeNext] at stepped
  case wakeup chan i covered =>
    split_ifs at stepped with inside me
    · cases stepped
      refine scan.calm (.goto rfl) (.of_eq rfl) (other _ _ (by rintro _ ⟨⟩)) (fun _ => ?_) ?_ fun q t is => .inl is
      · rw [frames]
        cases covered with
        | false => trivial
        | true =>
          obtain ⟨some,passed⟩ := top
          have held : ((s.goto c (resume (.wakeup chan (i + 1) true :: rest))).cpu c).held = (s.cpu c).held := by
            simp [State.goto,State.setCpu]
          show Passed ..
          rw [held]
          refine ⟨some,fun ch is => ⟨(passed ch is).1,fun p less dozing => ?_⟩⟩
          have calm : Calm s (s.goto c (resume (.wakeup chan (i + 1) true :: rest))) := .of_eq rfl
          have before := calm.dozing (.goto rfl) (other (.wakeup chan (i + 1) true) rest (by rintro _ ⟨⟩) p ch) dozing
          by_cases last : p = ⟨i,inside⟩
          · subst last
            exact inv.awake at' me ch before
          · refine (passed ch is).2 p ?_ before
            have : (p : Nat) ≠ i := fun same => last (Fin.ext same)
            omega
      · rw [frames]
        exact lower
    · obtain ⟨goes,procs,contexts⟩ := Goes.acquire stepped
      refine scan.calm goes (.of_eq procs) (other _ _ (by rintro _ ⟨⟩)) (fun now => ?_) ?_ fun q t is => .inl (contexts ▸ is)
      · rw [frames]
        cases covered with
        | false => trivial
        | true =>
          obtain ⟨⟨l,held,free⟩,passed⟩ := top
          rcases acquire_cases stepped with rfl | ⟨-,rfl⟩
          · rw [show (s.panic.cpu c).run = (s.cpu c).run from rfl,at_] at now
            have both := congrArg Run.frames now
            rw [frames,frames] at both
            cases both
          · simp only [State.setCpu,update_self]
            refine ⟨⟨l,.tail _ held,free⟩,fun ch is => ⟨.tail _ (passed ch is).1,fun p less dozing => ?_⟩⟩
            have calm := Calm.of_eq procs
            exact (passed ch is).2 p less
              (calm.dozing goes (other (.wake chan ⟨i,inside⟩ true) rest (by rintro _ ⟨⟩) p ch) dozing)
      · rw [frames]
        exact lower
    · cases stepped
      exact scan.pop resume frames at_ awake (.goto rfl) (.of_eq rfl) rfl
  case wake chan j covered =>
    cases stepped
    have locked : .proc j ∈ (s.cpu c).held := by
      rw [(inv.cpu c).own,locked_top at' rfl]
      rfl
    have calm : Calm s (s.setProc j ((s.proc j).wake chan)) := by
      refine .setProc rfl fun asleep => ?_
      unfold Proc.wake at asleep ⊢
      split_ifs at asleep ⊢ with on
      exact ⟨asleep,rfl⟩
    obtain ⟨goes,procs,contexts⟩ := Goes.release (s := s) (c := c) (l := .proc j)
      (rfl : (s.setProc j ((s.proc j).wake chan)).cpu = s.cpu) (resume (.wakeup chan (j + 1) covered :: rest))
    have calm' : Calm s ((s.setProc j ((s.proc j).wake chan)).release c (.proc j)
        (resume (.wakeup chan (j + 1) covered :: rest))) := by
      intro q asleep
      rw [procs] at asleep ⊢
      exact calm q asleep
    refine scan.calm goes calm' (other _ _ (by rintro _ ⟨⟩)) (fun _ => ?_) ?_ fun q t is => .inl ?_
    · rw [frames]
      cases covered with
      | false => trivial
      | true =>
        obtain ⟨⟨l,held,free⟩,passed⟩ := top
        have now : (((s.setProc j ((s.proc j).wake chan)).release c (.proc j)
            (resume (.wakeup chan (j + 1) true :: rest))).cpu c).held = (s.cpu c).held.erase (.proc j) := by
          simp [State.release,State.setProc,State.setCpu,locked]
        show Passed ..
        rw [now]
        refine ⟨⟨l,(mem_erase_of_ne (free j)).mpr held,free⟩,fun ch is =>
          ⟨(mem_erase_of_ne condLock_ne).mpr (passed ch is).1,fun p less dozing => ?_⟩⟩
        by_cases last : p = j
        · subst last
          rcases dozing with ⟨asleep,on⟩ | ⟨d,rest',pc,runs⟩
          · -- it was asleep on the channel and is not any more
            rw [procs] at asleep on
            simp only [State.setProc,update_self,Proc.wake,is] at asleep on
            split_ifs at asleep on with was
            exact was ⟨asleep,on⟩
          · by_cases mine : d = c
            · grind
            · rw [goes.others d mine] at runs
              exact inv.unset locked mine runs
        · have ne : (p : Nat) ≠ j := fun same => last (Fin.ext same)
          exact (passed ch is).2 p (by omega)
            (calm'.dozing goes (other (.wakeup chan (j + 1) true) rest (by rintro _ ⟨⟩) p ch) dozing)
    · rw [frames]
      exact lower
    · rw [contexts] at is
      exact is
  case intr k =>
    obtain ⟨goes,procs,contexts⟩ := Goes.acquire stepped
    refine scan.calm goes (.of_eq procs) (other _ _ (by rintro _ ⟨⟩)) (fun now => ?_) ?_ fun q t is => .inl (contexts ▸ is)
    · rw [frames]
      rcases acquire_cases stepped with rfl | ⟨-,rfl⟩
      · rw [show (s.panic.cpu c).run = (s.cpu c).run from rfl,at_] at now
        have both := congrArg Run.frames now
        rw [frames,frames] at both
        cases both
      · simp only [State.setCpu,update_self]
        refine ⟨⟨_,.head _,by rintro _ ⟨⟩⟩,fun ch is => ⟨?_,by rintro _ ⟨⟩⟩⟩
        cases is
        exact .head _
    · rw [frames]
      intro f inside
      rcases mem_cons.mp inside with rfl | inside
      · rfl
      · exact lower f inside
  case intrDone k =>
    cases stepped
    obtain ⟨goes,procs,contexts⟩ := Goes.release (c := c) (l := .other (guard k)) (rfl : s.cpu = s.cpu) (resume rest)
    exact scan.pop resume frames at_ awake goes (.of_eq procs) contexts
  all_goals cases stepped

variable {pc : ProcPc}

theorem Thread.Plain.awake (plain : Thread.Plain ⟨rest,pc⟩) (q : Slot) (chan : Chan) (rest' : List Frame) (pc' : ProcPc) :
    Run.process p ⟨rest,pc⟩ ≠ .process q ⟨.sleepSet chan :: rest',pc'⟩ := by
  rintro ⟨⟩
  have own := (plain.1 (.sleepSet chan) (.head _)).1
  cases own

theorem sleepRelease_scan {chan : Chan} (inv : Inv s) (scan : Scan guard s)
    (at_ : (s.cpu c).run = .process p ⟨.sleepRelease chan :: rest,pc⟩) :
    Scan guard (s.release c (condLock guard chan) (.process p ⟨.sleepSet chan :: rest,pc⟩)) := by
  have lower := scan.uncovered (show (s.cpu c).run.frames = .sleepRelease chan :: rest by rw [at_]; rfl)
  rcases release_cases (s := s) (c := c) (l := condLock guard chan) rfl (.process p ⟨.sleepSet chan :: rest,pc⟩) with
    panicked | ⟨held,released⟩
  · rw [panicked]
    exact ⟨scan.top,scan.lower,scan.stored⟩
  · rw [released]
    refine scan.go (.setCpu rfl rfl) (fun d other q ch locked dozing => ?_) (fun _ => trivial) lower scan.stored
    rcases dozing with asleep | ⟨e,rest',pc',runs⟩
    · exact .inl asleep
    · by_cases mine : e = c
      · subst mine
        simp only [State.setCpu,update_self,Run.process.injEq,Thread.mk.injEq,cons.injEq,
          Frame.sleepSet.injEq] at runs
        obtain ⟨rfl,⟨rfl,-⟩,-⟩ := runs
        -- the condition lock is with e, so no other CPU scans with it
        rcases other with other | same
        · exact absurd (inv.lock d e _ locked held) other
        · have both := congrArg Cpu.run same
          simp [State.setCpu,at_] at both
      · simp only [State.setCpu,update_of_ne mine] at runs
        exact .inr ⟨e,rest',pc',runs⟩

theorem sleepSet_scan {chan : Chan} (scan : Scan guard s) (at_ : (s.cpu c).run = .process p ⟨.sleepSet chan :: rest,pc⟩) :
    Scan guard ((s.setProc p { s.proc p with chan := some chan, state := .sleeping }).goto c
      (.process p ⟨.sched :: .sleepBack chan :: rest,pc⟩)) := by
  have lower := scan.uncovered (show (s.cpu c).run.frames = .sleepSet chan :: rest by rw [at_]; rfl)
  refine scan.go (.goto rfl) (fun d _ q ch _ dozing => ?_) (fun _ => trivial) ?_ scan.stored
  · rcases dozing with ⟨asleep,on⟩ | ⟨e,rest',pc',runs⟩
    · by_cases me : q = p
      · subst me
        simp only [State.goto,State.setCpu,State.setProc,update_self,Option.some.injEq] at on
        subst on
        exact .inr ⟨c,rest,pc,at_⟩
      · simp only [State.goto,State.setCpu,State.setProc,update_of_ne me] at asleep on
        exact .inl ⟨asleep,on⟩
    · by_cases mine : e = c
      · subst mine
        simp [State.goto,State.setCpu] at runs
      · simp only [State.goto,State.setCpu,State.setProc,update_of_ne mine] at runs
        exact .inr ⟨e,rest',pc',runs⟩
  · intro f inside
    rcases mem_cons.mp inside with rfl | inside
    · rfl
    · exact lower f inside

theorem frameNext_scan (inv : Inv s) (scan : Scan guard s) (at_ : (s.cpu c).run = .process p ⟨frame :: rest,pc⟩)
    (stepped : frameNext guard s c p rest pc frame = some s') : Scan guard s' := by
  have lower := scan.uncovered (show (s.cpu c).run.frames = frame :: rest by rw [at_]; rfl)
  have fits := inv.fits c p (by rw [at_]; rfl)
  rw [at_] at fits
  have cons : ∀ f : Frame, f.covered = false → ∀ g ∈ f :: rest, g.covered = false := by
    intro f uncovered g inside
    rcases mem_cons.mp inside with rfl | inside
    · exact uncovered
    · exact lower g inside
  -- a step to other code of the thread, below which nothing changes
  have acquires : ∀ {l : Lock} {f : Frame}, s.acquire c l (.process p ⟨f :: rest,pc⟩) = some s' →
      f.covered = false → (∀ chan, f ≠ .sleepSet chan) → Scan guard s' := by
    intro l f acquired uncovered ne
    obtain ⟨goes,procs,contexts⟩ := Goes.acquire acquired
    refine scan.calm goes (.of_eq procs) ?_ (fun _ => .of_uncovered (cons f uncovered)) lower
      fun q t is => .inl (contexts ▸ is)
    rintro q chan rest' pc' ⟨⟩
    exact ne chan rfl
  cases frame
  case wakeup | wake | intr | intrDone =>
    simp only [frameNext] at stepped
    exact wakeNext_scan inv scan (fun frames => .process p ⟨frames,pc⟩) (fun _ => rfl) at_ fits.2.awake stepped
  case yield => exact acquires stepped rfl (by rintro _ ⟨⟩)
  case yieldReady =>
    cases stepped
    exact scan.calm (.goto rfl) (.setProc rfl (by rintro ⟨⟩)) (by rintro _ _ _ _ ⟨⟩) (fun _ => trivial) (cons .yieldBack rfl) fun q t is => .inl is
  case yieldBack =>
    cases stepped
    obtain ⟨goes,procs,contexts⟩ := Goes.release (c := c) (l := .proc p) (rfl : s.cpu = s.cpu) (.process p ⟨rest,pc⟩)
    exact scan.pop (fun frames => .process p ⟨frames,pc⟩) (fun _ => rfl) at_ fits.2.awake goes (.of_eq procs)
      contexts
  case sleep chan => exact acquires stepped rfl (by rintro _ ⟨⟩)
  case sleepRelease chan =>
    cases stepped
    exact sleepRelease_scan inv scan at_
  case sleepSet chan =>
    cases stepped
    exact sleepSet_scan scan at_
  case sleepBack chan =>
    cases stepped
    obtain ⟨goes,procs,contexts⟩ := Goes.release (s := s) (c := c) (l := .proc p)
      (rfl : (s.setProc p { s.proc p with chan := none }).cpu = s.cpu) (.process p ⟨.sleepRelock chan :: rest,pc⟩)
    refine scan.calm goes ?_ (by rintro _ _ _ _ ⟨⟩) (fun _ => trivial) lower fun q t is => .inl ?_
    · refine .setProc procs fun asleep => ?_
      simp [show (s.proc p).state = .running from fits.1] at asleep
    · rw [contexts] at is
      exact is
  case sleepRelock chan =>
    obtain ⟨goes,procs,contexts⟩ := Goes.acquire stepped
    exact scan.pop (fun frames => .process p ⟨frames,pc⟩) (fun _ => rfl) at_ fits.2.awake goes (.of_eq procs)
      contexts
  case sched =>
    simp only [frameNext] at stepped
    split_ifs at stepped <;> cases stepped
    · exact scan.calm (.goto rfl) (.of_eq rfl) (by rintro _ _ _ _ ⟨⟩) (fun _ => trivial) lower fun q t is => .inl is
    · exact ⟨scan.top,scan.lower,scan.stored⟩
  case swtch =>
    cases stepped
    refine scan.calm (.goto rfl) (.of_eq rfl) (by rintro _ _ _ _ ⟨⟩) (fun _ => trivial) lower fun q t is => .inl ?_
    by_cases me : q = p
    · subst me
      simp [State.goto,State.setCpu,State.setContext] at is
    · simpa [State.goto,State.setCpu,State.setContext,me] using is
  case saving =>
    cases stepped
    refine scan.calm (.goto rfl) (.of_eq rfl) (by rintro _ _ _ _ ⟨⟩) (fun _ => trivial) lower fun q t is => ?_
    by_cases me : q = p
    · subst me
      simp only [State.goto,State.setCpu,State.setContext,update_self,Option.some.injEq] at is
      exact .inr (is ▸ lower)
    · simp only [State.goto,State.setCpu,State.setContext,update_of_ne me] at is
      exact .inl is
  case saved =>
    cases stepped
    exact scan.calm (.goto rfl) (.of_eq rfl) (by rintro _ _ _ _ ⟨⟩) (fun _ => trivial) (by rintro _ ⟨⟩) fun q t is => .inl is

end Frames

theorem schedNext_scan {pc : SchedPc} (inv : Inv s) (scan : Scan guard s) (at_ : (s.cpu c).run = .scheduler [] pc)
    (stepped : schedNext s c pc = some s') : Scan guard s' := by
  have walks : ∀ {pc'}, Goes s s' c (.scheduler [] pc') → Calm s s' → s'.context = s.context → Scan guard s' :=
    fun goes calm context => scan.calm goes calm (by rintro _ _ _ _ ⟨⟩) (fun _ => trivial) (by rintro _ ⟨⟩) fun q t is => .inl (context ▸ is)
  cases pc <;> simp only [schedNext] at stepped
  case scan i =>
    split_ifs at stepped
    · obtain ⟨goes,procs,contexts⟩ := Goes.acquire stepped
      exact walks goes (.of_eq procs) contexts
    · cases stepped
      exact walks (.goto rfl) (.of_eq rfl) rfl
  case look p =>
    split_ifs at stepped <;> cases stepped
    · exact walks (.setCpu rfl rfl) (.setProc rfl (by rintro ⟨⟩)) rfl
    · exact walks (.goto rfl) (.of_eq rfl) rfl
  case enter p | back p =>
    cases stepped
    exact walks (.setCpu rfl rfl) (.of_eq rfl) rfl
  case load p =>
    obtain ⟨t,stored,rfl⟩ := Option.map_eq_some_iff.mp stepped
    have uncovered := scan.stored p t stored
    refine scan.calm (.goto rfl) (.of_eq rfl) ?_ (fun _ => .of_uncovered uncovered)
      (fun f inside => uncovered f (mem_of_mem_tail inside)) fun q t is => .inl is
    rintro q chan rest pc ⟨⟩
    have fits := inv.fits c p (by rw [at_]; rfl)
    rw [at_] at fits
    obtain ⟨-,u,same,resumes⟩ := fits
    rw [stored] at same
    cases same
    exact resumes
  case unlock p =>
    cases stepped
    obtain ⟨goes,procs,contexts⟩ := Goes.release (c := c) (l := .proc p) (rfl : s.cpu = s.cpu) (.scheduler [] (.scan (p + 1)))
    exact walks goes (.of_eq procs) contexts

theorem next_scan {ok : Bool} (inv : Inv s) (scan : Scan guard s) (stepped : next guard s c ok = some s') :
    Scan guard s' := by
  unfold next at stepped
  cases run : (s.cpu c).run with
  | scheduler frames pc =>
    rw [run] at stepped
    cases frames with
    | nil => exact schedNext_scan inv scan run stepped
    | cons frame rest =>
      exact wakeNext_scan inv scan (fun frames => .scheduler frames pc) (fun _ => rfl) run nofun stepped
  | process p thread =>
    obtain ⟨frames,pc⟩ := thread
    rw [run] at stepped
    cases frames with
    | nil => exact procNext_scan scan stepped
    | cons frame rest => exact frameNext_scan inv scan run stepped

theorem call_scan {what : Call} (scan : Scan guard s) (called : call guard s c p what = some s') : Scan guard s' := by
  have walks : ∀ frames {pc'}, frames.length ≤ 1 → (∀ chan, .sleepSet chan ∉ frames) →
      Goes s s' c (.process p ⟨frames,pc'⟩) → s'.proc = s.proc → s'.context = s.context →
      Scans guard s' (s'.cpu c).held frames → Scan guard s' := by
    intro frames pc' short awake goes procs context top
    refine scan.calm goes (.of_eq procs) ?_ (fun _ => top) ?_ fun q t is => .inl (context ▸ is)
    · rintro q chan rest pc ⟨⟩
      exact awake chan (.head _)
    · rcases frames with - | ⟨frame,- | ⟨next,rest⟩⟩
      · rintro _ ⟨⟩
      · rintro _ ⟨⟩
      · simp at short
  cases what <;> simp only [call] at called
  case acquire k =>
    obtain ⟨goes,procs,contexts⟩ := Goes.acquire called
    exact walks [] (by simp) (by rintro _ ⟨⟩) goes procs contexts trivial
  case release k =>
    cases called
    obtain ⟨goes,procs,contexts⟩ := Goes.release (c := c) (l := .other k) (rfl : s.cpu = s.cpu) (.process p ⟨[],.code⟩)
    exact walks [] (by simp) (by rintro _ ⟨⟩) goes procs contexts trivial
  case sleep k =>
    split_ifs at called
    cases called
    exact walks [.sleep (.other k)] (by simp) (by simp) (.goto rfl) rfl rfl trivial
  case wakeup k =>
    cases called
    refine walks _ (by simp) (by simp) (.goto rfl) rfl rfl ?_
    by_cases covered : .other (guard k) ∈ (s.cpu c).held
    · rw [decide_eq_true covered]
      have held (run : Run) : ((s.goto c run).cpu c).held = (s.cpu c).held := by simp [State.goto,State.setCpu]
      show Passed ..
      rw [held]
      refine ⟨⟨_,covered,by rintro _ ⟨⟩⟩,fun ch is => ⟨?_,by rintro _ ⟨⟩⟩⟩
      cases is
      exact covered
    · rw [decide_eq_false covered]
      trivial
  case kexit =>
    split_ifs at called <;> cases called
    · exact ⟨scan.top,scan.lower,scan.stored⟩
    · exact walks [] (by simp) (by rintro _ ⟨⟩) (.goto rfl) rfl rfl trivial
  all_goals
    cases called
    exact walks [] (by simp) (by rintro _ ⟨⟩) (.goto rfl) rfl rfl trivial

theorem push_scan {frame : Frame} (scan : Scan guard s) (free : (s.cpu c).held = [])
    (plain : frame.covered = false ∧ ∀ chan, frame ≠ .sleepSet chan) :
    Scan guard (s.goto c ((s.cpu c).run.push frame)) := by
  have frames : ((s.cpu c).run.push frame).frames = frame :: (s.cpu c).run.frames := by
    cases (s.cpu c).run <;> rfl
  -- a covered wakeup would hold a lock
  have uncovered : ∀ f ∈ (s.cpu c).run.frames, f.covered = false := by
    have top := scan.top c
    have lower := scan.lower c
    rw [free] at top
    cases inner : (s.cpu c).run.frames with
    | nil => exact nofun
    | cons first rest =>
      rw [inner] at top lower
      intro f inside
      rcases mem_cons.mp inside with rfl | inside
      · cases f
        case wakeup chan i covered =>
          cases covered
          · rfl
          · obtain ⟨⟨l,held,-⟩,-⟩ := top
            cases held
        case wake chan j covered =>
          cases covered
          · rfl
          · obtain ⟨⟨l,held,-⟩,-⟩ := top
            cases held
        all_goals rfl
      · exact lower f inside
  refine scan.calm (.goto rfl) (.of_eq rfl) ?_ (fun _ => ?_) ?_ fun q t is => .inl is
  · intro q chan rest pc same
    have both := congrArg Run.frames same
    rw [frames] at both
    cases both
    exact plain.2 chan rfl
  · rw [frames]
    refine .of_uncovered fun f inside => ?_
    rcases mem_cons.mp inside with rfl | inside
    · exact plain.1
    · exact uncovered f inside
  · rw [frames]
    exact uncovered

theorem step_scan {label : Label n} (inv : Inv s) (scan : Scan guard s) (stepped : step guard s label = some s') :
    Scan guard s' := by
  cases label with
  | run c ok =>
    simp only [step] at stepped
    split_ifs at stepped
    exact next_scan inv scan stepped
  | call c what =>
    simp only [step] at stepped
    split at stepped
    next p at_ =>
      split_ifs at stepped
      exact call_scan scan stepped
    next => cases stepped
  | interrupt c k =>
    simp only [step] at stepped
    split_ifs at stepped with quiet
    cases stepped
    exact push_scan scan quiet.2 ⟨rfl,by rintro _ ⟨⟩⟩
  | timer c =>
    simp only [step] at stepped
    split_ifs at stepped with quiet
    cases stepped
    exact push_scan scan quiet.2.1 ⟨rfl,by rintro _ ⟨⟩⟩

theorem reachable_scan (reached : (system n guard).Reachable s) : Scan guard s := by
  refine reached.invariant ?_ ?_
  · rintro s rfl
    refine ⟨fun _ => trivial,nofun,fun p t stored => ?_⟩
    by_cases first : p = 0
    · subst first
      cases stored
      exact nofun
    · simp [booted,first] at stored
  · intro s label s' before scan stepped
    exact step_scan (reachable_inv before) scan (show step guard s label = some s' from stepped)

section Ready
variable {l : Lock}

@[simp] theorem release_proc : (s.release c l run).proc = s.proc := (Goes.release (s := s) rfl run).2.1

@[grind →] theorem acquire_proc (acquired : s.acquire c l run = some s') : s'.proc = s.proc := (Goes.acquire acquired).2.1

@[grind =] theorem setProc_apply {q : Slot} {new : Proc} :
    (s.setProc q new).proc p = if p = q then new else s.proc p :=
  update_apply ..

@[grind =] theorem release_slot : (s.release c l run).proc p = s.proc p := by rw [release_proc]

@[grind =] theorem setCpu_slot {cpu : Cpu} : (s.setCpu c cpu).proc p = s.proc p := rfl

@[grind =] theorem goto_slot : (s.goto c run).proc p = s.proc p := rfl

@[grind =] theorem setContext_slot {q : Slot} {t : Option Thread} : (s.setContext q t).proc p = s.proc p := rfl

@[grind =] theorem panic_slot : s.panic.proc p = s.proc p := rfl

def Hits (s : State n) (c : Fin n) (p : Slot) : Prop :=
  (∃ covered rest, (s.cpu c).run.frames = .wake (s.proc p).chan p covered :: rest) ∨
    ∃ q, (s.cpu c).run = .process q ⟨[],.kill (s.proc p).pid p⟩

theorem procNext_hits {q : Slot} {pc : ProcPc} {ok : Bool} (inv : Inv s) (at_ : (s.cpu c).run = .process q ⟨[],pc⟩)
    (stepped : procNext s c q ok pc = some s') (asleep : (s.proc p).state = .sleeping)
    (ready : (s'.proc p).state = .runnable) : Hits s c p := by
  have used : ∀ np, pc.forks = some np → (s.proc np).state = .used := fun np making =>
    inv.making q np ⟨_,.inl ⟨c,at_⟩,making⟩
  cases pc
  all_goals grind [procNext,ProcPc.forks,State.setState,freeproc,Hits]

theorem wakeNext_hits {frame : Frame} {rest : List Frame} {resume : List Frame → Run}
    (at_ : (s.cpu c).run.frames = frame :: rest) (stepped : wakeNext guard s c resume rest frame = some s')
    (asleep : (s.proc p).state = .sleeping) (ready : (s'.proc p).state = .runnable) : Hits s c p := by
  cases frame
  all_goals grind [wakeNext,Proc.wake,Hits]

theorem frameNext_hits {q : Slot} {frame : Frame} {rest : List Frame} {pc : ProcPc} (inv : Inv s)
    (at_ : (s.cpu c).run = .process q ⟨frame :: rest,pc⟩) (stepped : frameNext guard s c q rest pc frame = some s')
    (asleep : (s.proc p).state = .sleeping) (ready : (s'.proc p).state = .runnable) : Hits s c p := by
  have fits := inv.fits c q (by rw [at_]; rfl)
  rw [at_] at fits
  cases frame
  case wakeup | wake | intr | intrDone =>
    simp only [frameNext] at stepped
    exact wakeNext_hits (by rw [at_]; rfl) stepped asleep ready
  all_goals grind [frameNext,Run.Fits,Thread.Fits,State.setState]

theorem schedNext_hits {pc : SchedPc} (stepped : schedNext s c pc = some s') (asleep : (s.proc p).state = .sleeping)
    (ready : (s'.proc p).state = .runnable) : False := by
  cases pc
  all_goals grind [schedNext,State.setState,Option.map_eq_some_iff]

theorem woken_cases {label : Label n} (inv : Inv s) (stepped : step guard s label = some s')
    (asleep : (s.proc p).state = .sleeping) (ready : (s'.proc p).state = .runnable) :
    ∃ c ok, label = .run c ok ∧ Hits s c p := by
  cases label with
  | run c ok =>
    refine ⟨c,ok,rfl,?_⟩
    simp only [step,next] at stepped
    split_ifs at stepped
    cases run : (s.cpu c).run with
    | scheduler frames pc =>
      rw [run] at stepped
      cases frames with
      | nil => exact (schedNext_hits stepped asleep ready).elim
      | cons frame rest => exact wakeNext_hits (by rw [run]; rfl) stepped asleep ready
    | process q thread =>
      obtain ⟨frames,pc⟩ := thread
      rw [run] at stepped
      cases frames with
      | nil => exact procNext_hits inv run stepped asleep ready
      | cons frame rest => exact frameNext_hits inv run stepped asleep ready
  | call c what => cases what <;> grind [step,call]
  | interrupt c k | timer c => grind [step]

end Ready

/-- When a wakeup that was called with the condition lock of its channel returns, no
process is asleep on the channel, whenever its sleep had acquired its p->lock. And a
SLEEPING process becomes RUNNABLE only in the test of its slot by a wakeup of its
own channel or by a kkill of its own pid. -/
theorem no_wakeup_lost (reached : (system n guard).Reachable s) :
    (∀ c chan i rest, nproc ≤ i → (s.cpu c).run.frames = .wakeup (some chan) i true :: rest →
      condLock guard chan ∈ (s.cpu c).held ∧ ∀ p, ¬((s.proc p).state = .sleeping ∧ (s.proc p).chan = some chan)) ∧
    ∀ label s' p, step guard s label = some s' → (s.proc p).state = .sleeping → (s'.proc p).state = .runnable →
      ∃ c ok, label = .run c ok ∧ ((∃ covered rest, (s.cpu c).run.frames = .wake (s.proc p).chan p covered :: rest) ∨
        ∃ q, (s.cpu c).run = .process q ⟨[],.kill (s.proc p).pid p⟩) := by
  refine ⟨fun c chan i rest all at_ => ?_,fun label s' p stepped asleep ready => ?_⟩
  · have scan := (reachable_scan reached).top c
    rw [at_] at scan
    obtain ⟨held,passed⟩ := scan.2 chan rfl
    refine ⟨held,fun p asleep => passed p ?_ (.inl asleep)⟩
    have := p.isLt
    omega
  · exact woken_cases (reachable_inv reached) stepped asleep ready

def sleepRun (c d : Fin 2) : List (Label 2) :=
  firstRun c ++ [.call c (.acquire 0),.call c (.sleep 0)] ++ replicate 9 (.run c true) ++
    [.interrupt d 0] ++ replicate 129 (.run d true)

/-- At the end of the handler's wakeup init has been woken and nobody sleeps on the
channel. -/
theorem no_wakeup_lost_interrupt : ∃ s : State 2, (system 2 id).Reachable s ∧ (s.proc 0).state = .runnable ∧
    ∀ p, ¬((s.proc p).state = .sleeping ∧ (s.proc p).chan = some (.other 0)) := by
  have ran : (System.run (step id) booted (sleepRun 0 1)).any fun s => (s.proc 0).state = .runnable &&
      (s.cpu 1).run = .scheduler [.wakeup (some (.other 0)) nproc true,.intrDone 0] (.scan 0) := by decide +kernel
  obtain ⟨s,ran,facts⟩ := (Option.any_eq_true _ _).mp ran
  simp only [Bool.and_eq_true,decide_eq_true_eq] at facts
  have reached : (system 2 id).Reachable s := System.Reachable.run (.start _ rfl) ran
  refine ⟨s,reached,facts.1,((no_wakeup_lost reached).1 1 (.other 0) nproc [.intrDone 0] le_rfl ?_).2⟩
  rw [facts.2]
  rfl

end Xv6.Sched
