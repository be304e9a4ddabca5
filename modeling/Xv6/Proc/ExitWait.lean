import Xv6.Proc.Family

/-! Exit and wait agree: every exit is matched by exactly one kwait of the current
parent, which returns the pid and the status of that exit. -/
namespace Xv6.Procs
open Lib List

def Event.tame : Event → Bool
  | .exited _ _ _ _ | .reaped _ _ _ _ _ => false
  | .forked _ _ | .waitFailed _ | .killed _ _ _ => true

/-- No process ends or is reaped between the two states. -/
structure Tame (s s' : State) : Prop where
  trace : ∃ events, s'.trace = s.trace ++ events ∧ ∀ e ∈ events, e.tame = true
  born : s'.born = s.born
  zombie : ∀ c, (s.proc c).state = .zombie ∨ (s'.proc c).state = .zombie →
    (s'.proc c).state = (s.proc c).state ∧ (s'.proc c).pid = (s.proc c).pid ∧ (s'.proc c).xstate = (s.proc c).xstate

namespace Tame
variable {s s' s'' : State} {p : Slot} {new : Proc}

theorem trans (first : Tame s s') (second : Tame s' s'') : Tame s s'' := by
  obtain ⟨events,trace,tame⟩ := first.trace
  obtain ⟨more,trace',tame'⟩ := second.trace
  refine ⟨⟨events ++ more,by simp [trace',trace],?_⟩,second.born.trans first.born,fun c dead => ?_⟩
  · intro e inside
    exact (mem_append.mp inside).elim (tame e) (tame' e)
  · have middle : (s'.proc c).state = .zombie := by
      rcases dead with h | h
      · exact (first.zombie c (.inl h)).1.trans h
      · exact (second.zombie c (.inr h)).1.symm.trans h
    obtain ⟨state,pid,xstate⟩ := first.zombie c (.inr middle)
    obtain ⟨state',pid',xstate'⟩ := second.zombie c (.inl middle)
    exact ⟨state'.trans state,pid'.trans pid,xstate'.trans xstate⟩

theorem same (proc : s'.proc = s.proc) (trace : s'.trace = s.trace) (born : s'.born = s.born) : Tame s s' :=
  ⟨⟨[],by simp [trace],nofun⟩,born,fun c _ => by simp [proc]⟩

theorem emit {event : Event} (tame : event.tame = true) : Tame s (s.emit event) :=
  ⟨⟨[event],rfl,by simpa using tame⟩,rfl,fun _ _ => ⟨rfl,rfl,rfl⟩⟩

theorem set (own : (s.proc p).state = .zombie ∨ new.state = .zombie →
    new.state = (s.proc p).state ∧ new.pid = (s.proc p).pid ∧ new.xstate = (s.proc p).xstate) : Tame s (s.set p new) := by
  refine ⟨⟨[],by simp [State.set],nofun⟩,rfl,fun c => ?_⟩
  by_cases same : c = p
  · subst same
    simpa [State.set] using own
  · simp [State.set,same]

theorem alive (before : (s.proc p).state ≠ .zombie) (after : new.state ≠ .zombie) : Tame s (s.set p new) :=
  set fun dead => (dead.elim before after).elim

theorem keep (state : new.state = (s.proc p).state) (pid : new.pid = (s.proc p).pid)
    (xstate : new.xstate = (s.proc p).xstate) : Tame s (s.set p new) :=
  set fun _ => ⟨state,pid,xstate⟩

end Tame

theorem tame_goto {s : State} {p : Slot} {pc : Pc} : Tame s (s.goto p pc) := .same rfl rfl rfl

theorem tame_kill {s : State} {j : Slot} : Tame s (s.set j (s.proc j).kill) := by
  refine .set fun dead => ⟨?_,rfl,rfl⟩
  have awake : (s.proc j).state ≠ .sleeping := by
    intro asleep
    simp [Proc.kill,asleep] at dead
  simp [Proc.kill,awake]

/-- A step ends a process, reaps a zombie for its parent, or does neither. -/
theorem step_ends {s s' : State} {label : Label} (shape : Shape s) (trans : Trans s label s') :
    (∃ p status, (s.proc p).state = .running ∧ s' = s.die p status) ∨
    (∃ (p : Slot) (env : Env) (addr : BitVec 64) (havekids : Bool) (pp : Slot), label = .run p env ∧ s.pc p = .waitScan addr pp havekids ∧
      (s.proc pp).parent = some p ∧ (s.proc pp).state = .zombie ∧ s' = s.reap p pp) ∨ Tame s s' := by
  cases trans with
  | exitZombie p _ status running at_ unlocked => exact .inl ⟨p,status,running,rfl⟩
  | reap p env addr havekids pp running at_ child zombie unlocked =>
    exact .inr (.inl ⟨p,env,addr,havekids,pp,rfl,at_,child,zombie,rfl⟩)
  | forkFails p _ np running at_ unused =>
    refine .inr (.inr (((Tame.same rfl rfl rfl : Tame s s.allocpid).trans ?_).trans (.emit rfl)))
    exact (Tame.alive (by simp [State.allocpid,unused]) (by simp [freeproc])).trans tame_goto
  | forkFound p _ np running at_ unused =>
    refine .inr (.inr ((Tame.same rfl rfl rfl : Tame s s.allocpid).trans ?_))
    exact (Tame.alive (by simp [State.allocpid,unused]) (by simp [forked])).trans tame_goto
  | forkRunnable p _ np pid running at_ =>
    have used := shape.child p np (by rw [at_]; rfl)
    exact .inr (.inr (((Tame.alive (by simp [used]) (by simp)).trans tame_goto).trans (.emit rfl)))
  | forkParent | closeFile | exitCwd | reparent =>
    refine .inr (.inr (Tame.trans ?_ tame_goto))
    exact .keep rfl rfl rfl
  | wake p _ chan j next running loop other unlocked asleep on =>
    exact .inr (.inr ((Tame.alive (by simp [asleep]) (by simp)).trans tame_goto))
  | waitDoze p _ addr running at_ =>
    refine .inr (.inr ((Tame.alive (p := p) (by simp [running]) ?_).trans (.same rfl rfl rfl)))
    simp
  | killHit => exact .inr (.inr ((tame_kill.trans tame_goto).trans (.emit rfl)))
  | allocNone | killMissed => exact .inr (.inr (tame_goto.trans (.emit rfl)))
  | copyoutFails p | waitGivesUp p =>
    have released : Tame s ({ s with waitLock := none }.goto p .user) := .same rfl rfl rfl
    exact .inr (.inr (released.trans (.emit rfl)))
  | fault | work => exact .inr (.inr (.keep rfl rfl rfl))
  | sleep p n running => exact .inr (.inr (.alive (by simp [running]) (by simp)))
  | wakeup p n asleep => exact .inr (.inr (.alive (by simp [asleep]) (by simp)))
  | yield p running => exact .inr (.inr (.alive (by simp [running]) (by simp)))
  | resume p ready => exact .inr (.inr (.alive (by simp [ready]) (by simp [Proc.resume])))
  | rewait p addr ready => exact .inr (.inr ((Tame.alive (by simp [ready]) (by simp [Proc.resume])).trans tame_goto))
  | _ => exact .inr (.inr (.same rfl rfl rfl))

def Event.reaps (c : Slot) (n : Nat) : Event → Bool
  | .reaped _ d m _ _ => d = c ∧ m = n
  | .forked _ _ | .exited _ _ _ _ | .waitFailed _ | .killed _ _ _ => false

/-- The books: an exit is on them with its pid and status, and exactly one reaping
after the slot has moved on to its next process. -/
structure Ledger (s : State) : Prop where
  exited : ∀ c n pid status, .exited c n pid status ∈ s.trace → n < s.born c ∨
    n = s.born c ∧ (s.proc c).state = .zombie ∧ (s.proc c).pid = pid ∧ (s.proc c).xstate = status
  zombie : ∀ c, (s.proc c).state = .zombie → .exited c (s.born c) (s.proc c).pid (s.proc c).xstate ∈ s.trace
  count : ∀ c n, s.trace.countP (Event.reaps c n) = if n < s.born c then 1 else 0
  source : ∀ p c n pid status, .reaped p c n pid status ∈ s.trace → .exited c n pid status ∈ s.trace
  unique : ∀ c n pid status pid' status', .exited c n pid status ∈ s.trace → .exited c n pid' status' ∈ s.trace →
    pid = pid' ∧ status = status'

theorem ledger_tame {s s' : State} (ledger : Ledger s) (tame : Tame s s') : Ledger s' := by
  obtain ⟨⟨events,trace,gentle⟩,born,same⟩ := tame
  obtain ⟨exited,zombie,count,source,unique⟩ := ledger
  have old : ∀ c n pid status, .exited c n pid status ∈ s'.trace ↔ Event.exited c n pid status ∈ s.trace := by
    grind [Event.tame]
  have oldReaped : ∀ p c n pid status, .reaped p c n pid status ∈ s'.trace →
      Event.reaped p c n pid status ∈ s.trace := by
    grind [Event.tame]
  have none : ∀ c n, events.countP (Event.reaps c n) = 0 := by
    intro c n
    rw [countP_eq_zero]
    intro e inside
    have := gentle e inside
    cases e <;> simp_all [Event.tame,Event.reaps]
  constructor
  case count =>
    intro c n
    rw [trace,countP_append,none,born]
    exact count c n
  all_goals grind

theorem ledger_die {s : State} {p : Slot} {status : BitVec 32} (ledger : Ledger s)
    (running : (s.proc p).state = .running) : Ledger (s.die p status) := by
  have trace : (s.die p status).trace = s.trace ++ [.exited p (s.born p) (s.proc p).pid status] := rfl
  have born : (s.die p status).born = s.born := rfl
  have own : (s.die p status).proc p = { s.proc p with xstate := status, state := .zombie } := by
    simp [State.die,State.emit,State.goto,State.set]
  have others : ∀ c, c ≠ p → (s.die p status).proc c = s.proc c := fun c other => by
    simp [State.die,State.emit,State.goto,State.set,other]
  -- p has not exited yet under its present number
  have fresh : ∀ pid st, Event.exited p (s.born p) pid st ∉ s.trace := by
    intro pid st inside
    rcases ledger.exited p _ pid st inside with h | ⟨_,dead,_⟩
    · exact absurd h (Nat.lt_irrefl _)
    · simp [running] at dead
  obtain ⟨exited,zombie,count,source,unique⟩ := ledger
  generalize s.die p status = s' at *
  constructor
  case count =>
    intro c n
    rw [trace,born,countP_append]
    simpa [Event.reaps] using count c n
  all_goals
    simp only [trace,born,mem_append,mem_singleton]
    grind

theorem ledger_reap {s : State} {p pp : Slot} (ledger : Ledger s) (zombie : (s.proc pp).state = .zombie) :
    Ledger (s.reap p pp) := by
  have trace : (s.reap p pp).trace =
      s.trace ++ [.reaped p pp (s.born pp) (s.proc pp).pid (s.proc pp).xstate] := rfl
  have born : ∀ c, (s.reap p pp).born c = if c = pp then s.born pp + 1 else s.born c := fun c => by
    simp [State.reap,State.leaveWait,State.emit,State.goto,Function.update_apply]
  have own : (s.reap p pp).proc pp = freeproc (s.proc pp) := by
    simp [State.reap,State.leaveWait,State.emit,State.goto,State.set]
  have others : ∀ c, c ≠ pp → (s.reap p pp).proc c = s.proc c := fun c other => by
    simp [State.reap,State.leaveWait,State.emit,State.goto,State.set,other]
  obtain ⟨exited,dead,count,source,unique⟩ := ledger
  generalize s.reap p pp = s' at *
  constructor
  case count =>
    intro c n
    rw [trace,countP_append,count,born,countP_singleton]
    simp only [Event.reaps,decide_eq_true_eq]
    grind
  all_goals
    simp only [trace,mem_append,mem_singleton]
    grind [freeproc]

theorem reachable_ledger {s : State} (reached : system.Reachable s) : Ledger s := by
  refine reached.invariant ?_ ?_
  · rintro s ⟨trapframe,pagetable,cwd,frame,table,rfl⟩
    obtain ⟨new,_,state,booted⟩ := userinit_booted cwd frame table
    have alive : ∀ c, ((procinit.allocpid.set 0 new).proc c).state ≠ .zombie := by
      intro c
      by_cases first : c = 0 <;> simp [first,State.set,State.allocpid,procinit,zeroProc,state]
    rw [booted]
    refine ⟨?_,fun c dead => absurd dead (alive c),?_,?_,?_⟩ <;> simp [State.set,State.allocpid,procinit]
  · intro s label s' before ledger stepped
    rcases step_ends (reachable_shape before) (step_trans stepped) with
      ⟨p,status,running,rfl⟩ | ⟨p,env,addr,havekids,pp,_,_,_,zombie,rfl⟩ | tame
    · exact ledger_die ledger running
    · exact ledger_reap ledger zombie
    · exact ledger_tame ledger tame

/-- A process whose turn it is in kwait, with every process lock free, comes to
its first zombie child by its own steps alone and reaps it. -/
theorem scan_reaps {s : State} {p c : Slot} {i : Nat} {havekids : Bool} (calm : s.panicked = false)
    (running : (s.proc p).state = .running) (at_ : s.pc p = .waitScan 0 i havekids) (before : i ≤ c.val)
    (unlocked : ∀ d, s.locked d = false) (child : (s.proc c).parent = some p) (zombie : (s.proc c).state = .zombie)
    (others : ∀ d : Slot, i ≤ d.val → d.val < c.val → (s.proc d).parent = some p → (s.proc d).state ≠ .zombie)
    (env : Env) : ∃ s', System.run step s (replicate (c.val - i + 1) (.run p env)) = some s' ∧
      .reaped p c (s.born c) (s.proc c).pid (s.proc c).xstate ∈ s'.trace := by
  induction gap : c.val - i generalizing s i havekids with
  | zero =>
    have same : i = c.val := by omega
    subst same
    refine ⟨s.reap p c,?_,mem_append_right _ (.head _)⟩
    simp [System.run,step,calm,running,next,at_,waitSlot,child,unlocked,waitChild,zombie]
  | succ gap ih =>
    have inside : i < nproc := by omega
    let d : Slot := ⟨i,inside⟩
    obtain ⟨seen,moved⟩ : ∃ seen, next s p env = some (s.goto p (.waitScan 0 (i + 1) seen)) := by
      by_cases mine : (s.proc d).parent = some p
      · have alive := others d (Nat.le_refl i) (by simp only [d]; omega) mine
        exact ⟨true,by simp [next,at_,inside,waitSlot,mine,unlocked,waitChild,alive,d]⟩
      · exact ⟨havekids,by simp [next,at_,inside,waitSlot,mine,d]⟩
    have there : (s.goto p (.waitScan 0 (i + 1) seen)).pc p = .waitScan 0 (i + 1) seen := by simp [State.goto]
    obtain ⟨s',ran,reaped⟩ := ih (s := s.goto p (.waitScan 0 (i + 1) seen)) calm running there (by omega) unlocked child zombie
      (fun d low => others d (by omega)) (by omega)
    refine ⟨s',?_,reaped⟩
    rw [replicate_succ,System.run,step,if_pos ⟨calm,running⟩,moved,Option.bind_some]
    exact ran

theorem copyout_fails {s : State} {p c : Slot} {addr : BitVec 64} {havekids : Bool} {env : Env} (family : Family s)
    (calm : s.panicked = false) (running : (s.proc p).state = .running)
    (at_ : s.pc p = .waitScan addr c havekids) (child : (s.proc c).parent = some p) (zombie : (s.proc c).state = .zombie)
    (unlocked : s.locked c = false) (given : addr ≠ 0) (fails : env.copyout = false) :
    step s (.run p env) = some (s.leaveWait p (.waitFailed p)) ∧
    ((∀ d, s.locked d = false) → ∃ s', System.run step (s.leaveWait p (.waitFailed p))
        (.call p (.kwait 0) :: replicate (c.val + 2) (.run p env)) = some s' ∧
      .reaped p c (s.born c) (s.proc c).pid (s.proc c).xstate ∈ s'.trace) := by
  have missed : addr ≠ 0 ∧ env.copyout = false := ⟨given,fails⟩
  refine ⟨?_,fun free => ?_⟩
  · have slot : waitSlot s p c addr havekids env = some (s.leaveWait p (.waitFailed p)) := by
      rw [waitSlot,if_pos child,if_neg (by simp [unlocked]),waitChild,if_pos zombie,if_pos missed]
    rw [step,if_pos ⟨calm,running⟩]
    simp [next,at_,slot]
  -- kwait again: the slots before c have no zombie child of p, as wait_lock was held since they were seen
  let called := (s.leaveWait p (.waitFailed p)).goto p (.waitLock 0)
  let again := { called with waitLock := some p }.goto p (.waitScan 0 0 false)
  have enters : step (s.leaveWait p (.waitFailed p)) (.call p (.kwait 0)) = some called := by
    refine if_pos ⟨calm,running,?_⟩
    simp [State.leaveWait,State.emit,State.goto]
  have locks : step called (.run p env) = some again := by
    rw [step,if_pos ⟨calm,running⟩]
    simp [next,called,State.leaveWait,State.emit,State.goto,again]
  have there : again.pc p = .waitScan 0 0 false := by simp [again,State.goto]
  obtain ⟨s',ran,reaped⟩ := scan_reaps (s := again) (c := c) calm running there (Nat.zero_le _) free child zombie
    (fun d _ low mine => family.scanned p d (by simpa [at_,Pc.scanned] using low) mine) env
  refine ⟨s',?_,reaped⟩
  rw [System.run,enters,Option.bind_some,replicate_succ,System.run,locks,Option.bind_some]
  exact ran

def exitRun : List Label :=
  let env : Env := ⟨4096,8192,true,true⟩
  [.schedule 0,.call 0 .kfork] ++ replicate 4 (.run 0 env) ++ [.schedule 1,.call 1 (.kexit 7)] ++
    replicate 150 (.run 1 env) ++ [.switch 1]

end Xv6.Procs
