import Xv6.Proc.Model
import Mathlib.Tactic

/-! What one step of the process table can do, said once: `Trans` has a rule for
each way a step can go, with what it requires and the state it leads to. -/
namespace Xv6.Procs
open Lib
open Function (update)

def forked (parent new : Proc) (pid : BitVec 32) (env : Env) : Proc :=
  { new with
    pid := pid, state := .used, trapframe := env.trapframe, pagetable := env.pagetable, sz := parent.sz
    ofile := fun fd => if parent.ofile fd ≠ 0 then parent.ofile fd else new.ofile fd
    cwd := parent.cwd }

inductive WakeLoop (initproc : Slot) : Option Chan → Slot → Pc → Pc → Prop
  | reparent {j : Slot} (status i) : WakeLoop initproc (some (.proc initproc)) j
      (.reparentWake status i j) (.reparentWake status i (j + 1))
  | exit {chan : Option Chan} {j : Slot} (status) : WakeLoop initproc chan j
      (.exitWake status chan j) (.exitWake status chan (j + 1))

/-- The step a label takes in a state, with the conditions under which it does. -/
inductive Trans (s : State) : Label → State → Prop
  | kfork (p) (running : (s.proc p).state = .running) (at_ : s.pc p = .user) :
      Trans s (.call p .kfork) (s.goto p (.allocproc 0))
  | initExits (status) (running : (s.proc s.initproc).state = .running) :
      Trans s (.call s.initproc (.kexit status)) { s with panicked := true }
  | kexit (p status) (running : (s.proc p).state = .running) (at_ : s.pc p = .user) (other : p ≠ s.initproc) :
      Trans s (.call p (.kexit status)) (s.goto p (.exitFiles status 0))
  | kwait (p addr) (running : (s.proc p).state = .running) (at_ : s.pc p = .user) :
      Trans s (.call p (.kwait addr)) (s.goto p (.waitLock addr))
  | kkill (p pid) (running : (s.proc p).state = .running) (at_ : s.pc p = .user) :
      Trans s (.call p (.kkill pid)) (s.goto p (.kkill pid 0))
  | allocNext (p env i) (running : (s.proc p).state = .running) (at_ : s.pc p = .allocproc i) :
      Trans s (.run p env) (s.goto p (.allocproc (i + 1)))
  | allocNone (p env i) (running : (s.proc p).state = .running) (at_ : s.pc p = .allocproc i) :
      Trans s (.run p env) ((s.goto p .user).emit (.forked p (-1)))
  | forkFails (p env) (np : Slot) (running : (s.proc p).state = .running)
      (at_ : s.pc p = .allocproc np) (unused : (s.proc np).state = .unused) :
      Trans s (.run p env) (forkFails s p np)
  | forkFound (p env) (np : Slot) (running : (s.proc p).state = .running)
      (at_ : s.pc p = .allocproc np) (unused : (s.proc np).state = .unused) :
      Trans s (.run p env)
        ((s.allocpid.set np (forked (s.proc p) (s.proc np) s.nextpid env)).goto p (.forkParent np s.nextpid))
  | forkParent (p env np pid) (running : (s.proc p).state = .running) (at_ : s.pc p = .forkParent np pid)
      (free : s.waitLock = none) :
      Trans s (.run p env) ((s.set np { s.proc np with parent := some p }).goto p (.forkRunnable np pid))
  | forkRunnable (p env np pid) (running : (s.proc p).state = .running) (at_ : s.pc p = .forkRunnable np pid) :
      Trans s (.run p env)
        (((s.set np { s.proc np with state := .runnable }).goto p .user).emit (.forked p pid))
  | closeFile (p env status) (fd : Fin nofile) (running : (s.proc p).state = .running)
      (at_ : s.pc p = .exitFiles status fd) :
      Trans s (.run p env)
        ((s.set p { s.proc p with ofile := update (s.proc p).ofile fd 0 }).goto p
          (.exitFiles status (fd + 1)))
  | filesClosed (p env status fd) (running : (s.proc p).state = .running) (at_ : s.pc p = .exitFiles status fd)
      (all : nofile ≤ fd) : Trans s (.run p env) (s.goto p (.exitCwd status))
  | exitCwd (p env status) (running : (s.proc p).state = .running) (at_ : s.pc p = .exitCwd status) :
      Trans s (.run p env) ((s.set p { s.proc p with cwd := 0 }).goto p (.exitLock status))
  | exitLock (p env status) (running : (s.proc p).state = .running) (at_ : s.pc p = .exitLock status)
      (free : s.waitLock = none) :
      Trans s (.run p env) ({ s with waitLock := some p }.goto p (.reparent status 0))
  | reparent (p env status) (pp : Slot) (running : (s.proc p).state = .running)
      (at_ : s.pc p = .reparent status pp) (child : (s.proc pp).parent = some p) :
      Trans s (.run p env)
        ((s.set pp { s.proc pp with parent := some s.initproc }).goto p (.reparentWake status pp 0))
  | reparentNext (p env status) (pp : Slot) (running : (s.proc p).state = .running)
      (at_ : s.pc p = .reparent status pp) (other : (s.proc pp).parent ≠ some p) :
      Trans s (.run p env) (s.goto p (.reparent status (pp + 1)))
  | reparentDone (p env status i) (running : (s.proc p).state = .running) (at_ : s.pc p = .reparent status i)
      (all : nproc ≤ i) :
      Trans s (.run p env) (s.goto p (.exitWake status ((s.proc p).parent.map .proc) 0))
  | wakeNext (p env chan) (j : Slot) (next : Pc) (running : (s.proc p).state = .running)
      (loop : WakeLoop s.initproc chan j (s.pc p) next) (unlocked : j = p ∨ s.locked j = false)
      (not : j = p ∨ ¬((s.proc j).state = .sleeping ∧ (s.proc j).chan = chan)) :
      Trans s (.run p env) (s.goto p next)
  | wake (p env chan) (j : Slot) (next : Pc) (running : (s.proc p).state = .running)
      (loop : WakeLoop s.initproc chan j (s.pc p) next) (other : j ≠ p) (unlocked : s.locked j = false)
      (asleep : (s.proc j).state = .sleeping) (on : (s.proc j).chan = chan) :
      Trans s (.run p env) ((s.set j { s.proc j with state := .runnable }).goto p next)
  | reparentWoken (p env status i j) (running : (s.proc p).state = .running)
      (at_ : s.pc p = .reparentWake status i j) (all : nproc ≤ j) :
      Trans s (.run p env) (s.goto p (.reparent status (i + 1)))
  | exitWoken (p env status chan j) (running : (s.proc p).state = .running)
      (at_ : s.pc p = .exitWake status chan j) (all : nproc ≤ j) :
      Trans s (.run p env) (s.goto p (.exitZombie status))
  | exitZombie (p env status) (running : (s.proc p).state = .running) (at_ : s.pc p = .exitZombie status)
      (unlocked : s.locked p = false) : Trans s (.run p env) (s.die p status)
  | waitLock (p env addr) (running : (s.proc p).state = .running) (at_ : s.pc p = .waitLock addr)
      (free : s.waitLock = none) :
      Trans s (.run p env) ({ s with waitLock := some p }.goto p (.waitScan addr 0 false))
  | copyoutFails (p env addr havekids) (pp : Slot) (running : (s.proc p).state = .running)
      (at_ : s.pc p = .waitScan addr pp havekids) (child : (s.proc pp).parent = some p)
      (zombie : (s.proc pp).state = .zombie) (fails : addr ≠ 0 ∧ env.copyout = false) :
      Trans s (.run p env) (s.leaveWait p (.waitFailed p))
  | reap (p env addr havekids) (pp : Slot) (running : (s.proc p).state = .running)
      (at_ : s.pc p = .waitScan addr pp havekids) (child : (s.proc pp).parent = some p)
      (zombie : (s.proc pp).state = .zombie) (unlocked : s.locked pp = false)
      (copied : ¬(addr ≠ 0 ∧ env.copyout = false)) : Trans s (.run p env) (s.reap p pp)
  | waitNext (p env addr havekids) (pp : Slot) (seen : Bool) (running : (s.proc p).state = .running)
      (at_ : s.pc p = .waitScan addr pp havekids)
      (passed : (s.proc pp).parent = some p → (s.proc pp).state ≠ .zombie) :
      Trans s (.run p env) (s.goto p (.waitScan addr (pp + 1) seen))
  | waitSeen (p env addr i havekids) (running : (s.proc p).state = .running)
      (at_ : s.pc p = .waitScan addr i havekids) (all : nproc ≤ i) :
      Trans s (.run p env) (s.goto p (.waitKilled addr havekids))
  | waitGivesUp (p env addr havekids) (running : (s.proc p).state = .running)
      (at_ : s.pc p = .waitKilled addr havekids) : Trans s (.run p env) (s.leaveWait p (.waitFailed p))
  | waitGoesOn (p env addr havekids) (running : (s.proc p).state = .running)
      (at_ : s.pc p = .waitKilled addr havekids) : Trans s (.run p env) (s.goto p (.waitSleep addr))
  | waitSleep (p env addr) (running : (s.proc p).state = .running) (at_ : s.pc p = .waitSleep addr)
      (unlocked : s.locked p = false) :
      Trans s (.run p env)
        ({ s with locked := update s.locked p true, waitLock := none }.goto p (.waitDoze addr))
  | waitDoze (p env addr) (running : (s.proc p).state = .running) (at_ : s.pc p = .waitDoze addr) :
      Trans s (.run p env)
        ({ s.set p { s.proc p with chan := some (.proc p), state := .sleeping } with
          locked := update s.locked p false }.goto p (.waitAsleep addr))
  | killHit (p env pid) (j : Slot) (running : (s.proc p).state = .running) (at_ : s.pc p = .kkill pid j)
      (unlocked : s.locked j = false) (named : (s.proc j).pid = pid) :
      Trans s (.run p env)
        (((s.set j (s.proc j).kill).goto p .user).emit (.killed p pid 0))
  | killNext (p env pid) (j : Slot) (running : (s.proc p).state = .running) (at_ : s.pc p = .kkill pid j) :
      Trans s (.run p env) (s.goto p (.kkill pid (j + 1)))
  | killMissed (p env pid i) (running : (s.proc p).state = .running) (at_ : s.pc p = .kkill pid i) :
      Trans s (.run p env) ((s.goto p .user).emit (.killed p pid (-1)))
  | fault (p) (running : (s.proc p).state = .running) (at_ : s.pc p = .user) :
      Trans s (.fault p) (s.set p { s.proc p with killed := true })
  | work (p sz pagetable ofile cwd) (running : (s.proc p).state = .running) (at_ : s.pc p = .user) :
      Trans s (.work p sz pagetable ofile cwd)
        (s.set p { s.proc p with sz := sz, pagetable := pagetable, ofile := ofile, cwd := cwd })
  | sleep (p n) (running : (s.proc p).state = .running) (at_ : (s.pc p).sleeps = true) :
      Trans s (.sleep p n) (s.set p { s.proc p with state := .sleeping, chan := some (.other n) })
  | wakeup (p n) (asleep : (s.proc p).state = .sleeping) (on : (s.proc p).chan = some (.other n)) :
      Trans s (.wakeup p n) (s.set p { s.proc p with state := .runnable })
  | yield (p) (running : (s.proc p).state = .running) (free : s.waitLock ≠ some p) (unlocked : s.locked p = false) :
      Trans s (.yield p) (s.set p { s.proc p with state := .runnable })
  | resume (p) (ready : (s.proc p).state = .runnable) (other : ∀ addr, s.pc p ≠ .waitAsleep addr) :
      Trans s (.schedule p) (s.set p (s.proc p).resume)
  | rewait (p addr) (ready : (s.proc p).state = .runnable) (at_ : s.pc p = .waitAsleep addr) :
      Trans s (.schedule p) ((s.set p (s.proc p).resume).goto p (.waitLock addr))
  | switch (p) (at_ : s.pc p = .gone) :
      Trans s (.switch p) { s with locked := update s.locked p false }

theorem forkFound_trans {s : State} {p np : Slot} {env : Env} (running : (s.proc p).state = .running)
    (at_ : s.pc p = .allocproc np) (unused : (s.proc np).state = .unused) :
    Trans s (.run p env) (forkFound s p np env) := by
  unfold forkFound allocFound
  by_cases fails : env.trapframe = 0 ∨ env.pagetable = 0
  · rw [if_pos fails]
    exact .forkFails p env np running at_ unused
  · rw [if_neg fails]
    by_cases copy : env.uvmcopy = false
    · simp only [copy,if_true]
      exact .forkFails p env np running at_ unused
    · simp only [copy]
      exact .forkFound p env np running at_ unused

theorem wakeupSlot_trans {s s' : State} {p j : Slot} {env : Env} {chan : Option Chan} {next : Pc}
    (running : (s.proc p).state = .running) (loop : WakeLoop s.initproc chan j (s.pc p) next)
    (stepped : (wakeupSlot s p chan j).map (·.goto p next) = some s') : Trans s (.run p env) s' := by
  unfold wakeupSlot at stepped
  split_ifs at stepped with self locked asleep
  · cases stepped
    exact .wakeNext p env chan j next running loop (.inl self) (.inl self)
  · contradiction
  · cases stepped
    exact .wake p env chan j next running loop self (by simpa using locked) asleep.1 asleep.2
  · cases stepped
    exact .wakeNext p env chan j next running loop (.inr (by simpa using locked)) (.inr asleep)

theorem waitSlot_trans {s s' : State} {p pp : Slot} {addr : BitVec 64} {havekids : Bool} {env : Env}
    (running : (s.proc p).state = .running) (at_ : s.pc p = .waitScan addr pp havekids)
    (stepped : waitSlot s p pp addr havekids env = some s') : Trans s (.run p env) s' := by
  unfold waitSlot waitChild at stepped
  split_ifs at stepped with child locked zombie fails
  · cases stepped
    exact .copyoutFails p env addr havekids pp running at_ child zombie fails
  · cases stepped
    exact .reap p env addr havekids pp running at_ child zombie (by simpa using locked) fails
  · cases stepped
    exact .waitNext p env addr havekids pp true running at_ fun _ => zombie
  · cases stepped
    exact .waitNext p env addr havekids pp havekids running at_ fun parent => absurd parent child

theorem next_trans {s s' : State} {p : Slot} {env : Env} (running : (s.proc p).state = .running)
    (stepped : next s p env = some s') : Trans s (.run p env) s' := by
  unfold next at stepped
  split at stepped
  case h_2 i at_ =>
    split_ifs at stepped with inside
    · unfold allocSlot at stepped
      split_ifs at stepped with locked unused
      · cases stepped
        exact forkFound_trans running at_ unused
      · cases stepped
        exact .allocNext p env i running at_
    · cases stepped
      exact .allocNone p env i running at_
  case h_3 np pid at_ =>
    split_ifs at stepped with free
    cases stepped
    exact .forkParent p env np pid running at_ free
  case h_4 np pid at_ =>
    split_ifs at stepped
    cases stepped
    exact .forkRunnable p env np pid running at_
  case h_5 status fd at_ =>
    split_ifs at stepped with inside <;> cases stepped
    · exact .closeFile p env status ⟨fd,inside⟩ running at_
    · exact .filesClosed p env status fd running at_ (by omega)
  case h_6 status at_ =>
    cases stepped
    exact .exitCwd p env status running at_
  case h_7 status at_ =>
    split_ifs at stepped with free
    cases stepped
    exact .exitLock p env status running at_ free
  case h_8 status i at_ =>
    split_ifs at stepped with inside <;> cases stepped
    · unfold reparentSlot
      split_ifs with child
      · exact .reparent p env status ⟨i,inside⟩ running at_ child
      · exact .reparentNext p env status ⟨i,inside⟩ running at_ child
    · exact .reparentDone p env status i running at_ (by omega)
  case h_9 status i j at_ =>
    split_ifs at stepped with inside
    · exact wakeupSlot_trans (j := ⟨j,inside⟩) running (at_ ▸ .reparent status i) stepped
    · cases stepped
      exact .reparentWoken p env status i j running at_ (by omega)
  case h_10 status chan j at_ =>
    split_ifs at stepped with inside
    · exact wakeupSlot_trans (j := ⟨j,inside⟩) running (at_ ▸ .exit status) stepped
    · cases stepped
      exact .exitWoken p env status chan j running at_ (by omega)
  case h_11 status at_ =>
    split_ifs at stepped with locked
    cases stepped
    exact .exitZombie p env status running at_ (by simpa using locked)
  case h_13 addr at_ =>
    split_ifs at stepped with free
    cases stepped
    exact .waitLock p env addr running at_ free
  case h_14 addr i havekids at_ =>
    split_ifs at stepped with inside
    · exact waitSlot_trans running at_ stepped
    · cases stepped
      exact .waitSeen p env addr i havekids running at_ (by omega)
  case h_15 addr havekids at_ =>
    split_ifs at stepped <;> cases stepped
    · exact .waitGivesUp p env addr havekids running at_
    · exact .waitGivesUp p env addr havekids running at_
    · exact .waitGoesOn p env addr havekids running at_
  case h_16 addr at_ =>
    split_ifs at stepped with locked
    cases stepped
    exact .waitSleep p env addr running at_ (by simpa using locked)
  case h_17 addr at_ =>
    cases stepped
    exact .waitDoze p env addr running at_
  case h_19 pid i at_ =>
    split_ifs at stepped with inside locked
    · cases stepped
      unfold killSlot
      split_ifs with named
      · exact .killHit p env pid ⟨i,inside⟩ running at_ (by simpa using locked) named
      · exact .killNext p env pid ⟨i,inside⟩ running at_
    · cases stepped
      exact .killMissed p env pid i running at_
  all_goals contradiction

theorem step_trans {s s' : State} {label : Label} (stepped : step s label = some s') : Trans s label s' := by
  cases label with
  | call p call =>
    simp only [step] at stepped
    split_ifs at stepped with ready
    obtain ⟨-,running,at_⟩ := ready
    cases stepped
    cases call with
    | kfork => exact .kfork p running at_
    | kexit status =>
      unfold enter
      split_ifs with isInit
      · subst isInit
        exact .initExits status running
      · exact .kexit p status running at_ isInit
    | kwait addr => exact .kwait p addr running at_
    | kkill pid => exact .kkill p pid running at_
  | run p env =>
    simp only [step] at stepped
    split_ifs at stepped with ready
    exact next_trans ready.2 stepped
  | fault p =>
    simp only [step] at stepped
    split_ifs at stepped with ready
    cases stepped
    exact .fault p ready.2.1 ready.2.2.1
  | work p sz pagetable ofile cwd =>
    simp only [step] at stepped
    split_ifs at stepped with ready
    cases stepped
    exact .work p sz pagetable ofile cwd ready.2.1 ready.2.2
  | sleep p n =>
    simp only [step] at stepped
    split_ifs at stepped with ready
    cases stepped
    exact .sleep p n ready.2.1 ready.2.2.1
  | wakeup p n =>
    simp only [step] at stepped
    split_ifs at stepped with ready
    cases stepped
    exact .wakeup p n ready.2.2.1 ready.2.2.2
  | yield p =>
    simp only [step] at stepped
    split_ifs at stepped with ready
    cases stepped
    exact .yield p ready.2.1 ready.2.2.1 ready.2.2.2
  | schedule p =>
    simp only [step] at stepped
    split_ifs at stepped with ready
    cases stepped
    unfold resume
    split
    next addr at_ => exact .rewait p addr ready.2.1 at_
    next other => exact .resume p ready.2.1 fun addr at_ => other addr at_
  | switch p =>
    simp only [step] at stepped
    split_ifs at stepped with ready
    cases stepped
    exact .switch p ready.2.1

end Xv6.Procs
