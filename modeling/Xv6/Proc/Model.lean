import Xv6.Param
import Xv6.Lib.Transition
import Mathlib

/-! The process table of proc.c. A step is one critical section under a `p->lock`
or `wait_lock`; a lock that stays held over several steps is explicit, so that
others block on it. Every process runs kfork, kexit, kwait and kkill one slot of
their loops at a time, and sleeps, is woken and is scheduled between them. -/
namespace Xv6.Procs
open Lib Function

abbrev Slot := Fin nproc

instance : NeZero nproc := ⟨by decide⟩

abbrev Ptr := BitVec 64

inductive ProcState where
  | unused
  | used
  | sleeping
  | runnable
  | running
  | zombie
  deriving DecidableEq

-- kwait sleeps on the address of the caller's proc; every other channel is a number
inductive Chan where
  | proc (p : Slot)
  | other (n : Nat)
  deriving DecidableEq

structure Proc where
  state : ProcState
  chan : Option Chan
  killed : Bool
  xstate : BitVec 32
  pid : BitVec 32
  parent : Option Slot
  sz : BitVec 64
  pagetable : Ptr
  trapframe : Ptr
  ofile : Fin nofile → Ptr
  cwd : Ptr
  deriving DecidableEq

/-- Where a process is in the kernel. From `reparent` to `exitZombie` and from
`waitScan` to `waitSleep` it holds `wait_lock`; in `waitDoze` and on entering
`gone` it holds its own `p->lock`. -/
inductive Pc where
  | user
  | allocproc (i : Nat)
  | forkParent (np : Slot) (pid : BitVec 32)
  | forkRunnable (np : Slot) (pid : BitVec 32)
  | exitFiles (status : BitVec 32) (fd : Nat)
  | exitCwd (status : BitVec 32)
  | exitLock (status : BitVec 32)
  | reparent (status : BitVec 32) (i : Nat)
  | reparentWake (status : BitVec 32) (i j : Nat)
  | exitWake (status : BitVec 32) (chan : Option Chan) (j : Nat)
  | exitZombie (status : BitVec 32)
  | gone
  | waitLock (addr : BitVec 64)
  | waitScan (addr : BitVec 64) (i : Nat) (havekids : Bool)
  | waitKilled (addr : BitVec 64) (havekids : Bool)
  | waitSleep (addr : BitVec 64)
  | waitDoze (addr : BitVec 64)
  | waitAsleep (addr : BitVec 64)
  | kkill (pid : BitVec 32) (i : Nat)
  deriving DecidableEq

/-- What the calls returned. `born` numbers the successive processes of a slot:
an exit and the kwait that reaps it carry the same number. -/
inductive Event where
  | forked (p : Slot) (r : BitVec 32)
  | exited (c : Slot) (born : Nat) (pid status : BitVec 32)
  | reaped (p c : Slot) (born : Nat) (pid status : BitVec 32)
  | waitFailed (p : Slot)
  | killed (p : Slot) (pid : BitVec 32) (r : Int)
  deriving DecidableEq

structure State where
  proc : Slot → Proc
  pc : Slot → Pc
  waitLock : Option Slot
  locked : Slot → Bool -- p->lock held across a step
  initproc : Slot
  nextpid : BitVec 32
  panicked : Bool -- "init exiting"
  born : Slot → Nat
  trace : List Event

-- the results of kalloc, proc_pagetable, uvmcopy and copyout in one step
structure Env where
  trapframe : Ptr
  pagetable : Ptr
  uvmcopy : Bool
  copyout : Bool

inductive Call where
  | kfork
  | kexit (status : BitVec 32)
  | kwait (addr : BitVec 64)
  | kkill (pid : BitVec 32)

inductive Label where
  | call (p : Slot) (call : Call)
  | run (p : Slot) (env : Env)
  | fault (p : Slot)
  | work (p : Slot) (sz : BitVec 64) (pagetable : Ptr) (ofile : Fin nofile → Ptr) (cwd : Ptr)
  | sleep (p : Slot) (n : Nat)
  | wakeup (p : Slot) (n : Nat)
  | yield (p : Slot)
  | schedule (p : Slot)
  | switch (p : Slot)

def State.set (s : State) (p : Slot) (new : Proc) : State := { s with proc := update s.proc p new }

def State.goto (s : State) (p : Slot) (pc : Pc) : State := { s with pc := update s.pc p pc }

def State.emit (s : State) (event : Event) : State := { s with trace := s.trace ++ [event] }

def freeproc (p : Proc) : Proc :=
  { p with
    trapframe := 0, pagetable := 0, sz := 0, pid := 0, parent := none, chan := none
    killed := false, xstate := 0, state := .unused }

-- what allocproc does to the slot it found, with np->lock held; none when it frees it again
def allocFound (new : Proc) (pid : BitVec 32) (env : Env) : Option Proc :=
  if env.trapframe = 0 ∨ env.pagetable = 0 then none
  else
    some { new with pid := pid, state := .used, trapframe := env.trapframe, pagetable := env.pagetable }

def State.allocpid (s : State) : State := { s with nextpid := s.nextpid + 1 }

-- the failing ends of kfork
def forkFails (s : State) (p np : Slot) : State :=
  ((s.allocpid.set np (freeproc (s.proc np))).goto p .user).emit (.forked p (-1))

-- kfork up to release(&np->lock)
def forkFound (s : State) (p np : Slot) (env : Env) : State :=
  match allocFound (s.proc np) s.nextpid env with
  | none => forkFails s p np
  | some new =>
    if env.uvmcopy = false then forkFails s p np
    else
      let parent := s.proc p
      let child :=
        { new with
          sz := parent.sz
          ofile := fun fd => if parent.ofile fd ≠ 0 then parent.ofile fd else new.ofile fd
          cwd := parent.cwd }
      (s.allocpid.set np child).goto p (.forkParent np s.nextpid)

-- one slot of allocproc's loop
def allocSlot (s : State) (p np : Slot) (env : Env) : Option State :=
  if s.locked np then none
  else if (s.proc np).state = .unused then some (forkFound s p np env)
  else some (s.goto p (.allocproc (np + 1)))

-- one slot of wakeup(chan)'s loop
def wakeupSlot (s : State) (p : Slot) (chan : Option Chan) (j : Slot) : Option State :=
  if j = p then some s
  else if s.locked j then none
  else if (s.proc j).state = .sleeping ∧ (s.proc j).chan = chan then
    some (s.set j { s.proc j with state := .runnable })
  else some s

-- one slot of reparent's loop
def reparentSlot (s : State) (p pp : Slot) (status : BitVec 32) : State :=
  if (s.proc pp).parent = some p then
    (s.set pp { s.proc pp with parent := some s.initproc }).goto p (.reparentWake status pp 0)
  else s.goto p (.reparent status (pp + 1))

-- kwait's return, with wait_lock released
def State.leaveWait (s : State) (p : Slot) (event : Event) : State :=
  ({ s with waitLock := none }.goto p .user).emit event

-- freeproc(pp); the next process of the slot gets a new number
def State.reap (s : State) (p pp : Slot) : State :=
  let freed := (s.set pp (freeproc (s.proc pp))).goto pp .user
  { freed with born := update s.born pp (s.born pp + 1) }.leaveWait p
    (.reaped p pp (s.born pp) (s.proc pp).pid (s.proc pp).xstate)

-- one slot of kwait's loop, for a child pp of p
def waitChild (s : State) (p pp : Slot) (addr : BitVec 64) (env : Env) : State :=
  if (s.proc pp).state = .zombie then
    if addr ≠ 0 ∧ env.copyout = false then
      s.leaveWait p (.waitFailed p)
    else s.reap p pp
  else s.goto p (.waitScan addr (pp + 1) true)

def waitSlot (s : State) (p pp : Slot) (addr : BitVec 64) (havekids : Bool) (env : Env) : Option State :=
  if (s.proc pp).parent = some p then
    if s.locked pp then none else some (waitChild s p pp addr env)
  else some (s.goto p (.waitScan addr (pp + 1) havekids))

-- the end of kexit; p->lock stays held until the scheduler has switched away
def State.die (s : State) (p : Slot) (status : BitVec 32) : State :=
  let dead := s.set p { s.proc p with xstate := status, state := .zombie }
  ({ dead with locked := update s.locked p true, waitLock := none }.goto p .gone).emit
    (.exited p (s.born p) (s.proc p).pid status)

def Proc.kill (p : Proc) : Proc :=
  { p with killed := true, state := if p.state = .sleeping then .runnable else p.state }

-- one slot of kkill's loop
def killSlot (s : State) (p j : Slot) (pid : BitVec 32) : State :=
  if (s.proc j).pid = pid then ((s.set j (s.proc j).kill).goto p .user).emit (.killed p pid 0)
  else s.goto p (.kkill pid (j + 1))

-- the next step of p inside the kernel; none while it waits for a lock
def next (s : State) (p : Slot) (env : Env) : Option State :=
  match s.pc p with
  | .user => none
  | .allocproc i =>
    if inside : i < nproc then allocSlot s p ⟨i,inside⟩ env
    else some ((s.goto p .user).emit (.forked p (-1)))
  | .forkParent np pid =>
    if s.waitLock = none then
      some ((s.set np { s.proc np with parent := some p }).goto p (.forkRunnable np pid))
    else none
  | .forkRunnable np pid =>
    if s.locked np then none
    else some (((s.set np { s.proc np with state := .runnable }).goto p .user).emit (.forked p pid))
  | .exitFiles status fd =>
    if inside : fd < nofile then
      some ((s.set p { s.proc p with ofile := update (s.proc p).ofile ⟨fd,inside⟩ 0 }).goto p
        (.exitFiles status (fd + 1)))
    else some (s.goto p (.exitCwd status))
  | .exitCwd status => some ((s.set p { s.proc p with cwd := 0 }).goto p (.exitLock status))
  | .exitLock status =>
    if s.waitLock = none then some ({ s with waitLock := some p }.goto p (.reparent status 0)) else none
  | .reparent status i =>
    if inside : i < nproc then some (reparentSlot s p ⟨i,inside⟩ status)
    else some (s.goto p (.exitWake status ((s.proc p).parent.map .proc) 0))
  | .reparentWake status i j =>
    if inside : j < nproc then
      (wakeupSlot s p (some (.proc s.initproc)) ⟨j,inside⟩).map (·.goto p (.reparentWake status i (j + 1)))
    else some (s.goto p (.reparent status (i + 1)))
  | .exitWake status chan j =>
    if inside : j < nproc then
      (wakeupSlot s p chan ⟨j,inside⟩).map (·.goto p (.exitWake status chan (j + 1)))
    else some (s.goto p (.exitZombie status))
  | .exitZombie status =>
    if s.locked p then none
    else some (s.die p status)
  | .gone => none
  | .waitLock addr =>
    if s.waitLock = none then some ({ s with waitLock := some p }.goto p (.waitScan addr 0 false)) else none
  | .waitScan addr i havekids =>
    if inside : i < nproc then waitSlot s p ⟨i,inside⟩ addr havekids env
    else some (s.goto p (.waitKilled addr havekids))
  | .waitKilled addr havekids =>
    if havekids = false then some (s.leaveWait p (.waitFailed p))
    else if s.locked p then none
    else if (s.proc p).killed then some (s.leaveWait p (.waitFailed p))
    else some (s.goto p (.waitSleep addr))
  | .waitSleep addr =>
    if s.locked p then none
    else some ({ s with locked := update s.locked p true, waitLock := none }.goto p (.waitDoze addr))
  | .waitDoze addr =>
    some ({ s.set p { s.proc p with chan := some (.proc p), state := .sleeping } with
      locked := update s.locked p false }.goto p (.waitAsleep addr))
  | .waitAsleep _ => none
  | .kkill pid i =>
    if inside : i < nproc then
      if s.locked ⟨i,inside⟩ then none else some (killSlot s p ⟨i,inside⟩ pid)
    else some ((s.goto p .user).emit (.killed p pid (-1)))

def enter (s : State) (p : Slot) : Call → State
  | .kfork => s.goto p (.allocproc 0)
  | .kexit status => if p = s.initproc then { s with panicked := true } else s.goto p (.exitFiles status 0)
  | .kwait addr => s.goto p (.waitLock addr)
  | .kkill pid => s.goto p (.kkill pid 0)

-- a process may block in fileclose, iput or any other system call, never under wait_lock
def Pc.sleeps : Pc → Bool
  | .user | .exitFiles _ _ | .exitCwd _ => true
  | _ => false

def Proc.resume (p : Proc) : Proc := { p with state := .running, chan := none }

-- after sched(), sleep clears p->chan; in kwait it then takes wait_lock again
def resume (s : State) (p : Slot) : State :=
  match s.pc p with
  | .waitAsleep addr => (s.set p (s.proc p).resume).goto p (.waitLock addr)
  | _ => s.set p (s.proc p).resume

def step (s : State) : Label → Option State
  | .call p call =>
    if s.panicked = false ∧ (s.proc p).state = .running ∧ s.pc p = .user then some (enter s p call) else none
  | .run p env => if s.panicked = false ∧ (s.proc p).state = .running then next s p env else none
  | .fault p =>
    if s.panicked = false ∧ (s.proc p).state = .running ∧ s.pc p = .user ∧ s.locked p = false then
      some (s.set p { s.proc p with killed := true })
    else none
  | .work p sz pagetable ofile cwd =>
    if s.panicked = false ∧ (s.proc p).state = .running ∧ s.pc p = .user then
      some (s.set p { s.proc p with sz := sz, pagetable := pagetable, ofile := ofile, cwd := cwd })
    else none
  | .sleep p n =>
    if s.panicked = false ∧ (s.proc p).state = .running ∧ (s.pc p).sleeps ∧ s.locked p = false then
      some (s.set p { s.proc p with state := .sleeping, chan := some (.other n) })
    else none
  | .wakeup p n =>
    if s.panicked = false ∧ s.locked p = false ∧ (s.proc p).state = .sleeping ∧
        (s.proc p).chan = some (.other n) then
      some (s.set p { s.proc p with state := .runnable })
    else none
  | .yield p =>
    if s.panicked = false ∧ (s.proc p).state = .running ∧ s.waitLock ≠ some p ∧ s.locked p = false then
      some (s.set p { s.proc p with state := .runnable })
    else none
  | .schedule p =>
    if s.panicked = false ∧ (s.proc p).state = .runnable ∧ s.locked p = false then some (resume s p) else none
  | .switch p =>
    if s.panicked = false ∧ s.pc p = .gone ∧ s.locked p = true then
      some { s with locked := update s.locked p false }
    else none

def zeroProc : Proc where
  state := .unused
  chan := none
  killed := false
  xstate := 0
  pid := 0
  parent := none
  sz := 0
  pagetable := 0
  trapframe := 0
  ofile := fun _ => 0
  cwd := 0

def procinit : State where
  proc := fun _ => zeroProc
  pc := fun _ => .user
  waitLock := none
  locked := fun _ => false
  initproc := 0
  nextpid := 1
  panicked := false
  born := fun _ => 0
  trace := []

-- userinit, with the pages allocproc gets and the root inode
def userinit (trapframe pagetable cwd : Ptr) : State :=
  match allocFound zeroProc procinit.nextpid ⟨trapframe,pagetable,true,true⟩ with
  | none => procinit
  | some new => procinit.allocpid.set 0 { new with cwd := cwd, state := .runnable }

def system : System State Label :=
  .ofStep (fun s => ∃ trapframe pagetable cwd, trapframe ≠ 0 ∧ pagetable ≠ 0 ∧ s = userinit trapframe pagetable cwd) step

end Xv6.Procs
