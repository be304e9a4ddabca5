import Xv6.Proc.Model

/-! The scheduler of proc.c on any number of CPUs. A CPU runs its own scheduler
thread or the kernel thread of a process, and takes one step at a time: it
acquires or releases a spinlock, does the work of a critical section, or does a
part of swtch. A kernel thread is the functions it is in, innermost first, over
the place it has reached in the call at the bottom; swtch stores it in
p->context and loads it from there. -/
namespace Xv6.Sched
open Lib Function
open Xv6.Procs (Slot ProcState Chan)

inductive Lock where
  | proc (p : Slot)
  | wait
  | other (n : Nat)
  deriving DecidableEq

structure Proc where
  state : ProcState
  chan : Option Chan
  killed : Bool
  pid : BitVec 32
  parent : Option Slot
  deriving DecidableEq

/-- Where a function called over other kernel code is. `covered` says that wakeup
was called with the condition lock of its channel held. -/
inductive Frame where
  | yield
  | yieldReady
  | yieldBack
  | sleep (chan : Chan)
  | sleepRelease (chan : Chan)
  | sleepSet (chan : Chan)
  | sleepBack (chan : Chan)
  | sleepRelock (chan : Chan)
  | sched
  | swtch
  | saving -- some registers are in p->context
  | saved -- all are, and c->context is loaded next
  | wakeup (chan : Option Chan) (i : Nat) (covered : Bool)
  | wake (chan : Option Chan) (j : Slot) (covered : Bool)
  | intr (n : Nat)
  | intrDone (n : Nat)
  deriving DecidableEq

inductive SchedPc where
  | scan (i : Nat)
  | look (p : Slot)
  | enter (p : Slot)
  | load (p : Slot) -- c->context is stored, p->context is loaded next
  | back (p : Slot)
  | unlock (p : Slot)
  deriving DecidableEq

-- user code and all kernel code but the functions below is `code`
inductive ProcPc where
  | code
  | forkret
  | zombie
  | kkill (pid : BitVec 32) (i : Nat)
  | kill (pid : BitVec 32) (j : Slot)
  | allocproc (i : Nat)
  | allocTest (j : Slot)
  | forkCopy (np : Slot)
  | forkParent (np : Slot)
  | forkAdopt (np : Slot)
  | forkReady (np : Slot)
  | forkRun (np : Slot)
  | exitLock
  | reparent (i : Nat)
  | exitLast
  | exitSet
  | exitRelease
  | waitLock
  | waitScan (i : Nat) (havekids : Bool)
  | waitTest (j : Slot)
  | waitRelease
  | waitKilled (havekids : Bool)
  | waitKilledTest
  deriving DecidableEq

structure Thread where
  frames : List Frame
  pc : ProcPc
  deriving DecidableEq

-- the thread a CPU runs; for a process, on its kernel stack
inductive Run where
  | scheduler (frames : List Frame) (pc : SchedPc)
  | process (p : Slot) (thread : Thread)
  deriving DecidableEq

structure Cpu where
  proc : Option Slot
  context : SchedPc
  run : Run
  held : List Lock -- the spinlocks it holds; noff is their number
  deriving DecidableEq

structure State (n : Nat) where
  proc : Slot → Proc
  context : Slot → Option Thread -- none while it is stored in part
  cpu : Fin n → Cpu
  initproc : Slot
  nextpid : BitVec 32
  panicked : Bool

variable {n : Nat}

namespace State
variable (s : State n)

def setCpu (c : Fin n) (cpu : Cpu) : State n := { s with cpu := update s.cpu c cpu }

def goto (c : Fin n) (run : Run) : State n := s.setCpu c { s.cpu c with run := run }

def setProc (p : Slot) (new : Proc) : State n := { s with proc := update s.proc p new }

def setContext (p : Slot) (thread : Option Thread) : State n :=
  { s with context := update s.context p thread }

def panic : State n := { s with panicked := true }

-- acquire(l); it spins while another CPU holds the lock
def acquire (c : Fin n) (l : Lock) (run : Run) : Option (State n) :=
  if l ∈ (s.cpu c).held then some s.panic
  else if ∃ d, l ∈ (s.cpu d).held then none
  else some (s.setCpu c { s.cpu c with held := l :: (s.cpu c).held, run := run })

def release (c : Fin n) (l : Lock) (run : Run) : State n :=
  if l ∈ (s.cpu c).held then s.setCpu c { s.cpu c with held := (s.cpu c).held.erase l, run := run }
  else s.panic

def setState (p : Slot) (state : ProcState) : State n := s.setProc p { s.proc p with state := state }

end State

-- the lock that a process sleeping on a channel holds when it calls sleep; `guard` gives those of the other channels
def condLock (guard : Nat → Nat) : Chan → Lock
  | .proc _ => .wait
  | .other k => .other (guard k)

def freeproc (p : Proc) : Proc := { p with state := .unused, pid := 0, parent := none, chan := none, killed := false }

def schedNext (s : State n) (c : Fin n) : SchedPc → Option (State n)
  | .scan i =>
    if inside : i < nproc then s.acquire c (.proc ⟨i,inside⟩) (.scheduler [] (.look ⟨i,inside⟩))
    else some (s.goto c (.scheduler [] (.scan 0)))
  | .look p =>
    if (s.proc p).state = .runnable then
      some ((s.setState p .running).setCpu c { s.cpu c with proc := some p, run := .scheduler [] (.enter p) })
    else some (s.goto c (.scheduler [] (.unlock p)))
  | .enter p => some (s.setCpu c { s.cpu c with context := .back p, run := .scheduler [] (.load p) })
  | .load p => (s.context p).map fun thread => s.goto c (.process p thread)
  | .back p => some (s.setCpu c { s.cpu c with proc := none, run := .scheduler [] (.unlock p) })
  | .unlock p => some (s.release c (.proc p) (.scheduler [] (.scan (p + 1))))

-- wakeup's test of one slot
def Proc.wake (p : Proc) (chan : Option Chan) : Proc :=
  if p.state = .sleeping ∧ p.chan = chan then { p with state := .runnable } else p

/-- wakeup and the interrupt handlers that call it, on any thread: `resume` is the
thread with other innermost frames. -/
def wakeNext (guard : Nat → Nat) (s : State n) (c : Fin n) (resume : List Frame → Run) (rest : List Frame) :
    Frame → Option (State n)
  | .wakeup chan i covered =>
    if inside : i < nproc then
      if (s.cpu c).proc = some ⟨i,inside⟩ then some (s.goto c (resume (.wakeup chan (i + 1) covered :: rest)))
      else s.acquire c (.proc ⟨i,inside⟩) (resume (.wake chan ⟨i,inside⟩ covered :: rest))
    else some (s.goto c (resume rest))
  | .wake chan j covered =>
    some ((s.setProc j ((s.proc j).wake chan)).release c (.proc j) (resume (.wakeup chan (j + 1) covered :: rest)))
  | .intr k => s.acquire c (.other (guard k)) (resume (.wakeup (some (.other k)) 0 true :: .intrDone k :: rest))
  | .intrDone k => some (s.release c (.other (guard k)) (resume rest))
  | _ => none

-- yield, sleep and sched of process p
def frameNext (guard : Nat → Nat) (s : State n) (c : Fin n) (p : Slot) (rest : List Frame) (pc : ProcPc) :
    Frame → Option (State n)
  | .yield => s.acquire c (.proc p) (.process p ⟨.yieldReady :: rest,pc⟩)
  | .yieldReady => some ((s.setState p .runnable).goto c (.process p ⟨.sched :: .yieldBack :: rest,pc⟩))
  | .yieldBack => some (s.release c (.proc p) (.process p ⟨rest,pc⟩))
  | .sleep chan => s.acquire c (.proc p) (.process p ⟨.sleepRelease chan :: rest,pc⟩)
  | .sleepRelease chan => some (s.release c (condLock guard chan) (.process p ⟨.sleepSet chan :: rest,pc⟩))
  | .sleepSet chan =>
    some ((s.setProc p { s.proc p with chan := some chan, state := .sleeping }).goto c
      (.process p ⟨.sched :: .sleepBack chan :: rest,pc⟩))
  | .sleepBack chan =>
    some ((s.setProc p { s.proc p with chan := none }).release c (.proc p) (.process p ⟨.sleepRelock chan :: rest,pc⟩))
  | .sleepRelock chan => s.acquire c (condLock guard chan) (.process p ⟨rest,pc⟩)
  | .sched =>
    -- holding(&p->lock) and noff == 1
    if (s.cpu c).held = [.proc p] ∧ (s.proc p).state ≠ .running then some (s.goto c (.process p ⟨.swtch :: rest,pc⟩))
    else some s.panic
  | .swtch => some ((s.setContext p none).goto c (.process p ⟨.saving :: rest,pc⟩))
  | .saving => some ((s.setContext p (some ⟨rest,pc⟩)).goto c (.process p ⟨.saved :: rest,pc⟩))
  | .saved => some (s.goto c (.scheduler [] (s.cpu c).context))
  | frame => wakeNext guard s c (fun frames => .process p ⟨frames,pc⟩) rest frame

-- kkill's test of one slot
def Proc.kill (p : Proc) : Proc :=
  { p with killed := true, state := if p.state = .sleeping then .runnable else p.state }

/-- The bottom of process p's thread; `ok` is the result of kalloc, uvmcopy or
copyout in the step. -/
def procNext (s : State n) (c : Fin n) (p : Slot) (ok : Bool) : ProcPc → Option (State n)
  | .code => none
  | .forkret => some (s.release c (.proc p) (.process p ⟨[],.code⟩))
  | .zombie => some s.panic
  | .kkill pid i =>
    if inside : i < nproc then s.acquire c (.proc ⟨i,inside⟩) (.process p ⟨[],.kill pid ⟨i,inside⟩⟩)
    else some (s.goto c (.process p ⟨[],.code⟩))
  | .kill pid j =>
    if (s.proc j).pid = pid then
      some ((s.setProc j (s.proc j).kill).release c (.proc j) (.process p ⟨[],.code⟩))
    else some (s.release c (.proc j) (.process p ⟨[],.kkill pid (j + 1)⟩))
  | .allocproc i =>
    if inside : i < nproc then s.acquire c (.proc ⟨i,inside⟩) (.process p ⟨[],.allocTest ⟨i,inside⟩⟩)
    else some (s.goto c (.process p ⟨[],.code⟩))
  | .allocTest j =>
    if (s.proc j).state = .unused then
      let taken := { s with nextpid := s.nextpid + 1 }
      if ok then
        some (((taken.setProc j { s.proc j with pid := s.nextpid, state := .used }).setContext j
          (some ⟨[],.forkret⟩)).goto c (.process p ⟨[],.forkCopy j⟩))
      else some ((taken.setProc j (freeproc (s.proc j))).release c (.proc j) (.process p ⟨[],.code⟩))
    else some (s.release c (.proc j) (.process p ⟨[],.allocproc (j + 1)⟩))
  | .forkCopy np =>
    if ok then some (s.release c (.proc np) (.process p ⟨[],.forkParent np⟩))
    else some ((s.setProc np (freeproc (s.proc np))).release c (.proc np) (.process p ⟨[],.code⟩))
  | .forkParent np => s.acquire c .wait (.process p ⟨[],.forkAdopt np⟩)
  | .forkAdopt np =>
    some ((s.setProc np { s.proc np with parent := some p }).release c .wait (.process p ⟨[],.forkReady np⟩))
  | .forkReady np => s.acquire c (.proc np) (.process p ⟨[],.forkRun np⟩)
  | .forkRun np => some ((s.setState np .runnable).release c (.proc np) (.process p ⟨[],.code⟩))
  | .exitLock => s.acquire c .wait (.process p ⟨[],.reparent 0⟩)
  | .reparent i =>
    let covered := decide (.wait ∈ (s.cpu c).held)
    if inside : i < nproc then
      if (s.proc ⟨i,inside⟩).parent = some p then
        some ((s.setProc ⟨i,inside⟩ { s.proc ⟨i,inside⟩ with parent := some s.initproc }).goto c
          (.process p ⟨[.wakeup (some (.proc s.initproc)) 0 covered],.reparent (i + 1)⟩))
      else some (s.goto c (.process p ⟨[],.reparent (i + 1)⟩))
    else some (s.goto c (.process p ⟨[.wakeup ((s.proc p).parent.map .proc) 0 covered],.exitLast⟩))
  | .exitLast => s.acquire c (.proc p) (.process p ⟨[],.exitSet⟩)
  | .exitSet => some ((s.setState p .zombie).goto c (.process p ⟨[],.exitRelease⟩))
  | .exitRelease => some (s.release c .wait (.process p ⟨[.sched],.zombie⟩))
  | .waitLock => s.acquire c .wait (.process p ⟨[],.waitScan 0 false⟩)
  | .waitScan i havekids =>
    if inside : i < nproc then
      if (s.proc ⟨i,inside⟩).parent = some p then
        s.acquire c (.proc ⟨i,inside⟩) (.process p ⟨[],.waitTest ⟨i,inside⟩⟩)
      else some (s.goto c (.process p ⟨[],.waitScan (i + 1) havekids⟩))
    else some (s.goto c (.process p ⟨[],.waitKilled havekids⟩))
  | .waitTest j =>
    if (s.proc j).state = .zombie then
      if ok then some ((s.setProc j (freeproc (s.proc j))).release c (.proc j) (.process p ⟨[],.waitRelease⟩))
      else some (s.release c (.proc j) (.process p ⟨[],.waitRelease⟩))
    else some (s.release c (.proc j) (.process p ⟨[],.waitScan (j + 1) true⟩))
  | .waitRelease => some (s.release c .wait (.process p ⟨[],.code⟩))
  | .waitKilled havekids =>
    if havekids then s.acquire c (.proc p) (.process p ⟨[],.waitKilledTest⟩)
    else some (s.goto c (.process p ⟨[],.waitRelease⟩))
  | .waitKilledTest =>
    if (s.proc p).killed then some (s.release c (.proc p) (.process p ⟨[],.waitRelease⟩))
    else some (s.release c (.proc p) (.process p ⟨[.sleep (.proc p)],.waitScan 0 false⟩))

def next (guard : Nat → Nat) (s : State n) (c : Fin n) (ok : Bool) : Option (State n) :=
  match (s.cpu c).run with
  | .scheduler [] pc => schedNext s c pc
  | .scheduler (frame :: rest) pc => wakeNext guard s c (fun frames => .scheduler frames pc) rest frame
  | .process p ⟨[],pc⟩ => procNext s c p ok pc
  | .process p ⟨frame :: rest,pc⟩ => frameNext guard s c p rest pc frame

-- the slot to which the next step of c applies freeproc
def frees (s : State n) (c : Fin n) (ok : Bool) : Option Slot :=
  match (s.cpu c).run with
  | .process _ ⟨[],.allocTest j⟩ => if (s.proc j).state = .unused ∧ ok = false then some j else none
  | .process _ ⟨[],.forkCopy np⟩ => if ok then none else some np
  | .process _ ⟨[],.waitTest j⟩ => if (s.proc j).state = .zombie ∧ ok = true then some j else none
  | _ => none

-- what other kernel code of a process does with locks, and the calls of proc.c
inductive Call where
  | acquire (k : Nat)
  | release (k : Nat)
  | sleep (k : Nat)
  | wakeup (k : Nat)
  | kfork
  | kexit
  | kwait
  | kkill (pid : BitVec 32)

def call (guard : Nat → Nat) (s : State n) (c : Fin n) (p : Slot) : Call → Option (State n)
  | .acquire k => s.acquire c (.other k) (.process p ⟨[],.code⟩)
  | .release k => some (s.release c (.other k) (.process p ⟨[],.code⟩))
  | .sleep k =>
    if .other (guard k) ∈ (s.cpu c).held then some (s.goto c (.process p ⟨[.sleep (.other k)],.code⟩)) else none
  | .wakeup k =>
    some (s.goto c (.process p ⟨[.wakeup (some (.other k)) 0 (decide (.other (guard k) ∈ (s.cpu c).held))],.code⟩))
  | .kfork => some (s.goto c (.process p ⟨[],.allocproc 0⟩))
  | .kexit => if p = s.initproc then some s.panic else some (s.goto c (.process p ⟨[],.exitLock⟩))
  | .kwait => some (s.goto c (.process p ⟨[],.waitLock⟩))
  | .kkill pid => some (s.goto c (.process p ⟨[],.kkill pid 0⟩))

def Run.push (frame : Frame) : Run → Run
  | .scheduler frames pc => .scheduler (frame :: frames) pc
  | .process p thread => .process p ⟨frame :: thread.frames,thread.pc⟩

inductive Label (n : Nat) where
  | run (c : Fin n) (ok : Bool)
  | call (c : Fin n) (call : Call)
  | interrupt (c : Fin n) (k : Nat) -- a device's, whose handler wakes up channel k
  | timer (c : Fin n)

-- interrupts are off while a CPU holds a spinlock
def step (guard : Nat → Nat) (s : State n) : Label n → Option (State n)
  | .run c ok => if s.panicked then none else next guard s c ok
  | .call c what =>
    match (s.cpu c).run with
    | .process p ⟨[],.code⟩ => if s.panicked then none else call guard s c p what
    | _ => none
  | .interrupt c k =>
    if s.panicked = false ∧ (s.cpu c).held = [] then some (s.goto c ((s.cpu c).run.push (.intr k))) else none
  | .timer c =>
    if s.panicked = false ∧ (s.cpu c).held = [] ∧ (s.cpu c).proc.isSome then
      some (s.goto c ((s.cpu c).run.push .yield))
    else none

def zeroProc : Proc where
  state := .unused
  chan := none
  killed := false
  pid := 0
  parent := none

-- after userinit, with every CPU at the start of scheduler()
def booted : State n where
  proc := update (fun _ => zeroProc) 0 { zeroProc with pid := 1, state := .runnable }
  context := update (fun _ => none) 0 (some ⟨[],.forkret⟩)
  cpu := fun _ => ⟨none,.scan 0,.scheduler [] (.scan 0),[]⟩
  initproc := 0
  nextpid := 2
  panicked := false

def system (n : Nat) (guard : Nat → Nat) : System (State n) (Label n) := .ofStep (· = booted) (step guard)

end Xv6.Sched
