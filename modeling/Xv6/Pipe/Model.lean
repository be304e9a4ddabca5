import Xv6.Param
import Xv6.Lib.Ring
import Xv6.Lib.Transition

/-! Pipes (pipe.c): the ring of `PIPESIZE` bytes with its free-running 32-bit
counters, the loops of pipewrite and piperead, and every interleaving of calls.
A step is one stretch of code between two points at which `pi->lock` is given
up: from acquire, or from the return of sleep, to the next sleep or to the
return. The user copies and `killed` answer as an environment chooses. -/
namespace Xv6.Pipes
open Lib Lib.Ring Function

def pipeSize : Nat := 512

instance : NeZero pipeSize := ⟨by decide⟩

structure Pipe where
  data : Fin pipeSize → Byte
  nread : BitVec 32
  nwrite : BitVec 32
  readopen : Bool
  writeopen : Bool

/-- What the calling process sees during one stretch: one-byte copies from and
to its memory, and the answer of `killed` at the test before byte `i`. -/
structure Env where
  copyin : BitVec 64 → Option Byte
  copyout : BitVec 64 → Byte → Bool
  killed : Nat → Bool

/-- How a stretch of pipewrite's loop ends: left (done or a bad user address),
refused with -1, or asleep on `&pi->nwrite` because the ring is full. -/
inductive WriteEnd where
  | left (i : Nat)
  | refused
  | full (i : Nat)
  deriving DecidableEq

def Pipe.push (pi : Pipe) (ch : Byte) : Pipe :=
  { pi with
    data := update pi.data (slot pipeSize pi.nwrite) ch
    nwrite := pi.nwrite + 1 }

/-- The loop `while(i < n)` of pipewrite, with `todo = n - i` bytes to go. The
result carries the bytes stored in the ring, in order. -/
def pipewriteLoop (env : Env) (addr : BitVec 64) : Nat → Nat → Pipe → WriteEnd × Pipe × List Byte
  | 0, i, pi => (.left i,pi,[])
  | todo + 1, i, pi =>
    if pi.readopen = false ∨ env.killed i = true then (.refused,pi,[])
    else if pi.nwrite = pi.nread + BitVec.ofNat 32 pipeSize then (.full i,pi,[])
    else match env.copyin (addr + BitVec.ofNat 64 i) with
      | none => (.left i,pi,[])
      | some ch =>
        let (out,pi',bytes) := pipewriteLoop env addr todo (i + 1) (pi.push ch)
        (out,pi',ch :: bytes)

/-- The copy loop of piperead, with `todo = n - i` bytes to go: the value
returned, the pipe, and the bytes taken out of the ring. -/
def pipereadCopy (env : Env) (addr : BitVec 64) : Nat → Nat → Pipe → Int × Pipe × List Byte
  | 0, i, pi => (i,pi,[])
  | todo + 1, i, pi =>
    if pi.nread = pi.nwrite then (i,pi,[])
    else
      let ch := pi.data (slot pipeSize pi.nread)
      if env.copyout (addr + BitVec.ofNat 64 i) ch = false then
        ((if i = 0 then -1 else i),pi,[])
      else
        let (r,pi',bytes) := pipereadCopy env addr todo (i + 1) { pi with nread := pi.nread + 1 }
        (r,pi',ch :: bytes)

/-- Where a process is: outside the pipe, or inside a call, asleep on the
call's channel or already awake and about to take `pi->lock` again. -/
inductive Frame where
  | idle
  | writing (call : Nat) (addr : BitVec 64) (n : Int) (i : Nat) (asleep : Bool)
  | reading (call : Nat) (addr : BitVec 64) (n : Int) (asleep : Bool)
  deriving DecidableEq

/-- The history of a run: bytes accepted from writers, bytes delivered to
readers, and the values the calls returned. -/
inductive Event where
  | accepted (call : Nat) (ch : Byte)
  | delivered (call : Nat) (ch : Byte)
  | wrote (call : Nat) (r : Int)
  | read (call : Nat) (n r : Int)
  deriving DecidableEq

structure State (P : Type*) where
  pipe : Pipe
  frames : P → Frame
  calls : Nat
  freed : Bool
  trace : List Event

inductive Label (P : Type*) where
  | write (p : P) (addr : BitVec 64) (n : Int) (env : Env)
  | writeAgain (p : P) (env : Env)
  | read (p : P) (addr : BitVec 64) (n : Int) (env : Env)
  | readAgain (p : P) (env : Env)
  | close (writable : Bool)
  | kkill (p : P)

variable {P : Type*} [DecidableEq P]

-- wakeup(&pi->nread) and wakeup(&pi->nwrite), on the frame of each process
def wakeReader : Frame → Frame
  | .reading call addr n _ => .reading call addr n false
  | frame => frame

def wakeWriter : Frame → Frame
  | .writing call addr n i _ => .writing call addr n i false
  | frame => frame

def pipewrite (s : State P) (p : P) (call : Nat) (addr : BitVec 64) (n : Int) (i : Nat)
    (env : Env) : State P :=
  let (out,pi,bytes) := pipewriteLoop env addr (n - i).toNat i s.pipe
  let stored := { s with pipe := pi, trace := s.trace ++ bytes.map (Event.accepted call) }
  match out with
  | .refused =>
    { stored with
      frames := update s.frames p .idle
      trace := stored.trace ++ [Event.wrote call (-1)] }
  | .full i =>
    { stored with
      frames := update (wakeReader ∘ s.frames) p (.writing call addr n i true) }
  | .left i =>
    { stored with
      frames := update (wakeReader ∘ s.frames) p .idle
      trace := stored.trace ++ [Event.wrote call i] }

def piperead (s : State P) (p : P) (call : Nat) (addr : BitVec 64) (n : Int) (env : Env) : State P :=
  if s.pipe.nread = s.pipe.nwrite ∧ s.pipe.writeopen = true then
    if env.killed 0 = true then
      { s with
        frames := update s.frames p .idle
        trace := s.trace ++ [Event.read call n (-1)] }
    else { s with frames := update s.frames p (.reading call addr n true) }
  else
    let (r,pi,bytes) := pipereadCopy env addr n.toNat 0 s.pipe
    { s with
      pipe := pi
      frames := update (wakeWriter ∘ s.frames) p .idle
      trace := s.trace ++ bytes.map (Event.delivered call) ++ [Event.read call n r] }

/-- pipeclose; the page goes back to kfree when both ends are closed. -/
def pipeclose (s : State P) (writable : Bool) : State P :=
  let pi := if writable then { s.pipe with writeopen := false }
    else { s.pipe with readopen := false }
  { s with
    pipe := pi
    frames := (if writable then wakeReader else wakeWriter) ∘ s.frames
    freed := !pi.readopen && !pi.writeopen }

def step (s : State P) : Label P → Option (State P)
  | .write p addr n env =>
    if s.freed = false ∧ s.frames p = .idle then
      some (pipewrite { s with calls := s.calls + 1 } p s.calls addr n 0 env)
    else none
  | .writeAgain p env =>
    match s.frames p with
    | .writing call addr n i false => if s.freed = false then some (pipewrite s p call addr n i env) else none
    | _ => none
  | .read p addr n env =>
    if s.freed = false ∧ s.frames p = .idle then
      some (piperead { s with calls := s.calls + 1 } p s.calls addr n env)
    else none
  | .readAgain p env =>
    match s.frames p with
    | .reading call addr n false => if s.freed = false then some (piperead s p call addr n env) else none
    | _ => none
  | .close writable =>
    if (if writable then s.pipe.writeopen else s.pipe.readopen) = true then some (pipeclose s writable)
    else none
  | .kkill p => some { s with frames := update s.frames p (wakeReader (wakeWriter (s.frames p))) }

/-- The pipe as pipealloc leaves it: the page's old contents stay in `data`. -/
def pipealloc (data : Fin pipeSize → Byte) : State P where
  pipe := ⟨data,0,0,true,true⟩
  frames := fun _ => .idle
  calls := 0
  freed := false
  trace := []

def system (P : Type*) [DecidableEq P] : System (State P) (Label P) where
  initial s := ∃ data, s = pipealloc data
  step s label s' := step s label = some s'

end Xv6.Pipes
