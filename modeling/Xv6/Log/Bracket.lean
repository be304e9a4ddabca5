import Xv6.Param
import Xv6.Lib.Transition
import Mathlib

/-! Concurrent brackets `begin_op; log_write*; end_op` of log.c. A step is one
critical section under `log.lock`, or one stage of commit(), which runs without
the lock. Sleeping on `&log` and being woken are separate states, so that a
woken process competes for the lock again; kkill may wake a sleeper too. -/
namespace Xv6.Bracket
open Lib

-- the stages of commit(): before write_log, after it, after the header write
-- that commits, after install_trans, with lh.n cleared, and after the last write_head
inductive Stage where
  | begun
  | logged
  | headed
  | moved
  | cleared
  | done
  deriving DecidableEq

inductive Pc where
  | out
  | entering
  | asleep
  | inside (op : Nat)
  | committing (stage : Stage)
  deriving DecidableEq

inductive Panic where
  | logCommitting
  | outsideOfTrans
  | tooBig
  deriving DecidableEq

/-- One log_write: the bracket, the block, and the number of transactions
committed before it. -/
structure Write where
  op : Nat
  block : BitVec 32
  txn : Nat
  deriving DecidableEq

structure State (P : Type*) where
  outstanding : Int
  committing : Bool
  lh : List (BitVec 32) -- lh.block[0..lh.n)
  pc : P → Pc
  panicked : Option Panic
  ops : Nat -- brackets begun so far
  writes : List Write -- history of log_writes
  history : List (List (BitVec 32)) -- block lists of the committed transactions

inductive Label (P : Type*) where
  | call (p : P)
  | beginOp (p : P)
  | kkill (p : P)
  | logWrite (p : P) (b : BitVec 32)
  | endOp (p : P)
  | commit (p : P)
  | finish (p : P)

variable {P : Type*} [DecidableEq P]

def wake : Pc → Pc
  | .asleep => .entering
  | pc => pc

def State.goto (s : State P) (p : P) (pc : Pc) : State P := { s with pc := Function.update s.pc p pc }

/-- wakeup(&log) -/
def wakeup (s : State P) : State P := { s with pc := wake ∘ s.pc }

-- one iteration of begin_op's loop, under log.lock
def beginOp (s : State P) (p : P) : State P :=
  if s.committing = true then s.goto p .asleep
  else if (logBlocks : Int) < s.lh.length + (s.outstanding + 1) * maxOpBlocks then s.goto p .asleep
  else { s.goto p (.inside s.ops) with outstanding := s.outstanding + 1, ops := s.ops + 1 }

def logWrite (s : State P) (op : Nat) (b : BitVec 32) : State P :=
  if logBlocks ≤ s.lh.length then { s with panicked := some .tooBig }
  else if s.outstanding < 1 then { s with panicked := some .outsideOfTrans }
  else
    { s with
      lh := if b ∈ s.lh then s.lh else s.lh ++ [b]
      writes := s.writes ++ [⟨op,b,s.history.length⟩] }

def endOp (s : State P) (p : P) : State P :=
  let s := { s with outstanding := s.outstanding - 1 }
  if s.committing = true then { s with panicked := some .logCommitting }
  else if s.outstanding = 0 then { s.goto p (.committing .begun) with committing := true }
  else (wakeup s).goto p .out

-- the next stage of commit(); with lh.n = 0 it does nothing at all
def commit (s : State P) (p : P) : Stage → State P
  | .begun => if 0 < s.lh.length then s.goto p (.committing .logged) else s.goto p (.committing .done)
  | .logged => { s.goto p (.committing .headed) with history := s.history ++ [s.lh] }
  | .headed => s.goto p (.committing .moved)
  | .moved => { s.goto p (.committing .cleared) with lh := [] }
  | .cleared => s.goto p (.committing .done)
  | .done => s

-- the last critical section of end_op
def finish (s : State P) (p : P) : State P := (wakeup { s with committing := false }).goto p .out

def step (s : State P) (label : Label P) : Option (State P) :=
  if s.panicked ≠ none then none
  else match label with
    | .call p => if s.pc p = .out then some (s.goto p .entering) else none
    | .beginOp p => if s.pc p = .entering then some (beginOp s p) else none
    | .kkill p => some (s.goto p (wake (s.pc p)))
    | .logWrite p b =>
      match s.pc p with
      | .inside op => some (logWrite s op b)
      | _ => none
    | .endOp p =>
      match s.pc p with
      | .inside _ => some (endOp s p)
      | _ => none
    | .commit p =>
      match s.pc p with
      | .committing stage => if stage = .done then none else some (commit s p stage)
      | _ => none
    | .finish p => if s.pc p = .committing .done then some (finish s p) else none

-- after initlog: the recovered log is empty and nobody is in a bracket
def initlog : State P where
  outstanding := 0
  committing := false
  lh := []
  pc := fun _ => .out
  panicked := none
  ops := 0
  writes := []
  history := []

def system (P : Type*) [DecidableEq P] : System (State P) (Label P) := .ofStep (· = initlog) step

end Xv6.Bracket
