import Xv6.Bcache.Model
import Xv6.Lib.Transition
import Mathlib.Data.Fintype.Sum

/-! Clients of the buffer cache under the discipline `bread; (modify; log_write);
brelse`, with commits in between. A step is one critical section under
bcache.lock or log.lock, or one use of a buffer whose sleep-lock is held. A
process that holds several buffers is several clients. Which unused buffer bget
recycles is left open; commit() runs while no client has unlogged changes, and
clients may read all the time. -/
namespace Xv6.Bcache
open Lib Function
open Log (Block Disk logArea)

-- where one bracket of bread and brelse is
inductive Use where
  | idle
  | waiting (i : BufId) (b : Nat) -- counted in refcnt, about to take the sleep-lock
  | holding (i : BufId) (b : Nat) (dirty : Bool) -- dirty: changed since the last log_write
  | releasing (i : BufId) (b : Nat) -- the sleep-lock is free again
  deriving DecidableEq

-- the clients, and commit()'s two buffers: of the log (false) and of a home block (true)
abbrev Party (P : Type*) := P ⊕ Bool

-- where commit() is: before and after the bwrite of each block
inductive Stage where
  | none
  | log (tail : Nat)
  | logged (tail : Nat)
  | head
  | headed
  | install (tail : Nat)
  | installed (tail : Nat)
  | clear
  | cleared
  deriving DecidableEq

-- what clients see: the contents bread returned, and those passed to log_write
inductive Event where
  | read (b : Nat) (data : Block)
  | wrote (b : Nat) (data : Block)

structure State (P : Type*) where
  disk : Disk
  cache : Cache
  lh : List Nat -- lh.block[0..lh.n)
  use : Party P → Use
  stage : Stage
  trace : List Event
  pins : Nat → Nat -- calls of bpin and bunpin, by block
  unpins : Nat → Nat

inductive Label (P : Type*) where
  | get (h : Party P) (b : Nat) (victim : BufId)
  | acquire (h : Party P)
  | modify (p : P) (data : Block)
  | logWrite (p : P)
  | unlock (h : Party P)
  | unref (h : Party P)
  | commit
  | work
  | next

variable {P : Type*} [DecidableEq P]

def State.goto (s : State P) (h : Party P) (use : Use) : State P := { s with use := update s.use h use }

def Stage.before : Stage → Bool
  | .log _ | .head | .install _ | .clear => true
  | _ => false

-- the block that commit() reads into each of its buffers
def wants (start : Nat) (s : State P) (home : Bool) : Option Nat :=
  match s.stage with
  | .log tail | .logged tail | .install tail | .installed tail => if home then s.lh[tail]? else some (start + tail + 1)
  | .head | .headed | .clear | .cleared => if home then none else some start
  | .none => none

def Use.isHolding : Use → Bool
  | .holding _ _ _ => true
  | _ => false

-- clients ask for home blocks; commit() reads the block of the log first
def Asks (start : Nat) (s : State P) (b : Nat) : Party P → Prop
  | .inl _ => ¬logArea start b
  | .inr home => s.stage.before = true ∧ wants start s home = some b ∧
      (home = true → (s.use (.inr false)).isHolding = true)

instance (start b : Nat) : Decidable (logArea start b) := inferInstanceAs (Decidable (_ ∧ _))

instance (start : Nat) (s : State P) (b : Nat) (h : Party P) : Decidable (Asks start s b h) :=
  match h with
  | .inl _ => inferInstanceAs (Decidable (¬_))
  | .inr _ => inferInstanceAs (Decidable (_ ∧ _ ∧ (_ → _)))

-- bget, up to acquiresleep
def get (start : Nat) (s : State P) (h : Party P) (b : Nat) (victim : BufId) : Option (State P) :=
  if s.use h = .idle ∧ Asks start s b h ∧ ((s.cache.find b).isSome ∨ (s.cache.buf victim).refcnt = 0) then
    match s.cache.bgetWith b (some victim) with
    | .ok (i,cache) => some ({ s with cache := cache }.goto h (.waiting i b))
    | .error _ => none
  else none

-- the return of bread to a client
def returned (h : Party P) (b : Nat) (data : Block) : List Event :=
  match h with
  | .inl _ => [.read b data]
  | .inr _ => []

-- acquiresleep, and the read from disk if the buffer is not valid
def acquire (s : State P) (h : Party P) : Option (State P) :=
  match s.use h with
  | .waiting i b =>
    match s.cache.acquiresleep i with
    | .ok cache =>
      let cache := cache.fill s.disk i b
      some ({ s with cache := cache, trace := s.trace ++ returned h b (cache.buf i).data }.goto h (.holding i b false))
    | .error _ => none
  | _ => none

def modify (s : State P) (p : P) (data : Block) : Option (State P) :=
  match s.use (.inl p) with
  | .holding i b _ =>
    if s.stage = .none then some ({ s with cache := s.cache.setData i data }.goto (.inl p) (.holding i b true)) else none
  | _ => none

-- a full log panics
def logWrite (s : State P) (p : P) : Option (State P) :=
  match s.use (.inl p) with
  | .holding i b _ =>
    if s.stage = .none ∧ s.lh.length < logBlocks then
      let s := { s with trace := s.trace ++ [Event.wrote b (s.cache.buf i).data] }.goto (.inl p) (.holding i b false)
      if b ∈ s.lh then some s
      else some { s with
        cache := s.cache.addRef i 1
        lh := s.lh ++ [b]
        pins := update s.pins b (s.pins b + 1) }
    else none
  | _ => none

-- brelse: releasesleep, for a client with nothing unlogged and for commit() after its bwrite
def unlock (s : State P) (h : Party P) : Option (State P) :=
  match s.use h with
  | .holding i b false =>
    if h.isLeft = true ∨ s.stage.before = false then
      some ({ s with cache := s.cache.releasesleep i }.goto h (.releasing i b))
    else none
  | _ => none

-- brelse: the rest, under bcache.lock
def unref (s : State P) (h : Party P) : Option (State P) :=
  match s.use h with
  | .releasing i _ => some ({ s with cache := s.cache.unref i }.goto h .idle)
  | _ => none

def Use.isDirty : Use → Bool
  | .holding _ _ dirty => dirty
  | _ => false

-- commit() begins; with lh.n = 0 it does nothing
def commit [Fintype P] (s : State P) : Option (State P) :=
  if s.stage = .none ∧ 0 < s.lh.length ∧ ∀ p, (s.use (.inl p)).isDirty = false then some { s with stage := .log 0 }
  else none

-- commit() copies to a buffer that it holds, and writes it to the disk
def work (s : State P) : Option (State P) :=
  match s.stage, s.use (.inr false), s.use (.inr true) with
  | .log tail, .holding i b _, .holding j _ _ => some { s with
      disk := update s.disk b (s.cache.buf j).data
      cache := s.cache.setData i (s.cache.buf j).data
      stage := .logged tail }
  | .install tail, .holding i _ _, .holding j b _ => some { s with
      disk := update s.disk b (s.cache.buf i).data
      cache := (s.cache.setData j (s.cache.buf i).data).addRef j (-1)
      stage := .installed tail
      unpins := update s.unpins b (s.unpins b + 1) }
  | .head, .holding i b _, _ =>
    let data := Kernel.headBlock (s.lh.map (BitVec.ofNat 32)) (s.cache.buf i).data
    some { s with disk := update s.disk b data, cache := s.cache.setData i data, stage := .headed }
  | .clear, .holding i b _, _ =>
    let data := Kernel.headBlock (s.lh.map (BitVec.ofNat 32)) (s.cache.buf i).data
    some { s with disk := update s.disk b data, cache := s.cache.setData i data, stage := .cleared }
  | _, _, _ => none

-- commit() goes on once it has released its buffers
def next (s : State P) : Option (State P) :=
  if s.use (.inr false) = .idle ∧ s.use (.inr true) = .idle then
    match s.stage with
    | .logged tail => some { s with stage := if tail + 1 < s.lh.length then .log (tail + 1) else .head }
    | .headed => some { s with stage := .install 0 }
    | .installed tail =>
      if tail + 1 < s.lh.length then some { s with stage := .install (tail + 1) }
      else some { s with stage := .clear, lh := [] }
    | .cleared => some { s with stage := .none }
    | _ => none
  else none

def step [Fintype P] (start : Nat) (s : State P) : Label P → Option (State P)
  | .get h b victim => get start s h b victim
  | .acquire h => acquire s h
  | .modify p data => modify s p data
  | .logWrite p => logWrite s p
  | .unlock h => unlock s h
  | .unref h => unref s h
  | .commit => commit s
  | .work => work s
  | .next => next s

-- after binit: no buffer has a block yet
def binit : Cache where
  buf := fun _ => ⟨none,false,false,0,fun _ => 0⟩
  lru := (List.finRange nbuf).reverse
  whole := by simp
  unique := by simp

def boot (disk : Disk) : State P where
  disk := disk
  cache := binit
  lh := []
  use := fun _ => .idle
  stage := .none
  trace := []
  pins := fun _ => 0
  unpins := fun _ => 0

def system (P : Type*) [DecidableEq P] [Fintype P] (disk : Disk) (start : Nat) : System (State P) (Label P) :=
  .ofStep (· = boot disk) (step start)

/-! The flat store that the cache and the log together are. -/

def flat (disk : Disk) (trace : List Event) : Disk :=
  trace.foldl (fun store event => match event with
    | .read _ _ => store
    | .wrote b data => update store b data) disk

-- the traces of a store of blocks: a read returns what the last write of its block stored
inductive FlatTrace (disk : Disk) : List Event → Prop
  | start : FlatTrace disk []
  | read (trace : List Event) (b : Nat) (before : FlatTrace disk trace) :
      FlatTrace disk (trace ++ [.read b (flat disk trace b)])
  | wrote (trace : List Event) (b : Nat) (data : Block) (before : FlatTrace disk trace) :
      FlatTrace disk (trace ++ [.wrote b data])

end Xv6.Bcache
