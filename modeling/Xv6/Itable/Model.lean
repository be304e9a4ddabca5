import Xv6.Fs.Calls
import Xv6.Lib.Count
import Xv6.Lib.Transition
import Mathlib.Tactic

/-! The inode table of fs.c at the granularity of its locks: a step is a stretch of
code under itable.lock, under the lock of a buffer, or one access of the holder
of an inode's lock. A handle is a variable that can hold a reference, in a call
of some process, in an open file or as a current directory; what is being done
with the reference is the handle's place. -/
namespace Xv6.Itable
open Lib
open Function (update)
open Fs (Attr Slot)

abbrev Key := Nat × Nat -- dev and inum

-- where the code is that uses a reference
inductive Stage
  | held -- between calls
  | loading -- in ilock, with the lock
  | locked -- after ilock
  | truncating -- in iput, before itrunc
  | clearing -- before ip->type = 0
  | writing -- before iupdate
  | invalidating -- before ip->valid = 0
  | unlocking -- before releasesleep
  | dropping -- before the second acquire of itable.lock
  deriving DecidableEq

inductive Place
  | idle
  | scanning (dev inum : Nat) (type : BitVec 16) -- in ialloc, before it looks at inum
  | marked (key : Key) -- in ialloc, before iget
  | on (stage : Stage) (ip : Slot)
  deriving DecidableEq

structure Inode (n : Nat) where
  key : Key
  ref : Int
  valid : Bool
  lock : Option (Fin n) -- the handle through which the lock was taken
  attr : Attr

/-- `live` says which inodes a live directory entry names. `given` and `born` are
history: the type that ialloc gave an inode that nobody has begun to free, and
the type that ialloc gave to the handle it filled. -/
structure State (n : Nat) where
  slot : Slot → Inode n
  disk : Key → Attr
  live : Key → Bool
  place : Fin n → Place
  given : Key → Option (BitVec 16)
  born : Fin n → Option (BitVec 16)

namespace State
variable {n : Nat}

def setSlot (s : State n) (ip : Slot) (inode : Inode n) : State n := { s with slot := update s.slot ip inode }

def setDisk (s : State n) (key : Key) (attr : Attr) : State n := { s with disk := update s.disk key attr }

def goto (s : State n) (h : Fin n) (place : Place) : State n := { s with place := update s.place h place }

def forget (s : State n) (h : Fin n) : State n := { s with born := update s.born h none }

def lookup (s : State n) (key : Key) : Option Slot :=
  (List.finRange ninode).find? fun ip => 0 < (s.slot ip).ref ∧ (s.slot ip).key = key

def unused (s : State n) : Option Slot := (List.finRange ninode).find? fun ip => (s.slot ip).ref = 0

-- none if it panics
def iget (s : State n) (h : Fin n) (key : Key) : Option (State n) :=
  match s.lookup key with
  | some ip => some ((s.setSlot ip { s.slot ip with ref := (s.slot ip).ref + 1 }).goto h (.on .held ip))
  | none =>
    match s.unused with
    | some ip => some ((s.setSlot ip { s.slot ip with key := key, ref := 1, valid := false }).goto h (.on .held ip))
    | none => none

-- iput up to its first release of itable.lock; a process that would sleep there has itable.lock
def iput (s : State n) (h : Fin n) (ip : Slot) : Option (State n) :=
  let inode := s.slot ip
  if inode.ref = 1 ∧ inode.valid = true ∧ inode.attr.nlink = 0 then
    if inode.lock.isSome then none
    else
      let s := { s with given := update s.given inode.key none }
      some (((s.setSlot ip { inode with lock := some h }).goto h (.on .truncating ip)).forget h)
  else some (((s.setSlot ip { inode with ref := inode.ref - 1 }).goto h .idle).forget h)

-- ialloc marks the inode that it has found free
def mark (s : State n) (h : Fin n) (key : Key) (type : BitVec 16) : State n :=
  let s := { s with given := update s.given key (some type), born := update s.born h (some type) }
  (s.setDisk key ⟨type,0,0,0⟩).goto h (.marked key)

-- the next step of a call that is in progress
def next (ninodes : Nat) (s : State n) (h : Fin n) : Option (State n) :=
  match s.place h with
  | .idle | .on .held _ | .on .locked _ => none
  | .scanning dev inum type =>
    if inum < ninodes then
      if (s.disk (dev,inum)).type = 0 then some (s.mark h (dev,inum) type)
      else some (s.goto h (.scanning dev (inum + 1) type))
    else some (s.goto h .idle)
  | .marked key => s.iget h key
  | .on .loading ip =>
    let inode := s.slot ip
    if inode.valid = true then some (s.goto h (.on .locked ip))
    else if (s.disk inode.key).type = 0 then none
    else some ((s.setSlot ip { inode with valid := true, attr := s.disk inode.key }).goto h (.on .locked ip))
  | .on .truncating ip => some ((s.setDisk (s.slot ip).key (s.slot ip).attr).goto h (.on .clearing ip))
  | .on .clearing ip =>
    some ((s.setSlot ip { s.slot ip with attr := { (s.slot ip).attr with type := 0 } }).goto h (.on .writing ip))
  | .on .writing ip => some ((s.setDisk (s.slot ip).key (s.slot ip).attr).goto h (.on .invalidating ip))
  | .on .invalidating ip => some ((s.setSlot ip { s.slot ip with valid := false }).goto h (.on .unlocking ip))
  | .on .unlocking ip => some ((s.setSlot ip { s.slot ip with lock := none }).goto h (.on .dropping ip))
  | .on .dropping ip => some ((s.setSlot ip { s.slot ip with ref := (s.slot ip).ref - 1 }).goto h .idle)

-- an entry that names the inode may be written: its links are counted on disk and in memory
def linked (s : State n) (key : Key) : Prop :=
  (s.disk key).type ≠ 0 ∧ (s.disk key).nlink ≠ 0 ∧
    ∀ ip, 0 < (s.slot ip).ref → (s.slot ip).key = key → (s.slot ip).valid = true → (s.slot ip).attr.nlink ≠ 0

instance (s : State n) (key : Key) : Decidable (s.linked key) := inferInstanceAs (Decidable (_ ∧ _))

end State

inductive Move (n : Nat)
  | iget (h : Fin n) (key : Key) -- with a number from a live directory entry
  | idup (h h' : Fin n)
  | ilock (h : Fin n)
  | iunlock (h : Fin n)
  | iput (h : Fin n)
  | ialloc (h : Fin n) (dev : Nat) (type : BitVec 16)
  | next (h : Fin n)
  | assign (h : Fin n) (attr : Attr) -- the holder of the lock changes major, minor or nlink
  | iupdate (h : Fin n)
  | enter (key : Key) -- a directory entry comes to name the inode
  | remove (key : Key) -- no directory entry names it any more

def step {n : Nat} (ninodes : Nat) (s : State n) : Move n → Option (State n)
  | .iget h key => if s.place h = .idle ∧ s.live key = true then s.iget h key else none
  | .idup h h' =>
    match s.place h, s.place h' with
    | .on stage ip, .idle =>
      if stage = .held ∨ stage = .loading ∨ stage = .locked then
        some ((s.setSlot ip { s.slot ip with ref := (s.slot ip).ref + 1 }).goto h' (.on .held ip))
      else none
    | _, _ => none
  | .ilock h =>
    match s.place h with
    | .on .held ip =>
      if (s.slot ip).ref < 1 ∨ (s.slot ip).lock.isSome then none
      else some ((s.setSlot ip { s.slot ip with lock := some h }).goto h (.on .loading ip))
    | _ => none
  | .iunlock h =>
    match s.place h with
    | .on .locked ip =>
      if (s.slot ip).ref < 1 then none
      else some ((s.setSlot ip { s.slot ip with lock := none }).goto h (.on .held ip))
    | _ => none
  | .iput h =>
    match s.place h with
    | .on .held ip => s.iput h ip
    | _ => none
  | .ialloc h dev type => if s.place h = .idle ∧ type ≠ 0 then some (s.goto h (.scanning dev 1 type)) else none
  | .next h => s.next ninodes h
  | .assign h attr =>
    match s.place h with
    | .on .locked ip =>
      if attr.type = (s.slot ip).attr.type ∧ (s.live (s.slot ip).key = true → attr.nlink ≠ 0) then
        some (s.setSlot ip { s.slot ip with attr := attr })
      else none
    | _ => none
  | .iupdate h =>
    match s.place h with
    | .on .locked ip => some (s.setDisk (s.slot ip).key (s.slot ip).attr)
    | _ => none
  | .enter key => if s.linked key then some { s with live := update s.live key true } else none
  | .remove key => some { s with live := update s.live key false }

-- iinit, on a disk whose live directory entries name linked inodes
structure Initial {n : Nat} (s : State n) : Prop where
  unused : ∀ ip, (s.slot ip).ref = 0 ∧ (s.slot ip).lock = none
  idle : ∀ h, s.place h = .idle
  live : ∀ key, s.live key = true → (s.disk key).type ≠ 0 ∧ (s.disk key).nlink ≠ 0
  given : ∀ key, s.given key = none
  born : ∀ h, s.born h = none

def table (n ninodes : Nat) : System (State n) (Move n) := .ofStep Initial (step ninodes)

end Xv6.Itable
