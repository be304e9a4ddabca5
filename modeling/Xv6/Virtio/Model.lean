import Xv6.Param
import Xv6.Lib.Ring
import Xv6.Lib.Transition
import Mathlib.Data.List.FinRange

/-! The driver of virtio_disk.c and a device that completes the requests it is
given, each once, in any order and at any time. The three rings are shared: the
device may act between any two steps of the driver. A step of the driver is a
stretch of code under `vdisk_lock` that ends where the device can see a write, at
a sleep or at the release. A sleep may return at any time. -/
namespace Xv6.Virtio
open Lib Lib.Ring Function

def num : Nat := 8

instance : NeZero num := ⟨by decide⟩

variable {P B : Type} [DecidableEq P] [DecidableEq B]

-- the addresses that the driver puts into descriptors
inductive Addr (B : Type) where
  | null
  | ops (i : Fin num)
  | data (b : B)
  | status (i : Fin num)
  deriving DecidableEq

structure Desc (B : Type) where
  addr : Addr B
  len : BitVec 32
  flags : BitVec 16
  next : BitVec 16

def vringDescFNext : BitVec 16 := 1

def vringDescFWrite : BitVec 16 := 2

-- struct virtio_blk_req
structure Request where
  type_ : BitVec 32
  reserved : BitVec 32
  sector : BitVec 64
  deriving DecidableEq

def virtioBlkTIn : BitVec 32 := 0

def virtioBlkTOut : BitVec 32 := 1

structure Info (B : Type) where
  b : Option B
  status : BitVec 8

/-- struct disk and the memory it points to. `usedIdx` is the device's
disk.used->idx, `driverIdx` the driver's own disk.used_idx. -/
structure Disk (B : Type) where
  desc : Fin num → Desc B
  availIdx : BitVec 16
  availRing : Fin num → BitVec 16
  usedIdx : BitVec 16
  usedRing : Fin num → BitVec 32
  free : Fin num → Bool
  driverIdx : BitVec 16
  info : Fin num → Info B
  ops : Fin num → Request

inductive Panic where
  | freeDesc1
  | freeDesc2
  | intrStatus
  deriving DecidableEq

def allocDesc (d : Disk B) : Option (Fin num × Disk B) :=
  ((List.finRange num).find? fun i => d.free i).map fun i => (i,{ d with free := update d.free i false })

def freeDesc (d : Disk B) (i : Nat) : Except Panic (Disk B) :=
  if inside : i < num then
    if d.free ⟨i,inside⟩ then .error .freeDesc2
    else
      .ok { d with
        desc := update d.desc ⟨i,inside⟩ ⟨.null,0,0,0⟩
        free := update d.free ⟨i,inside⟩ true }
  else .error .freeDesc1

-- every round frees a descriptor that was not free, so the fuel NUM + 1 is enough
def freeChain : Nat → Disk B → Nat → Except Panic (Disk B)
  | 0, d, _ => .ok d
  | fuel + 1, d, i =>
    let desc := if inside : i < num then d.desc ⟨i,inside⟩ else ⟨.null,0,0,0⟩
    match freeDesc d i with
    | .error why => .error why
    | .ok d => if desc.flags &&& vringDescFNext ≠ 0 then freeChain fuel d desc.next.toNat else .ok d

structure Chain where
  head : Fin num
  body : Fin num
  tail : Fin num
  deriving DecidableEq

-- alloc3_desc: the three rounds of its loop, with the descriptors to give back when one fails
def alloc3Desc (d : Disk B) : Except Panic (Option Chain × Disk B) :=
  match allocDesc d with
  | none => .ok (none,d)
  | some (i,d) =>
    match allocDesc d with
    | none => (freeDesc d i).map fun d => (none,d)
    | some (j,d) =>
      match allocDesc d with
      | none => ((freeDesc d i).bind fun d => freeDesc d j).map fun d => (none,d)
      | some (k,d) => .ok (some ⟨i,j,k⟩,d)

-- uint64 sector = b->blockno * (BSIZE / 512), a product of 32-bit numbers
def sector (blockno : BitVec 32) : BitVec 64 := (blockno * BitVec.ofNat 32 (bsize / 512)).setWidth 64

-- the request of b, formatted in its three descriptors
def format (blockno : BitVec 32) (d : Disk B) (b : B) (write : Bool) (idx : Chain) : Disk B :=
  let head : Desc B := ⟨.ops idx.head,16,vringDescFNext,BitVec.ofNat 16 idx.body⟩
  let body : Desc B := ⟨.data b,BitVec.ofNat 32 bsize,(if write then 0 else vringDescFWrite) ||| vringDescFNext,
    BitVec.ofNat 16 idx.tail⟩
  let tail : Desc B := ⟨.status idx.head,1,vringDescFWrite,0⟩
  { d with
    ops := update d.ops idx.head ⟨if write then virtioBlkTOut else virtioBlkTIn,0,sector blockno⟩
    desc := update (update (update d.desc idx.head head) idx.body body) idx.tail tail
    info := update d.info idx.head ⟨some b,0xff⟩ }

/-- A request of virtio_disk_rw that has its descriptors. `since` counts the
completions of the device before it was formatted. -/
structure Job (B : Type) where
  b : B
  write : Bool
  idx : Chain
  since : Nat

inductive Pc (B : Type) where
  | idle
  | enter (b : B) (write : Bool)
  | alloc (b : B) (write : Bool)
  | allocSleep (b : B) (write : Bool)
  | ring (job : Job B)
  | bump (job : Job B)
  | wait (job : Job B)
  | waitSleep (job : Job B)

inductive Holder (P : Type) where
  | process (p : P)
  | handler
  deriving DecidableEq

inductive Handler where
  | test
  | body
  deriving DecidableEq

-- a request as the device has read and carried it out
structure Completion (B : Type) where
  head : Fin num
  type_ : BitVec 32
  sector : BitVec 64
  buffer : B
  writes : Bool -- to the buffer
  deriving DecidableEq

structure State (P B : Type) where
  disk : Disk B
  bdisk : B → Bool -- b->disk
  holder : B → Option P -- of b->lock
  lock : Option (Holder P) -- vdisk_lock
  pc : P → Pc B
  handler : Option Handler -- virtio_disk_intr
  seen : BitVec 16 -- how far the device has read the avail ring
  busy : List (Fin num) -- what it has read and not completed
  done : List (Completion B)
  delivered : List B -- the buffers virtio_disk_intr has passed completions on to
  panicked : Option Panic

inductive Label (P B : Type) where
  | acquiresleep (p : P) (b : B)
  | releasesleep (p : P) (b : B)
  | rw (p : P) (b : B) (write : Bool)
  | run (p : P)
  | interrupt
  | handle
  | consume
  | complete (head : Fin num)

variable (blockno : B → BitVec 32)

namespace State
variable (s : State P B) (p : P)

def goto (pc : Pc B) : State P B := { s with pc := update s.pc p pc }

-- acquire(&disk.vdisk_lock), or the return of a sleep
def take (pc : Pc B) : Option (State P B) :=
  if s.lock = none then some ({ s with lock := some (.process p) }.goto p pc) else none

-- release(&disk.vdisk_lock), also the one in sleep
def drop (pc : Pc B) : State P B := { s with lock := none }.goto p pc

end State

def rwAlloc (s : State P B) (p : P) (b : B) (write : Bool) : State P B :=
  match alloc3Desc s.disk with
  | .error why => { s with panicked := some why }
  | .ok (none,d) => { s with disk := d }.drop p (.allocSleep b write)
  | .ok (some idx,d) =>
    { s with disk := format (blockno b) d b write idx, bdisk := update s.bdisk b true }.goto p
      (.ring ⟨b,write,idx,s.done.length⟩)

-- the end of virtio_disk_rw
def rwFinish (s : State P B) (p : P) (job : Job B) : State P B :=
  let head := job.idx.head
  let d := { s.disk with info := update s.disk.info head { s.disk.info head with b := none } }
  match freeChain (num + 1) d head with
  | .error why => { s with panicked := some why }
  | .ok d => { s with disk := d }.drop p .idle

def run (s : State P B) (p : P) : Option (State P B) :=
  match s.pc p with
  | .idle => none
  | .enter b write => s.take p (.alloc b write)
  | .alloc b write => some (rwAlloc blockno s p b write)
  | .allocSleep b write => s.take p (.alloc b write)
  | .ring job =>
    let ring := update s.disk.availRing (slot num s.disk.availIdx) (BitVec.ofNat 16 job.idx.head)
    some ({ s with disk := { s.disk with availRing := ring } }.goto p (.bump job))
  | .bump job => some ({ s with disk := { s.disk with availIdx := s.disk.availIdx + 1 } }.goto p (.wait job))
  | .wait job => if s.bdisk job.b then some (s.drop p (.waitSleep job)) else some (rwFinish s p job)
  | .waitSleep job => s.take p (.wait job)

-- virtio_disk_intr's loop
def handle (s : State P B) : Option (State P B) :=
  match s.handler with
  | none => none
  | some .test =>
    if s.disk.driverIdx ≠ s.disk.usedIdx then some { s with handler := some .body }
    else some { s with handler := none, lock := none }
  | some .body =>
    let id := (s.disk.usedRing (slot num s.disk.driverIdx)).toNat
    if inside : id < num then
      if (s.disk.info ⟨id,inside⟩).status ≠ 0 then some { s with panicked := some .intrStatus }
      else
        (s.disk.info ⟨id,inside⟩).b.map fun b =>
          { s with
            bdisk := update s.bdisk b false
            delivered := s.delivered ++ [b]
            disk := { s.disk with driverIdx := s.disk.driverIdx + 1 }
            handler := some .test }
    else none

-- what the device finds when it follows a chain, and where it writes the status
def request (d : Disk B) (head : Fin num) : Option (Completion B × Fin num) :=
  let first := d.desc head
  let second := if inside : first.next.toNat < num then d.desc ⟨first.next.toNat,inside⟩ else ⟨.null,0,0,0⟩
  let third := if inside : second.next.toNat < num then d.desc ⟨second.next.toNat,inside⟩ else ⟨.null,0,0,0⟩
  match first.addr, second.addr, third.addr with
  | .ops i, .data b, .status j =>
    some (⟨head,(d.ops i).type_,(d.ops i).sector,b,decide (second.flags &&& vringDescFWrite ≠ 0)⟩,j)
  | _, _, _ => none

def complete (s : State P B) (head : Fin num) : Option (State P B) :=
  if head ∈ s.busy then
    (request s.disk head).map fun (completion,i) =>
      { s with
        busy := s.busy.erase head
        done := s.done ++ [completion]
        disk := { s.disk with
          info := update s.disk.info i { s.disk.info i with status := 0 }
          usedRing := update s.disk.usedRing (slot num s.disk.usedIdx) (BitVec.ofNat 32 head)
          usedIdx := s.disk.usedIdx + 1 } }
  else none

-- the device takes the next chain head from the avail ring
def consume (s : State P B) : Option (State P B) :=
  if s.seen = s.disk.availIdx then none
  else
    let head := (s.disk.availRing (slot num s.seen)).toNat
    if inside : head < num then some { s with seen := s.seen + 1, busy := s.busy ++ [⟨head,inside⟩] } else none

def step (s : State P B) : Label P B → Option (State P B)
  | .acquiresleep p b => if s.holder b = none then some { s with holder := update s.holder b (some p) } else none
  | .releasesleep p b =>
    match s.pc p with
    | .idle => if s.holder b = some p then some { s with holder := update s.holder b none } else none
    | _ => none
  | .rw p b write =>
    -- bread and bwrite hold b->lock
    match s.pc p with
    | .idle => if s.holder b = some p then some (s.goto p (.enter b write)) else none
    | _ => none
  | .run p => if s.panicked = none then run blockno s p else none
  | .interrupt => if s.lock = none then some { s with lock := some .handler, handler := some .test } else none
  | .handle => if s.panicked = none then handle s else none
  | .consume => consume s
  | .complete head => complete s head

-- after virtio_disk_init
def initial : State P B where
  disk :=
    { desc := fun _ => ⟨.null,0,0,0⟩
      availIdx := 0
      availRing := fun _ => 0
      usedIdx := 0
      usedRing := fun _ => 0
      free := fun _ => true
      driverIdx := 0
      info := fun _ => ⟨none,0⟩
      ops := fun _ => ⟨0,0,0⟩ }
  bdisk := fun _ => false
  holder := fun _ => none
  lock := none
  pc := fun _ => .idle
  handler := none
  seen := 0
  busy := []
  done := []
  delivered := []
  panicked := none

def system (P : Type) [DecidableEq P] (blockno : B → BitVec 32) : System (State P B) (Label P B) :=
  .ofStep (· = initial) (step blockno)

end Xv6.Virtio
