import Xv6.Param
import Xv6.Lib.Bytes
import Mathlib.Logic.Function.Basic

/-! The redo log of log.c over the buffer cache of bio.c and a disk of blocks.
Every `bwrite` is recorded in issue order, so that a crash between two block
writes is a prefix of that record. Which clean, unpinned buffer bget recycles at
a miss is left open. -/
namespace Xv6.Log
open Lib.Bytes Function

abbrev Block := Nat → Byte

abbrev Disk := Nat → Block

structure LogHeader where
  n : BitVec 32
  block : Nat → BitVec 32

structure Kernel where
  disk : Disk
  issued : List (Nat × Block) -- block writes, oldest first
  buf : Nat → Option Block -- the valid buffers of the cache
  pins : Nat → Nat -- references taken by bpin
  misses : Nat
  recycle : Nat → Nat -- whose buffer bget recycles at each miss, if nothing pins it
  start : Nat
  lh : LogHeader

/-- bread: the cached contents, or the disk's after recycling a buffer. -/
def bread (k : Kernel) (b : Nat) : Block × Kernel :=
  match k.buf b with
  | some data => (data,k)
  | none =>
    let victim := k.recycle k.misses
    let buf := if k.pins victim = 0 then update k.buf victim none else k.buf
    (k.disk b,{ k with buf := update buf b (some (k.disk b)), misses := k.misses + 1 })

def bwrite (k : Kernel) (b : Nat) (data : Block) : Kernel :=
  { k with
    disk := update k.disk b data
    issued := k.issued ++ [(b,data)]
    buf := update k.buf b (some data) }

def bpin (k : Kernel) (b : Nat) : Kernel := { k with pins := update k.pins b (k.pins b + 1) }

def bunpin (k : Kernel) (b : Nat) : Kernel := { k with pins := update k.pins b (k.pins b - 1) }

/-- The iterations of a loop `for(tail = 0; tail < log.lh.n; tail++)`. -/
def LogHeader.count (lh : LogHeader) : Nat := lh.n.toInt.toNat

def installTransLoop (recovering : Bool) : Nat → Nat → Kernel → Kernel
  | 0, _, k => k
  | todo + 1, tail, k =>
    let (lbuf,k) := bread k (k.start + tail + 1)
    let dst := (k.lh.block tail).toNat
    let (_,k) := bread k dst
    let k := bwrite k dst lbuf
    let k := if recovering then k else bunpin k dst
    installTransLoop recovering todo (tail + 1) k

def installTrans (recovering : Bool) (k : Kernel) : Kernel := installTransLoop recovering k.lh.count 0 k

def readHead (k : Kernel) : Kernel :=
  let (buf,k) := bread k k.start
  let n := get32 buf 0
  { k with lh := ⟨n,fun i => if (i : Int) < n.toInt then get32 buf (i + 1) else k.lh.block i⟩ }

def putBlocks (lh : LogHeader) : Nat → Block → Block
  | 0, data => data
  | i + 1, data => set32 (putBlocks lh i data) (i + 1) (lh.block i)

/-- Write the in-memory header to disk: the point at which a transaction commits. -/
def writeHead (k : Kernel) : Kernel :=
  let (buf,k) := bread k k.start
  bwrite k k.start (putBlocks k.lh k.lh.count (set32 buf 0 k.lh.n))

def writeLogLoop : Nat → Nat → Kernel → Kernel
  | 0, _, k => k
  | todo + 1, tail, k =>
    let (_,k) := bread k (k.start + tail + 1)
    let (src,k) := bread k (k.lh.block tail).toNat
    writeLogLoop todo (tail + 1) (bwrite k (k.start + tail + 1) src)

def writeLog (k : Kernel) : Kernel := writeLogLoop k.lh.count 0 k

def clearHead (k : Kernel) : Kernel := { k with lh := { k.lh with n := 0 } }

def commit (k : Kernel) : Kernel :=
  if 0 < k.lh.n.toInt then writeHead (clearHead (installTrans false (writeHead (writeLog k)))) else k

def recoverFromLog (k : Kernel) : Kernel := writeHead (clearHead (installTrans true (readHead k)))

def modify (k : Kernel) (b : Nat) (data : Block) : Kernel :=
  let k := (bread k b).2
  { k with buf := update k.buf b (some data) }

/-- The end of log_write for a block that is not in the log yet. -/
def logAppend (k : Kernel) (b : BitVec 32) : Kernel :=
  let k := bpin k b.toNat
  { k with lh := ⟨k.lh.n + 1,update k.lh.block k.lh.count b⟩ }

/-- A client's `bread; modify; log_write; brelse` of one block inside a
transaction; `none` is the panic "too big a transaction". -/
def logWrite (k : Kernel) (b : BitVec 32) (data : Block) : Option Kernel :=
  let k := modify k b.toNat data
  if (logBlocks : Int) ≤ k.lh.n.toInt then none
  else if ∃ i < k.lh.count, k.lh.block i = b then some k
  else some (logAppend k b)

/-- The kernel just after a reboot: nothing cached, the log structure zero. -/
def boot (disk : Disk) (start : Nat) (recycle : Nat → Nat) : Kernel where
  disk := disk
  issued := []
  buf := fun _ => none
  pins := fun _ => 0
  misses := 0
  recycle := recycle
  start := start
  lh := ⟨0,fun _ => 0⟩

def applyWrites (writes : List (Nat × Block)) (disk : Disk) : Disk :=
  writes.foldl (fun disk write => update disk write.1 write.2) disk

/-- The disk when power fails after the first `cut` writes issued on the way
from kernel `k` to kernel `k'`. -/
def crashDisk (k k' : Kernel) (cut : Nat) : Disk :=
  applyWrites ((k'.issued.drop k.issued.length).take cut) k.disk

/-- Any number of crashes inside recover_from_log, one after the other. -/
inductive Crashes (start : Nat) : Disk → Disk → Prop
  | none (disk : Disk) : Crashes start disk disk
  | again (disk disk' : Disk) (recycle : Nat → Nat) (cut : Nat) (before : Crashes start disk disk') :
      Crashes start disk
        (crashDisk (boot disk' start recycle) (recoverFromLog (boot disk' start recycle)) cut)

def headerCount (disk : Disk) (start : Nat) : BitVec 32 := get32 (disk start) 0

/-- The header block and the `LOGBLOCKS` data blocks of the log. -/
def logArea (start b : Nat) : Prop := start ≤ b ∧ b ≤ start + logBlocks

end Xv6.Log
