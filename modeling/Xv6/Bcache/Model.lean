import Xv6.Log.Model
import Mathlib.Data.List.Basic
import Mathlib.Data.Fintype.Basic

/-! The buffer cache of bio.c with its NBUF buffers in order of use, and the
commit of log.c on top of it. The linked list through prev and next is a list of
buffers that always has all of them, and two buffers never hold the same block.
All callers ask for device ROOTDEV. -/
namespace Xv6.Bcache
open Function
open Log (Block Disk)

def nbuf : Nat := maxOpBlocks * 3 -- NBUF, the buffers of the cache

abbrev BufId := Fin nbuf

structure Buf where
  block : Option Nat -- blockno; none while dev is still 0, for which nobody asks
  valid : Bool
  locked : Bool
  refcnt : Int
  data : Block

structure Cache where
  buf : BufId → Buf
  lru : List BufId -- from head.next on: the most recently used first
  whole : ∀ i, i ∈ lru
  unique : ∀ i j b, (buf i).block = some b → (buf j).block = some b → i = j

inductive Stop where
  | noBuffers
  | bwrite
  | brelse
  | asleep
  deriving DecidableEq, Repr

namespace Cache

def set (c : Cache) (i : BufId) (value : Buf) (same : value.block = (c.buf i).block) : Cache where
  buf := update c.buf i value
  lru := c.lru
  whole := c.whole
  unique := by
    have blocks : ∀ j, (update c.buf i value j).block = (c.buf j).block := by
      intro j
      by_cases isMe : j = i
      · rw [isMe,update_self,same]
      · rw [update_of_ne isMe]
    intro j k b first second
    rw [blocks] at first second
    exact c.unique j k b first second

def addRef (c : Cache) (i : BufId) (amount : Int) : Cache :=
  c.set i { c.buf i with refcnt := (c.buf i).refcnt + amount } rfl

-- the buffer gets another block, which is not in the cache
def recycle (c : Cache) (i : BufId) (b : Nat) (absent : ∀ j, (c.buf j).block ≠ some b) : Cache where
  buf := update c.buf i { c.buf i with block := some b, valid := false, refcnt := 1 }
  lru := c.lru
  whole := c.whole
  unique := by
    intro j k b' first second
    by_cases isFirst : j = i <;> by_cases isSecond : k = i
    · rw [isFirst,isSecond]
    · rw [isFirst,update_self] at first
      rw [update_of_ne isSecond] at second
      exact absurd (second.trans first.symm) (absent k)
    · rw [update_of_ne isFirst] at first
      rw [isSecond,update_self] at second
      exact absurd (first.trans second.symm) (absent j)
    · rw [update_of_ne isFirst] at first
      rw [update_of_ne isSecond] at second
      exact c.unique j k b' first second

-- the buffer moves to the head of the list
def touch (c : Cache) (i : BufId) : Cache where
  buf := c.buf
  lru := i :: c.lru.erase i
  whole := by
    intro j
    by_cases isMe : j = i
    · rw [isMe]
      exact .head _
    · exact .tail _ ((List.mem_erase_of_ne isMe).mpr (c.whole j))
  unique := c.unique

def find (c : Cache) (b : Nat) : Option BufId := c.lru.find? fun i => (c.buf i).block = some b

theorem find_none {c : Cache} {b : Nat} (missed : c.find b = none) (j : BufId) : (c.buf j).block ≠ some b := by
  have checked := List.find?_eq_none.mp missed j (c.whole j)
  simpa using checked

theorem find_some {c : Cache} {b : Nat} {i : BufId} (hit : c.find b = some i) : (c.buf i).block = some b := by
  simpa using List.find?_some hit

-- the least recently used buffer that nobody uses
def leastUsed (c : Cache) : Option BufId := c.lru.reverse.find? fun i => (c.buf i).refcnt = 0

-- bget up to acquiresleep, for any choice of the buffer to recycle
def bgetWith (c : Cache) (b : Nat) (victim : Option BufId) : Except Stop (BufId × Cache) :=
  match found : c.find b with
  | some i => .ok (i,c.addRef i 1)
  | none =>
    match victim with
    | some i => .ok (i,c.recycle i b (find_none found))
    | none => .error .noBuffers

def bget (c : Cache) (b : Nat) : Except Stop (BufId × Cache) := c.bgetWith b c.leastUsed

def acquiresleep (c : Cache) (i : BufId) : Except Stop Cache :=
  if (c.buf i).locked = true then .error .asleep else .ok (c.set i { c.buf i with locked := true } rfl)

def releasesleep (c : Cache) (i : BufId) : Cache := c.set i { c.buf i with locked := false } rfl

-- what bread does once it has the lock
def fill (c : Cache) (disk : Disk) (i : BufId) (b : Nat) : Cache :=
  if (c.buf i).valid = true then c else c.set i { c.buf i with valid := true, data := disk b } rfl

def setData (c : Cache) (i : BufId) (data : Block) : Cache := c.set i { c.buf i with data := data } rfl

-- the second half of brelse, under bcache.lock
def unref (c : Cache) (i : BufId) : Cache :=
  if (c.buf i).refcnt - 1 = 0 then (c.addRef i (-1)).touch i else c.addRef i (-1)

end Cache

structure Kernel where
  disk : Disk
  cache : Cache
  start : Nat
  lh : List (BitVec 32) -- lh.block[0..lh.n)

namespace Kernel

def bread (k : Kernel) (b : Nat) : Except Stop (BufId × Kernel) := do
  let (i,cache) ← k.cache.bget b
  let cache ← cache.acquiresleep i
  pure (i,{ k with cache := cache.fill k.disk i b })

def bwrite (k : Kernel) (i : BufId) : Except Stop Kernel :=
  if (k.cache.buf i).locked = false then .error .bwrite
  else match (k.cache.buf i).block with
    | some b => .ok { k with disk := update k.disk b (k.cache.buf i).data }
    | none => .ok k

def brelse (k : Kernel) (i : BufId) : Except Stop Kernel :=
  if (k.cache.buf i).locked = false then .error .brelse
  else .ok { k with cache := (k.cache.releasesleep i).unref i }

def setData (k : Kernel) (i : BufId) (data : Block) : Kernel := { k with cache := k.cache.setData i data }

def bunpin (k : Kernel) (i : BufId) : Kernel := { k with cache := k.cache.addRef i (-1) }

-- the loop body of write_log
def writeLogOne (k : Kernel) (tail : Nat) (b : BitVec 32) : Except Stop Kernel := do
  let (to_,k) ← k.bread (k.start + tail + 1)
  let (from_,k) ← k.bread b.toNat
  let k ← (k.setData to_ (k.cache.buf from_).data).bwrite to_
  let k ← k.brelse from_
  k.brelse to_

-- the rest of write_log's loop, from index tail on
def writeLog : (tail : Nat) → List (BitVec 32) → Kernel → Except Stop Kernel
  | _, [], k => .ok k
  | tail, b :: rest, k => do
    let k ← k.writeLogOne tail b
    writeLog (tail + 1) rest k

-- the header block that write_head writes over old contents
def headBlock (lh : List (BitVec 32)) (data : Block) : Block :=
  Log.putBlocks ⟨BitVec.ofNat 32 lh.length,fun i => lh.getD i 0⟩ lh.length (Lib.Bytes.set32 data 0 (BitVec.ofNat 32 lh.length))

def writeHead (k : Kernel) : Except Stop Kernel := do
  let (buf,k) ← k.bread k.start
  let k ← (k.setData buf (headBlock k.lh (k.cache.buf buf).data)).bwrite buf
  k.brelse buf

-- the loop body of install_trans(0)
def installOne (k : Kernel) (tail : Nat) (b : BitVec 32) : Except Stop Kernel := do
  let (lbuf,k) ← k.bread (k.start + tail + 1)
  let (dbuf,k) ← k.bread b.toNat
  let k ← (k.setData dbuf (k.cache.buf lbuf).data).bwrite dbuf
  let k := k.bunpin dbuf
  let k ← k.brelse lbuf
  k.brelse dbuf

def installTrans : (tail : Nat) → List (BitVec 32) → Kernel → Except Stop Kernel
  | _, [], k => .ok k
  | tail, b :: rest, k => do
    let k ← k.installOne tail b
    installTrans (tail + 1) rest k

def commit (k : Kernel) : Except Stop Kernel := do
  if 0 < k.lh.length then
    let k ← writeLog 0 k.lh k
    let k ← k.writeHead
    let k ← installTrans 0 k.lh k
    { k with lh := [] }.writeHead
  else pure k

end Kernel
end Xv6.Bcache
