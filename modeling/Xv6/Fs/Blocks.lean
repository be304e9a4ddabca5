import Xv6.Fs.Format
import Xv6.Fs.Inodes

/-! The inode layer of fs.c on disk blocks: the block allocator, bmap, itrunc,
readi and writei, and the inode table. The disk is what bread returns. A change
that is passed to log_write stays; one that is not is lost when its buffer is
recycled, unless the running transaction has the block pinned. -/
namespace Xv6.Fs.Blocks
open Lib Lib.Bytes Function
open Log (Block Disk)

structure Inode where
  inum : Nat
  ref : Int
  valid : Bool
  locked : Bool
  din : Dinode -- the copy of the inode on disk

structure State where
  sb : Superblock
  disk : Disk
  store : Disk -- what bread returns once the block has left the buffer cache
  logged : List Nat -- the blocks passed to log_write since the last commit
  outstanding : Nat -- log.outstanding
  transactions : List (List Nat) -- the blocks of the transactions that have been committed, the last one first
  inode : Slot → Inode
  handles : Handles

namespace State

def setInode (s : State) (ip : Slot) (inode : Inode) : State := { s with inode := update s.inode ip inode }

def setDin (s : State) (ip : Slot) (din : Dinode) : State := s.setInode ip { s.inode ip with din := din }

def setAddr (s : State) (ip : Slot) (k : AddrId) (addr : BitVec 32) : State :=
  s.setDin ip { (s.inode ip).din with addrs := update (s.inode ip).din.addrs k addr }

-- a change of a block that is passed to log_write
def setBlock (s : State) (b : Nat) (data : Block) : State :=
  { s with
    disk := update s.disk b data
    store := update s.store b data
    logged := b :: s.logged }

-- a change of a cached block that is not
def setCached (s : State) (b : Nat) (data : Block) : State :=
  { s with
    disk := update s.disk b data
    store := if b ∈ s.logged then update s.store b data else s.store }

-- the block's buffer is recycled
def evict (s : State) (b : Nat) : State := { s with disk := update s.disk b (s.store b) }

/-! Transactions. -/

-- log.lh.n counts a block once
def beginOp (s : State) : Except Stop State :=
  if logBlocks < s.logged.dedup.length + (s.outstanding + 1) * maxOpBlocks then .error .asleep
  else .ok { s with outstanding := s.outstanding + 1 }

-- the last operation of a transaction commits it
def endOp (s : State) : State :=
  if s.outstanding = 1 then { s with outstanding := 0, logged := [], transactions := s.logged :: s.transactions }
  else { s with outstanding := s.outstanding - 1 }

/-! Blocks. -/

def setBit (data : Block) (bi : Nat) (used : Bool) : Block :=
  let m : Byte := 1 <<< (bi % 8)
  update data (bi / 8) (if used then data (bi / 8) ||| m else data (bi / 8) &&& ~~~m)

def used (s : State) (b : Nat) : Bool := inUse s.sb.bmapstart.toNat s.disk b

def mark (s : State) (b : Nat) (used : Bool) : State :=
  let bb := bblock s.sb.bmapstart.toNat b
  s.setBlock bb (setBit (s.disk bb) (b % bpb) used)

-- the first free block, marked and zeroed; 0 if there is none
def balloc (s : State) : BitVec 32 × State :=
  match (List.range s.sb.size.toNat).find? fun b => !s.used b with
  | some b => (BitVec.ofNat 32 b,(s.mark b true).setBlock b fun _ => 0)
  | none => (0,s)

def bfree (s : State) (b : BitVec 32) : Except Stop State :=
  if s.used b.toNat then .ok (s.mark b.toNat false) else .error .freeingFreeBlock

/-! The inode table. -/

def iget (s : State) (inum : Nat) : Except Stop (Slot × State) :=
  match (List.finRange ninode).find? (fun ip => 0 < (s.inode ip).ref ∧ (s.inode ip).inum = inum) with
  | some ip => .ok (ip,s.setInode ip { s.inode ip with ref := (s.inode ip).ref + 1 })
  | none =>
    match (List.finRange ninode).find? (fun ip => (s.inode ip).ref = 0) with
    | some ip => .ok (ip,s.setInode ip { s.inode ip with inum := inum, ref := 1, valid := false })
    | none => .error .igetNoInodes

def idup (s : State) (ip : Slot) : State := s.setInode ip { s.inode ip with ref := (s.inode ip).ref + 1 }

def dinode (s : State) (inum : Nat) : Dinode := dinodeAt s.sb.inodestart.toNat s.disk inum

def setDinode (s : State) (inum : Nat) (din : Dinode) : State :=
  let b := iblock s.sb.inodestart.toNat inum
  s.setBlock b (setDinodeIn (s.disk b) (inum % ipb) din)

def ialloc (s : State) (type : BitVec 16) : Except Stop (Option Slot × State) :=
  match (List.range' 1 (s.sb.ninodes.toNat - 1)).find? (fun i => (s.dinode i).attr.type = 0) with
  | none => .ok (none,s)
  | some i => do
    let (ip,s) ← (s.setDinode i ⟨⟨type,0,0,0⟩,0,fun _ => 0⟩).iget i
    pure (some ip,s)

def ilock (s : State) (ip : Slot) : Except Stop State :=
  let inode := s.inode ip
  if inode.ref < 1 then .error .ilock
  else if inode.locked = true then .error .asleep
  else if inode.valid = true then .ok (s.setInode ip { inode with locked := true })
  else if (s.dinode inode.inum).attr.type = 0 then .error .ilockNoType
  else .ok (s.setInode ip { inode with locked := true, valid := true, din := s.dinode inode.inum })

def iunlock (s : State) (ip : Slot) : Except Stop State :=
  let inode := s.inode ip
  if inode.locked = false ∨ inode.ref < 1 then .error .iunlock
  else .ok (s.setInode ip { inode with locked := false })

def iupdate (s : State) (ip : Slot) : State := s.setDinode (s.inode ip).inum (s.inode ip).din

/-! Contents. -/

-- the address that ip has at k, allocated if it is 0
def bmapAddr (s : State) (ip : Slot) (k : AddrId) : BitVec 32 × State :=
  let addr := (s.inode ip).din.addrs k
  if addr = 0 then
    let (addr,s) := s.balloc
    if addr = 0 then (0,s) else (addr,s.setAddr ip k addr)
  else (addr,s)

-- the address at index k of the indirect block b, allocated if it is 0
def bmapEntry (s : State) (b k : Nat) : BitVec 32 × State :=
  let addr := get32 (s.disk b) k
  if addr = 0 then
    let (addr,s) := s.balloc
    if addr = 0 then (0,s) else (addr,s.setBlock b (set32 (s.disk b) k addr))
  else (addr,s)

def bmap (s : State) (ip : Slot) (bn : Nat) : Except Stop (BitVec 32 × State) :=
  if direct : bn < ndirect then .ok (s.bmapAddr ip ⟨bn,Nat.lt_succ_of_lt direct⟩)
  else if bn - ndirect < nindirect then
    let (addr,s) := s.bmapAddr ip indirectId
    if addr = 0 then .ok (0,s) else .ok (s.bmapEntry addr.toNat (bn - ndirect))
  else .error .bmapOutOfRange

-- itrunc's loop over addrs[0..NDIRECT)
def truncDirect (ip : Slot) : List AddrId → State → Except Stop State
  | [], s => .ok s
  | k :: rest, s =>
    if (s.inode ip).din.addrs k = 0 then truncDirect ip rest s
    else do
      let s ← s.bfree ((s.inode ip).din.addrs k)
      truncDirect ip rest (s.setAddr ip k 0)

-- itrunc's loop over the indirect block
def truncEntries (a : Block) : List Nat → State → Except Stop State
  | [], s => .ok s
  | j :: rest, s =>
    if get32 a j = 0 then truncEntries a rest s
    else do
      let s ← s.bfree (get32 a j)
      truncEntries a rest s

def truncIndirect (s : State) (ip : Slot) : Except Stop State :=
  let addr := (s.inode ip).din.addrs indirectId
  if addr = 0 then .ok s
  else do
    let s ← truncEntries (s.disk addr.toNat) (List.range nindirect) s
    let s ← s.bfree addr
    pure (s.setAddr ip indirectId 0)

def itrunc (s : State) (ip : Slot) : Except Stop State := do
  let s ← truncDirect ip ((List.finRange ndirect).map Fin.castSucc) s
  let s ← s.truncIndirect ip
  pure ((s.setDin ip { (s.inode ip).din with size := 0 }).iupdate ip)

def iput (s : State) (ip : Slot) : Except Stop State := do
  let inode := s.inode ip
  if inode.ref = 1 ∧ inode.valid = true ∧ inode.din.attr.nlink = 0 then
    if inode.locked = true then .error .asleep
    else
      let s ← s.itrunc ip
      let din := (s.inode ip).din
      let s := (s.setDin ip { din with attr := { din.attr with type := 0 } }).iupdate ip
      pure (s.setInode ip { s.inode ip with valid := false, ref := (s.inode ip).ref - 1 })
  else pure (s.setInode ip { inode with ref := inode.ref - 1 })

-- readi's loop, with tot bytes read; every turn reads a byte at least, and a copy that fails has stored those before
def readiFrom (ip : Slot) (good : Nat → Bool) (n : Nat) :
    (turns tot off : Nat) → State → Except Stop (Int × List Byte × State)
  | 0, tot, _, s => .ok (tot,[],s)
  | turns + 1, tot, off, s =>
    if tot < n then do
      let (addr,s) ← s.bmap ip (off / bsize)
      if addr = 0 then pure (tot,[],s)
      else
        let m := min (n - tot) (bsize - off % bsize)
        let stored := (List.range m).takeWhile fun k => good (tot + k)
        let data := stored.map fun k => s.disk addr.toNat (off % bsize + k)
        if stored.length = m then
          let (r,rest,s) ← readiFrom ip good n turns (tot + m) (off + m) s
          pure (r,data ++ rest,s)
        else pure (-1,data,s)
    else .ok (tot,[],s)

/-- The result of readi and the bytes it copies out; `good` says which bytes of
the buffer can be written. -/
def readi (s : State) (ip : Slot) (good : Nat → Bool) (off n : BitVec 32) : Except Stop (Int × List Byte × State) :=
  let size := (s.inode ip).din.size
  if size < off ∨ off + n < off then .ok (0,[],s)
  else
    let n := if size < off + n then size - off else n
    readiFrom ip good n.toNat n.toNat 0 off.toNat s

-- writei's loop; a copy that fails leaves the bytes before the failure in the cached block
def writeiFrom (ip : Slot) (src : Nat → Option Byte) (n : Nat) :
    (turns tot off : Nat) → State → Except Stop (Nat × Nat × State)
  | 0, tot, off, s => .ok (tot,off,s)
  | turns + 1, tot, off, s =>
    if tot < n then do
      let (addr,s) ← s.bmap ip (off / bsize)
      if addr = 0 then pure (tot,off,s)
      else
        let m := min (n - tot) (bsize - off % bsize)
        let data := (((List.range m).map fun k => src (tot + k)).takeWhile Option.isSome).filterMap id
        let block := copyAt (s.disk addr.toNat) (off % bsize) data
        if data.length < m then pure (tot,off,s.setCached addr.toNat block)
        else writeiFrom ip src n turns (tot + m) (off + m) (s.setBlock addr.toNat block)
    else .ok (tot,off,s)

def writei (s : State) (ip : Slot) (src : Nat → Option Byte) (off n : BitVec 32) : Except Stop (Int × State) :=
  if (s.inode ip).din.size < off ∨ off + n < off then .ok (-1,s)
  else if BitVec.ofNat 32 (maxfile * bsize) < off + n then .ok (-1,s)
  else do
    let (tot,off,s) ← writeiFrom ip src n.toNat n.toNat 0 off.toNat s
    let din := (s.inode ip).din
    let s := if din.size.toNat < off then s.setDin ip { din with size := BitVec.ofNat 32 off } else s
    pure (tot,s.iupdate ip)

def readDirent (s : State) (ip : Slot) (off : Nat) : Except Stop (Option Dirent × State) := do
  let (r,bytes,s) ← s.readi ip (fun _ => true) (BitVec.ofNat 32 off) (BitVec.ofNat 32 direntSize)
  pure (if r = direntSize then some (.ofBytes fun k => bytes.getD k 0) else none,s)

def writeDirent (s : State) (ip : Slot) (off : Nat) (de : Dirent) : Except Stop (Bool × State) := do
  let (r,s) ← s.writei ip (fun k => some (de.toBytes k)) (BitVec.ofNat 32 off) (BitVec.ofNat 32 direntSize)
  pure (decide (r = direntSize),s)

end State

def done (result : Except Stop State) : Except Stop (Unit × State) := result.map fun s => ((),s)

def exec : Machine Call State Stop := fun call s =>
  match call with
  | .stop why => .error why
  | .beginOp => done s.beginOp
  | .endOp => .ok ((),s.endOp)
  | .handles f => .ok ((f s.handles).1,{ s with handles := (f s.handles).2 })
  | .iget inum => s.iget inum
  | .idup ip => .ok ((),s.idup ip)
  | .ialloc type => s.ialloc type
  | .ilock ip => done (s.ilock ip)
  | .iunlock ip => done (s.iunlock ip)
  | .iput ip => done (s.iput ip)
  | .iupdate ip => .ok ((),s.iupdate ip)
  | .itrunc ip => done (s.itrunc ip)
  | .inum ip => .ok ((s.inode ip).inum,s)
  | .attr ip => .ok ((s.inode ip).din.attr,s)
  | .setAttr ip attr => .ok ((),s.setDin ip { (s.inode ip).din with attr := attr })
  | .size ip => .ok ((s.inode ip).din.size.toNat,s)
  | .readDirent ip off => s.readDirent ip off
  | .writeDirent ip off de => s.writeDirent ip off de
  | .readUser ip good off n => do
    let (r,_,s) ← s.readi ip good off n
    pure (r,s)
  | .writeUser ip src off n => s.writei ip src off n

/-! Starting up. -/

def emptyInode : Inode := ⟨0,0,false,false,⟨⟨0,0,0,0⟩,0,fun _ => 0⟩⟩

-- readsb, and the root directory as the first process's current directory
def boot (disk : Disk) : State where
  sb := .ofBytes (disk 1)
  disk := disk
  store := disk
  logged := []
  outstanding := 0
  transactions := []
  inode := update (fun _ => emptyInode) firstSlot { emptyInode with inum := rootino, ref := 1 }
  handles := bootHandles

-- inodes that a crash left allocated but without a link are freed
def ireclaim : List Nat → State → Except Stop State
  | [], s => .ok s
  | inum :: rest, s =>
    if (s.dinode inum).attr.type ≠ 0 ∧ (s.dinode inum).attr.nlink = 0 then do
      let (ip,s) ← s.iget inum
      let s ← s.beginOp
      let s ← s.ilock ip
      let s ← s.iunlock ip
      let s ← s.iput ip
      ireclaim rest s.endOp
    else ireclaim rest s

-- none if fsinit panics
def fsinit (disk : Disk) : Option State :=
  let s := boot disk
  if s.sb.magic = fsmagic then (ireclaim (List.range' 1 (s.sb.ninodes.toNat - 1)) s).toOption else none

end Xv6.Fs.Blocks
