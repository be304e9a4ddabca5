import Xv6.Fs.Calls
import Xv6.Lib.Bytes
import Xv6.Log.Model

/-! The on-disk format of fs.h, byte by byte, as mkfs and the kernel both see it:
the super block, inodes packed into blocks, directory entries, the free bit map
and the block addresses of an inode. -/
namespace Xv6.Fs
open Lib.Bytes
open Log (Block Disk)

def fsmagic : BitVec 32 := 0x10203040 -- FSMAGIC

structure Superblock where
  magic : BitVec 32
  size : BitVec 32
  nblocks : BitVec 32
  ninodes : BitVec 32
  nlog : BitVec 32
  logstart : BitVec 32
  inodestart : BitVec 32
  bmapstart : BitVec 32
  deriving DecidableEq

def Superblock.toBytes (sb : Superblock) : Block :=
  words fun k => [sb.magic,sb.size,sb.nblocks,sb.ninodes,sb.nlog,sb.logstart,sb.inodestart,sb.bmapstart].getD k 0

def Superblock.ofBytes (bytes : Block) : Superblock :=
  ⟨get32 bytes 0,get32 bytes 1,get32 bytes 2,get32 bytes 3,get32 bytes 4,get32 bytes 5,get32 bytes 6,get32 bytes 7⟩

@[simp] theorem Superblock.ofBytes_toBytes (sb : Superblock) : ofBytes sb.toBytes = sb := by
  simp [ofBytes,toBytes]

/-! Inodes. -/

abbrev AddrId := Fin (ndirect + 1)

def indirectId : AddrId := ⟨ndirect,by decide⟩ -- addrs[NDIRECT]

structure Dinode where
  attr : Attr
  size : BitVec 32
  addrs : AddrId → BitVec 32

def dinodeSize : Nat := 64 -- sizeof(struct dinode)

namespace Dinode

def half (d : Dinode) : Nat → BitVec 16
  | 0 => d.attr.type
  | 1 => d.attr.major
  | 2 => d.attr.minor
  | _ => d.attr.nlink

-- the size and the addresses come after the first 8 bytes
def word (d : Dinode) (k : Nat) : BitVec 32 :=
  if k = 2 then d.size else if inside : k - 3 < ndirect + 1 then d.addrs ⟨k - 3,inside⟩ else 0

def toBytes (d : Dinode) (k : Nat) : Byte := if k < 8 then halves d.half k else words d.word k

def ofBytes (bytes : Block) : Dinode where
  attr := ⟨get16 bytes 0,get16 bytes 1,get16 bytes 2,get16 bytes 3⟩
  size := get32 bytes 2
  addrs := fun k => get32 bytes (k.val + 3)

theorem ofBytes_congr {bytes other : Block} (same : ∀ k < dinodeSize, bytes k = other k) : ofBytes bytes = ofBytes other := by
  have halves : ∀ k < 4, get16 bytes k = get16 other k := fun k small =>
    get16_congr fun j low => same _ (by unfold dinodeSize; omega)
  have words : ∀ k < 16, get32 bytes k = get32 other k := fun k small =>
    get32_congr fun j low => same _ (by unfold dinodeSize; omega)
  have addrs : (fun k : AddrId => get32 bytes (k.val + 3)) = fun k => get32 other (k.val + 3) := by
    funext k
    have small : k.val < 13 := k.isLt
    exact words _ (by omega)
  rw [ofBytes,ofBytes,halves 0 (by omega),halves 1 (by omega),halves 2 (by omega),halves 3 (by omega),words 2 (by omega),addrs]

@[simp] theorem ofBytes_toBytes (d : Dinode) : ofBytes d.toBytes = d := by
  have low : ∀ k < 4, get16 d.toBytes k = d.half k := by
    intro k small
    rw [← get16_halves d.half k]
    exact get16_congr fun j inside => if_pos (by omega)
  have high : ∀ k, 2 ≤ k → get32 d.toBytes k = d.word k := by
    intro k large
    rw [← get32_words d.word k]
    exact get32_congr fun j inside => if_neg (by omega)
  have addrs : (fun k : AddrId => get32 d.toBytes (k.val + 3)) = d.addrs := by
    funext k
    have small : k.val + 3 - 3 < ndirect + 1 := by
      have bound := k.isLt
      omega
    rw [high _ (by omega),word,if_neg (by omega),dif_pos small]
    exact congrArg d.addrs (Fin.ext (by simp))
  rw [ofBytes,low 0 (by omega),low 1 (by omega),low 2 (by omega),low 3 (by omega),high 2 (by omega),addrs]
  rfl

end Dinode

-- the k-th inode of a block
def dinodeIn (block : Block) (k : Nat) : Dinode := .ofBytes fun i => block (dinodeSize * k + i)

def setDinodeIn (block : Block) (k : Nat) (d : Dinode) : Block :=
  fun i => if i / dinodeSize = k then d.toBytes (i % dinodeSize) else block i

theorem dinodeIn_set_same (block : Block) (k : Nat) (d : Dinode) : dinodeIn (setDinodeIn block k d) k = d := by
  conv_rhs => rw [← d.ofBytes_toBytes]
  refine Dinode.ofBytes_congr fun i small => ?_
  unfold dinodeSize at small
  rw [setDinodeIn,if_pos (by unfold dinodeSize; omega)]
  exact congrArg d.toBytes (by unfold dinodeSize; omega)

theorem dinodeIn_set_ne (block : Block) {j k : Nat} (d : Dinode) (other : j ≠ k) :
    dinodeIn (setDinodeIn block k d) j = dinodeIn block j := by
  refine Dinode.ofBytes_congr fun i small => if_neg ?_
  unfold dinodeSize at small ⊢
  omega

-- IBLOCK, the block that holds an inode
def iblock (start inum : Nat) : Nat := inum / ipb + start

def dinodeAt (start : Nat) (disk : Disk) (inum : Nat) : Dinode := dinodeIn (disk (iblock start inum)) (inum % ipb)

def setDinodeAt (start : Nat) (disk : Disk) (inum : Nat) (d : Dinode) : Disk :=
  Function.update disk (iblock start inum) (setDinodeIn (disk (iblock start inum)) (inum % ipb) d)

@[simp] theorem dinodeAt_set_same (start : Nat) (disk : Disk) (inum : Nat) (d : Dinode) :
    dinodeAt start (setDinodeAt start disk inum d) inum = d := by
  rw [dinodeAt,setDinodeAt,Function.update_self,dinodeIn_set_same]

theorem dinodeAt_set_ne (start : Nat) (disk : Disk) {i j : Nat} (d : Dinode) (other : i ≠ j) :
    dinodeAt start (setDinodeAt start disk j d) i = dinodeAt start disk i := by
  rw [dinodeAt,setDinodeAt,Function.update_apply]
  split_ifs with same
  · have apart : i % ipb ≠ j % ipb := by
      unfold iblock ipb bsize at *
      omega
    rw [dinodeIn_set_ne _ _ apart,dinodeAt,same]
  · rfl

/-! Block addresses. -/

-- the address of block k of an inode; 0 if it has none
def blockAt (disk : Disk) (d : Dinode) (k : Nat) : BitVec 32 :=
  if direct : k < ndirect then d.addrs ⟨k,by omega⟩
  else if d.addrs indirectId = 0 then 0
  else get32 (disk (d.addrs indirectId).toNat) (k - ndirect)

/-! Directory entries. -/

namespace Dirent

def toBytes (de : Dirent) (k : Nat) : Byte := if k < 2 then halves (fun _ => de.inum) k else de.name.getD (k - 2) 0

def ofBytes (bytes : Block) : Dirent := ⟨get16 bytes 0,(List.range dirsiz).map fun k => bytes (k + 2)⟩

-- the bytes of an entry in memory
def bytes (de : Dirent) : List Byte := (List.range direntSize).map de.toBytes

theorem ofBytes_congr {bytes other : Block} (same : ∀ k < direntSize, bytes k = other k) : ofBytes bytes = ofBytes other := by
  have inum : get16 bytes 0 = get16 other 0 := get16_congr fun j low => same _ (by unfold direntSize; omega)
  have name : (List.range dirsiz).map (fun k => bytes (k + 2)) = (List.range dirsiz).map fun k => other (k + 2) := by
    refine List.map_congr_left fun k inside => same _ ?_
    have small : k < 14 := List.mem_range.mp inside
    unfold direntSize
    omega
  rw [ofBytes,ofBytes,inum,name]

theorem ofBytes_toBytes (de : Dirent) (whole : de.name.length = dirsiz) : ofBytes de.toBytes = de := by
  have inum : get16 de.toBytes 0 = de.inum := by
    rw [← get16_halves (fun _ => de.inum) 0]
    exact get16_congr fun j inside => if_pos (by omega)
  have name : (List.range dirsiz).map (fun k => de.toBytes (k + 2)) = de.name := by
    refine List.ext_getElem (by simp [whole]) fun k left right => ?_
    simp [toBytes,right]
  rw [ofBytes,inum,name]

@[simp] theorem length_bytes (de : Dirent) : de.bytes.length = direntSize := by
  simp [bytes]

end Dirent

/-! The free bit map. -/

-- BBLOCK, the block with the bit of block b
def bblock (start b : Nat) : Nat := b / bpb + start

def inUse (start : Nat) (disk : Disk) (b : Nat) : Bool := (disk (bblock start b) (b % bpb / 8)).getLsbD (b % 8)

end Xv6.Fs
