import Xv6.Fs.Format
import Xv6.Fs.Inodes

/-! mkfs.c: the program that builds a file-system image out of host files. The
host's own calls succeed, except that a read past the end of the image comes back
short. What mkfs allocates and where it writes inodes is recorded in `trace`. -/
namespace Xv6.Mkfs
open Lib.Bytes
open Log (Block Disk)
open Fs

def nbitmap : Nat := fssize / bpb + 1

def ninodeblocks : Nat := ninodes / ipb + 1

def nlog : Nat := logBlocks + 1

def nmeta : Nat := 2 + nlog + ninodeblocks + nbitmap

def nblocks : Nat := fssize - nmeta

def inodestart : Nat := 2 + nlog

def bmapstart : Nat := 2 + nlog + ninodeblocks

def sb : Superblock where
  magic := fsmagic
  size := BitVec.ofNat 32 fssize
  nblocks := BitVec.ofNat 32 nblocks
  ninodes := BitVec.ofNat 32 ninodes
  nlog := BitVec.ofNat 32 nlog
  logstart := 2
  inodestart := BitVec.ofNat 32 inodestart
  bmapstart := BitVec.ofNat 32 bmapstart

/-- An argument of mkfs, and what the successive reads of that file return until
the end of the file. -/
structure HostFile where
  arg : List Byte
  reads : List (List Byte)
  text : 0 ∉ arg
  chunks : ∀ chunk ∈ reads, chunk ≠ [] ∧ chunk.length ≤ bsize

def HostFile.content (file : HostFile) : List Byte := file.reads.flatten

inductive Event where
  | ialloc (inum : Nat)
  | addr (b : Nat) -- a block number that goes into an inode or an indirect block
  | winode (b : Nat)
  deriving DecidableEq

-- how mkfs ends otherwise than by exit(0): its assertions, and die("read")
inductive Die where
  | rootino
  | slash
  | dirsiz
  | maxfile
  | bpb
  | read
  deriving DecidableEq, Repr

structure Image where
  disk : Disk
  blocks : Nat -- the length of the image file
  freeinode : BitVec 32
  freeblock : BitVec 32
  trace : List Event

namespace Image

-- lseek takes sec * BSIZE, a 32-bit product
def sector (sec : BitVec 32) : Nat := (sec * BitVec.ofNat 32 bsize).toNat / bsize

def wsect (m : Image) (sec : BitVec 32) (buf : Block) : Image :=
  { m with disk := Function.update m.disk (sector sec) buf, blocks := max m.blocks (sector sec + 1) }

def rsect (m : Image) (sec : BitVec 32) : Except Die Block :=
  if sector sec < m.blocks then .ok (m.disk (sector sec)) else .error .read

def note (m : Image) (event : Event) : Image := { m with trace := m.trace ++ [event] }

def winode (m : Image) (inum : BitVec 32) (din : Dinode) : Except Die Image := do
  let bn := BitVec.ofNat 32 (iblock inodestart inum.toNat)
  let buf ← m.rsect bn
  pure ((m.wsect bn (setDinodeIn buf (inum.toNat % ipb) din)).note (.winode (sector bn)))

def rinode (m : Image) (inum : BitVec 32) : Except Die Dinode := do
  let buf ← m.rsect (BitVec.ofNat 32 (iblock inodestart inum.toNat))
  pure (dinodeIn buf (inum.toNat % ipb))

def ialloc (m : Image) (type : BitVec 16) : Except Die (BitVec 32 × Image) := do
  let inum := m.freeinode
  let m := { m with freeinode := inum + 1 }.note (.ialloc inum.toNat)
  let m ← m.winode inum ⟨⟨type,0,0,1⟩,0,fun _ => 0⟩
  pure (inum,m)

-- the bitmap with the first blocks marked
def bitmap (used : Nat) : Block :=
  (List.range used).foldl (fun buf i => Function.update buf (i / 8) (buf (i / 8) ||| (1 <<< (i % 8)))) fun _ => 0

def balloc (m : Image) (used : Int) : Except Die Image :=
  if (bpb : Int) ≤ used then .error .bpb
  else .ok (m.wsect (BitVec.ofNat 32 bmapstart) (bitmap used.toNat))

-- freeblock++, for an inode or an indirect block
def fresh (m : Image) : BitVec 32 × Image :=
  (m.freeblock,{ m with freeblock := m.freeblock + 1 }.note (.addr m.freeblock.toNat))

def setAddr (din : Dinode) (k : AddrId) (b : BitVec 32) : Dinode := { din with addrs := Function.update din.addrs k b }

-- an address of the inode, allocated if it is 0
def needAddr (m : Image) (din : Dinode) (k : AddrId) : Dinode × Image :=
  if din.addrs k = 0 then (setAddr din k m.fresh.1,m.fresh.2) else (din,m)

-- the entry of the indirect block at b, allocated if it is 0
def needEntry (m : Image) (b : BitVec 32) (k : Nat) : Except Die (BitVec 32 × Image) := do
  let indirect ← m.rsect b
  if get32 indirect k = 0 then pure (m.fresh.1,m.fresh.2.wsect b (set32 indirect k m.fresh.1))
  else pure (get32 indirect k,m)

-- the address of block fbn
def iaddr (m : Image) (din : Dinode) (fbn : Nat) : Except Die (BitVec 32 × Dinode × Image) := do
  if direct : fbn < ndirect then
    let (din,m) := m.needAddr din ⟨fbn,Nat.lt_succ_of_lt direct⟩
    pure (din.addrs ⟨fbn,Nat.lt_succ_of_lt direct⟩,din,m)
  else
    let (din,m) := m.needAddr din indirectId
    let (x,m) ← m.needEntry (din.addrs indirectId) (fbn - ndirect)
    pure (x,din,m)

-- the rest of iappend's loop; every turn takes a byte at least
def iappendFrom : (turns : Nat) → Image → Dinode → (off : Nat) → (p : List Byte) → Except Die (Image × Dinode × Nat)
  | 0, m, din, off, _ => .ok (m,din,off)
  | turns + 1, m, din, off, p =>
    if p = [] then .ok (m,din,off)
    else if maxfile ≤ off / bsize then .error .maxfile
    else do
      let fbn := off / bsize
      let (x,din,m) ← m.iaddr din fbn
      let n1 := min p.length ((fbn + 1) * bsize - off)
      let buf ← m.rsect x
      iappendFrom turns (m.wsect x (copyAt buf (off - fbn * bsize) (p.take n1))) din (off + n1) (p.drop n1)

def iappend (m : Image) (inum : BitVec 32) (p : List Byte) : Except Die Image := do
  let din ← m.rinode inum
  let (m,din,off) ← iappendFrom p.length m din din.size.toNat p
  m.winode inum { din with size := BitVec.ofNat 32 off }

-- a directory entry for the root
def enter (m : Image) (root inum : BitVec 32) (name : List Byte) : Except Die Image :=
  m.iappend root (Dirent.bytes ⟨inum.setWidth 16,strncpy name dirsiz⟩)

-- one turn of main's loop over the arguments
def addFile (root : BitVec 32) (m : Image) (file : HostFile) : Except Die Image :=
  if slash ∈ (if userDir.isPrefixOf file.arg then file.arg.drop userDir.length else file.arg) then .error .slash
  else if dirsiz < (shortname file.arg).length then .error .dirsiz
  else do
    let (inum,m) ← m.ialloc tFile
    let m ← m.enter root inum (shortname file.arg)
    file.reads.foldlM (fun m chunk => m.iappend inum chunk) m

-- the zeroed image with its super block
def blank : Image :=
  let m : Image := ⟨fun _ _ => 0,0,1,BitVec.ofNat 32 nmeta,[]⟩
  let m := (List.range fssize).foldl (fun m i => m.wsect (BitVec.ofNat 32 i) fun _ => 0) m
  m.wsect 1 sb.toBytes

-- the size of the root is rounded
def fixRoot (m : Image) (root : BitVec 32) : Except Die Image := do
  let din ← m.rinode root
  m.winode root { din with size := BitVec.ofNat 32 ((din.size.toNat / bsize + 1) * bsize) }

end Image

open Image

-- main up to the end of its loop
@[irreducible] def build (files : List HostFile) : Except Die Image := do
  let (root,m) ← Image.blank.ialloc tDir
  if root ≠ BitVec.ofNat 32 rootino then .error .rootino
  else do
    let m ← m.enter root root dot
    let m ← m.enter root root dotdot
    files.foldlM (addFile root) m

def mkfs (files : List HostFile) : Except Die Image := do
  let m ← build files
  let m ← m.fixRoot (BitVec.ofNat 32 rootino)
  m.balloc m.freeblock.toInt

end Xv6.Mkfs
