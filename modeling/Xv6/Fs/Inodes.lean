import Xv6.Fs.Format
import Xv6.Lib.Transition

/-! The abstract inode store: what the name layer sees of fs.c's inodes. An inode
on disk has its type, device numbers and link count and a list of bytes, which
for a directory are its entries. The blocks under them are counted only: how
many are free and which of an inode's blocks are there decide if it can grow. -/
namespace Xv6.Fs
open Lib Lib.Bytes

def maxBytes : Nat := maxfile * bsize -- the bytes of the largest file

structure Node where
  attr : Attr
  content : List Byte
  bound : content.length ≤ maxBytes
  deriving DecidableEq

namespace Node

@[ext] theorem ext {node other : Node} (attr : node.attr = other.attr) (content : node.content = other.content) :
    node = other := by
  cases node
  cases other
  cases attr
  cases content
  rfl

def empty (attr : Attr) : Node := ⟨attr,[],Nat.zero_le _⟩

-- the inode as the bytes of directory entries; one that ends inside an entry has a rest
def entries (node : Node) : List Dirent :=
  (List.range (node.content.length / direntSize)).map fun k =>
    .ofBytes fun j => node.content.getD (direntSize * k + j) 0

def rest (node : Node) : Nat := node.content.length % direntSize

def size (node : Node) : Nat := node.content.length

-- bytes written at an offset; past the largest size there is no such write
def write (node : Node) (off : Nat) (bytes : List Byte) : Node :=
  if fits : off + bytes.length ≤ maxBytes then
    { node with
      content := overwrite node.content off bytes
      bound := (length_overwrite_le node.content off bytes).trans (Nat.max_le.mpr ⟨node.bound,fits⟩) }
  else node

-- bytes copied over old ones, without growing the file
def smudge (node : Node) (off : Nat) (bytes : List Byte) : Node :=
  { node with
    content := (overwrite node.content off bytes).take node.content.length
    bound := (List.length_take_le ..).trans node.bound }

-- the entry at index k, or one more entry
def put (node : Node) (k : Nat) (de : Dirent) : Node := node.write (direntSize * k) de.bytes

end Node

-- a block that an operation may pass to log_write, data blocks one by one
inductive Touch
  | bitmap
  | inode (k : Nat)
  | data
  deriving DecidableEq, Repr

/-- What is left out of the inodes: the number of free blocks, which blocks an
inode has, and what the running transaction and those before may have written. -/
structure Space where
  free : Nat
  mapped : Nat → Nat → Bool
  indirect : Nat → Bool
  touched : List Touch
  outstanding : Nat
  transactions : List (List Touch)

namespace Space

def setMapped (space : Space) (i bn : Nat) : Space :=
  { space with free := space.free - 1, mapped := Function.update space.mapped i (Function.update (space.mapped i) bn true) }

-- bmap: true if the inode has the block now
def grow (space : Space) (i bn : Nat) : Bool × Space :=
  if space.mapped i bn = true then (true,space)
  else if space.free = 0 then (false,space)
  else if bn < ndirect ∨ space.indirect i = true then (true,space.setMapped i bn)
  else
    let space := { space with free := space.free - 1, indirect := Function.update space.indirect i true }
    if space.free = 0 then (false,space) else (true,space.setMapped i bn)

end Space

namespace State

-- an inode number of the disk
def known (ninodes inum : Nat) : Prop := 0 < inum ∧ inum < ninodes

instance (ninodes inum : Nat) : Decidable (known ninodes inum) := inferInstanceAs (Decidable (_ ∧ _))

-- an offset of an entry; a file is never that long
def entryOff (off : Nat) : Prop := off % direntSize = 0 ∧ off < 2 ^ 31

-- writei's loop over the bytes and the blocks of inode i
def writeFrom (i : Nat) (src : Nat → Option Byte) (n : Nat) :
    (turns tot off : Nat) → Node → Space → Nat × Node × Space
  | 0, tot, _, node, space => (tot,node,space)
  | turns + 1, tot, off, node, space =>
    if tot < n then
      match space.grow i (off / bsize) with
      | (false,space) => (tot,node,space)
      | (true,space) =>
        let m := min (n - tot) (bsize - off % bsize)
        let data := (((List.range m).map fun k => src (tot + k)).takeWhile Option.isSome).filterMap id
        if data.length < m then (tot,node.smudge off data,space)
        else writeFrom i src n turns (tot + m) (off + m) (node.write off data) space
    else (tot,node,space)

end State

/-! Runs: completed system calls of any processes, one after another. -/

inductive Syscall
  | link (old new : Path)
  | unlink (path : Path)
  | open (path : Path) (omode : BitVec 32)
  | mkdir (path : Path)
  | mknod (path : Path) (major minor : BitVec 16)
  | chdir (path : Path)
  | dup (fd : Fin nofile)
  | close (fd : Fin nofile)
  | read (fd : Fin nofile) (good : Nat → Bool) (n : BitVec 32) (device : Int)
  | write (fd : Fin nofile) (src : Nat → Option Byte) (n device : Int)
  | fstat (fd : Fin nofile) (copied : Bool)
  | pipe (page : Option PipeId) (copied : Bool)
  | exec (path : Path) (reads : List (BitVec 32 × BitVec 32 × Bool)) (built : Bool)
  | fork (np : ProcId) (memory : Bool)
  | exit
  | wait (np : ProcId)

def Syscall.program (p : ProcId) : Syscall → Sys Int
  | .link old new => sysLink p old new
  | .unlink path => sysUnlink p path
  | .open path omode => sysOpen p path omode
  | .mkdir path => sysMkdir p path
  | .mknod path major minor => sysMknod p path major minor
  | .chdir path => sysChdir p path
  | .dup fd => sysDup p fd
  | .close fd => sysClose p fd
  | .read fd good n device => sysRead p fd good n device
  | .write fd src n device => sysWrite p fd src n device
  | .fstat fd copied => sysFstat p fd copied
  | .pipe page copied => sysPipe p page copied
  | .exec path reads built => sysExec p path reads built
  | .fork np memory => kfork p np memory
  | .exit => do
    kexit p
    pure 0
  | .wait np => kwait np

/-! Images that mkfs writes. -/

def ninodes : Nat := 200 -- NINODES, the inodes of a disk that mkfs builds

def underscore : Byte := 95

def userDir : List Byte := [117,115,101,114,47] -- user/

-- the name of a host file on the disk
def shortname (arg : List Byte) : List Byte :=
  let name := if userDir.isPrefixOf arg then arg.drop userDir.length else arg
  if name.head? = some underscore then name.tail else name

def hostEntries (args : List (List Byte)) : List Dirent :=
  args.mapIdx fun k arg => ⟨BitVec.ofNat 16 (k + 2),strncpy (shortname arg) dirsiz⟩

def rootEntries (args : List (List Byte)) : List Dirent :=
  [⟨1,strncpy dot dirsiz⟩,⟨1,strncpy dotdot dirsiz⟩] ++ hostEntries args

def firstSlot : Slot := ⟨0,ninode_pos⟩

def emptyFile : File := ⟨.fdNone,0,false,false,0,firstSlot,0,0⟩

-- the first process is the only one, and no file is open
def bootHandles : Handles where
  file := fun _ => emptyFile
  proc := fun p => ⟨if p = initproc then .live else .unused,firstSlot,fun _ => none⟩
  pipe := fun _ => none

end Xv6.Fs
