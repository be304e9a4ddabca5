import Xv6.Lib.Program
import Xv6.Param
import Mathlib.Data.BitVec
import Mathlib.Data.Fintype.Basic

/-! The name layer and the file system calls of fs.c, file.c and sysfile.c, as
programs over the operations of the inode layer. The same programs run on the
block-level file system and on the abstract inode store. -/
namespace Xv6.Fs
open Lib Function

abbrev Slot := Fin ninode -- an entry of itable.inode

abbrev FileId := Fin nfile -- an entry of ftable.file

abbrev ProcId := Fin nproc

abbrev PipeId := Nat -- the page that holds a struct pipe

def tDir : BitVec 16 := 1 -- T_DIR

def tFile : BitVec 16 := 2 -- T_FILE

def tDevice : BitVec 16 := 3 -- T_DEVICE

-- what an in-memory inode copies from its dinode, less the size and the block addresses
structure Attr where
  type : BitVec 16
  major : BitVec 16
  minor : BitVec 16
  nlink : BitVec 16
  deriving DecidableEq, Repr

structure Dirent where
  inum : BitVec 16
  name : List Byte
  deriving DecidableEq, Repr

inductive FileType
  | fdNone
  | fdPipe
  | fdInode
  | fdDevice
  deriving DecidableEq, Repr

structure File where
  type : FileType
  ref : Int
  readable : Bool
  writable : Bool
  pipe : PipeId
  ip : Slot
  off : BitVec 32
  major : BitVec 16

-- what a pipe's page says about its two ends
structure PipeEnds where
  readopen : Bool
  writeopen : Bool
  deriving DecidableEq, Repr

-- enum procstate; SLEEPING, RUNNABLE and RUNNING are one here
inductive ProcState
  | unused
  | embryo -- USED
  | live
  | zombie
  deriving DecidableEq, Repr

structure Proc where
  state : ProcState
  cwd : Slot
  ofile : Fin nofile → Option FileId

def Proc.used (proc : Proc) : Bool := decide (proc.state = .live)

-- the file table, the processes' directories and descriptors, and the pages of pipes
structure Handles where
  file : FileId → File
  proc : ProcId → Proc
  pipe : PipeId → Option PipeEnds

/-- How a call can stop the kernel: the panics of the source, and three more. A
process that waits for a lock it holds itself sleeps for ever (`asleep`). A
pipe may be used after its page has been freed (`freedPipe`). `wild` marks what
only a corrupt inode number or a misused operation reaches. -/
inductive Stop
  | igetNoInodes
  | ilock
  | ilockNoType
  | iunlock
  | dirlookupNotDir
  | dirlookupRead
  | dirlinkRead
  | isdiremptyRead
  | unlinkNlink
  | unlinkWritei
  | filedup
  | fileclose
  | fileread
  | filewrite
  | initExiting
  | freeingFreeBlock
  | bmapOutOfRange
  | asleep
  | freedPipe
  | wild
  deriving DecidableEq, Repr

/-- The operations of the inode layer. `readDirent` and `writeDirent` are readi
and writei of one directory entry from and to kernel memory, `readUser` and
`writeUser` are readi and writei on a user buffer. -/
inductive Call : Type → Type 1
  | stop (why : Stop) : Call Empty
  | beginOp : Call Unit
  | endOp : Call Unit
  | handles {β : Type} (f : Handles → β × Handles) : Call β
  | iget (inum : Nat) : Call Slot
  | idup (ip : Slot) : Call Unit
  | ialloc (type : BitVec 16) : Call (Option Slot)
  | ilock (ip : Slot) : Call Unit
  | iunlock (ip : Slot) : Call Unit
  | iput (ip : Slot) : Call Unit
  | iupdate (ip : Slot) : Call Unit
  | itrunc (ip : Slot) : Call Unit
  | inum (ip : Slot) : Call Nat
  | attr (ip : Slot) : Call Attr
  | setAttr (ip : Slot) (attr : Attr) : Call Unit
  | size (ip : Slot) : Call Nat
  | readDirent (ip : Slot) (off : Nat) : Call (Option Dirent)
  | writeDirent (ip : Slot) (off : Nat) (de : Dirent) : Call Bool
  | readUser (ip : Slot) (good : Nat → Bool) (off n : BitVec 32) : Call Int
  | writeUser (ip : Slot) (src : Nat → Option Byte) (off n : BitVec 32) : Call Int

abbrev Sys := Prog Call

def halt {α : Type} (why : Stop) : Sys α := .call (.stop why) Empty.elim

def beginOp : Sys Unit := Prog.perform .beginOp

def endOp : Sys Unit := Prog.perform .endOp

-- begin_op() and end_op() around the writes of one call
def bracket {α : Type} (body : Sys α) : Sys α := do
  beginOp
  let r ← body
  endOp
  pure r

def handles {β : Type} (f : Handles → β × Handles) : Sys β := Prog.perform (.handles f)

def iget (inum : Nat) : Sys Slot := Prog.perform (.iget inum)

def idup (ip : Slot) : Sys Unit := Prog.perform (.idup ip)

def ialloc (type : BitVec 16) : Sys (Option Slot) := Prog.perform (.ialloc type)

def ilock (ip : Slot) : Sys Unit := Prog.perform (.ilock ip)

def iunlock (ip : Slot) : Sys Unit := Prog.perform (.iunlock ip)

def iput (ip : Slot) : Sys Unit := Prog.perform (.iput ip)

def iupdate (ip : Slot) : Sys Unit := Prog.perform (.iupdate ip)

def itrunc (ip : Slot) : Sys Unit := Prog.perform (.itrunc ip)

def inumOf (ip : Slot) : Sys Nat := Prog.perform (.inum ip)

def attrOf (ip : Slot) : Sys Attr := Prog.perform (.attr ip)

def setAttr (ip : Slot) (attr : Attr) : Sys Unit := Prog.perform (.setAttr ip attr)

def sizeOf (ip : Slot) : Sys Nat := Prog.perform (.size ip)

def readDirent (ip : Slot) (off : Nat) : Sys (Option Dirent) := Prog.perform (.readDirent ip off)

def writeDirent (ip : Slot) (off : Nat) (de : Dirent) : Sys Bool := Prog.perform (.writeDirent ip off de)

def readUser (ip : Slot) (good : Nat → Bool) (off n : BitVec 32) : Sys Int := Prog.perform (.readUser ip good off n)

def writeUser (ip : Slot) (src : Nat → Option Byte) (off n : BitVec 32) : Sys Int :=
  Prog.perform (.writeUser ip src off n)

-- assignments to fields of ip, followed by iupdate(ip)
def store (ip : Slot) (attr : Attr) : Sys Unit := do
  setAttr ip attr
  iupdate ip

def iunlockput (ip : Slot) : Sys Unit := do
  iunlock ip
  iput ip

/-! Directories. -/

def direntSize : Nat := 16 -- sizeof(struct dirent)

-- a C string is read up to its NUL; past the end of the list stands the NUL
def strncmp : Nat → List Byte → List Byte → Int
  | 0, _, _ => 0
  | n + 1, p, q =>
    if p.headD 0 ≠ 0 ∧ p.headD 0 = q.headD 0 then strncmp n p.tail q.tail
    else (p.headD 0).toNat - (q.headD 0).toNat

def strncpy (t : List Byte) (n : Nat) : List Byte :=
  let text := (t.take n).takeWhile (· ≠ 0)
  text ++ List.replicate (n - text.length) 0

def namecmp (s t : List Byte) : Int := strncmp dirsiz s t

-- the number of entries a loop over a directory of this size reads
def slots (size : Nat) : Nat := (size + direntSize - 1) / direntSize

-- the rest of dirlookup's loop: count entries from offset off on
def dirlookupFrom (dp : Slot) (name : List Byte) : (count off : Nat) → Sys (Option (Slot × Nat))
  | 0, _ => pure none
  | count + 1, off => do
    match ← readDirent dp off with
    | none => halt .dirlookupRead
    | some de =>
      if de.inum ≠ 0 ∧ namecmp name de.name = 0 then
        let ip ← iget de.inum.toNat
        pure (some (ip,off))
      else dirlookupFrom dp name count (off + direntSize)

def dirlookup (dp : Slot) (name : List Byte) : Sys (Option (Slot × Nat)) := do
  if (← attrOf dp).type ≠ tDir then halt .dirlookupNotDir
  else
    let size ← sizeOf dp
    dirlookupFrom dp name (slots size) 0

-- dirlink's search for an empty dirent: its offset, or the offset past the last one
def emptyFrom (dp : Slot) : (count off : Nat) → Sys Nat
  | 0, off => pure off
  | count + 1, off => do
    match ← readDirent dp off with
    | none => halt .dirlinkRead
    | some de => if de.inum = 0 then pure off else emptyFrom dp count (off + direntSize)

def dirlink (dp : Slot) (name : List Byte) (inum : Nat) : Sys Int := do
  match ← dirlookup dp name with
  | some (ip,_) =>
    iput ip
    pure (-1)
  | none =>
    let size ← sizeOf dp
    let off ← emptyFrom dp (slots size) 0
    if ← writeDirent dp off ⟨BitVec.ofNat 16 inum,strncpy name dirsiz⟩ then pure 0 else pure (-1)

def isdiremptyFrom (dp : Slot) : (count off : Nat) → Sys Bool
  | 0, _ => pure true
  | count + 1, off => do
    match ← readDirent dp off with
    | none => halt .isdiremptyRead
    | some de => if de.inum ≠ 0 then pure false else isdiremptyFrom dp count (off + direntSize)

def isdirempty (dp : Slot) : Sys Bool := do
  let size ← sizeOf dp
  isdiremptyFrom dp (slots size - 2) (2 * direntSize)

/-! Paths. -/

def slash : Byte := 47

def skipelem (path : List Byte) : Option (List Byte × List Byte) :=
  let path := path.dropWhile (· = slash)
  if path = [] then none
  else some ((path.takeWhile (· ≠ slash)).take dirsiz,(path.dropWhile (· ≠ slash)).dropWhile (· = slash))

-- namex after its loop
def namexEnd (nameiparent : Bool) (ip : Slot) (name : List Byte) : Sys (Option (Slot × List Byte)) :=
  if nameiparent then do
    iput ip
    pure none
  else pure (some (ip,name))

-- the rest of namex's loop; every turn takes an element off the path, so its length bounds the turns
def namexFrom (nameiparent : Bool) : (turns : Nat) → Slot → (path name : List Byte) → Sys (Option (Slot × List Byte))
  | 0, ip, _, name => namexEnd nameiparent ip name
  | turns + 1, ip, path, name =>
    match skipelem path with
    | none => namexEnd nameiparent ip name
    | some (name,path) => do
      ilock ip
      if (← attrOf ip).type ≠ tDir then
        iunlockput ip
        pure none
      else if nameiparent = true ∧ path = [] then
        iunlock ip
        pure (some (ip,name))
      else
        match ← dirlookup ip name with
        | none =>
          iunlockput ip
          pure none
        | some (next,_) =>
          iunlockput ip
          namexFrom nameiparent turns next path name

def cwdOf (p : ProcId) : Sys Slot := handles fun h => ((h.proc p).cwd,h)

def namex (p : ProcId) (path : List Byte) (nameiparent : Bool) : Sys (Option (Slot × List Byte)) := do
  if path.head? = some slash then
    let ip ← iget rootino
    namexFrom nameiparent path.length ip path []
  else
    let ip ← cwdOf p
    idup ip
    namexFrom nameiparent path.length ip path []

def namei (p : ProcId) (path : List Byte) : Sys (Option Slot) := do
  match ← namex p path false with
  | some (ip,_) => pure (some ip)
  | none => pure none

def nameiparent (p : ProcId) (path : List Byte) : Sys (Option (Slot × List Byte)) := namex p path true

/-! Files. -/

def setFile (f : FileId) (change : File → File) (h : Handles) : Handles :=
  { h with file := update h.file f (change (h.file f)) }

def setProc (p : ProcId) (change : Proc → Proc) (h : Handles) : Handles :=
  { h with proc := update h.proc p (change (h.proc p)) }

def setFd (p : ProcId) (fd : Fin nofile) (f : Option FileId) : Handles → Handles :=
  setProc p fun proc => { proc with ofile := update proc.ofile fd f }

def setCwd (p : ProcId) (ip : Slot) : Handles → Handles := setProc p fun proc => { proc with cwd := ip }

def filealloc : Sys (Option FileId) := handles fun h =>
  match (List.finRange nfile).find? (fun f => (h.file f).ref = 0) with
  | some f => (some f,setFile f (fun file => { file with ref := 1 }) h)
  | none => (none,h)

def fdalloc (p : ProcId) (f : FileId) : Sys (Option (Fin nofile)) := handles fun h =>
  match (List.finRange nofile).find? (fun fd => (h.proc p).ofile fd = none) with
  | some fd => (some fd,setFd p fd (some f) h)
  | none => (none,h)

def fileOf (f : FileId) : Sys File := handles fun h => (h.file f,h)

def updateFile (f : FileId) (change : File → File) : Sys Unit := handles fun h => ((),setFile f change h)

def fdOf (p : ProcId) (fd : Fin nofile) : Sys (Option FileId) := handles fun h => ((h.proc p).ofile fd,h)

def updateFd (p : ProcId) (fd : Fin nofile) (f : Option FileId) : Sys Unit := handles fun h => ((),setFd p fd f h)

-- filedup under ftable.lock; false if it panics
def dupFile (f : FileId) (h : Handles) : Bool × Handles :=
  if (h.file f).ref < 1 then (false,h) else (true,setFile f (fun file => { file with ref := file.ref + 1 }) h)

def filedup (f : FileId) : Sys Unit := do
  if ← handles (dupFile f) then pure () else halt .filedup

-- fileclose under ftable.lock: none if it panics, and the file if this was its last reference
def closeFile (f : FileId) (h : Handles) : Option (Option File) × Handles :=
  let ff := h.file f
  if ff.ref < 1 then (none,h)
  else if 0 < ff.ref - 1 then (some none,setFile f (fun file => { file with ref := file.ref - 1 }) h)
  else (some (some ff),setFile f (fun file => { file with ref := 0, type := .fdNone }) h)

def PipeEnds.close (ends : PipeEnds) (writable : Bool) : PipeEnds :=
  if writable then { ends with writeopen := false } else { ends with readopen := false }

-- a pipe with both ends closed is freed
def PipeEnds.page (ends : PipeEnds) : Option PipeEnds :=
  if ends.readopen = false ∧ ends.writeopen = false then none else some ends

-- pipeclose; false if there is no pipe
def closePipe (pi : PipeId) (writable : Bool) (h : Handles) : Bool × Handles :=
  match h.pipe pi with
  | none => (false,h)
  | some ends => (true,{ h with pipe := update h.pipe pi (ends.close writable).page })

def pipeclose (pi : PipeId) (writable : Bool) : Sys Unit := do
  if ← handles (closePipe pi writable) then pure () else halt .freedPipe

-- what fileclose does with the copy of a file that nobody has any more
def releaseFile (ff : File) : Sys Unit :=
  match ff.type with
  | .fdPipe => pipeclose ff.pipe ff.writable
  | .fdInode | .fdDevice => bracket (iput ff.ip)
  | .fdNone => pure ()

def fileclose (f : FileId) : Sys Unit := do
  match ← handles (closeFile f) with
  | none => halt .fileclose
  | some none => pure ()
  | some (some ff) => releaseFile ff

-- a file's offset after r bytes have been moved
def advance (f : FileId) (r : Int) : Sys Unit :=
  if 0 < r then updateFile f fun file => { file with off := file.off + BitVec.ofInt 32 r } else pure ()

def devswHas (major : BitVec 16) : Bool := major = 1 -- only the console has read and write functions

/-- What a transfer to or from the console or a pipe returns is given by
`device`: their queues are not part of this model. -/
def fileread (f : FileId) (good : Nat → Bool) (n : BitVec 32) (device : Int) : Sys Int := do
  let file ← fileOf f
  if file.readable = false then pure (-1)
  else
    match file.type with
    | .fdPipe => pure device
    | .fdDevice =>
      if file.major.toInt < 0 ∨ (ndev : Int) ≤ file.major.toInt ∨ devswHas file.major = false then pure (-1)
      else pure device
    | .fdInode =>
      ilock file.ip
      let r ← readUser file.ip good (← fileOf f).off n
      advance f r
      iunlock file.ip
      pure r
    | .fdNone => halt .fileread

def maxWrite : Nat := ((maxOpBlocks - 1 - 1 - 2) / 2) * bsize

-- one turn of filewrite's loop on an inode: n1 bytes at the file's offset
def filewriteChunk (f : FileId) (src : Nat → Option Byte) (n1 : BitVec 32) : Sys Int := do
  let file ← fileOf f
  ilock file.ip
  let r ← writeUser file.ip src (← fileOf f).off n1
  advance f r
  iunlock file.ip
  pure r

-- filewrite's loop, i bytes written so far; every turn but the last writes maxWrite bytes
def filewriteFrom (f : FileId) (src : Nat → Option Byte) (n : Int) : (turns : Nat) → (i : Int) → Sys Int
  | 0, i => pure i
  | turns + 1, i => do
    if i < n then
      let n1 := min (n - i) maxWrite
      let r ← bracket (filewriteChunk f (fun k => src (i.toNat + k)) (BitVec.ofInt 32 n1))
      if r ≠ n1 then pure i
      else filewriteFrom f src n turns (i + r)
    else pure i

def filewrite (f : FileId) (src : Nat → Option Byte) (n : Int) (device : Int) : Sys Int := do
  let file ← fileOf f
  if file.writable = false then pure (-1)
  else
    match file.type with
    | .fdPipe => pure device
    | .fdDevice =>
      if file.major.toInt < 0 ∨ (ndev : Int) ≤ file.major.toInt ∨ devswHas file.major = false then pure (-1)
      else pure device
    | .fdInode =>
      let i ← filewriteFrom f src n (n.toNat / maxWrite + 1) 0
      pure (if i = n then n else -1)
    | .fdNone => halt .filewrite

def filestat (f : FileId) (copied : Bool) : Sys Int := do
  let file ← fileOf f
  if file.type = .fdInode ∨ file.type = .fdDevice then
    ilock file.ip
    iunlock file.ip
    pure (if copied then 0 else -1)
  else pure (-1)

def readEnd (pi : PipeId) (file : File) : File :=
  { file with type := .fdPipe, readable := true, writable := false, pipe := pi }

def writeEnd (pi : PipeId) (file : File) : File :=
  { file with type := .fdPipe, readable := false, writable := true, pipe := pi }

-- pipealloc once it has a page: the pipe and the two files are its own until fdalloc
def newPipe (f0 f1 : FileId) (pi : PipeId) (h : Handles) : Handles :=
  let h := { h with pipe := update h.pipe pi (some ⟨true,true⟩) }
  setFile f1 (writeEnd pi) (setFile f0 (readEnd pi) h)

def openPipe (f0 f1 : FileId) (page : Option PipeId) (h : Handles) : Bool × Handles :=
  match page with
  | none => (false,h)
  | some pi => if (h.pipe pi).isSome then (false,h) else (true,newPipe f0 f1 pi h)

/-- `page` is the page that kalloc returns, none if there is no free one. A page
that a pipe has is not free. -/
def pipealloc (page : Option PipeId) : Sys (Option (FileId × FileId)) := do
  match ← filealloc with
  | none => pure none
  | some f0 =>
    match ← filealloc with
    | none =>
      fileclose f0
      pure none
    | some f1 =>
      if ← handles (openPipe f0 f1 page) then pure (some (f0,f1))
      else
        fileclose f0
        fileclose f1
        pure none

/-! System calls of process p. A path is none when the string cannot be fetched
from user memory. -/

abbrev Path := Option (List Byte)

-- link's first half: the inode of the old path, with one more link
def linkSource (p : ProcId) (old : List Byte) : Sys (Option Slot) := do
  match ← namei p old with
  | none => pure none
  | some ip =>
    ilock ip
    let attr ← attrOf ip
    if attr.type = tDir then
      iunlockput ip
      pure none
    else
      store ip { attr with nlink := attr.nlink + 1 }
      iunlock ip
      pure (some ip)

-- link's error exit, which takes the link back
def linkBad (ip : Slot) : Sys Int := do
  ilock ip
  let attr ← attrOf ip
  store ip { attr with nlink := attr.nlink - 1 }
  iunlockput ip
  pure (-1)

-- link with both paths in kernel memory
def linkPaths (p : ProcId) (old new : List Byte) : Sys Int := do
  match ← linkSource p old with
  | none => pure (-1)
  | some ip =>
    match ← nameiparent p new with
    | none => linkBad ip
    | some (dp,name) =>
      ilock dp
      if (← dirlink dp name (← inumOf ip)) < 0 then
        iunlockput dp
        linkBad ip
      else
        iunlockput dp
        iput ip
        pure 0

def sysLink (p : ProcId) (old new : Path) : Sys Int :=
  match old, new with
  | some old, some new => bracket (linkPaths p old new)
  | _, _ => pure (-1)

def dot : List Byte := [46]

def dotdot : List Byte := [46,46]

-- unlink's first half: the parent, locked, and the inode with the offset of its entry
def unlinkFind (p : ProcId) (path : List Byte) : Sys (Option (Slot × Option (Slot × Nat))) := do
  match ← nameiparent p path with
  | none => pure none
  | some (dp,name) =>
    ilock dp
    if namecmp name dot = 0 ∨ namecmp name dotdot = 0 then pure (some (dp,none))
    else
      let found ← dirlookup dp name
      pure (some (dp,found))

def isdirfull (ip : Slot) (attr : Attr) : Sys Bool := do
  if attr.type = tDir then
    let empty ← isdirempty ip
    pure (!empty)
  else pure false

-- a subdirectory's .. no longer counts
def unlinkParent (dp : Slot) (attr : Attr) : Sys Unit := do
  if attr.type = tDir then
    let parent ← attrOf dp
    store dp { parent with nlink := parent.nlink - 1 }
  else pure ()

-- unlink's second half: the entry at offset off of dp names ip, and both are locked
def unlinkEntry (dp ip : Slot) (off : Nat) (attr : Attr) : Sys Int := do
  if ← writeDirent dp off ⟨0,List.replicate dirsiz 0⟩ then
    unlinkParent dp attr
    iunlockput dp
    store ip { attr with nlink := attr.nlink - 1 }
    iunlockput ip
    pure 0
  else halt .unlinkWritei

def unlinkPath (p : ProcId) (path : List Byte) : Sys Int := do
  match ← unlinkFind p path with
  | none => pure (-1)
  | some (dp,none) =>
    iunlockput dp
    pure (-1)
  | some (dp,some (ip,off)) =>
    ilock ip
    let attr ← attrOf ip
    if attr.nlink.toInt < 1 then halt .unlinkNlink
    else if ← isdirfull ip attr then
      iunlockput ip
      iunlockput dp
      pure (-1)
    else unlinkEntry dp ip off attr

def sysUnlink (p : ProcId) (path : Path) : Sys Int :=
  match path with
  | none => pure (-1)
  | some path => bracket (unlinkPath p path)

-- create's error exit, which takes the new inode back
def createFail (dp ip : Slot) : Sys (Option Slot) := do
  let attr ← attrOf ip
  store ip { attr with nlink := 0 }
  iunlockput ip
  iunlockput dp
  pure none

-- the . and .. entries of a new directory
def createDots (dp ip : Slot) : Sys Bool := do
  if (← dirlink ip dot (← inumOf ip)) < 0 then pure false
  else
    let r ← dirlink ip dotdot (← inumOf dp)
    pure (decide (0 ≤ r))

def createOwn (dp ip : Slot) (type : BitVec 16) : Sys Bool :=
  if type = tDir then createDots dp ip else pure true

-- the entries for the new inode ip: its own, and the one in dp
def createEntry (dp ip : Slot) (name : List Byte) (type : BitVec 16) : Sys (Option Slot) := do
  let dots ← createOwn dp ip type
  if dots = false then createFail dp ip
  else if (← dirlink dp name (← inumOf ip)) < 0 then createFail dp ip
  else
    if type = tDir then
      let parent ← attrOf dp
      store dp { parent with nlink := parent.nlink + 1 }
    iunlockput dp
    pure (some ip)

-- create once the name is known to be new
def createNew (dp : Slot) (name : List Byte) (type major minor : BitVec 16) : Sys (Option Slot) := do
  match ← ialloc type with
  | none =>
    iunlockput dp
    pure none
  | some ip =>
    ilock ip
    let attr ← attrOf ip
    store ip { attr with major := major, minor := minor, nlink := 1 }
    createEntry dp ip name type

def create (p : ProcId) (path : List Byte) (type major minor : BitVec 16) : Sys (Option Slot) := do
  match ← nameiparent p path with
  | none => pure none
  | some (dp,name) =>
    ilock dp
    match ← dirlookup dp name with
    | some (ip,_) =>
      iunlockput dp
      ilock ip
      let attr ← attrOf ip
      if type = tFile ∧ (attr.type = tFile ∨ attr.type = tDevice) then pure (some ip)
      else
        iunlockput ip
        pure none
    | none => createNew dp name type major minor

def oWronly : BitVec 32 := 0x001 -- O_WRONLY

def oRdwr : BitVec 32 := 0x002 -- O_RDWR

def oCreate : BitVec 32 := 0x200 -- O_CREATE

def oTrunc : BitVec 32 := 0x400 -- O_TRUNC

-- the inode that open works on, locked
def openInode (p : ProcId) (path : List Byte) (omode : BitVec 32) : Sys (Option Slot) := do
  if omode &&& oCreate ≠ 0 then create p path tFile 0 0
  else
    match ← namei p path with
    | none => pure none
    | some ip =>
      ilock ip
      if (← attrOf ip).type = tDir ∧ omode ≠ 0 then
        iunlockput ip
        pure none
      else pure (some ip)

-- the fields that open sets in its file
def openFile (ip : Slot) (omode : BitVec 32) (attr : Attr) (file : File) : File :=
  let file :=
    if attr.type = tDevice then { file with type := .fdDevice, major := attr.major }
    else { file with type := .fdInode, off := 0 }
  { file with
    ip := ip
    readable := decide (omode &&& oWronly = 0)
    writable := decide (omode &&& oWronly ≠ 0 ∨ omode &&& oRdwr ≠ 0) }

def openTrunc (ip : Slot) (omode : BitVec 32) (attr : Attr) : Sys Unit :=
  if omode &&& oTrunc ≠ 0 ∧ attr.type = tFile then itrunc ip else pure ()

def openPath (p : ProcId) (path : List Byte) (omode : BitVec 32) : Sys Int := do
  match ← openInode p path omode with
  | none => pure (-1)
  | some ip =>
    let attr ← attrOf ip
    if attr.type = tDevice ∧ (attr.major.toInt < 0 ∨ (ndev : Int) ≤ attr.major.toInt) then
      iunlockput ip
      pure (-1)
    else
      match ← filealloc with
      | none =>
        iunlockput ip
        pure (-1)
      | some f =>
        match ← fdalloc p f with
        | none =>
          fileclose f
          iunlockput ip
          pure (-1)
        | some fd =>
          updateFile f (openFile ip omode attr)
          openTrunc ip omode attr
          iunlock ip
          pure fd

def sysOpen (p : ProcId) (path : Path) (omode : BitVec 32) : Sys Int :=
  match path with
  | none => pure (-1)
  | some path => bracket (openPath p path omode)

-- mkdir and mknod: the new inode is not used any further
def createPath (p : ProcId) (path : Path) (type major minor : BitVec 16) : Sys Int := do
  match path with
  | none => pure (-1)
  | some path =>
    match ← create p path type major minor with
    | none => pure (-1)
    | some ip =>
      iunlockput ip
      pure 0

def sysMkdir (p : ProcId) (path : Path) : Sys Int := bracket (createPath p path tDir 0 0)

def sysMknod (p : ProcId) (path : Path) (major minor : BitVec 16) : Sys Int :=
  bracket (createPath p path tDevice major minor)

-- chdir up to end_op(): the new directory, with the old one dropped
def chdirPath (p : ProcId) (path : Path) : Sys (Option Slot) := do
  match path with
  | none => pure none
  | some path =>
    match ← namei p path with
    | none => pure none
    | some ip =>
      ilock ip
      if (← attrOf ip).type ≠ tDir then
        iunlockput ip
        pure none
      else
        iunlock ip
        iput (← cwdOf p)
        pure (some ip)

def sysChdir (p : ProcId) (path : Path) : Sys Int := do
  match ← bracket (chdirPath p path) with
  | none => pure (-1)
  | some ip =>
    handles fun h => ((),setCwd p ip h)
    pure 0

def sysDup (p : ProcId) (fd : Fin nofile) : Sys Int := do
  match ← fdOf p fd with
  | none => pure (-1)
  | some f =>
    match ← fdalloc p f with
    | none => pure (-1)
    | some fd =>
      filedup f
      pure fd

def sysClose (p : ProcId) (fd : Fin nofile) : Sys Int := do
  match ← fdOf p fd with
  | none => pure (-1)
  | some f =>
    updateFd p fd none
    fileclose f
    pure 0

def sysRead (p : ProcId) (fd : Fin nofile) (good : Nat → Bool) (n : BitVec 32) (device : Int) : Sys Int := do
  match ← fdOf p fd with
  | none => pure (-1)
  | some f => fileread f good n device

def sysWrite (p : ProcId) (fd : Fin nofile) (src : Nat → Option Byte) (n device : Int) : Sys Int := do
  match ← fdOf p fd with
  | none => pure (-1)
  | some f => filewrite f src n device

def sysFstat (p : ProcId) (fd : Fin nofile) (copied : Bool) : Sys Int := do
  match ← fdOf p fd with
  | none => pure (-1)
  | some f => filestat f copied

-- copied says if both descriptors can be copied out
def sysPipe (p : ProcId) (page : Option PipeId) (copied : Bool) : Sys Int := do
  match ← pipealloc page with
  | none => pure (-1)
  | some (rf,wf) =>
    match ← fdalloc p rf with
    | none =>
      fileclose rf
      fileclose wf
      pure (-1)
    | some fd0 =>
      match ← fdalloc p wf with
      | none =>
        updateFd p fd0 none
        fileclose rf
        fileclose wf
        pure (-1)
      | some fd1 =>
        if copied then pure 0
        else
          updateFd p fd0 none
          updateFd p fd1 none
          fileclose rf
          fileclose wf
          pure (-1)

-- kexec's reads of the ELF header, the program headers and the segments; each may end it
def kexecLoad (ip : Slot) : List (BitVec 32 × BitVec 32 × Bool) → Sys Bool
  | [] => pure true
  | (off,n,goes) :: rest => do
    let _ ← readUser ip (fun _ => true) off n
    if goes then kexecLoad ip rest else pure false

-- kexec up to end_op()
def kexecPath (p : ProcId) (path : List Byte) (reads : List (BitVec 32 × BitVec 32 × Bool)) : Sys Bool := do
  match ← namei p path with
  | none => pure false
  | some ip =>
    ilock ip
    let loaded ← kexecLoad ip reads
    iunlockput ip
    pure loaded

/-- The file side of kexec. Where it gives up, for want of memory or because of
what it reads, is given by `reads` and `built`. -/
def kexec (p : ProcId) (path : List Byte) (reads : List (BitVec 32 × BitVec 32 × Bool)) (built : Bool) : Sys Int := do
  let loaded ← bracket (kexecPath p path reads)
  pure (if loaded && built then 0 else -1)

def sysExec (p : ProcId) (path : Path) (reads : List (BitVec 32 × BitVec 32 × Bool)) (built : Bool) : Sys Int := do
  match path with
  | none => pure (-1)
  | some path => kexec p path reads built

-- kfork's loop over the descriptors
def forkFiles (p np : ProcId) : List (Fin nofile) → Sys Unit
  | [] => pure ()
  | fd :: rest => do
    match ← fdOf p fd with
    | none => pure ()
    | some f =>
      filedup f
      updateFd np fd (some f)
    forkFiles p np rest

def setProcState (p : ProcId) (state : ProcState) : Handles → Handles := setProc p fun proc => { proc with state := state }

-- allocproc at the slot np, if it is unused
def allocproc (np : ProcId) : Sys Bool := handles fun h =>
  if (h.proc np).state = .unused then (true,setProcState np .embryo h) else (false,h)

def freeproc (np : ProcId) : Sys Unit := handles fun h => ((),setProcState np .unused h)

def startChild (np : ProcId) (ip : Slot) : Sys Unit := handles fun h =>
  ((),setProc np (fun proc => { proc with state := .live, cwd := ip }) h)

/-- `np` is the slot that allocproc finds, and `memory` says if there are pages
for the child. -/
def kfork (p np : ProcId) (memory : Bool) : Sys Int := do
  if ← allocproc np then
    if memory then
      forkFiles p np (List.finRange nofile)
      let ip ← cwdOf p
      idup ip
      startChild np ip
      pure 1
    else
      freeproc np
      pure (-1)
  else pure (-1)

-- kexit's loop over the descriptors
def exitFiles (p : ProcId) : List (Fin nofile) → Sys Unit
  | [] => pure ()
  | fd :: rest => do
    match ← fdOf p fd with
    | none => pure ()
    | some f =>
      fileclose f
      updateFd p fd none
    exitFiles p rest

def initproc : ProcId := ⟨0,by decide⟩

def kexit (p : ProcId) : Sys Unit := do
  if p = initproc then halt .initExiting
  else
    exitFiles p (List.finRange nofile)
    let ip ← cwdOf p
    bracket (iput ip)
    handles fun h => ((),setProcState p .zombie h)

-- kwait frees a child that has exited, if np is one
def kwait (np : ProcId) : Sys Int := handles fun h =>
  if (h.proc np).state = .zombie then (1,setProcState np .unused h) else (-1,h)

end Xv6.Fs
