import Xv6.Vm.Fork

/-! exec: kexec and loadseg of exec.c, over the contents of the file, and sys_exec.
The file is locked while it is read, so its contents are a list of bytes. What kexec
does to the log and to the inode is recorded as a list of calls. -/
namespace Xv6.Exec
open Lib.Bytes Vm

def maxarg : Nat := 32

def userstack : Nat := 1

/-! elf.h. -/

def elfMagic : BitVec 32 := 0x464C457F

structure Elfhdr where
  magic : BitVec 32
  entry : BitVec 64
  phoff : BitVec 64
  phnum : BitVec 16

structure Proghdr where
  type : BitVec 32
  flags : BitVec 32
  off : BitVec 64
  vaddr : BitVec 64
  filesz : BitVec 64
  memsz : BitVec 64

-- sizeof(struct elfhdr) and sizeof(struct proghdr)
def elfhdrSize : Nat := 64

def proghdrSize : Nat := 56

def elfhdr (bytes : List Byte) : Elfhdr :=
  let block := fun k => bytes.getD k 0
  ⟨get32 block 0,get64 block 3,get64 block 4,get16 block 28⟩

def proghdr (bytes : List Byte) : Proghdr :=
  let block := fun k => bytes.getD k 0
  ⟨get32 block 0,get32 block 1,get64 block 1,get64 block 2,get64 block 4,get64 block 5⟩

def progLoad : BitVec 32 := 1

abbrev File := List Byte

-- the bytes that readi stores; it returns their number
def readi (file : File) (off n : BitVec 32) : List Byte :=
  if file.length < off.toNat ∨ off + n < off then [] else (file.drop off.toNat).take n.toNat

def flags2perm (flags : BitVec 32) : Pte :=
  let perm := if flags &&& 1 ≠ 0 then pteX else 0
  if flags &&& 2 ≠ 0 then perm ||| pteW else perm

/-! Loading. -/

-- loadseg's loop: false for -1. What readi has stored stays there if it is too little
def loadFrom (pagetable : Frame) (va : Nat) (file : File) (offset sz : BitVec 32) :
    (turns : Nat) → (i : BitVec 32) → Memory → Except Panic (Bool × Memory)
  | 0, i, m => if i < sz then .error .hangs else .ok (true,m)
  | turns + 1, i, m =>
    if i < sz then
      let pa := m.walkaddr pagetable ((va + i.toNat) % 2^64)
      if pa = 0 then .error .loadseg
      else
        let n := if sz - i < BitVec.ofNat 32 pgsize then sz - i else BitVec.ofNat 32 pgsize
        let bytes := readi file (offset + i) n
        let m := m.setPage pa (copyAt (m.page pa) 0 bytes)
        if bytes.length ≠ n.toNat then .ok (false,m)
        else loadFrom pagetable va file offset sz turns (i + BitVec.ofNat 32 pgsize) m
    else .ok (true,m)

-- after a turn for each page i has passed sz, or it has wrapped
def loadseg (m : Memory) (pagetable : Frame) (va : Nat) (file : File) (offset sz : BitVec 32) : Except Panic (Bool × Memory) :=
  loadFrom pagetable va file offset sz ((sz.toNat + pgsize - 1) / pgsize) 0 m

-- the tests of a program header that is to be loaded
def acceptable (ph : Proghdr) : Bool :=
  decide (ph.filesz ≤ ph.memsz ∧ ph.vaddr ≤ ph.vaddr + ph.memsz ∧ ph.vaddr.toNat % pgsize = 0)

-- one of them: false if kexec gives up, with its sz
def loadSegment (m : Memory) (pagetable : Frame) (file : File) (ph : Proghdr) (sz : Nat) : Except Panic (Bool × Nat × Memory) :=
  if acceptable ph = false then .ok (false,sz,m)
  else
    match m.uvmalloc pagetable sz (ph.vaddr + ph.memsz).toNat (flags2perm ph.flags) with
    | .error e => .error e
    | .ok (sz1,m) =>
      if sz1 = 0 then .ok (false,sz,m)
      else (loadseg m pagetable ph.vaddr.toNat file (ph.off.setWidth 32) (ph.filesz.setWidth 32)).map fun (ok,m) => (ok,sz1,m)

-- kexec's loop over the program headers; off is an int, which readi takes for a uint
def loadSegments (pagetable : Frame) (file : File) :
    (turns : Nat) → (off : BitVec 32) → (sz : Nat) → Memory → Except Panic (Bool × Nat × Memory)
  | 0, _, sz, m => .ok (true,sz,m)
  | turns + 1, off, sz, m =>
    let bytes := readi file off (BitVec.ofNat 32 proghdrSize)
    if bytes.length ≠ proghdrSize then .ok (false,sz,m)
    else if (proghdr bytes).type ≠ progLoad then loadSegments pagetable file turns (off + BitVec.ofNat 32 proghdrSize) sz m
    else
      match loadSegment m pagetable file (proghdr bytes) sz with
      | .error e => .error e
      | .ok (false,sz,m) => .ok (false,sz,m)
      | .ok (true,sz,m) => loadSegments pagetable file turns (off + BitVec.ofNat 32 proghdrSize) sz m

-- the ELF header, if it is one
def header (file : File) : Option Elfhdr :=
  let bytes := readi file 0 (BitVec.ofNat 32 elfhdrSize)
  if bytes.length ≠ elfhdrSize then none else if (elfhdr bytes).magic ≠ elfMagic then none else some (elfhdr bytes)

/-! The stack. -/

-- the guard page and the stack, from a multiple of PGSIZE on; none if there is no memory
def makeStack (m : Memory) (pagetable : Frame) (sz : Nat) : Except Panic (Option Nat × Memory) :=
  match m.uvmalloc pagetable sz ((sz + (userstack + 1) * pgsize) % 2^64) pteW with
  | .error e => .error e
  | .ok (sz1,m) =>
    if sz1 = 0 then .ok (none,m)
    else (m.uvmclear pagetable ((sz1 + 2^64 - (userstack + 1) * pgsize) % 2^64)).map fun m => (some sz1,m)

-- sp -= n; sp -= sp % 16
def lower16 (sp n : Nat) : Nat :=
  let sp := (sp + 2^64 - n) % 2^64
  sp - sp % 16

-- the argument strings: sp and ustack after the last, or none
def pushStrings (p : Proc) (pagetable : Frame) (stackbase : Nat) :
    (argv : List (List Byte)) → (sp : Nat) → (ustack : List Nat) → Memory → Except Panic (Option (Nat × List Nat) × Memory)
  | [], sp, ustack, m => .ok (some (sp,ustack),m)
  | s :: argv, sp, ustack, m =>
    if maxarg ≤ ustack.length then .ok (none,m)
    else
      let sp := lower16 sp (s.length + 1)
      if sp < stackbase then .ok (none,m)
      else
        match m.copyout p pagetable sp (s ++ [0]) with
        | .error e => .error e
        | .ok (false,_,m) => .ok (none,m)
        | .ok (true,_,m) => pushStrings p pagetable stackbase argv sp (ustack ++ [sp]) m

-- the bytes of an array of uint64
def bytes64 (words : List Nat) : List Byte :=
  (List.range (8 * words.length)).map fun k => (BitVec.ofNat 64 (words.getD (k / 8) 0)).extractLsb' (8 * (k % 8)) 8

-- ustack[argc] = 0, and a copy of ustack on the stack
def pushArray (m : Memory) (p : Proc) (pagetable : Frame) (stackbase sp : Nat) (ustack : List Nat) : Except Panic (Option Nat × Memory) :=
  if maxarg ≤ ustack.length then .error .ustack
  else
    let sp := lower16 sp ((ustack.length + 1) * 8)
    if sp < stackbase then .ok (none,m)
    else (m.copyout p pagetable sp (bytes64 (ustack ++ [0]))).map fun (ok,_,m) => (if ok then some sp else none,m)

-- the arguments: sp and argc, or none
def pushArguments (m : Memory) (p : Proc) (pagetable : Frame) (sz : Nat) (argv : List (List Byte)) :
    Except Panic (Option (Nat × Nat) × Memory) :=
  let stackbase := (sz + 2^64 - userstack * pgsize) % 2^64
  match pushStrings p pagetable stackbase argv sz [] m with
  | .error e => .error e
  | .ok (none,m) => .ok (none,m)
  | .ok (some (sp,ustack),m) =>
    (pushArray m p pagetable stackbase sp ustack).map fun (sp,m) => (sp.map fun sp => (sp,ustack.length),m)

/-! kexec. -/

-- what kexec asks of the log and of the inode layer
inductive Event
  | beginOp
  | namei
  | ilock
  | iunlockput
  | endOp
  deriving DecidableEq

structure Caller where
  task : Task
  name : List Byte

structure Outcome where
  r : Int
  caller : Caller
  memory : Memory
  log : List Event

-- bad: with ip = 0 after the inode has been put
def giveUp (caller : Caller) (pagetable : Frame) (sz : Nat) (ip : Bool) (log : List Event) (m : Memory) : Except Panic Outcome :=
  (if pagetable ≠ 0 then m.procFreepagetable pagetable sz else .ok m).map fun m =>
    ⟨-1,caller,m,if ip then log ++ [.iunlockput,.endOp] else log⟩

-- the indices of epc, sp and a1 in struct trapframe
def epcIndex : Nat := 3

def spIndex : Nat := 6

def a1Index : Nat := 15

-- safestrcpy of what follows the last slash into p->name, which has 16 bytes
def nameOf (path : List Byte) : List Byte := ((path.reverse.takeWhile (· ≠ 0x2F)).reverse).take 15

def commit (caller : Caller) (path : List Byte) (pagetable : Frame) (sz sp argc : Nat) (entry : BitVec 64) (log : List Event) (m : Memory) :
    Except Panic Outcome :=
  let frame := set64 (m.page caller.task.trapframe) a1Index (BitVec.ofNat 64 sp)
  let frame := set64 (set64 frame epcIndex entry) spIndex (BitVec.ofNat 64 sp)
  ((m.setPage caller.task.trapframe frame).procFreepagetable caller.task.pagetable caller.task.sz).map fun m =>
    ⟨argc,⟨{ caller.task with pagetable := pagetable, sz := sz },nameOf path⟩,m,log⟩

-- from the allocation of the stack on
def enter (caller : Caller) (path : List Byte) (argv : List (List Byte)) (pagetable : Frame) (sz : Nat) (entry : BitVec 64)
    (log : List Event) (m : Memory) : Except Panic Outcome :=
  match makeStack m pagetable (pgroundup sz) with
  | .error e => .error e
  | .ok (none,m) => giveUp caller pagetable (pgroundup sz) false log m
  | .ok (some sz,m) =>
    match pushArguments m caller.task.proc pagetable sz argv with
    | .error e => .error e
    | .ok (none,m) => giveUp caller pagetable sz false log m
    | .ok (some (sp,argc),m) => commit caller path pagetable sz sp argc entry log m

-- with an ELF header
def load (caller : Caller) (trampolinePage : Frame) (path : List Byte) (argv : List (List Byte)) (file : File) (elf : Elfhdr)
    (log : List Event) (m : Memory) : Except Panic Outcome :=
  match m.procPagetable trampolinePage caller.task.trapframe with
  | .error e => .error e
  | .ok (pagetable,m) =>
    if pagetable = 0 then giveUp caller 0 0 true log m
    else
      match loadSegments pagetable file elf.phnum.toNat (elf.phoff.setWidth 32) 0 m with
      | .error e => .error e
      | .ok (false,sz,m) => giveUp caller pagetable sz true log m
      | .ok (true,sz,m) => enter caller path argv pagetable sz elf.entry (log ++ [.iunlockput,.endOp]) m

/-- kexec(path, argv) of the process `caller`, where `file` is what namei finds. -/
def kexec (m : Memory) (caller : Caller) (trampolinePage : Frame) (path : List Byte) (file : Option File) (argv : List (List Byte)) :
    Except Panic Outcome :=
  match file with
  | none => .ok ⟨-1,caller,m,[.beginOp,.namei,.endOp]⟩
  | some file =>
    match header file with
    | none => giveUp caller 0 0 true [.beginOp,.namei,.ilock] m
    | some elf => load caller trampolinePage path argv file elf [.beginOp,.namei,.ilock] m

/-! sys_exec. -/

def fetchaddr (m : Memory) (p : Proc) (addr : Nat) : Except Panic (Option (BitVec 64) × Memory) :=
  if p.sz ≤ addr ∨ p.sz < (addr + 8) % 2^64 then .ok (none,m)
  else (m.copyin p p.pagetable addr 8).map fun (ok,bytes,_,m) => (if ok then some (get64 (fun k => bytes.getD k 0) 0) else none,m)

-- its loop over the arguments: the pages that it took, and the strings if it does not fail
def fetchArgs (p : Proc) (uargv : Nat) :
    (turns i : Nat) → (pages : List Frame) → (argv : List (List Byte)) → Memory → Except Panic (Option (List (List Byte)) × List Frame × Memory)
  | 0, _, pages, _, m => .ok (none,pages,m)
  | turns + 1, i, pages, argv, m =>
    match fetchaddr m p ((uargv + 8 * i) % 2^64) with
    | .error e => .error e
    | .ok (none,m) => .ok (none,pages,m)
    | .ok (some uarg,m) =>
      if uarg = 0 then .ok (some argv,pages,m)
      else
        let (page,m) := m.kalloc
        if page = 0 then .ok (none,pages,m)
        else
          let (r,buf) := m.fetchstr p uarg.toNat pgsize
          let m := m.setPage page (copyAt (m.page page) 0 buf)
          if r < 0 then .ok (none,pages ++ [page],m)
          else fetchArgs p uargv turns (i + 1) (pages ++ [page]) (argv ++ [buf.takeWhile (· ≠ 0)]) m

def freeAll : List Frame → Memory → Except Panic Memory
  | [], m => .ok m
  | page :: pages, m => m.kfree page >>= freeAll pages

/-- sys_exec with the user addresses of the path and of argv; `files` says what
namei finds. -/
def sysExec (m : Memory) (caller : Caller) (trampolinePage : Frame) (upath uargv : Nat) (files : List Byte → Option File) :
    Except Panic Outcome :=
  let (r,path) := m.fetchstr caller.task.proc upath 128
  if r < 0 then .ok ⟨-1,caller,m,[]⟩
  else
    match fetchArgs caller.task.proc uargv maxarg 0 [] [] m with
    | .error e => .error e
    | .ok (none,pages,m) => (freeAll pages m).map fun m => ⟨-1,caller,m,[]⟩
    | .ok (some argv,pages,m) =>
      match kexec m caller trampolinePage (path.takeWhile (· ≠ 0)) (files (path.takeWhile (· ≠ 0))) argv with
      | .error e => .error e
      | .ok outcome => (freeAll pages outcome.memory).map fun m => { outcome with memory := m }

end Xv6.Exec
