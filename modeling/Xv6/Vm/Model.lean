import Xv6.Param
import Xv6.Lib.Bytes
import Mathlib.Logic.Function.Basic

/-! The page allocator of kalloc.c, and the Sv39 page tables and the copies from
user memory of vm.c. A physical page is named by its number; the kernel's own
mapping of memory is the identity. Page tables lie in the pages themselves. -/
namespace Xv6.Vm
open Lib.Bytes

abbrev Page := Nat → Byte

abbrev Frame := Nat -- a physical address over PGSIZE

abbrev Pte := BitVec 64

def pgsize : Nat := 4096

def maxva : Nat := 2^38

def trampoline : Nat := maxva - pgsize

def trapframe : Nat := trampoline - pgsize

def pteV : Pte := 1

def pteR : Pte := 2

def pteW : Pte := 4

def pteX : Pte := 8

def pteU : Pte := 16

def pa2pte (f : Frame) : Pte := BitVec.ofNat 64 f <<< 10

def pte2pa (pte : Pte) : Frame := ((pte >>> 10) <<< 12).toNat / pgsize

def px (level va : Nat) : Nat := va / 2^(12 + 9 * level) % 512

def pgrounddown (a : Nat) : Nat := a / pgsize * pgsize

inductive Panic
  | kfree
  | walk
  | vaNotAligned -- mappages: va not aligned
  | sizeNotAligned -- mappages: size not aligned
  | size -- mappages: size
  | remap -- mappages: remap
  | unmapNotAligned -- uvmunmap: not aligned
  | uvmclear
  | leaf -- freewalk: leaf
  | loadseg -- loadseg: address should exist
  | ustack -- a write past the end of kexec's ustack
  | hangs -- a loop that does not end
  | kerneltrap -- a null pointer
  deriving DecidableEq

structure Memory where
  page : Frame → Page
  freelist : List Frame -- kmem.freelist
  first : Frame -- the pages from end to PHYSTOP
  last : Frame

namespace Memory
variable (m : Memory)

def setPage (f : Frame) (page : Page) : Memory := { m with page := Function.update m.page f page }

-- memset(pa, c, PGSIZE)
def fill (f : Frame) (c : Byte) : Memory := m.setPage f fun _ => c

def kfree (f : Frame) : Except Panic Memory :=
  if f < m.first ∨ m.last ≤ f then .error .kfree
  else .ok { m.fill f 1 with freelist := f :: m.freelist }

-- 0 if there is no page
def kalloc : Frame × Memory :=
  match m.freelist with
  | [] => (0,m)
  | f :: rest => (f,{ m with freelist := rest }.fill f 5)

def pte (t : Frame) (k : Nat) : Pte := get64 (m.page t) k

def setPte (t : Frame) (k : Nat) (pte : Pte) : Memory := m.setPage t (set64 (m.page t) k pte)

-- the table that entry k of table t points to
def below (t : Frame) (k : Nat) (alloc : Bool) : Option Frame × Memory :=
  if m.pte t k &&& pteV ≠ 0 then (some (pte2pa (m.pte t k)),m)
  else if alloc then
    let (pagetable,m) := m.kalloc
    if pagetable = 0 then (none,m)
    else (some pagetable,(m.fill pagetable 0).setPte t k (pa2pte pagetable ||| pteV))
  else (none,m)

-- walk's loop
def walkFrom (va : Nat) (alloc : Bool) : (level : Nat) → (pagetable : Frame) → Memory → Option Frame × Memory
  | 0, pagetable, m => (some pagetable,m)
  | level + 1, pagetable, m =>
    match m.below pagetable (px (level + 1) va) alloc with
    | (none,m) => (none,m)
    | (some pagetable,m) => walkFrom va alloc level pagetable m

-- the table and the index of the PTE
def walk (pagetable : Frame) (va : Nat) (alloc : Bool) : Except Panic (Option (Frame × Nat) × Memory) :=
  if maxva ≤ va then .error .walk
  else
    let (t,m) := walkFrom va alloc 2 pagetable m
    .ok (t.map fun t => (t,px 0 va),m)

-- 0 if va is not mapped
def walkaddr (pagetable : Frame) (va : Nat) : Frame :=
  match m.walk pagetable va false with
  | .ok (some (t,k),m) =>
    if m.pte t k &&& pteV = 0 then 0 else if m.pte t k &&& pteU = 0 then 0 else pte2pa (m.pte t k)
  | _ => 0

def ismapped (pagetable : Frame) (va : Nat) : Except Panic Bool := do
  match ← m.walk pagetable va false with
  | (none,_) => pure false
  | (some (t,k),m) => pure (decide (m.pte t k &&& pteV ≠ 0))

-- mappages's loop
def mapFrom (pagetable : Frame) (perm : Pte) : (count a : Nat) → Frame → Memory → Except Panic (Bool × Memory)
  | 0, _, _, m => .ok (true,m)
  | count + 1, a, pa, m => do
    match ← m.walk pagetable a true with
    | (none,m) => pure (false,m)
    | (some (t,k),m) =>
      if m.pte t k &&& pteV ≠ 0 then .error .remap
      else mapFrom pagetable perm count (a + pgsize) (pa + 1) (m.setPte t k (pa2pte pa ||| perm ||| pteV))

-- false for -1
def mappages (pagetable : Frame) (va size : Nat) (pa : Frame) (perm : Pte) : Except Panic (Bool × Memory) :=
  if va % pgsize ≠ 0 then .error .vaNotAligned
  else if size % pgsize ≠ 0 then .error .sizeNotAligned
  else if size = 0 then .error .size
  else mapFrom pagetable perm (size / pgsize) va pa m

end Memory

structure Proc where
  pagetable : Frame
  sz : Nat

namespace Memory
variable (m : Memory)

-- vmfault at a page that is not mapped
def faultPage (p : Proc) (va : Nat) : Except Panic (Frame × Memory) :=
  let (mem,m) := m.kalloc
  if mem = 0 then .ok (0,m)
  else
    match (m.fill mem 0).mappages p.pagetable va pgsize mem (pteW ||| pteU ||| pteR) with
    | .error e => .error e
    | .ok (true,m) => .ok (mem,m)
    | .ok (false,m) => (m.kfree mem).map fun m => (0,m)

-- vmfault of the process p; 0 if it fails
def vmfault (p : Proc) (pagetable : Frame) (va : Nat) : Except Panic (Frame × Memory) :=
  if p.sz ≤ va then .ok (0,m)
  else
    match m.ismapped pagetable (pgrounddown va) with
    | .error e => .error e
    | .ok true => .ok (0,m)
    | .ok false => m.faultPage p (pgrounddown va)

-- the page at va0, faulted in if it is not there
def userPage (p : Proc) (pagetable : Frame) (va0 : Nat) : Except Panic (Frame × Memory) :=
  let pa0 := m.walkaddr pagetable va0
  if pa0 = 0 then m.vmfault p pagetable va0 else .ok (pa0,m)

-- copyout's loop: false for -1, and the pages that it writes to; every turn copies a byte at least
def copyoutFrom (p : Proc) (pagetable : Frame) :
    (turns dstva : Nat) → (src : List Byte) → Memory → Except Panic (Bool × List Frame × Memory)
  | 0, _, _, m => .ok (true,[],m)
  | turns + 1, dstva, src, m =>
    if src = [] then .ok (true,[],m)
    else
      let va0 := pgrounddown dstva
      if maxva ≤ va0 then .ok (false,[],m)
      else do
        let (pa0,m) ← m.userPage p pagetable va0
        if pa0 = 0 then pure (false,[],m)
        else
          match ← m.walk pagetable va0 false with
          | (none,_) => .error .kerneltrap
          | (some (t,k),m) =>
            -- forbid copyout over read-only user text pages
            if m.pte t k &&& pteW = 0 then pure (false,[],m)
            else
              let n := min (pgsize - (dstva - va0)) src.length
              let page := copyAt (m.page pa0) (dstva - va0) (src.take n)
              let (ok,pages,m) ← copyoutFrom p pagetable turns ((va0 + pgsize) % 2^64) (src.drop n) (m.setPage pa0 page)
              pure (ok,pa0 :: pages,m)

def copyout (p : Proc) (pagetable : Frame) (dstva : Nat) (src : List Byte) : Except Panic (Bool × List Frame × Memory) :=
  copyoutFrom p pagetable src.length dstva src m

-- copyin's loop: false for -1, the bytes that it stores at dst, and the pages that it reads
def copyinFrom (p : Proc) (pagetable : Frame) :
    (turns srcva len : Nat) → Memory → Except Panic (Bool × List Byte × List Frame × Memory)
  | 0, _, _, m => .ok (true,[],[],m)
  | turns + 1, srcva, len, m =>
    if len = 0 then .ok (true,[],[],m)
    else do
      let va0 := pgrounddown srcva
      let (pa0,m) ← m.userPage p pagetable va0
      if pa0 = 0 then pure (false,[],[],m)
      else
        let n := min (pgsize - (srcva - va0)) len
        let bytes := (List.range n).map fun k => m.page pa0 (srcva - va0 + k)
        let (ok,rest,pages,m) ← copyinFrom p pagetable turns ((va0 + pgsize) % 2^64) (len - n) m
        pure (ok,bytes ++ rest,pa0 :: pages,m)

def copyin (p : Proc) (pagetable : Frame) (srcva len : Nat) : Except Panic (Bool × List Byte × List Frame × Memory) :=
  copyinFrom p pagetable len srcva len m

-- copyinstr's inner loop: the bytes it stores, and got_null
def copyStr (page : Page) : (n off : Nat) → List Byte × Bool
  | 0, _ => ([],false)
  | n + 1, off =>
    if page off = 0 then ([0],true)
    else
      let (rest,gotNull) := copyStr page n (off + 1)
      (page off :: rest,gotNull)

-- copyinstr's loop; every turn but the last copies a byte at least
def copyinstrFrom (pagetable : Frame) : (turns srcva max : Nat) → List Byte × Bool
  | 0, _, _ => ([],false)
  | turns + 1, srcva, max =>
    if max = 0 then ([],false)
    else
      let va0 := pgrounddown srcva
      let pa0 := m.walkaddr pagetable va0
      if pa0 = 0 then ([],false)
      else
        let n := min (pgsize - (srcva - va0)) max
        match copyStr (m.page pa0) n (srcva - va0) with
        | (bytes,true) => (bytes,true)
        | (bytes,false) =>
          let (rest,gotNull) := copyinstrFrom pagetable turns ((va0 + pgsize) % 2^64) (max - n)
          (bytes ++ rest,gotNull)

-- the result and the bytes stored at dst
def copyinstr (pagetable : Frame) (srcva max : Nat) : Int × List Byte :=
  let (bytes,gotNull) := m.copyinstrFrom pagetable max srcva max
  (if gotNull then 0 else -1,bytes)

def strlen (bytes : List Byte) : Nat := (bytes.takeWhile (· ≠ 0)).length

-- an int max becomes a uint64
def fetchstr (p : Proc) (addr : Nat) (max : Int) : Int × List Byte :=
  let (r,buf) := m.copyinstr p.pagetable addr (max % 2^64).toNat
  (if r < 0 then -1 else strlen buf,buf)

end Memory

end Xv6.Vm
