import Xv6.Vm.Model

/-! Regions of user memory: the functions of vm.c that make, grow, copy and free the
pages of a page table, and growproc and sys_sbrk. -/
namespace Xv6.Vm
open Lib.Bytes

def pteFlags (pte : Pte) : Pte := pte &&& 0x3FF

-- in uint64
def pgroundup (sz : Nat) : Nat := (sz + pgsize - 1) % 2^64 / pgsize * pgsize

namespace Memory
variable (m : Memory)

-- 0 if there is no page
def uvmcreate : Frame × Memory :=
  let (pagetable,m) := m.kalloc
  if pagetable = 0 then (0,m) else (pagetable,m.fill pagetable 0)

-- a turn of uvmunmap
def unmapPage (pagetable : Frame) (a : Nat) (doFree : Bool) : Except Panic Memory :=
  match m.walk pagetable a false with
  | .error e => .error e
  | .ok (none,_) => .ok m
  | .ok (some (t,k),_) =>
    if m.pte t k &&& pteV = 0 then .ok m
    else if doFree then (m.kfree (pte2pa (m.pte t k))).map fun m => m.setPte t k 0
    else .ok (m.setPte t k 0)

def unmapFrom (pagetable : Frame) (doFree : Bool) : (turns a : Nat) → Memory → Except Panic Memory
  | 0, _, m => .ok m
  | turns + 1, a, m => do
    let m ← m.unmapPage pagetable a doFree
    unmapFrom pagetable doFree turns (a + pgsize) m

def uvmunmap (pagetable : Frame) (va npages : Nat) (doFree : Bool) : Except Panic Memory :=
  if va % pgsize ≠ 0 then .error .unmapNotAligned
  else unmapFrom pagetable doFree (((va + npages * pgsize) % 2^64 - va) / pgsize) va m

-- npages is an int there
def uvmdealloc (pagetable : Frame) (oldsz newsz : Nat) : Except Panic (Nat × Memory) :=
  if oldsz ≤ newsz then .ok (oldsz,m)
  else if pgroundup newsz < pgroundup oldsz then
    let npages := BitVec.ofNat 32 ((pgroundup oldsz - pgroundup newsz) / pgsize)
    (m.uvmunmap pagetable (pgroundup newsz) (npages.signExtend 64).toNat true).map fun m => (newsz,m)
  else .ok (newsz,m)

/-- What uvmalloc, uvmcopy and vmfault do for a page: kalloc it, fill it and map it,
or give it back if it cannot be mapped; 0 if there is no page. -/
def newPage (pagetable : Frame) (va : Nat) (perm : Pte) (contents : Memory → Page) : Except Panic (Frame × Memory) :=
  let (mem,m) := m.kalloc
  if mem = 0 then .ok (0,m)
  else
    match (m.setPage mem (contents m)).mappages pagetable va pgsize mem perm with
    | .error e => .error e
    | .ok (true,m) => .ok (mem,m)
    | .ok (false,m) => (m.kfree mem).map fun m => (0,m)

-- uvmalloc's loop: false if it fails, with the pages from oldsz on given back
def growFrom (pagetable : Frame) (xperm : Pte) (oldsz : Nat) : (turns a : Nat) → Memory → Except Panic (Bool × Memory)
  | 0, _, m => .ok (true,m)
  | turns + 1, a, m => do
    let (mem,m) ← m.newPage pagetable a (pteR ||| pteU ||| xperm) fun _ _ => 0
    if mem = 0 then (m.uvmdealloc pagetable a oldsz).map fun (_,m) => (false,m)
    else growFrom pagetable xperm oldsz turns (a + pgsize) m

-- the new size, or 0
def uvmalloc (pagetable : Frame) (oldsz newsz : Nat) (xperm : Pte) : Except Panic (Nat × Memory) :=
  if newsz < oldsz then .ok (oldsz,m)
  else (growFrom pagetable xperm (pgroundup oldsz) ((newsz - pgroundup oldsz + pgsize - 1) / pgsize) (pgroundup oldsz) m).map
    fun (ok,m) => (if ok then newsz else 0,m)

-- freewalk's loop, with `below` for the recursive call
def freeEntries (below : Frame → Memory → Except Panic Memory) (pagetable : Frame) : (turns i : Nat) → Memory → Except Panic Memory
  | 0, _, m => .ok m
  | turns + 1, i, m =>
    if m.pte pagetable i &&& pteV ≠ 0 ∧ m.pte pagetable i &&& (pteR ||| pteW ||| pteX) = 0 then do
      let m ← below (pte2pa (m.pte pagetable i)) m
      freeEntries below pagetable turns (i + 1) (m.setPte pagetable i 0)
    else if m.pte pagetable i &&& pteV ≠ 0 then .error .leaf
    else freeEntries below pagetable turns (i + 1) m

-- Sv39 has tables of three levels; below them freewalk would take a user page for a table
def freewalkFrom : (levels : Nat) → (pagetable : Frame) → Memory → Except Panic Memory
  | 0, _, _ => .error .kerneltrap
  | levels + 1, pagetable, m => do
    let m ← freeEntries (freewalkFrom levels) pagetable 512 0 m
    m.kfree pagetable

def freewalk (pagetable : Frame) : Except Panic Memory := freewalkFrom 3 pagetable m

def uvmfree (pagetable : Frame) (sz : Nat) : Except Panic Memory :=
  (if 0 < sz then m.uvmunmap pagetable 0 (pgroundup sz / pgsize) true else .ok m) >>= fun m => m.freewalk pagetable

-- uvmcopy's loop: false if it fails, with the pages below i given back
def copyFrom (old new : Frame) : (turns i : Nat) → Memory → Except Panic (Bool × Memory)
  | 0, _, m => .ok (true,m)
  | turns + 1, i, m =>
    match m.walk old i false with
    | .error e => .error e
    | .ok (none,_) => copyFrom old new turns (i + pgsize) m
    | .ok (some (t,k),_) =>
      if m.pte t k &&& pteV = 0 then copyFrom old new turns (i + pgsize) m
      else do
        let (mem,m) ← m.newPage new i (pteFlags (m.pte t k)) fun m' => m'.page (pte2pa (m.pte t k))
        if mem = 0 then (m.uvmunmap new 0 (i / pgsize) true).map fun m => (false,m)
        else copyFrom old new turns (i + pgsize) m

-- false for -1
def uvmcopy (old new : Frame) (sz : Nat) : Except Panic (Bool × Memory) := copyFrom old new ((sz + pgsize - 1) / pgsize) 0 m

def uvmclear (pagetable : Frame) (va : Nat) : Except Panic Memory :=
  match m.walk pagetable va false with
  | .error e => .error e
  | .ok (none,_) => .error .uvmclear
  | .ok (some (t,k),_) => .ok (m.setPte t k (m.pte t k &&& ~~~pteU))

-- a page table with the pages of the trampoline and the trapframe; 0 if there is no memory
def procPagetable (trampolinePage trapframePage : Frame) : Except Panic (Frame × Memory) :=
  let (pagetable,m) := m.uvmcreate
  if pagetable = 0 then .ok (0,m)
  else do
    match ← m.mappages pagetable trampoline pgsize trampolinePage (pteR ||| pteX) with
    | (false,m) => (m.uvmfree pagetable 0).map fun m => (0,m)
    | (true,m) =>
      match ← m.mappages pagetable trapframe pgsize trapframePage (pteR ||| pteW) with
      | (false,m) =>
        let m ← m.uvmunmap pagetable trampoline 1 false
        (m.uvmfree pagetable 0).map fun m => (0,m)
      | (true,m) => pure (pagetable,m)

def procFreepagetable (pagetable : Frame) (sz : Nat) : Except Panic Memory := do
  let m ← m.uvmunmap pagetable trampoline 1 false
  let m ← m.uvmunmap pagetable trapframe 1 false
  m.uvmfree pagetable sz

end Memory

/-! sbrk. -/

-- a uint64 plus an int
def addInt (sz : Nat) (n : BitVec 32) : Nat := ((sz + n.toInt) % 2^64).toNat

namespace Memory
variable (m : Memory)

-- false for -1
def growproc (p : Proc) (n : BitVec 32) : Except Panic (Bool × Proc × Memory) :=
  if 0 < n.toInt then
    if trapframe < addInt p.sz n then .ok (false,p,m)
    else (m.uvmalloc p.pagetable p.sz (addInt p.sz n) pteW).map fun (sz,m) =>
      if sz = 0 then (false,p,m) else (true,{ p with sz := sz },m)
  else if n.toInt < 0 then (m.uvmdealloc p.pagetable p.sz (addInt p.sz n)).map fun (sz,m) => (true,{ p with sz := sz },m)
  else .ok (true,p,m)

def sbrkEager : BitVec 32 := 1

def sysSbrk (p : Proc) (n t : BitVec 32) : Except Panic (Int × Proc × Memory) :=
  if t = sbrkEager ∨ n.toInt < 0 then
    (m.growproc p n).map fun (ok,p',m) => (if ok then (p.sz : Int) else -1,p',m)
  else if addInt p.sz n < p.sz then .ok (-1,p,m)
  else if trapframe < addInt p.sz n then .ok (-1,p,m)
  else .ok (p.sz,{ p with sz := addInt p.sz n },m)

end Memory

end Xv6.Vm
