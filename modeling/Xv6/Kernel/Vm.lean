import Xv6.Kernel.Param
import Xv6.Lib.Bytes

/-! # Physical memory and page tables

`kernel/kalloc.c` and the user part of `kernel/vm.c`, over byte-addressed physical
memory. The free list is linked through the free pages and page tables are pages
of 64-bit entries, as on the machine. A function of the kernel is a computation
that reads and changes the kernel's state and may stop with a `panic` message.
-/

namespace Xv6.Kernel

open Lib

/-- `struct proc`, without the fields of the scheduler. `cwd` says nothing about a process
    that has not been forked yet or has exited; nothing reads it then. -/
structure Proc where
  state : ProcState
  killed : Bool
  xstate : Int
  pid : BitVec 32
  parent : Option (Fin NPROC)
  sz : Nat
  pagetable : Nat
  trapframe : Nat
  ofile : Fin NOFILE → Option (Fin NFILE)
  cwd : Fin NINODE
  name : Fin 16 → UInt8

inductive FileType where
  | none
  | pipe
  | inode
  | device
  deriving Repr, DecidableEq

/-- `struct file`, without the offset and the device number. -/
structure File where
  type : FileType
  ref : Int
  readable : Bool
  writable : Bool
  pipe : Nat
  ip : Fin NINODE

structure KState where
  mem : Bytes
  /-- `kmem.freelist`. -/
  freelist : Nat
  procs : Fin NPROC → Proc
  files : Fin NFILE → File
  /-- The reference counts in `itable`. -/
  inodes : Fin NINODE → Int
  initproc : Option (Fin NPROC)
  nextpid : BitVec 32

/-- Computations of the kernel: they return, or panic with a message. -/
abbrev KM (α : Type) : Type := StateT KState (Except String) α

/-- Where the linker put the kernel: `end` is the first address after it, and the
    trampoline is one of its text pages. Of a kernel stack, which is one page, the frames of
    the functions around `ps` leave `stack` bytes for its array. -/
structure Layout where
  end_ : Nat
  trampoline : Nat
  stack : Nat
  inText : KERNBASE ≤ trampoline ∧ trampoline + PGSIZE ≤ end_
  aligned : trampoline % PGSIZE = 0
  inRam : end_ ≤ PHYSTOP
  inPage : stack < PGSIZE

/-! ## Memory -/

def load64 (a : Nat) : KM Nat := do
  return (← get).mem.getLE a 8

/-- The `n` bytes at `a` become those of `src`. -/
def writeBytes (a n : Nat) (src : Bytes) : KM Unit :=
  modify fun k => { k with mem := k.mem.splice a n src }

def store64 (a v : Nat) : KM Unit := writeBytes a 8 (Bytes.digits v)

def store32 (a v : Nat) : KM Unit := writeBytes a 4 (Bytes.digits v)

def memset (a : Nat) (c : UInt8) (n : Nat) : KM Unit := writeBytes a n fun _ => c

def memmove (dst src n : Nat) : KM Unit := do
  let k ← get
  writeBytes dst n fun i => k.mem (src + i)

variable (L : Layout)

def kfree (pa : Nat) : KM Unit := do
  if pa % PGSIZE ≠ 0 ∨ pa < L.end_ ∨ pa ≥ PHYSTOP then
    throw "kfree"
  memset pa 1 PGSIZE
  store64 pa (← get).freelist
  modify fun k => { k with freelist := pa }

def kalloc : KM Nat := do
  let r := (← get).freelist
  if r = 0 then
    return 0
  let next ← load64 r
  modify fun k => { k with freelist := next }
  memset r 5 PGSIZE
  return r

/-! ## Page-table entries -/

def PTE_V : Nat := 1

def PTE_R : Nat := 2

def PTE_W : Nat := 4

def PTE_X : Nat := 8

def PTE_U : Nat := 16

def pa2pte (pa : Nat) : Nat := (pa >>> 12) <<< 10

def pte2pa (pte : Nat) : Nat := u64 ((pte >>> 10) <<< 12)

def pteFlags (pte : Nat) : Nat := pte &&& 0x3FF

/-- `PX(level, va)`. -/
def px (level va : Nat) : Nat := (va >>> (12 + 9 * level)) &&& 0x1FF

/-! ## Walking -/

/-- The loop of `walk` from `level` down, at the page-table page `pagetable`; the
    address of the entry, or 0. -/
def walkLevel (va : Nat) (alloc : Bool) : Nat → Nat → KM Nat
  | 0, pagetable => return pagetable + 8 * px 0 va
  | level + 1, pagetable => do
      let pte := pagetable + 8 * px (level + 1) va
      let w ← load64 pte
      if w &&& PTE_V ≠ 0 then
        walkLevel va alloc level (pte2pa w)
      else if !alloc then
        return 0
      else
        let child ← kalloc
        if child = 0 then
          return 0
        memset child 0 PGSIZE
        store64 pte (pa2pte child ||| PTE_V)
        walkLevel va alloc level child

def walk (pagetable va : Nat) (alloc : Bool) : KM Nat := do
  if va ≥ MAXVA then
    throw "walk"
  walkLevel va alloc 2 pagetable

def walkaddr (pagetable va : Nat) : KM Nat := do
  if va ≥ MAXVA then
    return 0
  let pte ← walk pagetable va false
  if pte = 0 then
    return 0
  let w ← load64 pte
  if w &&& PTE_V = 0 then
    return 0
  if w &&& PTE_U = 0 then
    return 0
  return pte2pa w

/-! ## Mappings -/

/-- The loop of `mappages`, with `n` pages to go after the one at `a`; both
    addresses wrap around. -/
def mappagesLoop (pagetable perm : Nat) : Nat → Nat → Nat → KM Int
  | n, a, pa => do
      let pte ← walk pagetable a true
      if pte = 0 then
        return -1
      let w ← load64 pte
      if w &&& PTE_V ≠ 0 then
        throw "mappages: remap"
      store64 pte (pa2pte pa ||| perm ||| PTE_V)
      match n with
      | 0 => return 0
      | n + 1 => mappagesLoop pagetable perm n (u64 (a + PGSIZE)) (u64 (pa + PGSIZE))

def mappages (pagetable va size pa perm : Nat) : KM Int := do
  if size = 0 then
    throw "mappages: size"
  let a := pgRoundDown va
  let last := pgRoundDown (u64 (va + size - 1))
  mappagesLoop pagetable perm (sub64 last a / PGSIZE) a pa

def uvmunmapLoop (pagetable : Nat) (doFree : Bool) : Nat → Nat → KM Unit
  | 0, _ => return
  | n + 1, a => do
      let pte ← walk pagetable a false
      if pte = 0 then
        throw "uvmunmap: walk"
      let w ← load64 pte
      if w &&& PTE_V = 0 then
        throw "uvmunmap: not mapped"
      if pteFlags w = PTE_V then
        throw "uvmunmap: not a leaf"
      if doFree then
        kfree L (pte2pa w)
      store64 pte 0
      uvmunmapLoop pagetable doFree n (a + PGSIZE)

def uvmunmap (pagetable va npages : Nat) (doFree : Bool) : KM Unit := do
  if va % PGSIZE ≠ 0 then
    throw "uvmunmap: not aligned"
  uvmunmapLoop L pagetable doFree npages va

def uvmcreate : KM Nat := do
  let pagetable ← kalloc
  if pagetable = 0 then
    return 0
  memset pagetable 0 PGSIZE
  return pagetable

def uvmfirst (pagetable : Nat) (src : Bytes) (sz : Nat) : KM Unit := do
  if sz ≥ PGSIZE then
    throw "uvmfirst: more than a page"
  let mem ← kalloc
  memset mem 0 PGSIZE
  let _ ← mappages pagetable 0 PGSIZE mem (PTE_W ||| PTE_R ||| PTE_X ||| PTE_U)
  writeBytes mem sz src

def uvmdealloc (pagetable oldsz newsz : Nat) : KM Nat := do
  if newsz ≥ oldsz then
    return oldsz
  if pgRoundUp newsz < pgRoundUp oldsz then
    let npages := (pgRoundUp oldsz - pgRoundUp newsz) / PGSIZE
    uvmunmap L pagetable (pgRoundUp newsz) npages true
  return newsz

/-- The loop of `uvmalloc`, with `n` pages to go; `oldsz` is rounded up. -/
def uvmallocLoop (pagetable oldsz newsz xperm : Nat) : Nat → Nat → KM Nat
  | 0, _ => return newsz
  | n + 1, a => do
      let mem ← kalloc
      if mem = 0 then
        let _ ← uvmdealloc L pagetable a oldsz
        return 0
      memset mem 0 PGSIZE
      let mapped ← mappages pagetable a PGSIZE mem (PTE_R ||| PTE_U ||| xperm)
      if mapped ≠ 0 then
        kfree L mem
        let _ ← uvmdealloc L pagetable a oldsz
        return 0
      uvmallocLoop pagetable oldsz newsz xperm n (a + PGSIZE)

def uvmalloc (pagetable oldsz newsz xperm : Nat) : KM Nat := do
  if newsz < oldsz then
    return oldsz
  let oldsz := pgRoundUp oldsz
  uvmallocLoop L pagetable oldsz newsz xperm (pagesBetween oldsz newsz) oldsz

/-- The loop of `freewalk` over the entries from `512 - n` on; `below` frees the
    page tables one level down. -/
def freewalkLoop (below : Nat → KM Unit) (pagetable : Nat) : Nat → KM Unit
  | 0 => return
  | n + 1 => do
      let pte := pagetable + 8 * (511 - n)
      let w ← load64 pte
      if w &&& PTE_V ≠ 0 ∧ w &&& (PTE_R ||| PTE_W ||| PTE_X) = 0 then
        below (pte2pa w)
        store64 pte 0
      else if w &&& PTE_V ≠ 0 then
        throw "freewalk: leaf"
      freewalkLoop below pagetable n

/-- `freewalk` with a bound on the depth of its recursion; a table has three levels. -/
def freewalk : Nat → Nat → KM Unit
  | 0, _ => throw "freewalk: too deep"
  | depth + 1, pagetable => do
      freewalkLoop (freewalk depth) pagetable 512
      kfree L pagetable

def uvmfree (pagetable sz : Nat) : KM Unit := do
  if sz > 0 then
    uvmunmap L pagetable 0 (pgRoundUp sz / PGSIZE) true
  freewalk L 3 pagetable

/-- The loop of `uvmcopy`, with `n` pages to go. -/
def uvmcopyLoop (old new : Nat) : Nat → Nat → KM Int
  | 0, _ => return 0
  | n + 1, i => do
      let pte ← walk old i false
      if pte = 0 then
        throw "uvmcopy: pte should exist"
      let w ← load64 pte
      if w &&& PTE_V = 0 then
        throw "uvmcopy: page not present"
      let mem ← kalloc
      if mem = 0 then
        uvmunmap L new 0 (i / PGSIZE) true
        return -1
      memmove mem (pte2pa w) PGSIZE
      let mapped ← mappages new i PGSIZE mem (pteFlags w)
      if mapped ≠ 0 then
        kfree L mem
        uvmunmap L new 0 (i / PGSIZE) true
        return -1
      uvmcopyLoop old new n (i + PGSIZE)

def uvmcopy (old new sz : Nat) : KM Int := uvmcopyLoop L old new (pagesBetween 0 sz) 0

/-- Clear `PTE_U`. -/
def uvmclear (pagetable va : Nat) : KM Unit := do
  let pte ← walk pagetable va false
  if pte = 0 then
    throw "uvmclear"
  let w ← load64 pte
  store64 pte (w &&& (2 ^ 64 - 1 - PTE_U))

/-! ## Copying between user and kernel -/

/-- The loop of `copyout`. Every turn copies at least one byte, so `len` turns are
    enough. -/
def copyoutLoop (pagetable : Nat) : Nat → Nat → Bytes → Nat → KM Int
  | 0, _, _, _ => return 0
  | fuel + 1, dstva, src, len => do
      if len = 0 then
        return 0
      let va0 := pgRoundDown dstva
      let pa0 ← walkaddr pagetable va0
      if pa0 = 0 then
        return -1
      let n := min (PGSIZE - (dstva - va0)) len
      writeBytes (pa0 + (dstva - va0)) n src
      copyoutLoop pagetable fuel (u64 (va0 + PGSIZE)) (fun i => src (n + i)) (len - n)

def copyout (pagetable dstva : Nat) (src : Bytes) (len : Nat) : KM Int :=
  copyoutLoop pagetable len dstva src len

/-- The loop of `copyin`; `done` is what has been copied. -/
def copyinLoop (pagetable : Nat) : Nat → Nat → Nat → List UInt8 → KM (List UInt8 × Bool)
  | 0, _, _, done => return (done, true)
  | fuel + 1, srcva, len, done => do
      if len = 0 then
        return (done, true)
      let va0 := pgRoundDown srcva
      let pa0 ← walkaddr pagetable va0
      if pa0 = 0 then
        return (done, false)
      let n := min (PGSIZE - (srcva - va0)) len
      let mem := (← get).mem
      let chunk := (List.range n).map fun i => mem (pa0 + (srcva - va0) + i)
      copyinLoop pagetable fuel (u64 (va0 + PGSIZE)) (len - n) (done ++ chunk)

/-- What `copyin` stores at its destination, and whether it returns 0. -/
def copyin (pagetable srcva len : Nat) : KM (List UInt8 × Bool) :=
  copyinLoop pagetable len srcva len []

/-- The bytes at `p` up to a NUL, or `n` of them. -/
def untilNul (mem : Bytes) (p : Nat) : Nat → List UInt8
  | 0 => []
  | n + 1 => if mem p = 0 then [] else mem p :: untilNul mem (p + 1) n

def copyinstrLoop (pagetable : Nat) : Nat → Nat → Nat → List UInt8 → KM (List UInt8 × Bool)
  | 0, _, _, done => return (done, false)
  | fuel + 1, srcva, max, done => do
      if max = 0 then
        return (done, false)
      let va0 := pgRoundDown srcva
      let pa0 ← walkaddr pagetable va0
      if pa0 = 0 then
        return (done, false)
      let n := min (PGSIZE - (srcva - va0)) max
      let chunk := untilNul (← get).mem (pa0 + (srcva - va0)) n
      if chunk.length < n then
        return (done ++ chunk ++ [0], true)
      copyinstrLoop pagetable fuel (u64 (va0 + PGSIZE)) (max - n) (done ++ chunk)

/-- What `copyinstr` stores at its destination, and whether it returns 0. -/
def copyinstr (pagetable srcva max : Nat) : KM (List UInt8 × Bool) :=
  copyinstrLoop pagetable max srcva max []

end Xv6.Kernel
