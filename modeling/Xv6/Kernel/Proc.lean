import Xv6.Kernel.Vm
import Xv6.Lib.Machine

/-! # Processes, files and pipes

The system calls that allocate and free physical memory: `fork`, `exec`, `sbrk`,
`ps`, `exit`, `wait`, `kill`, `pipe`, `close`, `dup` and `open`, with `userinit`,
from `kernel/proc.c`, `exec.c`, `pipe.c`, `file.c`, `sysfile.c` and `syscall.c`.
A system call is one step. What the file system contributes (the contents of an
executable, whether a path exists, the entry of `itable` for a path) is an argument of
the event, so that it may be anything. Of the inodes the model has the reference counts
that open files and working directories hold; a system call that looks up an inode and
gives it back leaves them alone.
-/

namespace Xv6.Kernel

open Lib

def modifyProc (p : Fin NPROC) (f : Proc → Proc) : KM Unit :=
  modify fun k => { k with procs := fun q => if q = p then f (k.procs q) else k.procs q }

def modifyFile (f : Fin NFILE) (g : File → File) : KM Unit :=
  modify fun k => { k with files := fun h => if h = f then g (k.files h) else k.files h }

def getProc (p : Fin NPROC) : KM Proc := return (← get).procs p

def getFile (f : Fin NFILE) : KM File := return (← get).files f

/-- Offsets in `struct trapframe`, and its size. -/
def TF_EPC : Nat := 24

def TF_SP : Nat := 48

def TF_A0 : Nat := 112

def TF_A1 : Nat := 120

def TF_SIZE : Nat := 288

/-- A list of bytes as a memory that starts at 0. -/
def ofList (bs : List UInt8) : Bytes := fun i => bs.getD i 0

/-- `safestrcpy` into a `name` of 16 bytes. The loop stores the NUL of a string that fits, and
    one more is stored after the loop. -/
def safestrcpyName (old : Fin 16 → UInt8) (t : List UInt8) : Fin 16 → UInt8 :=
  fun i =>
    let n := min t.length 15
    if i < n then t.getD i 0 else if i ≤ n + 1 then 0 else old i

variable (L : Layout)

/-! ## Page tables of processes -/

def procFreepagetable (pagetable sz : Nat) : KM Unit := do
  uvmunmap L pagetable TRAMPOLINE 1 false
  uvmunmap L pagetable TRAPFRAME 1 false
  uvmfree L pagetable sz

def procPagetable (p : Fin NPROC) : KM Nat := do
  let pagetable ← uvmcreate
  if pagetable = 0 then
    return 0
  let mapped ← mappages pagetable TRAMPOLINE PGSIZE L.trampoline (PTE_R ||| PTE_X)
  if mapped < 0 then
    uvmfree L pagetable 0
    return 0
  let mapped ← mappages pagetable TRAPFRAME PGSIZE (← getProc p).trapframe (PTE_R ||| PTE_W)
  if mapped < 0 then
    uvmunmap L pagetable TRAMPOLINE 1 false
    uvmfree L pagetable 0
    return 0
  return pagetable

def freeproc (p : Fin NPROC) : KM Unit := do
  let x ← getProc p
  if x.trapframe ≠ 0 then
    kfree L x.trapframe
  modifyProc p fun x => { x with trapframe := 0 }
  if x.pagetable ≠ 0 then
    procFreepagetable L x.pagetable x.sz
  modifyProc p fun x =>
    { x with
      pagetable := 0, sz := 0, pid := 0, parent := none,
      name := fun i => if i = 0 then 0 else x.name i,
      killed := false, xstate := 0, state := .unused }

/-- The record that `freeproc` leaves. -/
def freed (x : Proc) : Proc :=
  { x with
    trapframe := 0, pagetable := 0, sz := 0, pid := 0, parent := none,
    name := fun i => if i = 0 then 0 else x.name i,
    killed := false, xstate := 0, state := .unused }

def allocproc : KM (Option (Fin NPROC)) := do
  let k ← get
  match (List.finRange NPROC).find? fun p => (k.procs p).state = .unused with
  | none => return none
  | some p =>
      modifyProc p fun x => { x with pid := k.nextpid, state := .used }
      modify fun k => { k with nextpid := k.nextpid + 1 }
      let trapframe ← kalloc
      modifyProc p fun x => { x with trapframe := trapframe }
      if trapframe = 0 then
        freeproc L p
        return none
      let pagetable ← procPagetable L p
      modifyProc p fun x => { x with pagetable := pagetable }
      if pagetable = 0 then
        freeproc L p
        return none
      return some p

def initcode : List UInt8 :=
  [0x17, 0x05, 0x00, 0x00, 0x13, 0x05, 0x45, 0x02, 0x97, 0x05, 0x00, 0x00, 0x93, 0x85, 0x35, 0x02,
    0x93, 0x08, 0x70, 0x00, 0x73, 0x00, 0x00, 0x00, 0x93, 0x08, 0x20, 0x00, 0x73, 0x00, 0x00, 0x00,
    0xef, 0xf0, 0x9f, 0xff, 0x2f, 0x69, 0x6e, 0x69, 0x74, 0x00, 0x00, 0x24, 0x00, 0x00, 0x00, 0x00,
    0x00, 0x00, 0x00, 0x00]

/-- `ip->ref++`, as in `iget` and `idup`. -/
def idup (ip : Fin NINODE) : KM Unit :=
  modify fun k => { k with inodes := Function.update k.inodes ip (k.inodes ip + 1) }

/-- `ip->ref--`. -/
def iput (ip : Fin NINODE) : KM Unit :=
  modify fun k => { k with inodes := Function.update k.inodes ip (k.inodes ip - 1) }

/-- The entry of `itable` that the first call of `iget` takes. -/
def firstInode : Fin NINODE := ⟨0, NINODE_pos⟩

def userinit : KM Unit := do
  match ← allocproc L with
  -- the kernel does not check, and faults
  | none => throw "userinit: no process"
  | some p =>
      modify fun k => { k with initproc := some p }
      uvmfirst (← getProc p).pagetable (ofList initcode) initcode.length
      modifyProc p fun x => { x with sz := PGSIZE }
      store64 ((← getProc p).trapframe + TF_EPC) 0
      store64 ((← getProc p).trapframe + TF_SP) PGSIZE
      modifyProc p fun x => { x with name := safestrcpyName x.name "initcode".toUTF8.data.toList }
      -- `namei("/")`
      idup firstInode
      modifyProc p fun x => { x with cwd := firstInode, state := .runnable }

/-- `sz + n` for an `int` and a `uint64`. -/
def addInt (sz : Nat) (n : Int) : Nat := ((sz + n) % 2 ^ 64).toNat

def growproc (p : Fin NPROC) (n : Int) : KM Int := do
  let x ← getProc p
  if n > 0 then
    let sz ← uvmalloc L x.pagetable x.sz (addInt x.sz n) PTE_W
    if sz = 0 then
      return -1
    modifyProc p fun x => { x with sz := sz }
    return 0
  else if n < 0 then
    let sz ← uvmdealloc L x.pagetable x.sz (addInt x.sz n)
    modifyProc p fun x => { x with sz := sz }
    return 0
  else
    return 0

/-! ## Files and pipes -/

def filealloc : KM (Option (Fin NFILE)) := do
  let k ← get
  match (List.finRange NFILE).find? fun f => (k.files f).ref = 0 with
  | none => return none
  | some f =>
      modifyFile f fun x => { x with ref := 1 }
      return some f

def filedup (f : Fin NFILE) : KM Unit := do
  if (← getFile f).ref < 1 then
    throw "filedup"
  modifyFile f fun x => { x with ref := x.ref + 1 }

/-- Offsets in `struct pipe`. -/
def PI_NREAD : Nat := 536

def PI_NWRITE : Nat := 540

def PI_READOPEN : Nat := 544

def PI_WRITEOPEN : Nat := 548

def load32 (a : Nat) : KM Nat := do
  return (← get).mem.getLE a 4

def pipeclose (pi : Nat) (writable : Bool) : KM Unit := do
  if writable then
    store32 (pi + PI_WRITEOPEN) 0
  else
    store32 (pi + PI_READOPEN) 0
  if (← load32 (pi + PI_READOPEN)) = 0 ∧ (← load32 (pi + PI_WRITEOPEN)) = 0 then
    kfree L pi

def fileclose (f : Fin NFILE) : KM Unit := do
  let ff ← getFile f
  if ff.ref < 1 then
    throw "fileclose"
  modifyFile f fun x => { x with ref := x.ref - 1 }
  if ff.ref - 1 > 0 then
    return
  modifyFile f fun x => { x with ref := 0, type := .none }
  if ff.type = .pipe then
    pipeclose L ff.pipe ff.writable
  else if ff.type = .inode ∨ ff.type = .device then
    iput ff.ip

/-- The `*f0` and `*f1` that `pipealloc` leaves, if it returns 0. -/
def pipealloc : KM (Option (Fin NFILE × Fin NFILE)) := do
  let some f0 ← filealloc | return none
  let some f1 ← filealloc | do
    fileclose L f0
    return none
  let pi ← kalloc
  if pi = 0 then
    fileclose L f0
    fileclose L f1
    return none
  store32 (pi + PI_READOPEN) 1
  store32 (pi + PI_WRITEOPEN) 1
  store32 (pi + PI_NWRITE) 0
  store32 (pi + PI_NREAD) 0
  -- `initlock`, but for the name
  store32 pi 0
  store64 (pi + 16) 0
  modifyFile f0 fun x => { x with type := .pipe, readable := true, writable := false, pipe := pi }
  modifyFile f1 fun x => { x with type := .pipe, readable := false, writable := true, pipe := pi }
  return some (f0, f1)

def setFd (p : Fin NPROC) (fd : Fin NOFILE) (f : Option (Fin NFILE)) : KM Unit :=
  modifyProc p fun x => { x with ofile := fun i => if i = fd then f else x.ofile i }

def fdalloc (p : Fin NPROC) (f : Fin NFILE) : KM (Option (Fin NOFILE)) := do
  let x ← getProc p
  match (List.finRange NOFILE).find? fun fd => x.ofile fd = none with
  | none => return none
  | some fd =>
      setFd p fd (some f)
      return some fd

def sysPipe (p : Fin NPROC) (fdarray : Nat) : KM Int := do
  let some (rf, wf) ← pipealloc L | return -1
  let some fd0 ← fdalloc p rf | do
    fileclose L rf
    fileclose L wf
    return -1
  let some fd1 ← fdalloc p wf | do
    setFd p fd0 none
    fileclose L rf
    fileclose L wf
    return -1
  let pagetable := (← getProc p).pagetable
  let out ← copyout pagetable fdarray (Bytes.digits fd0) 4
  let out ← if out < 0 then pure out else copyout pagetable (u64 (fdarray + 4)) (Bytes.digits fd1) 4
  if out < 0 then
    setFd p fd0 none
    setFd p fd1 none
    fileclose L rf
    fileclose L wf
    return -1
  return 0

/-- `argfd` for a descriptor that the caller gives as an `int`. -/
def argfd (p : Fin NPROC) (fd : Int) : KM (Option (Fin NOFILE × Fin NFILE)) := do
  let x ← getProc p
  if inside : 0 ≤ fd ∧ fd < NOFILE then
    let i : Fin NOFILE := ⟨fd.toNat, by omega⟩
    return (x.ofile i).map fun f => (i, f)
  else
    return none

def sysClose (p : Fin NPROC) (fd : Int) : KM Int := do
  let some (i, f) ← argfd p fd | return -1
  setFd p i none
  fileclose L f
  return 0

def sysDup (p : Fin NPROC) (fd : Int) : KM Int := do
  let some (_, f) ← argfd p fd | return -1
  let some i ← fdalloc p f | return -1
  filedup f
  return (i : Nat)

/-- What `open` learns from the file system: the entry of the inode, and the kind of file
    that it makes. -/
structure Opened where
  ip : Fin NINODE
  device : Bool
  readable : Bool
  writable : Bool

def sysOpen (p : Fin NPROC) (found : Option Opened) : KM Int := do
  let some found := found | return -1
  idup found.ip
  let some f ← filealloc | do
    iput found.ip
    return -1
  let some fd ← fdalloc p f | do
    fileclose L f
    iput found.ip
    return -1
  modifyFile f fun x =>
    { x with
      type := if found.device then .device else .inode
      ip := found.ip
      readable := found.readable
      writable := found.writable }
  return (fd : Nat)

/-! ## fork, exit, wait, kill -/

/-- The loop of `fork` over the descriptors. -/
def dupFiles (p np : Fin NPROC) : List (Fin NOFILE) → KM Unit
  | [] => return
  | i :: rest => do
      match (← getProc p).ofile i with
      | none => pure ()
      | some f =>
          filedup f
          setFd np i (some f)
      dupFiles p np rest

/-- `fork` with the memory of `x` copied to that of `y`, the records of process `p` and its
    child `np`. -/
def forkChild (p np : Fin NPROC) (x y : Proc) : KM Int := do
  modifyProc np fun y => { y with sz := x.sz }
  memmove y.trapframe x.trapframe TF_SIZE
  store64 (y.trapframe + TF_A0) 0
  dupFiles p np (List.finRange NOFILE)
  idup x.cwd
  modifyProc np fun y => { y with cwd := x.cwd }
  modifyProc np fun y =>
    { y with name := safestrcpyName y.name ((List.ofFn x.name).takeWhile (· ≠ 0)) }
  modifyProc np fun y => { y with parent := some p }
  modifyProc np fun y => { y with state := .runnable }
  return y.pid.toInt

def fork (p : Fin NPROC) : KM Int := do
  let some np ← allocproc L | return -1
  let x ← getProc p
  let y ← getProc np
  let copied ← uvmcopy L x.pagetable y.pagetable x.sz
  if copied < 0 then
    freeproc L np
    return -1
  forkChild p np x y

/-- The loop of `exit` over the descriptors. -/
def closeFiles (p : Fin NPROC) : List (Fin NOFILE) → KM Unit
  | [] => return
  | fd :: rest => do
      match (← getProc p).ofile fd with
      | none => pure ()
      | some f =>
          fileclose L f
          setFd p fd none
      closeFiles p rest

def reparent (p : Fin NPROC) : KM Unit :=
  modify fun k =>
    { k with
      procs := fun q =>
        if (k.procs q).parent = some p then { k.procs q with parent := k.initproc } else k.procs q }

def exit (p : Fin NPROC) (status : Int) : KM Unit := do
  if (← get).initproc = some p then
    throw "init exiting"
  closeFiles L p (List.finRange NOFILE)
  iput (← getProc p).cwd
  reparent p
  modifyProc p fun x => { x with xstate := status, state := .zombie }

/-- The scan of `wait`: a child that has exited, else whether there are children. -/
def waitScan (k : KState) (p : Fin NPROC) : Option (Fin NPROC) × Bool :=
  ((List.finRange NPROC).find? fun q =>
      (k.procs q).parent = some p ∧ (k.procs q).state = .zombie,
    (List.finRange NPROC).any fun q => (k.procs q).parent = some p)

/-- A turn of the loop of `wait`; `none` when it goes to sleep. -/
def wait (p : Fin NPROC) (addr : Nat) : KM (Option Int) := do
  match waitScan (← get) p with
  | (some pp, _) =>
      let x ← getProc pp
      let out ← if addr ≠ 0 then
          copyout (← getProc p).pagetable addr (Bytes.digits (x.xstate % 2 ^ 32).toNat) 4
        else pure 0
      if out < 0 then
        return some (-1)
      freeproc L pp
      return some x.pid.toInt
  | (none, havekids) =>
      if !havekids || (← getProc p).killed then
        return some (-1)
      return none

def kill (pid : BitVec 32) : KM Int := do
  let k ← get
  match (List.finRange NPROC).find? fun p => (k.procs p).pid = pid with
  | none => return -1
  | some p =>
      modifyProc p fun x =>
        { x with killed := true, state := if x.state = .sleeping then .runnable else x.state }
      return 0

/-! ## ps -/

def ProcState.code : ProcState → Nat
  | .unused => 0
  | .used => 1
  | .sleeping => 2
  | .runnable => 3
  | .running => 4
  | .zombie => 5

/-- `sizeof(struct user_proc)` and `sizeof(proc)`. -/
def USER_PROC_SIZE : Nat := 36

def PROC_ARRAY_SIZE : Nat := 64 * 368

/-- The entry of slot `q` at `loc_result[i]`; the parent is left alone if there is none. -/
def psEntry (k : KState) (q : Fin NPROC) (i : Nat) (buf : Bytes) : Bytes :=
  let x := k.procs q
  let at_ := USER_PROC_SIZE * i
  let buf := buf.setLE at_ 4 x.state.code
  let buf := buf.setLE (at_ + 4) 4 (if x.killed then 1 else 0)
  let buf := buf.setLE (at_ + 8) 4 (x.xstate % 2 ^ 32).toNat
  let buf := buf.setLE (at_ + 12) 4 x.pid.toNat
  let buf := buf.splice (at_ + 20) 16 (ofList (List.ofFn x.name))
  match x.parent with
  | none => buf
  | some r => buf.setLE (at_ + 16) 4 (k.procs r).pid.toNat

/-- The loop of `ps` over the slots, from `localCount` entries on. -/
def psLoop (k : KState) (count : Nat) : List (Fin NPROC) → Nat → Bytes → Nat × Bytes
  | [], localCount, buf => (localCount, buf)
  | q :: rest, localCount, buf =>
      if localCount = count then (localCount, buf)
      else if (k.procs q).state = .unused then
        (localCount, buf.setLE (USER_PROC_SIZE * localCount) 4 ProcState.unused.code)
      else psLoop k count rest (localCount + 1) (psEntry k q localCount buf)

/-- The array of `ps` runs over the guard page below the kernel stack. -/
def overrun : String := "ps: kernel stack"

/-- `ps`; `stack` is what the uninitialised array finds on the kernel stack. -/
def ps (p : Fin NPROC) (start count : UInt8) (stack : Bytes) : KM Nat := do
  let result := (← getProc p).sz
  if count = 0 then
    return 0
  let grown ← growproc L p (count.toNat * USER_PROC_SIZE)
  if grown < 0 then
    return 0
  -- `proc + start * sizeof(proc)`
  let first := start.toNat * PROC_ARRAY_SIZE
  if first ≥ NPROC then
    return 0
  -- until here nothing is stored below `loc_result`
  if L.stack < count.toNat * USER_PROC_SIZE then
    throw overrun
  let k ← get
  let (localCount, buf) := psLoop k count.toNat ((List.finRange NPROC).drop first) 0 stack
  let buf := if localCount < count.toNat
    then buf.setLE (USER_PROC_SIZE * localCount) 4 ProcState.unused.code else buf
  let _ ← copyout (k.procs p).pagetable result buf (count.toNat * USER_PROC_SIZE)
  return result

/-! ## exec -/

/-- The contents of an executable: what `readi` finds at an offset, for a length. -/
abbrev Executable := Nat → Nat → List UInt8

def readi (file : Executable) (off n : Nat) : List UInt8 := (file (off % 2 ^ 32) n).take n

def ELF_MAGIC : Nat := 0x464C457F

def ELF_PROG_LOAD : Nat := 1

def flags2perm (flags : Nat) : Nat :=
  (if flags &&& 1 ≠ 0 then PTE_X else 0) ||| (if flags &&& 2 ≠ 0 then PTE_W else 0)

/-- The loop of `loadseg`, with `n` pages to go. -/
def loadsegLoop (pagetable va : Nat) (file : Executable) (offset sz : Nat) : Nat → Nat → KM Int
  | 0, _ => return 0
  | n + 1, i => do
      let pa ← walkaddr pagetable (u64 (va + i))
      if pa = 0 then
        throw "loadseg: address should exist"
      let len := if sz - i < PGSIZE then sz - i else PGSIZE
      let bytes := readi file (offset + i) len
      writeBytes pa bytes.length (ofList bytes)
      if bytes.length ≠ len then
        return -1
      loadsegLoop pagetable va file offset sz n (i + PGSIZE)

/-- `loadseg`, whose `offset` and `sz` are of type `uint`. -/
def loadseg (pagetable va : Nat) (file : Executable) (offset sz : Nat) : KM Int :=
  loadsegLoop pagetable va file (offset % 2 ^ 32) (sz % 2 ^ 32)
    (pagesBetween 0 (sz % 2 ^ 32)) 0

/-- The loop of `exec` over the program headers, with `n` to go; whether it was
    completed, and `sz`. -/
def loadSegments (pagetable : Nat) (file : Executable) : Nat → Nat → Nat → KM (Bool × Nat)
  | 0, _, sz => return (true, sz)
  | n + 1, off, sz => do
      let bytes := readi file off 56
      if bytes.length ≠ 56 then
        return (false, sz)
      let ph := ofList bytes
      let vaddr := ph.getLE 16 8
      let filesz := ph.getLE 32 8
      let memsz := ph.getLE 40 8
      if ph.getLE 0 4 ≠ ELF_PROG_LOAD then
        loadSegments pagetable file n (off + 56) sz
      else if memsz < filesz then
        return (false, sz)
      else if u64 (vaddr + memsz) < vaddr then
        return (false, sz)
      else if vaddr % PGSIZE ≠ 0 then
        return (false, sz)
      else
        let sz1 ← uvmalloc L pagetable sz (u64 (vaddr + memsz)) (flags2perm (ph.getLE 4 4))
        if sz1 = 0 then
          return (false, sz)
        let loaded ← loadseg pagetable vaddr file (ph.getLE 8 8) filesz
        if loaded < 0 then
          return (false, sz1)
        loadSegments pagetable file n (off + 56) sz1

/-- `strlen` of a string in a page; `exec` only sees strings that end in theirs. -/
def strlen (mem : Bytes) (a : Nat) : Nat := (untilNul mem a PGSIZE).length

/-- The loop of `exec` over the argument strings: `sp` and `ustack`, if it was
    completed. -/
def pushArgs (pagetable stackbase : Nat) : List Nat → Nat → List Nat → KM (Option (Nat × List Nat))
  | [], sp, ustack => return some (sp, ustack)
  | arg :: args, sp, ustack => do
      if ustack.length ≥ MAXARG then
        return none
      let mem := (← get).mem
      let len := strlen mem arg + 1
      let sp := sub64 sp len
      let sp := sp - sp % 16
      if sp < stackbase then
        return none
      let out ← copyout pagetable sp (fun i => mem (arg + i)) len
      if out < 0 then
        return none
      pushArgs pagetable stackbase args sp (ustack ++ [sp])

/-- An array of `uint64` in memory. -/
def ofWords (ws : List Nat) : Bytes := fun i => Bytes.digits (ws.getD (i / 8) 0) (i % 8)

/-- The part of the path behind the last slash. -/
def lastElement (path : List UInt8) : List UInt8 :=
  (path.reverse.takeWhile (· ≠ 47)).reverse

/-- `exec` from the commit on. -/
def commitImage (p : Fin NPROC) (path : List UInt8) (pagetable sz sp entry : Nat) : KM Unit := do
  let x ← getProc p
  store64 (x.trapframe + TF_A1) sp
  modifyProc p fun x => { x with name := safestrcpyName x.name (lastElement path) }
  modifyProc p fun x => { x with pagetable := pagetable, sz := sz }
  store64 (x.trapframe + TF_EPC) entry
  store64 (x.trapframe + TF_SP) sp
  procFreepagetable L x.pagetable x.sz

/-- `exec` from the stack on, with the program loaded. -/
def buildStack (p : Fin NPROC) (path : List UInt8) (argv : List Nat) (pagetable sz entry : Nat) :
    KM Int := do
  let sz := pgRoundUp sz
  let sz1 ← uvmalloc L pagetable sz (u64 (sz + 2 * PGSIZE)) PTE_W
  if sz1 = 0 then
    procFreepagetable L pagetable sz
    return -1
  let sz := sz1
  uvmclear pagetable (sub64 sz (2 * PGSIZE))
  let stackbase := sub64 sz PGSIZE
  let some (sp, ustack) ← pushArgs pagetable stackbase argv sz [] | do
    procFreepagetable L pagetable sz
    return -1
  let argc := ustack.length
  let sp := sub64 sp ((argc + 1) * 8)
  let sp := sp - sp % 16
  if sp < stackbase then
    procFreepagetable L pagetable sz
    return -1
  let out ← copyout pagetable sp (ofWords (ustack ++ [0])) ((argc + 1) * 8)
  if out < 0 then
    procFreepagetable L pagetable sz
    return -1
  commitImage L p path pagetable sz sp entry
  return argc

/-- `exec`, with what `namei(path)` finds. -/
def exec (p : Fin NPROC) (path : List UInt8) (found : Option Executable) (argv : List Nat) :
    KM Int := do
  let some file := found | return -1
  let bytes := readi file 0 64
  if bytes.length ≠ 64 then
    return -1
  let elf := ofList bytes
  if elf.getLE 0 4 ≠ ELF_MAGIC then
    return -1
  let pagetable ← procPagetable L p
  if pagetable = 0 then
    return -1
  let (loaded, sz) ← loadSegments L pagetable file (elf.getLE 56 2) (elf.getLE 32 8) 0
  if !loaded then
    procFreepagetable L pagetable sz
    return -1
  buildStack L p path argv pagetable sz (elf.getLE 24 8)

/-- `fetchaddr` in the current process. -/
def fetchaddr (p : Fin NPROC) (addr : Nat) : KM (Option Nat) := do
  let x ← getProc p
  if addr ≥ x.sz ∨ u64 (addr + 8) > x.sz then
    return none
  let (bytes, ok) ← copyin x.pagetable addr 8
  if !ok then
    return none
  return some ((ofList bytes).getLE 0 8)

/-- The loop of `sys_exec` that fetches `argv[i]`, with `n` entries left; whether it
    found the end of the array, and the pages of the strings. -/
def fetchArgs (p : Fin NPROC) (uargv : Nat) : Nat → List Nat → KM (Bool × List Nat)
  | 0, argv => return (false, argv)
  | n + 1, argv => do
      let some uarg ← fetchaddr p (u64 (uargv + 8 * argv.length)) | return (false, argv)
      if uarg = 0 then
        return (true, argv)
      let page ← kalloc
      if page = 0 then
        return (false, argv)
      let (bytes, ok) ← copyinstr (← getProc p).pagetable uarg PGSIZE
      writeBytes page bytes.length (ofList bytes)
      if !ok then
        return (false, argv ++ [page])
      fetchArgs p uargv n (argv ++ [page])

def freeArgs : List Nat → KM Unit
  | [] => return
  | page :: rest => do
      kfree L page
      freeArgs rest

def sysExec (p : Fin NPROC) (upath uargv : Nat) (namei : List UInt8 → Option Executable) :
    KM Int := do
  let (path, ok) ← copyinstr (← getProc p).pagetable upath MAXPATH
  if !ok then
    return -1
  let path := path.takeWhile (· ≠ 0)
  let (ok, argv) ← fetchArgs p uargv MAXARG []
  if !ok then
    freeArgs L argv
    return -1
  let ret ← exec L p path (namei path) argv
  freeArgs L argv
  return ret

/-! ## The system -/

inductive Event where
  | userinit
  | fork (p : Fin NPROC)
  | exec (p : Fin NPROC) (upath uargv : Nat) (namei : List UInt8 → Option Executable)
  | sbrk (p : Fin NPROC) (n : BitVec 32)
  | ps (p : Fin NPROC) (start count : UInt8) (stack : Bytes)
  | exit (p : Fin NPROC) (status : Int)
  | wait (p : Fin NPROC) (addr : Nat)
  | kill (p : Fin NPROC) (pid : BitVec 32)
  | pipe (p : Fin NPROC) (fdarray : Nat)
  | close (p : Fin NPROC) (fd : Int)
  | dup (p : Fin NPROC) (fd : Int)
  | open_ (p : Fin NPROC) (found : Option Opened)
  /-- The process stores a byte in its memory. -/
  | store (p : Fin NPROC) (va : Nat) (byte : UInt8)
  /-- The scheduler, or a `wakeup`, moves a live process on. -/
  | schedule (p : Fin NPROC) (state : ProcState)

inductive Obs where
  | ret (value : Int)
  | sleeps
  | silent
  | panic (message : String)
  deriving Repr, DecidableEq

structure State where
  k : KState
  panicked : Option String

/-- The states among which the scheduler moves a process. -/
def ProcState.live : ProcState → Bool
  | .sleeping | .runnable | .running => true
  | .unused | .used | .zombie => false

/-- A store instruction; the hardware refuses it unless the page is mapped with
    `PTE_U` and `PTE_W`. -/
def userStore (p : Fin NPROC) (va : Nat) (byte : UInt8) : KM Bool := do
  let pagetable := (← getProc p).pagetable
  let pa0 ← walkaddr pagetable (pgRoundDown va)
  if pa0 = 0 then
    return false
  let pte ← walk pagetable (pgRoundDown va) false
  if (← load64 pte) &&& PTE_W = 0 then
    return false
  writeBytes (pa0 + (va - pgRoundDown va)) 1 fun _ => byte
  return true

/-- Run a system call. -/
def State.call {α : Type} (s : State) (m : KM α) (show_ : α → Obs) : State × Obs :=
  match m s.k with
  | .ok (a, k) => ({ s with k := k }, show_ a)
  | .error message => ({ s with panicked := some message }, .panic message)

/-- The process that makes the system call. -/
def Event.caller : Event → Option (Fin NPROC)
  | .fork p | .exec p _ _ _ | .sbrk p _ | .ps p _ _ _ | .exit p _ | .wait p _ | .kill p _
  | .pipe p _ | .close p _ | .dup p _ | .open_ p _ | .store p _ _ => some p
  | .userinit | .schedule _ _ => none

def perform (s : State) : Event → Option (State × Obs)
  | .userinit =>
      if s.k.initproc = none then some (s.call (userinit L) fun _ => .silent) else none
  | .fork p => some (s.call (fork L p) .ret)
  | .exec p upath uargv namei => some (s.call (sysExec L p upath uargv namei) .ret)
  | .sbrk p n => some (s.call (growproc L p n.toInt) .ret)
  | .ps p start count stack =>
      -- what becomes of the kernel after an overrun is not said
      let after := s.call (ps L p start count stack) fun r => .ret r
      if after.2 = .panic overrun then none else some after
  | .exit p status => some (s.call (exit L p status) fun _ => .silent)
  | .wait p addr => some (s.call (wait L p addr) fun r => r.elim .sleeps .ret)
  | .kill _ pid => some (s.call (kill pid) .ret)
  | .pipe p fdarray => some (s.call (sysPipe L p fdarray) .ret)
  | .close p fd => some (s.call (sysClose L p fd) .ret)
  | .dup p fd => some (s.call (sysDup p fd) .ret)
  | .open_ p found => some (s.call (sysOpen L p found) .ret)
  | .store p va byte => some (s.call (userStore p va byte) fun _ => .silent)
  | .schedule p st =>
      if (s.k.procs p).state.live ∧ st.live then
        some (s.call (modifyProc p fun x => { x with state := st }) fun _ => .silent)
      else none

def step (s : State) (e : Event) : Option (State × Obs) :=
  if s.panicked.isSome then none
  else if e.caller.all fun p => (s.k.procs p).state = .running then perform L s e
  else none

def machine : Lib.Machine State Event Obs := ⟨step L⟩

end Xv6.Kernel
