import Xv6.Kernel.Log
import Xv6.Kernel.Param

/-! # The buffer cache

`kernel/bio.c`, and `write_log`, `write_head`, `install_trans`, `commit` and `log_write`
of `kernel/log.c` as callers of it. A step is what a process does between two
operations on `bcache.lock`, `log.lock` or a buffer's lock; a disk transfer is part of
the step of the process that holds the buffer. A panic, and a lock that is not free,
leave no step.

A process that is not in `commit` is arbitrary code that reads blocks of any device and
changes buffers it has locked, on the device of the log only. It calls `log_write` for a
buffer it has changed before it calls `brelse`.
-/

namespace Xv6.Kernel.Bcache

open Log (Superblock LOGSIZE MAXOPBLOCKS writeHead)

def NBUF : Nat := MAXOPBLOCKS * 3

theorem NBUF_pos : 0 < NBUF := by decide

def ROOTDEV : Nat := 1

/-- Device and block number. -/
abbrev Id := Nat × Nat

abbrev Disk := Id → Block

structure Buf where
  valid : Bool
  dev : Nat
  blockno : Nat
  /-- The process that holds the sleep-lock. -/
  lock : Option (Fin NPROC)
  refcnt : BitVec 32
  data : Block

def Buf.id (b : Buf) : Id := (b.dev, b.blockno)

/-- The buffer, locked by `p` and read from the disk if it is not valid. -/
def Buf.read (b : Buf) (p : Fin NPROC) (disk : Disk) : Buf :=
  if b.valid then { b with lock := some p }
  else { b with lock := some p, data := disk b.id, valid := true }

/-- Where a process is in `bio.c`. -/
inductive Call where
  /-- `bget` has chosen buffer `i`, whose lock comes next. -/
  | wait (i : Fin NBUF)
  /-- `brelse` has unlocked buffer `i`. -/
  | put (i : Fin NBUF)
  deriving Repr, DecidableEq

structure Proc where
  call : Option Call := none
  /-- The buffers it has locked, the last one first. -/
  held : List (Fin NBUF) := []
  /-- Those it has changed since its last `log_write`. -/
  unlogged : List (Fin NBUF) := []
  /-- Between `begin_op` and `end_op`. -/
  inOp : Bool := false

structure Cache where
  bufs : Fin NBUF → Buf
  /-- The list from `head.next` on. -/
  lru : List (Fin NBUF)
  disk : Disk
  procs : Fin NPROC → Proc

inductive Obs where
  | silent
  /-- `bget` takes buffer `i`, which held block `id`. -/
  | recycled (i : Fin NBUF) (id : Id)
  /-- `bread` returns. -/
  | bread (p : Fin NPROC) (id : Id) (data : Block)
  /-- The buffer of `id` is changed. -/
  | stored (id : Id) (data : Block)
  /-- The buffer of `id` is changed and written to the disk. -/
  | written (id : Id) (data : Block)
  /-- `log_write`, with or without `bpin`. -/
  | logged (b : Nat) (pin : Bool)
  | unpinned (id : Id)
  /-- `log.lh.n = 0`. -/
  | cleared

/-! ## bio.c -/

namespace Cache

def setBuf (c : Cache) (i : Fin NBUF) (b : Buf) : Cache :=
  { c with bufs := Function.update c.bufs i b }

def setProc (c : Cache) (p : Fin NPROC) (x : Proc) : Cache :=
  { c with procs := Function.update c.procs p x }

def setCall (c : Cache) (p : Fin NPROC) (call : Option Call) : Cache :=
  c.setProc p { c.procs p with call }

/-- `bget` up to `acquiresleep`. -/
def bget (c : Cache) (p : Fin NPROC) (dev blockno : Nat) : Option (Cache × Obs) :=
  match c.lru.find? fun i => (c.bufs i).dev = dev ∧ (c.bufs i).blockno = blockno with
  | some i =>
      let b := c.bufs i
      some ((c.setBuf i { b with refcnt := b.refcnt + 1 }).setCall p (some (.wait i)), .silent)
  | none =>
      match c.lru.reverse.find? fun i => (c.bufs i).refcnt = 0 with
      | some i =>
          let b := c.bufs i
          some ((c.setBuf i { b with dev, blockno, valid := false, refcnt := 1 }).setCall p
            (some (.wait i)), .recycled i b.id)
      | none => none

/-- `acquiresleep` in `bget` and the rest of `bread`. -/
def bread (c : Cache) (p : Fin NPROC) (i : Fin NBUF) : Option (Cache × Obs) :=
  if (c.bufs i).lock = none then
    let b := (c.bufs i).read p c.disk
    let x := c.procs p
    some ((c.setBuf i b).setProc p { x with call := none, held := i :: x.held },
      .bread p b.id b.data)
  else none

/-- The buffer's data becomes `data`. -/
def store (c : Cache) (i : Fin NBUF) (data : Block) : Cache :=
  c.setBuf i { c.bufs i with data }

def bwrite (c : Cache) (p : Fin NPROC) (i : Fin NBUF) : Option Cache :=
  if (c.bufs i).lock = some p then
    some { c with disk := Function.update c.disk (c.bufs i).id (c.bufs i).data }
  else none

/-- `brelse` up to `releasesleep`. -/
def releasesleep (c : Cache) (p : Fin NPROC) (i : Fin NBUF) : Option Cache :=
  if (c.bufs i).lock = some p then
    let x := c.procs p
    some ((c.setBuf i { c.bufs i with lock := none }).setProc p
      { x with call := some (.put i), held := x.held.erase i })
  else none

/-- The rest of `brelse`. -/
def brelse (c : Cache) (p : Fin NPROC) (i : Fin NBUF) : Cache :=
  let refcnt := (c.bufs i).refcnt - 1
  let c := (c.setBuf i { c.bufs i with refcnt }).setCall p none
  if refcnt = 0 then { c with lru := i :: c.lru.erase i } else c

def bpin (c : Cache) (i : Fin NBUF) : Cache :=
  c.setBuf i { c.bufs i with refcnt := (c.bufs i).refcnt + 1 }

def bunpin (c : Cache) (i : Fin NBUF) : Cache :=
  c.setBuf i { c.bufs i with refcnt := (c.bufs i).refcnt - 1 }

end Cache

/-! ## log.c -/

/-- Where the process that commits stands, `tail` in a loop. -/
inductive Pc where
  | writeLog (tail : Nat)
  | writeLogFrom (tail : Nat)
  | writeLogCopy (tail : Nat)
  | writeLogPutFrom (tail : Nat)
  | writeLogPutTo (tail : Nat)
  /-- The first or the last `write_head`. -/
  | writeHead (last : Bool)
  | writeHeadCopy (last : Bool)
  | writeHeadPut (last : Bool)
  | installTrans (tail : Nat)
  | installDst (tail : Nat)
  | installCopy (tail : Nat)
  | installUnpin (tail : Nat)
  | installPutLog (tail : Nat)
  | installPutDst (tail : Nat)
  /-- `commit` has returned to `end_op`. -/
  | finish
  deriving Repr, DecidableEq

structure State where
  cache : Cache
  /-- `log.lh.block[0 .. log.lh.n)`. -/
  lh : List Nat
  outstanding : Int
  /-- The process in `commit`; `log.committing` is set while there is one. -/
  commit : Option (Fin NPROC × Pc)

namespace State

def goto (s : State) (p : Fin NPROC) (pc : Pc) : State := { s with commit := some (p, pc) }

/-- A call of `bget` before `pc`. -/
def bget (s : State) (p : Fin NPROC) (blockno : Nat) (pc : Pc) : Option (State × Obs) :=
  (s.cache.bget p ROOTDEV blockno).map fun (c, o) => ({ s.goto p pc with cache := c }, o)

/-- `memmove(to->data, data)`, `bwrite(to)`. -/
def copy (s : State) (p : Fin NPROC) (to_ : Fin NBUF) (data : Block) (pc : Pc) :
    Option (State × Obs) :=
  ((s.cache.store to_ data).bwrite p to_).map fun c =>
    ({ s.goto p pc with cache := c }, .written (s.cache.bufs to_).id data)

def brelse (s : State) (p : Fin NPROC) (i : Fin NBUF) (pc : Pc) : Option (State × Obs) :=
  (s.cache.releasesleep p i).map fun c => ({ s.goto p pc with cache := c }, .silent)

end State

/-- `commit`, between two calls of `bio.c`. The buffers that it works on are the last
    ones it has locked. -/
def commitStep (sb : Superblock) (s : State) (p : Fin NPROC) : Pc → Option (State × Obs)
  | .writeLog tail =>
      if tail < s.lh.length then s.bget p (sb.logstart + tail + 1) (.writeLogFrom tail)
      else some (s.goto p (.writeHead false), .silent)
  | .writeLogFrom tail => s.lh[tail]?.bind fun b => s.bget p b (.writeLogCopy tail)
  | .writeLogCopy tail =>
      match (s.cache.procs p).held with
      | from_ :: to_ :: _ => s.copy p to_ (s.cache.bufs from_).data (.writeLogPutFrom tail)
      | _ => none
  | .writeLogPutFrom tail =>
      match (s.cache.procs p).held with
      | from_ :: _ => s.brelse p from_ (.writeLogPutTo tail)
      | _ => none
  | .writeLogPutTo tail =>
      match (s.cache.procs p).held with
      | to_ :: _ => s.brelse p to_ (.writeLog (tail + 1))
      | _ => none
  | .writeHead last => s.bget p sb.logstart (.writeHeadCopy last)
  | .writeHeadCopy last =>
      match (s.cache.procs p).held with
      | buf :: _ => s.copy p buf (writeHead (s.cache.bufs buf).data s.lh) (.writeHeadPut last)
      | _ => none
  | .writeHeadPut last =>
      match (s.cache.procs p).held with
      | buf :: _ => s.brelse p buf (if last then .finish else .installTrans 0)
      | _ => none
  | .installTrans tail =>
      if tail < s.lh.length then s.bget p (sb.logstart + tail + 1) (.installDst tail)
      else some ({ s.goto p (.writeHead true) with lh := [] }, .cleared)
  | .installDst tail => s.lh[tail]?.bind fun b => s.bget p b (.installCopy tail)
  | .installCopy tail =>
      match (s.cache.procs p).held with
      | dbuf :: lbuf :: _ => s.copy p dbuf (s.cache.bufs lbuf).data (.installUnpin tail)
      | _ => none
  | .installUnpin tail =>
      match (s.cache.procs p).held with
      | dbuf :: _ => some ({ s.goto p (.installPutLog tail) with cache := s.cache.bunpin dbuf },
          .unpinned (s.cache.bufs dbuf).id)
      | _ => none
  | .installPutLog tail =>
      match (s.cache.procs p).held with
      | _ :: lbuf :: _ => s.brelse p lbuf (.installPutDst tail)
      | _ => none
  | .installPutDst tail =>
      match (s.cache.procs p).held with
      | dbuf :: _ => s.brelse p dbuf (.installTrans (tail + 1))
      | _ => none
  | .finish => some ({ s with commit := none }, .silent)

/-- The body of `begin_op`'s loop that leaves it; until then the caller sleeps. -/
def beginOp (s : State) (p : Fin NPROC) : Option (State × Obs) :=
  if s.commit.isSome then none
  else if (s.lh.length : Int) + (s.outstanding + 1) * MAXOPBLOCKS > LOGSIZE then none
  else
    some ({ s with
      outstanding := s.outstanding + 1
      cache := s.cache.setProc p { s.cache.procs p with inOp := true } }, .silent)

/-- `end_op` up to its first `release`. -/
def endOp (s : State) (p : Fin NPROC) : Option (State × Obs) :=
  let s := { s with
    outstanding := s.outstanding - 1
    cache := s.cache.setProc p { s.cache.procs p with inOp := false } }
  if s.commit.isSome then none
  else if s.outstanding = 0 then
    some (s.goto p (if 0 < s.lh.length then .writeLog 0 else .finish), .silent)
  else some (s, .silent)

def logWrite (sb : Superblock) (s : State) (p : Fin NPROC) (i : Fin NBUF) :
    Option (State × Obs) :=
  let b := (s.cache.bufs i).blockno
  let x := s.cache.procs p
  let c := s.cache.setProc p { x with unlogged := x.unlogged.filter (· ≠ i) }
  if s.lh.length ≥ LOGSIZE ∨ (s.lh.length : Int) ≥ sb.nlog - 1 then none
  else if s.outstanding < 1 then none
  else
    let k := s.lh.idxOf b
    if k = s.lh.length then some ({ s with cache := c.bpin i, lh := s.lh ++ [b] }, .logged b true)
    else some ({ s with cache := c, lh := s.lh.set k b }, .logged b false)

/-! ## Runs -/

inductive Event where
  | bread (p : Fin NPROC) (dev blockno : Nat)
  | store (p : Fin NPROC) (i : Fin NBUF) (data : Block)
  | logWrite (p : Fin NPROC) (i : Fin NBUF)
  | brelse (p : Fin NPROC) (i : Fin NBUF)
  | beginOp (p : Fin NPROC)
  | endOp (p : Fin NPROC)
  /-- `p` goes on in `bio.c` or in `commit`. -/
  | go (p : Fin NPROC)

/-- `p` is neither in `bio.c` nor in `commit`. -/
def State.Free (s : State) (p : Fin NPROC) : Prop :=
  (s.cache.procs p).call = none ∧ s.commit.map Prod.fst ≠ some p

instance (s : State) (p : Fin NPROC) : Decidable (s.Free p) := inferInstanceAs (Decidable (_ ∧ _))

def go (sb : Superblock) (s : State) (p : Fin NPROC) : Option (State × Obs) :=
  match (s.cache.procs p).call with
  | some (.wait i) => (s.cache.bread p i).map fun (c, o) => ({ s with cache := c }, o)
  | some (.put i) => some ({ s with cache := s.cache.brelse p i }, .silent)
  | none =>
      match s.commit with
      | some (q, pc) => if q = p then commitStep sb s p pc else none
      | none => none

def step (sb : Superblock) (s : State) : Event → Option (State × Obs)
  | .bread p dev blockno =>
      if s.Free p then
        (s.cache.bget p dev blockno).map fun (c, o) => ({ s with cache := c }, o)
      else none
  | .store p i data =>
      let x := s.cache.procs p
      if s.Free p ∧ i ∈ x.held ∧ (s.cache.bufs i).dev = ROOTDEV then
        some
          ({ s with
              cache := (s.cache.store i data).setProc p { x with unlogged := i :: x.unlogged } },
            .stored (s.cache.bufs i).id data)
      else none
  | .logWrite p i =>
      if s.Free p ∧ i ∈ (s.cache.procs p).held ∧ (s.cache.bufs i).dev = ROOTDEV then
        logWrite sb s p i
      else none
  | .brelse p i =>
      if s.Free p ∧ i ∈ (s.cache.procs p).held ∧ i ∉ (s.cache.procs p).unlogged then
        (s.cache.releasesleep p i).map fun c => ({ s with cache := c }, .silent)
      else none
  | .beginOp p => if s.Free p ∧ (s.cache.procs p).inOp = false then beginOp s p else none
  | .endOp p => if s.Free p ∧ (s.cache.procs p).inOp = true then endOp s p else none
  | .go p => go sb s p

def machine (sb : Superblock) : Lib.Machine State Event Obs := ⟨step sb⟩

/-- What `binit` leaves, with an empty log. -/
def start (disk : Disk) : State where
  cache :=
    { bufs := fun _ =>
        { valid := false, dev := 0, blockno := 0, lock := none, refcnt := 0, data := Block.zero }
      lru := (List.finRange NBUF).reverse
      disk := disk
      procs := fun _ => {} }
  lh := []
  outstanding := 0
  commit := none

end Xv6.Kernel.Bcache
