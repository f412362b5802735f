import Xv6.Kernel.Block
import Xv6.Lib.Machine

/-! # The redo log

`kernel/log.c` over a disk that writes one block at a time. A step is one disk
write, or a section of `begin_op`, `log_write` or `end_op` under `log.lock`.
Between any two steps the machine may crash: the disk stays, the rest is lost,
and the next boot runs `recover_from_log`, which may crash as well.

The buffer cache keeps a block for as long as it is pinned and may drop any other
block at any time. A `panic` stops everything but a crash.
-/

namespace Xv6.Kernel.Log

open Function

def MAXOPBLOCKS : Nat := 10

def LOGSIZE : Nat := MAXOPBLOCKS * 3

/-- The fields of `struct superblock` that `initlog` reads. The log has at least
    its header block. -/
structure Superblock where
  nlog : Nat
  logstart : Nat
  header : 0 < nlog

abbrev Disk := Nat → Block

/-- The blocks that file-system operations write: those outside the log. -/
def Home (sb : Superblock) (b : Nat) : Prop :=
  b < 2 ^ 32 ∧ (b < sb.logstart ∨ sb.logstart + sb.nlog ≤ b)

instance (sb : Superblock) (b : Nat) : Decidable (Home sb b) := inferInstanceAs (Decidable (_ ∧ _))

/-! ## The header block -/

/-- A 32-bit word as an `int`. -/
def int32 (w : Nat) : Int := (BitVec.ofNat 32 w).toInt

/-- `write_head`: the in-memory header goes over the first bytes of the header
    block; what is behind them stays. -/
def writeHead (data : Block) (lh : List Nat) : Block := data.putWords 0 (lh.length :: lh)

/-- `read_head`: `log.lh.block[0 .. log.lh.n)` as the header block has it. In no run does the
    header list more blocks than `lh.block` has room for. -/
def readHead (data : Block) : List Nat := data.getWords 4 (int32 (data.get 0 4)).toNat

/-! ## Recovery as a function of the disk -/

/-- `install_trans(1)` from block `tail` of the log on. In no run does the header list a block
    of the log, whose buffer `install_trans` would have locked already. -/
def installTrans (sb : Superblock) : List Nat → Nat → Disk → Disk
  | [], _, d => d
  | b :: bs, tail, d =>
      installTrans sb bs (tail + 1) (update d b (d (sb.logstart + tail + 1)))

def recoverFromLog (sb : Superblock) (d : Disk) : Disk :=
  let d := installTrans sb (readHead (d sb.logstart)) 0 d
  update d sb.logstart (writeHead (d sb.logstart) [])

/-! ## The running system -/

/-- Where the process that commits, or recovers, stands. -/
inductive Pc where
  /-- Nobody commits. -/
  | idle
  | writeLog (tail : Nat)
  | writeHead
  | install (tail : Nat)
  | clear
  /-- `commit` has returned to `end_op`. -/
  | finish
  /-- `initlog` is about to read the header. -/
  | boot
  | recover (tail : Nat)
  | recoverClear
  | panicked
  deriving Repr, DecidableEq

/-- The file system is up. -/
def Pc.up : Pc → Bool
  | .idle | .writeLog _ | .writeHead | .install _ | .clear | .finish => true
  | .boot | .recover _ | .recoverClear | .panicked => false

structure State where
  disk : Disk
  /-- The buffer cache, by block number. -/
  cache : Nat → Option Block
  /-- How often `bpin` holds a buffer. -/
  pins : Nat → Nat
  /-- `log.lh.block[0 .. log.lh.n)`. -/
  lh : List Nat
  outstanding : Int
  committing : Bool
  /-- The operations between their `begin_op` and `end_op`. -/
  ops : List Nat
  nextOp : Nat
  pc : Pc

/-- Power on. -/
def powerOn (d : Disk) (nextOp : Nat) : State where
  disk := d
  cache := fun _ => none
  pins := fun _ => 0
  lh := []
  outstanding := 0
  committing := false
  ops := []
  nextOp := nextOp
  pc := .boot

/-- What a step shows: the points in the life of a group transaction at which
    `end_op` starts its `commit`, its header reaches the disk, and `commit` is done. -/
inductive Obs where
  | silent
  | started
  | committed
  | returned
  | panic (message : String)
  deriving Repr, DecidableEq

namespace State

/-- `bread(b)->data`. -/
def bread (s : State) (b : Nat) : Block := (s.cache b).getD (s.disk b)

/-- The buffer of `b` is in the cache. -/
def fill (s : State) (b : Nat) : State :=
  { s with cache := update s.cache b (some (s.bread b)) }

/-- Overwrite the buffer of `b` and `bwrite` it. -/
def bwrite (s : State) (b : Nat) (data : Block) : State :=
  { s with
    disk := update s.disk b data
    cache := update s.cache b (some data) }

def bpin (s : State) (b : Nat) : State :=
  { s with pins := update s.pins b (s.pins b + 1) }

def bunpin (s : State) (b : Nat) : State :=
  { s with pins := update s.pins b (s.pins b - 1) }

/-- No process runs on. -/
def panic (s : State) (message : String) : State × Obs :=
  ({ s with ops := [], pc := .panicked }, .panic message)

end State

/-- The body of `begin_op`'s loop that leaves it; until then the caller sleeps. -/
def beginOp (s : State) : Option (State × Obs) :=
  if s.committing then none
  else if (s.lh.length : Int) + (s.outstanding + 1) * MAXOPBLOCKS > LOGSIZE then none
  else
    some ({ s with
      outstanding := s.outstanding + 1
      ops := s.ops ++ [s.nextOp]
      nextOp := s.nextOp + 1 }, .silent)

/-- `bp = bread(b)`, `bp->data` becomes `data`, `log_write(bp)`, `brelse(bp)`. -/
def logWrite (sb : Superblock) (s : State) (b : Nat) (data : Block) : State × Obs :=
  let s := { s with cache := update s.cache b (some data) }
  if s.lh.length ≥ LOGSIZE ∨ (s.lh.length : Int) ≥ sb.nlog - 1 then
    s.panic "too big a transaction"
  else if s.outstanding < 1 then s.panic "log_write outside of trans"
  else
    let i := s.lh.idxOf b
    if i = s.lh.length then ({ s.bpin b with lh := s.lh ++ [b] }, .silent)
    else ({ s with lh := s.lh.set i b }, .silent)

/-- `end_op` of operation `i` up to its first `release`. -/
def endOp (s : State) (i : Nat) : State × Obs :=
  let s := { s with outstanding := s.outstanding - 1, ops := s.ops.erase i }
  if s.committing then s.panic "log.committing"
  else if s.outstanding = 0 then
    if 0 < s.lh.length then ({ s with committing := true, pc := .writeLog 0 }, .started)
    else ({ s with committing := true, pc := .finish }, .silent)
  else (s, .silent)

/-- The next disk write, or the end of a loop, of `commit` and what follows it in
    `end_op`, or of `recover_from_log`. -/
def next (sb : Superblock) (s : State) : Option (State × Obs) :=
  match s.pc with
  | .writeLog tail =>
      match s.lh[tail]? with
      | some b =>
          let s' := (s.fill b).bwrite (sb.logstart + tail + 1) (s.bread b)
          some ({ s' with pc := .writeLog (tail + 1) }, .silent)
      | none => some ({ s with pc := .writeHead }, .silent)
  | .writeHead =>
      let s' := s.bwrite sb.logstart (writeHead (s.bread sb.logstart) s.lh)
      some ({ s' with pc := .install 0 }, .committed)
  | .install tail =>
      match s.lh[tail]? with
      | some b =>
          let from_ := sb.logstart + tail + 1
          let s' := ((s.fill from_).bwrite b (s.bread from_)).bunpin b
          some ({ s' with pc := .install (tail + 1) }, .silent)
      | none => some ({ s with pc := .clear }, .silent)
  | .clear =>
      let s' := s.bwrite sb.logstart (writeHead (s.bread sb.logstart) [])
      some ({ s' with lh := [], pc := .finish }, .returned)
  | .finish => some ({ s with committing := false, pc := .idle }, .silent)
  | .boot =>
      let s' := s.fill sb.logstart
      some ({ s' with lh := readHead (s.bread sb.logstart), pc := .recover 0 }, .silent)
  | .recover tail =>
      match s.lh[tail]? with
      | some b =>
          let from_ := sb.logstart + tail + 1
          let s' := (s.fill from_).bwrite b (s.bread from_)
          some ({ s' with pc := .recover (tail + 1) }, .silent)
      | none => some ({ s with pc := .recoverClear }, .silent)
  | .recoverClear =>
      let s' := s.bwrite sb.logstart (writeHead (s.bread sb.logstart) [])
      some ({ s' with lh := [], pc := .idle }, .silent)
  | .idle | .panicked => none

inductive Event where
  | beginOp
  | logWrite (op b : Nat) (data : Block)
  | endOp (op : Nat)
  | next
  /-- Some process reads block `b`. -/
  | bread (b : Nat)
  /-- `bget` takes the buffer of `b` for another block. -/
  | evict (b : Nat)
  | crash

/-- Operations call `log_write` on home blocks, between their `begin_op` and `end_op`. -/
def step (sb : Superblock) (s : State) : Event → Option (State × Obs)
  | .beginOp => if s.pc.up then beginOp s else none
  | .logWrite op b data => if op ∈ s.ops ∧ Home sb b then some (logWrite sb s b data) else none
  | .endOp op => if op ∈ s.ops then some (endOp s op) else none
  | .next => next sb s
  | .bread b => if s.pc = .panicked then none else some (s.fill b, .silent)
  | .evict b =>
      if s.pins b = 0 then some ({ s with cache := update s.cache b none }, .silent)
      else none
  | .crash => some (powerOn s.disk s.nextOp, .silent)

def machine (sb : Superblock) : Lib.Machine State Event Obs := ⟨step sb⟩

/-- A disk on which the log is empty, as `mkfs` leaves it. -/
structure Image (sb : Superblock) where
  disk : Disk
  empty : readHead (disk sb.logstart) = []

def start {sb : Superblock} (img : Image sb) : State := powerOn img.disk 0

end Xv6.Kernel.Log
