import Xv6.Lib.Machine
import Xv6.Lib.Ring

/-! # The disk driver

`virtio_disk_rw` and `virtio_disk_intr` of `kernel/virtio_disk.c`, for any number of
callers, with the device at the other end of the rings. A step of the driver is one
critical section of `disk.vdisk_lock`, from an `acquire` to the next `release` or `sleep`;
the handler of the interrupt takes one step for each turn of its loop, since the device may
add to the used ring between two turns. What the driver writes before it adds to
`avail->idx` the device does not look at, so that a request is posted in one step.

Callers hold the sleep-lock of their buffer, so that no two calls have the same one.
-/

namespace Xv6.Kernel.Virtio

open Function

def NUM : Nat := 8

def VRING_DESC_F_NEXT : BitVec 16 := 1

def VRING_DESC_F_WRITE : BitVec 16 := 2

/-- `BSIZE / 512`. -/
def SECTORS : Nat := 2

/-- A pointer to a `struct buf`. -/
abbrev Buf : Type := Nat

/-- What an address in a descriptor points to. -/
inductive Addr where
  | null
  /-- `&disk.ops[i]`. -/
  | op (i : Nat)
  /-- `b->data`. -/
  | data (b : Buf)
  /-- `&disk.info[i].status`. -/
  | status (i : Nat)
  deriving Repr, DecidableEq

/-- `struct virtq_desc`. -/
structure Desc where
  addr : Addr
  len : Nat
  flags : BitVec 16
  next : Nat
  deriving Repr, DecidableEq

def Desc.zero : Desc := ⟨.null, 0, 0, 0⟩

/-- `struct virtio_blk_req`, without the reserved word. -/
structure Req where
  write : Bool
  sector : Nat
  deriving Repr, DecidableEq

/-- `disk.info[i]`. -/
structure Info where
  b : Option Buf
  status : UInt8
  deriving Repr, DecidableEq

/-- `struct disk`, with the rings in memory that the device shares. -/
structure Disk where
  desc : Nat → Desc
  avail : Nat → Nat
  availIdx : BitVec 16
  used : Nat → Nat
  usedIdx : BitVec 16
  free : Nat → Bool
  /-- How far the driver has looked in the used ring. -/
  used_idx : BitVec 16
  info : Nat → Info
  ops : Nat → Req

/-- How the driver stops. -/
inductive Stop where
  | panic (message : String)
  /-- A null pointer was followed. -/
  | null
  /-- `free_chain` has gone on for more than `NUM` descriptors. -/
  | endless
  deriving Repr, DecidableEq

def allocDesc (d : Disk) : Option (Nat × Disk) :=
  (List.range NUM).find? d.free |>.map fun i =>
    (i, { d with free := update d.free i false })

def freeDesc (d : Disk) (i : Nat) : Except Stop Disk :=
  if i ≥ NUM then .error (.panic "free_desc 1")
  else if d.free i then .error (.panic "free_desc 2")
  else .ok { d with
    desc := update d.desc i .zero
    free := update d.free i true }

/-- `free_chain`, for at most `n` turns. -/
def freeChain : Nat → Disk → Nat → Except Stop Disk
  | 0, _, _ => .error .endless
  | n + 1, d, i => do
      let flag := (d.desc i).flags
      let nxt := (d.desc i).next
      let d ← freeDesc d i
      if flag &&& VRING_DESC_F_NEXT ≠ 0 then freeChain n d nxt else return d

/-- The loop of `alloc3_desc`, with `n` descriptors to go: `idx`, or `none` for `-1`. -/
def allocLoop : Nat → List Nat → Disk → Except Stop (Option (List Nat) × Disk)
  | 0, idx, d => .ok (some idx, d)
  | n + 1, idx, d =>
      match allocDesc d with
      | some (i, d) => allocLoop n (idx ++ [i]) d
      | none => do
          let d ← idx.foldlM freeDesc d
          return (none, d)

def alloc3Desc (d : Disk) : Except Stop (Option (List Nat) × Disk) := allocLoop 3 [] d

/-- The three descriptors of a request. -/
structure Chain where
  i0 : Nat
  i1 : Nat
  i2 : Nat
  deriving Repr, DecidableEq

def Chain.list (c : Chain) : List Nat := [c.i0, c.i1, c.i2]

/-- What `virtio_disk_rw` writes from `buf0->type` to `disk.avail->idx += 1`. -/
def post (d : Disk) (b : Buf) (req : Req) (c : Chain) : Disk :=
  let desc := update d.desc c.i0 ⟨.op c.i0, 16, VRING_DESC_F_NEXT, c.i1⟩
  let desc := update desc c.i1
    ⟨.data b, 1024, (if req.write then 0 else VRING_DESC_F_WRITE) ||| VRING_DESC_F_NEXT, c.i2⟩
  let desc := update desc c.i2 ⟨.status c.i0, 1, VRING_DESC_F_WRITE, 0⟩
  { d with
    ops := update d.ops c.i0 req
    desc := desc
    info := update d.info c.i0 ⟨some b, 0xff⟩
    avail := update d.avail (d.availIdx.toNat % NUM) c.i0
    availIdx := d.availIdx + 1 }

/-- `disk.info[i].b = 0`. -/
def forget (d : Disk) (i : Nat) : Disk :=
  { d with info := update d.info i { d.info i with b := none } }

/-- A request as the device has read it. -/
structure Request where
  head : Nat
  req : Req
  data : Addr
  status : Addr
  deriving Repr, DecidableEq

/-- The device follows a chain. -/
def readChain (d : Disk) (head : Nat) : Option Request :=
  let d0 := d.desc head
  let d1 := d.desc d0.next
  let d2 := d.desc d1.next
  match d0.addr with
  | .op i => some ⟨head, d.ops i, d1.addr, d2.addr⟩
  | _ => none

/-- The device writes the status byte. -/
def writeStatus (d : Disk) (status : UInt8) : Addr → Disk
  | .status i => { d with info := update d.info i { d.info i with status := status } }
  | _ => d

/-- A call of `virtio_disk_rw` in progress. -/
inductive Call where
  /-- Before it has its descriptors. -/
  | alloc (b : Buf) (req : Req)
  /-- After it has posted its request. -/
  | wait (b : Buf) (req : Req) (c : Chain)
  deriving Repr, DecidableEq

def Call.buf : Call → Buf
  | .alloc b _ | .wait b _ _ => b

/-- The descriptors of a call. -/
def Call.chain : Call → List Nat
  | .alloc _ _ => []
  | .wait _ _ c => c.list

structure State where
  disk : Disk
  /-- `b->disk`. -/
  onDisk : Buf → Bool
  calls : Nat → Option Call
  /-- The sleep-lock of the buffer is held by a caller. -/
  locked : Buf → Bool
  /-- The handler of the interrupt is in its loop, with `vdisk_lock`. -/
  handler : Bool
  /-- `last_avail_idx` of the device. -/
  lastAvail : BitVec 16
  /-- The requests that the device works on. -/
  inFlight : List Request
  stopped : Option Stop

/-- After `virtio_disk_init`. -/
def start : State where
  disk :=
    { desc := fun _ => .zero, avail := fun _ => 0, availIdx := 0, used := fun _ => 0, usedIdx := 0
      free := fun _ => true, used_idx := 0, info := fun _ => ⟨none, 0⟩, ops := fun _ => ⟨false, 0⟩ }
  onDisk := fun _ => false
  calls := fun _ => none
  locked := fun _ => false
  handler := false
  lastAvail := 0
  inFlight := []
  stopped := none

inductive Event where
  /-- Process `k` calls `virtio_disk_rw`. -/
  | rw (k : Nat) (b : Buf) (blockno : Nat) (write : Bool)
  /-- Process `k` runs the next critical section of its call. -/
  | enter (k : Nat)
  /-- The interrupt handler starts, and takes a turn of its loop. -/
  | intr
  | turn
  /-- The device takes an entry from the avail ring. -/
  | take
  /-- The device is done with the request at place `n`. -/
  | complete (n : Nat) (status : UInt8)
  deriving Repr, DecidableEq

/-- What a step does to a buffer. -/
inductive Act where
  /-- The call of process `k` has posted its request. -/
  | posted (k : Nat) (req : Req)
  /-- The device has carried out a request. -/
  | completed (req : Req)
  /-- `b->disk = 0`. -/
  | cleared
  /-- The call of process `k` has returned. -/
  | returned (k : Nat)
  deriving Repr, DecidableEq

inductive Obs where
  | silent
  | act (b : Buf) (act : Act)
  deriving Repr, DecidableEq

def stop (s : State) (why : Stop) : State × Obs := ({ s with stopped := some why }, .silent)

/-- The first part of `virtio_disk_rw`, up to a `sleep`. -/
def enterAlloc (s : State) (k : Nat) (b : Buf) (req : Req) : State × Obs :=
  match alloc3Desc s.disk with
  | .error why => stop s why
  | .ok (some [i0, i1, i2], d) =>
      ({ s with
          disk := post d b req ⟨i0, i1, i2⟩
          onDisk := update s.onDisk b true
          calls := update s.calls k (some (.wait b req ⟨i0, i1, i2⟩)) },
        .act b (.posted k req))
  | .ok (_, d) => ({ s with disk := d }, .silent)

/-- The rest of `virtio_disk_rw`: back to `sleep`, or to the end. -/
def enterWait (s : State) (k : Nat) (b : Buf) (c : Chain) : State × Obs :=
  if s.onDisk b then (s, .silent)
  else
    match freeChain (NUM + 1) (forget s.disk c.i0) c.i0 with
    | .error why => stop s why
    | .ok d =>
        ({ s with
            disk := d
            calls := update s.calls k none
            locked := update s.locked b false },
          .act b (.returned k))

/-- One turn of the loop of `virtio_disk_intr`. -/
def turn (s : State) : State × Obs :=
  let d := s.disk
  if d.used_idx = d.usedIdx then ({ s with handler := false }, .silent)
  else
    let id := d.used (d.used_idx.toNat % NUM)
    if (d.info id).status ≠ 0 then stop s (.panic "virtio_disk_intr status")
    else
      match (d.info id).b with
      | none => stop s .null
      | some b =>
          ({ s with
              onDisk := update s.onDisk b false
              disk := { d with used_idx := d.used_idx + 1 } },
            .act b .cleared)

/-- The device takes the next entry of the avail ring. -/
def take (s : State) : Option (State × Obs) :=
  if s.lastAvail = s.disk.availIdx then none
  else
    (readChain s.disk (s.disk.avail (s.lastAvail.toNat % NUM))).map fun r =>
      ({ s with lastAvail := s.lastAvail + 1, inFlight := s.inFlight ++ [r] }, .silent)

/-- The device puts a request into the used ring. -/
def complete (s : State) (n : Nat) (status : UInt8) : Option (State × Obs) :=
  match s.inFlight[n]? with
  | none => none
  | some r =>
      let d := writeStatus s.disk status r.status
      let d := { d with
        used := update d.used (d.usedIdx.toNat % NUM) r.head
        usedIdx := d.usedIdx + 1 }
      match r.data with
      | .data b =>
        some ({ s with disk := d, inFlight := s.inFlight.eraseIdx n }, .act b (.completed r.req))
      | _ => none

def step (s : State) (e : Event) : Option (State × Obs) :=
  if s.stopped ≠ none then none
  else
    match e with
    | .rw k b blockno write =>
        if s.calls k = none ∧ s.locked b = false then
          some ({ s with
            calls := update s.calls k (some (.alloc b ⟨write, blockno * SECTORS % 2 ^ 32⟩))
            locked := update s.locked b true }, .silent)
        else none
    | .enter k =>
        if s.handler then none
        else
          match s.calls k with
          | none => none
          | some (.alloc b req) => some (enterAlloc s k b req)
          | some (.wait b _ c) => some (enterWait s k b c)
    | .intr => if s.handler then none else some ({ s with handler := true }, .silent)
    | .turn => if s.handler then some (turn s) else none
    | .take => take s
    | .complete n status => complete s n status

def machine : Lib.Machine State Event Obs := ⟨step⟩

end Xv6.Kernel.Virtio
