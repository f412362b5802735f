import Xv6.Lib.Machine
import Xv6.Kernel.Dinode
import Xv6.Kernel.Param

/-! # The table of in-memory inodes

`ialloc`, `iupdate`, `iget`, `idup`, `ilock`, `iunlock` and `iput` of `fs.c`, called by any
number of processes. What runs under `itable.lock` is one step, as is what runs under the
lock of one buffer; `acquiresleep` is a step that a process can take when the lock is free.

A process may call a function on a pointer that it has in a variable, or that an open file
or a current directory holds. It changes the fields of an inode only with the inode locked,
and calls `iupdate` after a change, as the comment at `iupdate` asks; the type it leaves is
not 0. Nothing else is asked of the callers. The blocks that `itrunc` frees are not part of
this model.
-/

namespace Xv6.Kernel.Itable

open Lib Function

abbrev Pid := Nat

/-- An entry of `itable.inode`; `lock` is the pid in the sleep-lock while it is held. -/
structure Inode where
  dev : Nat
  inum : Nat
  ref : Nat
  lock : Option Pid
  valid : Bool
  data : Dinode

/-- A pointer to an entry: a variable of a process, or, without an owner, `ip` of an open
    file or `cwd` of a process. `seen` says that the inode was locked through it, or through
    the pointer that `idup` copied. -/
structure Ptr where
  entry : Fin NINODE
  owner : Option Pid
  seen : Bool
  deriving DecidableEq

/-- Where a process is: in no function of this file, or in one that holds no spin-lock. -/
inductive Pc where
  | idle
  /-- In `ilock`, after `acquiresleep`. -/
  | ilock (x : Ptr)
  /-- In `iput`, before `itrunc`. -/
  | itrunc (x : Ptr)
  /-- In `iput`, before the type becomes 0. -/
  | free (x : Ptr)
  /-- In `iput`, after the last `iupdate`. -/
  | invalidate (x : Ptr)
  /-- In `iput`, after `releasesleep`. -/
  | drop (x : Ptr)
  /-- In the loop of `ialloc`. -/
  | ialloc (dev : Nat) (type : BitVec 16) (inum : Nat)
  /-- In `ialloc`, before `iget`. -/
  | marked (dev inum : Nat)

/-- `disk` holds the inodes as last logged; `dirty` marks the entries that were changed
    since the last `iupdate`. -/
structure State where
  table : Fin NINODE → Inode
  disk : Nat → Nat → Dinode
  ptrs : List Ptr
  pc : Pid → Pc
  dirty : Fin NINODE → Bool
  panicked : Bool

inductive Act where
  | iget (dev inum : Nat)
  | idup (x : Ptr)
  | ilock (x : Ptr)
  | iunlock (x : Ptr)
  | iput (x : Ptr)
  | ialloc (dev : Nat) (type : BitVec 16)
  /-- Change fields of a locked inode. -/
  | change (x : Ptr) (data : Dinode)
  | iupdate (x : Ptr)
  /-- Store the pointer in an open file, or as a current directory. -/
  | keep (x : Ptr)
  /-- The last `fileclose`, `exit` or `chdir`: take the pointer out again. -/
  | take (x : Ptr)
  /-- Go on in the function that the process is in. -/
  | turn

abbrev Event := Pid × Act

inductive Obs where
  | done
  | pointer (i : Fin NINODE)
  | truncated (dev inum : Nat)
  | freed (dev inum : Nat)
  | allocated (dev inum : Nat)
  | noInodes
  | panic (msg : String)
  deriving DecidableEq

namespace State

/-- Change an entry of the table. -/
def alter (s : State) (i : Fin NINODE) (f : Inode → Inode) : State :=
  { s with table := update s.table i (f (s.table i)) }

def goto (s : State) (p : Pid) (pc : Pc) : State := { s with pc := update s.pc p pc }

def write (s : State) (dev inum : Nat) (d : Dinode) : State :=
  { s with disk := update s.disk dev (update (s.disk dev) inum d) }

def mark (s : State) (i : Fin NINODE) (b : Bool) : State :=
  { s with dirty := update s.dirty i b }

def point (s : State) (ptrs : List Ptr) : State := { s with ptrs := ptrs }

def panic (s : State) (msg : String) : State × Obs := ({ s with panicked := true }, .panic msg)

end State

/-- Whether `p` can use the pointer. -/
def Reaches (s : State) (p : Pid) (x : Ptr) : Prop :=
  x ∈ s.ptrs ∧ (x.owner = some p ∨ x.owner = none)

instance (s : State) (p : Pid) (x : Ptr) : Decidable (Reaches s p x) :=
  inferInstanceAs (Decidable (_ ∧ _))

inductive Slot where
  | found (i : Fin NINODE)
  | recycle (i : Fin NINODE)
  | full

/-- The loop of `iget`; `empty` is the first free entry so far. -/
def igetLoop (table : Fin NINODE → Inode) (dev inum : Nat) :
    List (Fin NINODE) → Option (Fin NINODE) → Slot
  | [], none => .full
  | [], some i => .recycle i
  | i :: rest, empty =>
      if 0 < (table i).ref ∧ (table i).dev = dev ∧ (table i).inum = inum then .found i
      else igetLoop table dev inum rest (if empty = none ∧ (table i).ref = 0 then some i else empty)

def iget (s : State) (p : Pid) (dev inum : Nat) : State × Obs :=
  match igetLoop s.table dev inum (List.finRange NINODE) none with
  | .found i =>
      ((s.alter i fun ip => { ip with ref := ip.ref + 1 }).point (⟨i, some p, false⟩ :: s.ptrs),
        .pointer i)
  | .recycle i =>
      ((s.alter i fun ip => { ip with dev, inum, ref := 1, valid := false }).point
        (⟨i, some p, false⟩ :: s.ptrs), .pointer i)
  | .full => s.panic "iget: no inodes"

def idup (s : State) (p : Pid) (x : Ptr) : State × Obs :=
  ((s.alter x.entry fun ip => { ip with ref := ip.ref + 1 }).point
    ({ x with owner := some p } :: s.ptrs), .pointer x.entry)

/-- `ilock` up to the return of `acquiresleep`; no step while another process holds the
    lock. -/
def ilock (s : State) (p : Pid) (x : Ptr) : Option (State × Obs) :=
  if (s.table x.entry).ref < 1 then some (s.panic "ilock")
  else if (s.table x.entry).lock = none then
    some ((s.alter x.entry fun ip => { ip with lock := some p }).goto p (.ilock x), .done)
  else none

/-- The rest of `ilock`. -/
def load (s : State) (p : Pid) (x : Ptr) : State × Obs :=
  let data := s.disk (s.table x.entry).dev (s.table x.entry).inum
  let next :=
    (s.point (s.ptrs.map fun y => if y = x then { y with seen := true } else y)).goto p .idle
  if (s.table x.entry).valid then (next, .done)
  else if data.type = 0 then
    (s.alter x.entry fun ip => { ip with data, valid := true }).panic "ilock: no type"
  else (next.alter x.entry fun ip => { ip with data, valid := true }, .done)

def iunlock (s : State) (p : Pid) (x : Ptr) : State × Obs :=
  if (s.table x.entry).lock ≠ some p ∨ (s.table x.entry).ref < 1 then s.panic "iunlock"
  else (s.alter x.entry fun ip => { ip with lock := none }, .done)

def iupdate (s : State) (i : Fin NINODE) : State :=
  (s.write (s.table i).dev (s.table i).inum (s.table i).data).mark i false

/-- What `itrunc` does to the fields. -/
def truncate (d : Dinode) : Dinode := { d with addrs := fun _ => 0, size := 0 }

/-- `itrunc`; it ends with `iupdate`. -/
def itrunc (s : State) (i : Fin NINODE) : State :=
  iupdate (s.alter i fun ip => { ip with data := truncate ip.data }) i

/-- `ip->type = 0`. -/
def clear (d : Dinode) : Dinode := { d with type := 0 }

def drop (s : State) (x : Ptr) : State :=
  (s.alter x.entry fun ip => { ip with ref := ip.ref - 1 }).point (s.ptrs.erase x)

/-- `iput` up to the release of `itable.lock`. If `acquiresleep` had to wait, `sched` would
    find the spin-lock held. -/
def iput (s : State) (p : Pid) (x : Ptr) : State × Obs :=
  let ip := s.table x.entry
  if ip.ref = 1 ∧ ip.valid ∧ ip.data.nlink = 0 then
    if ip.lock = none then
      ((s.alter x.entry fun ip => { ip with lock := some p }).goto p (.itrunc x), .done)
    else s.panic "sched locks"
  else (drop s x, .done)

/-- The processes go on from where they are; `ialloc` reads one inode a step. -/
def turn (ninodes : Nat) (s : State) (p : Pid) : Option (State × Obs) :=
  match s.pc p with
  | .idle => none
  | .ilock x => some (load s p x)
  | .itrunc x =>
      some ((itrunc s x.entry).goto p (.free x),
        .truncated (s.table x.entry).dev (s.table x.entry).inum)
  | .free x =>
      some ((iupdate (s.alter x.entry fun ip => { ip with data := clear ip.data }) x.entry).goto p
        (.invalidate x), .freed (s.table x.entry).dev (s.table x.entry).inum)
  | .invalidate x =>
      some ((s.alter x.entry fun ip => { ip with valid := false, lock := none }).goto p (.drop x),
        .done)
  | .drop x => some ((drop s x).goto p .idle, .done)
  | .ialloc dev type inum =>
      if inum < ninodes then
        if (s.disk dev inum).type = 0 then
          some ((s.write dev inum { Dinode.zero with type }).goto p (.marked dev inum),
            .allocated dev inum)
        else some (s.goto p (.ialloc dev type (inum + 1)), .done)
      else some (s.goto p .idle, .noInodes)
  | .marked dev inum => some (iget (s.goto p .idle) p dev inum)

/-- A call by a process that is in no function. -/
def call (s : State) (p : Pid) : Act → Option (State × Obs)
  | .iget dev inum => some (iget s p dev inum)
  | .idup x => if Reaches s p x then some (idup s p x) else none
  | .ilock x => if Reaches s p x then ilock s p x else none
  | .iunlock x =>
      if Reaches s p x ∧ s.dirty x.entry = false then some (iunlock s p x) else none
  | .iput x => if x ∈ s.ptrs ∧ x.owner = some p then some (iput s p x) else none
  | .ialloc dev type => some (s.goto p (.ialloc dev type 1), .done)
  | .change x data =>
      if Reaches s p x ∧ (s.table x.entry).lock = some p ∧ data.type ≠ 0 then
        some ((s.alter x.entry fun ip => { ip with data }).mark x.entry true, .done)
      else none
  | .iupdate x =>
      if Reaches s p x ∧ (s.table x.entry).lock = some p then some (iupdate s x.entry, .done)
      else none
  | .keep x =>
      if x ∈ s.ptrs ∧ x.owner = some p ∧ x.seen then
        some (s.point ({ x with owner := none } :: s.ptrs.erase x), .done)
      else none
  | .take x =>
      if x ∈ s.ptrs ∧ x.owner = none then
        some (s.point ({ x with owner := some p } :: s.ptrs.erase x), .done)
      else none
  | .turn => none

def step (ninodes : Nat) (s : State) (e : Event) : Option (State × Obs) :=
  if s.panicked then none
  else
    match s.pc e.1 with
    | .idle => call s e.1 e.2
    | _ => match e.2 with
      | .turn => turn ninodes s e.1
      | _ => none

def machine (ninodes : Nat) : Machine State Event Obs := ⟨step ninodes⟩

/-- After `userinit`: the current directory of the first process is the root. -/
def start (disk : Nat → Nat → Dinode) : State where
  table i := if i.val = 0 then ⟨ROOTDEV, ROOTINO, 1, none, false, .zero⟩
    else ⟨0, 0, 0, none, false, .zero⟩
  disk := disk
  ptrs := [⟨⟨0, NINODE_pos⟩, none, true⟩]
  pc _ := .idle
  dirty _ := false
  panicked := false

end Xv6.Kernel.Itable
