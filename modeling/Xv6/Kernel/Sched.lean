import Xv6.Kernel.Param
import Xv6.Lib.Machine

/-! # The per-CPU schedulers

`scheduler`, `rr_scheduler`, `mlfq_scheduler`, `sched`, `yield`, `sleep`, `exit`
and `schedset` of `kernel/proc.c`, for any number of CPUs. A step is one section
between an `acquire` or `release` of some `p->lock` and the next, or a `swtch`;
a section that would have to wait for a lock is not enabled. Sections of one CPU
follow its program counter, sections of different CPUs interleave freely.
-/

namespace Xv6.Kernel.Sched

def MAX_PRIO : Nat := 1

def PROM_TIME : Int := 5

/-- The scheduling fields of `struct proc`. -/
structure Proc where
  state : ProcState
  priority : Nat
  promotionTimer : Int
  /-- The CPU that holds `p->lock`. -/
  lock : Option Nat
  deriving Repr, DecidableEq

/-- The entries of `available_schedulers`. -/
inductive SchedImpl where
  | rr
  | mlfq
  deriving Repr, DecidableEq

/-- The loops over the process table: that of `rr_scheduler`, the first loop of
    `mlfq_scheduler` with its `high_avail`, and its second loop. -/
inductive Loop where
  | rr
  | high (avail : Bool)
  | low
  deriving Repr, DecidableEq

/-- What a CPU executes. -/
inductive Pc where
  /-- `scheduler`, about to call through `sched_pointer`. -/
  | scheduler
  /-- A loop, about to acquire the lock of slot `i`. -/
  | scan (loop : Loop) (i : Nat)
  /-- A process dispatched by `loop`; `locked` until it has released its own
      lock, in `yield`, `sleep` or `forkret`. -/
  | proc (loop : Loop) (p : Fin NPROC) (locked : Bool)
  /-- The loop again, just after `swtch` returned with `p->lock` held. -/
  | back (loop : Loop) (p : Fin NPROC)
  deriving Repr, DecidableEq

structure Cpu where
  /-- `c->proc`. -/
  proc : Option (Fin NPROC)
  pc : Pc
  deriving Repr, DecidableEq

structure State where
  procs : Fin NPROC → Proc
  cpus : Nat → Cpu
  schedPointer : SchedImpl

/-- The slot that `userinit` takes. -/
def initproc : Fin NPROC := ⟨0, NPROC_pos⟩

/-- After `userinit`: one RUNNABLE process, every CPU about to schedule. -/
def boot : State where
  procs := fun p =>
    { state := if p = initproc then .runnable else .unused, priority := 0, promotionTimer := 0,
      lock := none }
  cpus := fun _ => { proc := none, pc := .scheduler }
  schedPointer := .rr

namespace State

def setProc (s : State) (p : Fin NPROC) (x : Proc) : State :=
  { s with procs := Function.update s.procs p x }

def setCpu (s : State) (c : Nat) (x : Cpu) : State :=
  { s with cpus := Function.update s.cpus c x }

def setPc (s : State) (c : Nat) (pc : Pc) : State :=
  s.setCpu c { s.cpus c with pc := pc }

/-- `p->state = RUNNING; c->proc = p; swtch(&c->context, &p->context)`, with the
    lock acquired just before. -/
def dispatch (s : State) (c : Nat) (loop : Loop) (p : Fin NPROC) : State :=
  (s.setProc p { s.procs p with state := .running, lock := some c }).setCpu c
    { proc := some p, pc := .proc loop p true }

def releaseLock (s : State) (p : Fin NPROC) : State :=
  s.setProc p { s.procs p with lock := none }

end State

/-- The loop that `(*sched_pointer)()` enters. -/
def SchedImpl.loop : SchedImpl → Loop
  | .rr => .rr
  | .mlfq => .high false

/-- The end of the loop over the table. -/
def Loop.done : Loop → Pc
  | .rr => .scheduler
  | .high true => .scan (.high false) 0
  | .high false => .scan .low 0
  | .low => .scheduler

/-- The section of a loop for slot `p`, whose lock is free. -/
def scanSection (s : State) (c : Nat) (loop : Loop) (p : Fin NPROC) : State :=
  match loop with
  | .rr =>
      if (s.procs p).state = .runnable then s.dispatch c .rr p
      else s.setPc c (.scan .rr (p + 1))
  | .high avail =>
      if 0 < (s.procs p).priority then s.setPc c (.scan (.high avail) (p + 1))
      else if (s.procs p).state = .runnable then s.dispatch c (.high true) p
      else s.setPc c (.scan (.high avail) (p + 1))
  | .low =>
      -- found high prio: break, and `mlfq_scheduler` returns
      if (s.procs p).priority = 0 ∧ (s.procs p).state = .runnable then s.setPc c .scheduler
      else if (s.procs p).state = .runnable then s.dispatch c .low p
      else s.setPc c (.scan .low (p + 1))

/-- The loop has another scheduler to give way to. -/
def replaced (s : State) : Loop → Bool
  | .rr => false
  | .high _ | .low => s.schedPointer ≠ .mlfq

/-- The section after `swtch` returned. When the scheduler was replaced meanwhile,
    `mlfq_scheduler` releases the lock and returns, before `c->proc = 0`. -/
def backSection (s : State) (c : Nat) (loop : Loop) (p : Fin NPROC) : State :=
  if replaced s loop then (s.releaseLock p).setPc c .scheduler
  else (s.releaseLock p).setCpu c { proc := none, pc := .scan loop (p + 1) }

/-- The next section of scheduler code on CPU `c`, which holds no lock. -/
def schedulerSection (s : State) (c : Nat) : Option State :=
  match (s.cpus c).pc with
  | .scheduler => some (s.setCpu c { proc := none, pc := .scan s.schedPointer.loop 0 })
  | .scan loop i =>
      if inside : i < NPROC then
        let p : Fin NPROC := ⟨i, inside⟩
        if (s.procs p).lock = none then some (scanSection s c loop p) else none
      else some (s.setPc c loop.done)
  | .back _ _ | .proc _ _ _ => none

/-- The body of the loop in `sched`: `--p->promotion_timer` runs only for a
    demoted process. -/
def promote (x : Proc) : Proc :=
  if 0 < x.priority then
    { x with
      promotionTimer := x.promotionTimer - 1
      priority := if x.promotionTimer - 1 = 0 then 0 else x.priority }
  else x

/-- `sched`, called by process `p` on CPU `c` with `p->lock` held: the timers of
    all slots run, then `swtch` resumes the loop that dispatched `p`. -/
def sched (s : State) (c : Nat) (loop : Loop) (p : Fin NPROC) : State :=
  ({ s with procs := fun q => promote (s.procs q) } : State).setPc c (.back loop p)

inductive YieldReason where
  | timer
  | other
  deriving Repr, DecidableEq

/-- `yield` up to `swtch`. -/
def yield (s : State) (c : Nat) (loop : Loop) (p : Fin NPROC) (reason : YieldReason) : State :=
  let x := { s.procs p with state := .runnable, lock := some c }
  let x := match reason with
    | .timer =>
        { x with
          priority := if x.priority + 1 > MAX_PRIO then x.priority else x.priority + 1
          promotionTimer := PROM_TIME }
    | .other => x
  sched (s.setProc p x) c loop p

/-- `sleep` and `exit` up to `swtch`: give up the CPU in state `st`. -/
def block (s : State) (c : Nat) (loop : Loop) (p : Fin NPROC) (st : ProcState) : State :=
  sched (s.setProc p { s.procs p with state := st, lock := some c }) c loop p

inductive Event where
  | scheduler (c : Nat)
  /-- The process that was switched in releases its own lock. -/
  | release (c : Nat)
  | yield (c : Nat) (reason : YieldReason)
  | sleep (c : Nat)
  | exit (c : Nat)
  /-- `wakeup` reaches slot `q` and finds its channel there. -/
  | wakeup (c : Nat) (q : Fin NPROC)
  /-- `kill` reaches the slot `q` that it looks for. -/
  | kill (c : Nat) (q : Fin NPROC)
  /-- `allocproc` takes the UNUSED slot `q`; `ok` says whether the memory that
      `allocproc` and then `fork` need was there. -/
  | allocproc (c : Nat) (q : Fin NPROC) (ok : Bool)
  /-- `fork` makes its child RUNNABLE. -/
  | fork (c : Nat) (q : Fin NPROC)
  /-- `wait` frees slot `q`. -/
  | freeproc (c : Nat) (q : Fin NPROC)
  | schedset (c : Nat) (impl : SchedImpl)
  deriving Repr, DecidableEq

/-- The CPU that executes the section. -/
def Event.cpu : Event → Nat
  | .scheduler c | .release c | .yield c _ | .sleep c | .exit c | .wakeup c _ | .kill c _
  | .allocproc c _ _ | .fork c _ | .freeproc c _ | .schedset c _ => c

/-- A section on slot `q`, whose lock is free: its state changes from `old` to `new`. -/
def moveSlot (s : State) (q : Fin NPROC) (old new : ProcState) : Option State :=
  if (s.procs q).lock = none then
    if (s.procs q).state = old then some (s.setProc q { s.procs q with state := new }) else some s
  else none

/-- The section of `wakeup` for slot `q`, which passes over `myproc()`. -/
def wakeup (s : State) (c : Nat) (q : Fin NPROC) : Option State :=
  if (s.cpus c).proc = some q then some s else moveSlot s q .sleeping .runnable

/-- A section of the process `p` that CPU `c` runs with `p->lock` released. -/
def procSection (s : State) (c : Nat) (loop : Loop) (p : Fin NPROC) : Event → Option State
  | .yield _ reason => if (s.procs p).lock = none then some (yield s c loop p reason) else none
  | .sleep _ => if (s.procs p).lock = none then some (block s c loop p .sleeping) else none
  | .exit _ => if (s.procs p).lock = none then some (block s c loop p .zombie) else none
  | .wakeup _ q => wakeup s c q
  | .kill _ q => moveSlot s q .sleeping .runnable
  | .allocproc _ q ok =>
      if (s.procs q).lock = none ∧ (s.procs q).state = .unused then
        some (s.setProc q
          { s.procs q with
            state := if ok then .used else .unused
            priority := 0
            promotionTimer := 0 })
      else none
  | .fork _ q => moveSlot s q .used .runnable
  | .freeproc _ q => moveSlot s q .zombie .unused
  | .schedset _ impl => some { s with schedPointer := impl }
  | .scheduler _ | .release _ => none

/-- A section of scheduler code, or of an interrupt handler that runs on top of it
    while no lock is held. -/
def idleSection (s : State) (c : Nat) : Event → Option State
  | .scheduler _ => schedulerSection s c
  | .wakeup _ q => wakeup s c q
  | _ => none

def step (s : State) (e : Event) : Option (State × Unit) :=
  (match (s.cpus e.cpu).pc with
  | .proc loop p false => procSection s e.cpu loop p e
  | .proc loop p true =>
      if e = Event.release e.cpu then
        some ((s.releaseLock p).setPc e.cpu (.proc loop p false))
      else none
  | .back loop p => if e = Event.scheduler e.cpu then some (backSection s e.cpu loop p) else none
  | .scheduler | .scan _ _ => idleSection s e.cpu e).map (·, ())

/-- Whether `kerneltrap` on CPU `c` calls `yield` for a timer interrupt. -/
def kerneltrapYields (s : State) (c : Nat) : Bool :=
  match (s.cpus c).proc with
  | some p => (s.procs p).state = .running
  | none => false

def machine : Lib.Machine State Event Unit := ⟨step⟩

end Xv6.Kernel.Sched
