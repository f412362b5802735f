import Xv6.Kernel.Param
import Xv6.Lib.Machine

/-! # Processes on several CPUs

`fork`, `exit`, `wait`, `sleep`, `wakeup`, `kill`, `setkilled`, `yield` and the
switch to and from the scheduler in `kernel/proc.c`, the loops that wait in
`pipe.c`, `console.c` and `sysproc.c`, and the handler of ^C in `console.c`. The
CPUs interleave at the acquisitions and releases of spinlocks.

A kernel thread is what it has still to do: a list of operations, the first one
next. `acquire` and `release` are operations; the others are the code of one
function between two of them, and leave the operations that follow in the
function. All other code of the kernel and the user code is arbitrary. It runs
where the list is empty, or where it starts with the end of an interrupt handler,
and may take locks of its own, sleep on channels of its own and call the
functions above. A panic, and a lock that is not free, leave no step.
-/

namespace Xv6.Kernel.Smp

open Function

/-- The loops that test `killed` and sleep. -/
inductive Wait where
  | piperead (pipe : Nat)
  | pipewrite (pipe : Nat)
  | consoleread
  | sleep
  deriving Repr, DecidableEq

/-- What a process can sleep on. -/
inductive Chan where
  /-- The process itself, in `wait`. -/
  | proc (p : Fin NPROC)
  /-- `&pi->nread`, `&pi->nwrite`, `&cons.r` and `&ticks`. -/
  | io (w : Wait)
  /-- Sleep-locks, the log, the disk, the serial port. -/
  | other (n : Nat)
  deriving Repr, DecidableEq

inductive Lk where
  /-- `wait_lock`. -/
  | wait
  /-- `proc[i].lock`. -/
  | proc (i : Fin NPROC)
  | pipe (n : Nat)
  | cons
  | ticks
  | other (n : Nat)
  deriving Repr, DecidableEq

def Wait.lock : Wait → Lk
  | .piperead n | .pipewrite n => .pipe n
  | .consoleread => .cons
  | .sleep => .ticks

/-- The channels of the waits that a `kill` is to end. -/
def Chan.interruptible : Chan → Bool
  | .other _ => false
  | _ => true

/-- The locks that only the functions modelled here take. -/
def Lk.inner : Lk → Bool
  | .wait | .proc _ => true
  | _ => false

/-- `struct proc`, without what scheduling, files and names need. -/
structure Proc where
  state : ProcState
  chan : Option Chan
  killed : Bool
  xstate : BitVec 32
  pid : BitVec 32
  parent : Option (Fin NPROC)
  sz : Nat
  pagetable : Nat
  trapframe : Nat
  deriving Repr, DecidableEq

/-- What `freeproc` leaves. -/
def freeproc : Proc where
  state := .unused
  chan := none
  killed := false
  xstate := 0
  pid := 0
  parent := none
  sz := 0
  pagetable := 0
  trapframe := 0

structure Table where
  procs : Fin NPROC → Proc
  nextpid : BitVec 32

def Table.set (tb : Table) (i : Fin NPROC) (x : Proc) : Table :=
  { tb with procs := update tb.procs i x }

def initproc : Fin NPROC := ⟨0, NPROC_pos⟩

/-- The kernel thread of a process, or what a CPU runs between processes. -/
inductive Thread where
  | proc (p : Fin NPROC)
  | idle (cpu : Nat)
  deriving Repr, DecidableEq

inductive Op where
  | acquire (lk : Lk)
  | release (lk : Lk)
  /-- `sleep` from the release of `lk` to the call of `sched`, and from there on. -/
  | sleepSched (chan : Chan)
  | tidyUp
  /-- `yield` after it has taken `p->lock`. -/
  | yieldSched
  /-- The loop of `wakeup` from slot `i` on, and its body under the lock of slot `i`. -/
  | wakeup (chan : Chan) (i : Nat)
  | wakeAt (chan : Chan) (i : Fin NPROC)
  /-- The loop of `kill` from slot `i` on, and its body. -/
  | kill (pid : BitVec 32) (i : Nat)
  | killAt (pid : BitVec 32) (i : Fin NPROC)
  /-- The body of `setkilled`. -/
  | setkilled (i : Fin NPROC)
  /-- The loop of `allocproc`, called by `fork`, and the rest of `fork`. -/
  | fork (i : Nat)
  | forkAt (i : Fin NPROC)
  | forkParent (np : Fin NPROC)
  | forkRunnable (np : Fin NPROC)
  /-- The loop of `reparent` from slot `i` on, and the rest of `exit`. -/
  | reparent (i : Nat)
  | exitWakeup
  | exitZombie (status : BitVec 32)
  | exitSched
  /-- The loop of `wait` from slot `i` on, its body, and its test of `killed`. -/
  | waitScan (addr havekids : Bool) (i : Nat)
  | waitAt (addr : Bool) (i : Fin NPROC)
  | waitKilled (addr : Bool)
  /-- The condition of a waiting loop, and its test of `killed`. -/
  | test (w : Wait)
  | testKilled (w : Wait)
  /-- The loop of ^C from slot `i` on, which has chosen slot `best` so far. -/
  | ctrlC (best : Fin NPROC) (i : Nat)
  /-- The end of an interrupt handler. -/
  | iret
  deriving Repr, DecidableEq

/-- `sleep(chan, lk)` in process `p`. -/
def sleepCode (p : Fin NPROC) (chan : Chan) (lk : Lk) : List Op :=
  [.acquire (.proc p), .release lk, .sleepSched chan, .tidyUp, .release (.proc p), .acquire lk]

/-- `exit(status)` in process `p`, once its files are closed. -/
def exitCode (p : Fin NPROC) (status : BitVec 32) : List Op :=
  [.acquire .wait, .reparent 0, .exitWakeup, .acquire (.proc p), .exitZombie status,
    .release .wait, .exitSched]

/-- Where a new process starts. -/
def forkret (p : Fin NPROC) : List Op := [.release (.proc p)]

/-- What the environment decides. -/
inductive Choice where
  | yes
  | no
  | fail
  /-- Addresses of the new trapframe and page table. -/
  | mem (trapframe pagetable : Nat)
  deriving Repr, DecidableEq

inductive Obs where
  | silent
  /-- `fork` gives a slot to a new process, or fails. -/
  | forked (child : Option (Fin NPROC × BitVec 32))
  /-- `exit` has made the process a ZOMBIE. -/
  | exited (p : Fin NPROC) (pid status : BitVec 32)
  /-- `wait` returns the pid of a child, whose status it stores at `addr`, or -1. -/
  | waited (p : Fin NPROC) (child : Option (Fin NPROC × BitVec 32 × BitVec 32))
  /-- `kill` returns 0 after marking a slot, or -1. -/
  | killed (pid : BitVec 32) (slot : Option (Fin NPROC))
  deriving Repr, DecidableEq

/-- The outcome of an operation: the table, what the function does next, and the
    slot whose context was set to `forkret`. -/
structure Effect where
  table : Table
  next : List Op
  obs : Obs := .silent
  spawned : Option (Fin NPROC) := none

/-- The wakeup that `pipewrite` makes before it sleeps. -/
def Wait.wakeup : Wait → List Op
  | .pipewrite n => [.wakeup (.io (.piperead n)) 0]
  | _ => []

/-- The end of a waiting loop whose condition has failed. -/
def Wait.ending : Wait → List Op
  | .piperead n => [.wakeup (.io (.pipewrite n)) 0, .release (.pipe n)]
  | .pipewrite n => [.wakeup (.io (.piperead n)) 0, .release (.pipe n)]
  | w => [.release w.lock]

/-- `allocproc` and the part of `fork` up to the first release of `np->lock`, for
    a slot that was UNUSED. -/
def forkSlot (sz : Nat) (ch : Choice) (tb : Table) (i : Fin NPROC) : Option Effect :=
  let tb' : Table := { tb with nextpid := tb.nextpid + 1 }
  match ch with
  | .mem trapframe pagetable =>
      if trapframe = 0 ∨ pagetable = 0 then none
      else some
        { table := tb'.set i { tb.procs i with
            state := .used
            pid := tb.nextpid
            sz := sz
            trapframe := trapframe
            pagetable := pagetable }
          next := [.release (.proc i), .acquire .wait, .forkParent i, .release .wait,
            .acquire (.proc i), .forkRunnable i, .release (.proc i)]
          obs := .forked (some (i, tb.nextpid))
          spawned := some i }
  | _ => some
      { table := tb'.set i freeproc
        next := [.release (.proc i)]
        obs := .forked none }

/-- An operation of process `p`, other than the locks and the switches. -/
def execProc (p : Fin NPROC) (ch : Choice) (tb : Table) : Op → Option Effect
  | .tidyUp => some { table := tb.set p { tb.procs p with chan := none }, next := [] }
  | .fork i =>
      if h : i < NPROC then
        some { table := tb, next := [.acquire (.proc ⟨i, h⟩), .forkAt ⟨i, h⟩] }
      else some { table := tb, next := [], obs := .forked none }
  | .forkAt i =>
      if (tb.procs i).state = .unused then forkSlot (tb.procs p).sz ch tb i
      else some { table := tb, next := [.release (.proc i), .fork (i + 1)] }
  | .forkParent np => some { table := tb.set np { tb.procs np with parent := some p }, next := [] }
  | .forkRunnable np =>
      some { table := tb.set np { tb.procs np with state := .runnable }, next := [] }
  | .reparent i =>
      if h : i < NPROC then
        if (tb.procs ⟨i, h⟩).parent = some p then
          some
            { table := tb.set ⟨i, h⟩ { tb.procs ⟨i, h⟩ with parent := some initproc }
              next := [.wakeup (.proc initproc) 0, .reparent (i + 1)] }
        else some { table := tb, next := [.reparent (i + 1)] }
      else some { table := tb, next := [] }
  | .exitWakeup =>
      -- wakeup(0) finds nobody
      some { table := tb, next := match (tb.procs p).parent with
        | some q => [.wakeup (.proc q) 0]
        | none => [] }
  | .exitZombie status =>
      some
        { table := tb.set p { tb.procs p with state := .zombie, xstate := status }
          next := []
          obs := .exited p (tb.procs p).pid status }
  | .waitScan addr havekids i =>
      if h : i < NPROC then
        if (tb.procs ⟨i, h⟩).parent = some p then
          some { table := tb, next := [.acquire (.proc ⟨i, h⟩), .waitAt addr ⟨i, h⟩] }
        else some { table := tb, next := [.waitScan addr havekids (i + 1)] }
      else if havekids then some { table := tb, next := [.acquire (.proc p), .waitKilled addr] }
      else some { table := tb, next := [.release .wait], obs := .waited p none }
  | .waitAt addr i =>
      if (tb.procs i).state = .zombie then
        if addr = true ∧ ch = .fail then
          some { table := tb, next := [.release (.proc i), .release .wait], obs := .waited p none }
        else
          some
            { table := tb.set i freeproc
              next := [.release (.proc i), .release .wait]
              obs := .waited p (some (i, (tb.procs i).pid, (tb.procs i).xstate)) }
      else some { table := tb, next := [.release (.proc i), .waitScan addr true (i + 1)] }
  | .waitKilled addr =>
      if (tb.procs p).killed then
        some { table := tb, next := [.release (.proc p), .release .wait], obs := .waited p none }
      else
        some
          { table := tb
            next := .release (.proc p) :: sleepCode p (.proc p) .wait ++ [.waitScan addr false 0] }
  | .test w =>
      match ch with
      | .yes => some { table := tb, next := [.acquire (.proc p), .testKilled w] }
      | .no => some { table := tb, next := w.ending }
      | _ => some { table := tb, next := [.release w.lock] }
  | .testKilled w =>
      if (tb.procs p).killed then
        some { table := tb, next := [.release (.proc p), .release w.lock] }
      else
        match ch with
        | .yes =>
            some
              { table := tb
                next := .release (.proc p) :: w.wakeup ++ sleepCode p (.io w) w.lock ++ [.test w] }
        | _ => some { table := tb, next := [.release (.proc p), .test w] }
  | _ => none

/-- Any other operation of any thread. -/
def exec (t : Thread) (ch : Choice) (tb : Table) : Op → Option Effect
  | .iret => some { table := tb, next := [] }
  | .wakeup chan i =>
      if h : i < NPROC then
        if t = .proc ⟨i, h⟩ then some { table := tb, next := [.wakeup chan (i + 1)] }
        else some
          { table := tb
            next := [.acquire (.proc ⟨i, h⟩), .wakeAt chan ⟨i, h⟩, .release (.proc ⟨i, h⟩),
              .wakeup chan (i + 1)] }
      else some { table := tb, next := [] }
  | .wakeAt chan i =>
      if (tb.procs i).state = .sleeping ∧ (tb.procs i).chan = some chan then
        some { table := tb.set i { tb.procs i with state := .runnable }, next := [] }
      else some { table := tb, next := [] }
  | .kill pid i =>
      if h : i < NPROC then
        some { table := tb, next := [.acquire (.proc ⟨i, h⟩), .killAt pid ⟨i, h⟩] }
      else some { table := tb, next := [], obs := .killed pid none }
  | .killAt pid i =>
      if (tb.procs i).pid = pid then
        some
          { table := tb.set i { tb.procs i with
              killed := true
              state := if (tb.procs i).state = .sleeping then .runnable else (tb.procs i).state }
            next := [.release (.proc i)]
            obs := .killed pid (some i) }
      else some { table := tb, next := [.release (.proc i), .kill pid (i + 1)] }
  | .setkilled i => some { table := tb.set i { tb.procs i with killed := true }, next := [] }
  | .ctrlC best i =>
      if h : i < NPROC then
        let x := tb.procs ⟨i, h⟩
        let better := x.state ≠ .unused ∧ (tb.procs best).pid.slt x.pid
        some { table := tb, next := [.ctrlC (if better then ⟨i, h⟩ else best) (i + 1)] }
      else
        -- the parent pointer is followed without a test
        match (tb.procs best).parent with
        | none => none
        | some q =>
            if (tb.procs q).pid = 1 then some { table := tb, next := [] }
            else some
              { table := tb
                next := [.acquire (.proc best), .setkilled best, .release (.proc best)] }
  | op =>
      match t with
      | .proc p => execProc p ch tb op
      | .idle _ => none

inductive Cpu where
  | idle
  | running (p : Fin NPROC)
  /-- `sched` has switched away from `p`, whose lock the scheduler still holds. -/
  | leaving (p : Fin NPROC)
  deriving Repr, DecidableEq

structure State where
  table : Table
  /-- The CPU that holds the lock. -/
  locks : Lk → Option Nat
  noff : Nat → Nat
  cpus : Nat → Cpu
  code : Thread → List Op

namespace State

def proc (s : State) (i : Fin NPROC) : Proc := s.table.procs i

/-- What CPU `c` executes; `myproc()` is its process. -/
def thread (s : State) (c : Nat) : Option Thread :=
  match s.cpus c with
  | .idle => some (.idle c)
  | .running p => some (.proc p)
  | .leaving _ => none

def setCode (s : State) (t : Thread) (k : List Op) : State :=
  { s with code := update s.code t k }

/-- `acquire` of a free lock; of `push_off` only the count is here, not `intena`. -/
def acquire (s : State) (c : Nat) (lk : Lk) : State :=
  { s with
    locks := update s.locks lk (some c)
    noff := update s.noff c (s.noff c + 1) }

def release (s : State) (c : Nat) (lk : Lk) : State :=
  { s with
    locks := update s.locks lk none
    noff := update s.noff c (s.noff c - 1) }

/-- `sched` in process `p`, which has set its own fields to `x` and goes on with
    `k` when it is switched in again. -/
def sched (s : State) (c : Nat) (p : Fin NPROC) (x : Proc) (k : List Op) : Option State :=
  if s.locks (.proc p) = some c ∧ s.noff c = 1 then
    some
      { s with
        table := s.table.set p x
        cpus := update s.cpus c (.leaving p)
        code := update s.code (.proc p) k }
  else none

/-- A thread's operation that is done: `k` follows what the operation leaves. -/
def apply (s : State) (t : Thread) (eff : Effect) (k : List Op) : State :=
  let s := { s.setCode t (eff.next ++ k) with table := eff.table }
  match eff.spawned with
  | some i => s.setCode (.proc i) (forkret i)
  | none => s

end State

/-- The switching operations of process `p`. -/
def schedOp (s : State) (c : Nat) (p : Fin NPROC) (k : List Op) : Op → Option State
  | .sleepSched chan => s.sched c p { s.proc p with chan := some chan, state := .sleeping } k
  | .yieldSched => s.sched c p { s.proc p with state := .runnable } k
  | .exitSched => s.sched c p (s.proc p) k
  | _ => none

def Op.switches : Op → Bool
  | .sleepSched _ | .yieldSched | .exitSched => true
  | _ => false

/-- The thread `t` on CPU `c` goes on with `op`, before `k`. -/
def goOp (s : State) (c : Nat) (t : Thread) (ch : Choice) (op : Op) (k : List Op) :
    Option (State × Obs) :=
  match op with
  | .acquire lk =>
      if s.locks lk = none then some ((s.acquire c lk).setCode t k, .silent) else none
  | .release lk =>
      if s.locks lk = some c then some ((s.release c lk).setCode t k, .silent) else none
  | op =>
      if op.switches then
        match t with
        | .proc p => (schedOp s c p k op).map fun s' => (s', .silent)
        | .idle _ => none
      else (exec t ch s.table op).map fun eff => (s.apply t eff k, eff.obs)

/-- What code outside this model can do. -/
inductive Call where
  | acquire (lk : Lk)
  | release (lk : Lk)
  | wakeup (chan : Chan)
  | ctrlC
  | yield
  | sleep (n : Nat) (lk : Lk)
  | kill (pid : BitVec 32)
  /-- An exception in user code, for which `usertrap` calls `setkilled`. -/
  | fault
  | fork
  | exit (status : BitVec 32)
  | wait (addr : Bool)
  | loop (w : Wait)
  deriving Repr, DecidableEq

/-- Interrupt handlers as well as system calls do these. -/
def Call.handlerCode (t : Thread) : Call → Option (List Op)
  | .acquire lk => if lk.inner then none else some [.acquire lk]
  | .release lk => if lk.inner then none else some [.release lk]
  | .wakeup (.proc _) => none
  | .wakeup chan => some [.wakeup chan 0]
  | .ctrlC => some [.ctrlC initproc 0]
  | .yield =>
      match t with
      | .proc p => some [.acquire (.proc p), .yieldSched, .release (.proc p)]
      | .idle _ => none
  | _ => none

/-- Only system calls and traps from user code do the others. -/
def Call.code (p : Fin NPROC) : Call → Option (List Op)
  | .sleep n lk => if lk.inner then none else some (sleepCode p (.other n) lk)
  | .kill pid => some [.kill pid 0]
  | .fault => some [.acquire (.proc p), .setkilled p, .release (.proc p)]
  | .fork => some [.fork 0]
  | .exit status => if p = initproc then none else some (exitCode p status)
  | .wait addr => some [.acquire .wait, .waitScan addr false 0]
  | .loop w => some [.acquire w.lock, .test w]
  | call => call.handlerCode (.proc p)

/-- The operations that a call puts before those that `t` has still to do. -/
def callCode (t : Thread) (k : List Op) (call : Call) : Option (List Op) :=
  match k, t with
  | .iret :: _, t => call.handlerCode t
  | [], .proc p => call.code p
  | _, _ => none

inductive Event where
  /-- CPU `c` executes the next operation of its thread. -/
  | go (c : Nat) (ch : Choice)
  | call (c : Nat) (call : Call)
  /-- An interrupt, which is taken only where no lock is held. -/
  | interrupt (c : Nat)
  /-- The scheduler of `c` picks `p`. -/
  | schedule (c : Nat) (p : Fin NPROC)
  /-- The scheduler of `c`, switched back to, releases the lock of its process. -/
  | leave (c : Nat)
  deriving Repr, DecidableEq

def step (s : State) : Event → Option (State × Obs)
  | .go c ch =>
      match s.thread c with
      | none => none
      | some t =>
          match s.code t with
          | [] => none
          | op :: k => goOp s c t ch op k
  | .call c call =>
      match s.thread c with
      | none => none
      | some t => (callCode t (s.code t) call).map fun ops =>
          (s.setCode t (ops ++ s.code t), .silent)
  | .interrupt c =>
      match s.thread c with
      | none => none
      | some t =>
          if s.noff c = 0 then some (s.setCode t (.iret :: s.code t), .silent) else none
  | .schedule c p =>
      if s.cpus c = .idle ∧ s.code (.idle c) = [] ∧ s.locks (.proc p) = none ∧
          (s.proc p).state = .runnable then
        let s := s.acquire c (.proc p)
        some
          ({ s with
              table := s.table.set p { s.proc p with state := .running }
              cpus := update s.cpus c (.running p) }, .silent)
      else none
  | .leave c =>
      match s.cpus c with
      | .leaving p =>
          if s.locks (.proc p) = some c then
            some ({ s.release c (.proc p) with cpus := update s.cpus c .idle }, .silent)
          else none
      | _ => none

def machine : Lib.Machine State Event Obs := ⟨step⟩

/-- The state that `userinit` leaves, with the addresses it was given by `kalloc`. -/
def start (trapframe pagetable : Nat) : State where
  table :=
    { procs := fun i =>
        if i = initproc then
          { freeproc with
            state := .runnable
            pid := 1
            sz := PGSIZE
            trapframe := trapframe
            pagetable := pagetable }
        else freeproc
      nextpid := 2 }
  locks := fun _ => none
  noff := fun _ => 0
  cpus := fun _ => .idle
  code := fun t => match t with
    | .proc p => forkret p
    | .idle _ => []

end Xv6.Kernel.Smp
