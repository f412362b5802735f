import Xv6.Lib.Machine

/-! # The user-level thread library

`user/uthread.c`, `user/lock.c` and the set-up in `_main` of `user/ulib.c`. One
process runs one thread at a time, the one `current_thread` points to; control
moves to another thread only in `tsched`. A thread that is switched out keeps,
on its own stack, the library calls it still has to finish. Those are the only
return points the library has, so they are the constructors of `Cont`.

The program is arbitrary: while a thread executes its own function it may make
any library call, and every choice is an event. `malloc` succeeds or the
process faults, which is the event `fault`; the library never frees, so a
`struct thread *` is the number of the `malloc` call that returned it.
-/

namespace Xv6.User

open Function

/-- `enum procstate` of `user.h`. -/
inductive ProcState where
  | unused
  | used
  | sleeping
  | runnable
  | running
  | zombie
  | exited
  deriving Repr, DecidableEq

/-- `struct thread`, without the saved registers and without `ret`, which no
    function of the library reads or writes. -/
structure Thread where
  tid : UInt8
  state : ProcState
  func : Nat
  arg : Nat
  deriving Repr, DecidableEq

/-- `struct lock` of `user.h`, without its name. -/
structure Lock where
  locked : UInt8
  tid : UInt8
  deriving Repr, DecidableEq

/-- What remains to be done when a call of `tsched` returns. -/
inductive Cont where
  /-- Return to the thread's own function (`tsched`, `tyield` and `release` are done). -/
  | user
  /-- Test the loop condition of `tjoin(tid)` again, for the thread it selected. -/
  | tjoin (tid : Int) (target : Nat)
  /-- Test the loop condition of `acquire` again. -/
  | acquire (lk : Nat)
  /-- Reach the end of `thread_wrapper`. -/
  | wrapper
  deriving Repr, DecidableEq

/-- Where a thread executes, or will execute once it is switched in. -/
inductive Ctl where
  /-- The first instruction of `thread_wrapper`. -/
  | wrapper
  /-- The thread's own function (`main` for the main thread). -/
  | func
  /-- Just after a call of `tsched` returned. -/
  | resume (k : Cont)
  deriving Repr, DecidableEq

structure State where
  heap : Nat → Thread
  /-- The block that the next `malloc` of a `struct thread` returns. -/
  fresh : Nat
  threads : Fin 16 → Option Nat
  current : Nat
  nextTid : BitVec 32
  locks : Nat → Lock
  ctl : Nat → Ctl
  /-- The process has exited or was killed. -/
  halted : Bool

/-- `main_thread` of `_main`. -/
def mainThread : Nat := 0

/-- The table of threads has a first slot. -/
instance threadSlots : NeZero 16 := ⟨by decide⟩

/-- The state in which `_main` calls `main`. -/
def start : State where
  heap := fun _ => { tid := 1, state := .running, func := 0, arg := 0 }
  fresh := 1
  threads := fun i => if i = 0 then some mainThread else none
  current := mainThread
  nextTid := 1
  locks := fun _ => { locked := 0, tid := 0 }
  ctl := fun _ => .func
  halted := false

namespace State

def setState (s : State) (t : Nat) (st : ProcState) : State :=
  { s with heap := update s.heap t { s.heap t with state := st } }

def setCtl (s : State) (t : Nat) (c : Ctl) : State :=
  { s with ctl := update s.ctl t c }

/-- `exit`, or a fault that kills the process. -/
def halt (s : State) : State := { s with halted := true }

/-- The first loop of `tsched`; the index stays 0 when nothing is found. -/
def currentIndex (s : State) : Fin 16 :=
  ((List.finRange 16).find? fun i => s.threads i = some s.current).getD 0

/-- The test in the second loop of `tsched`. -/
def runnableAt (s : State) (i : Fin 16) : Option Nat :=
  match s.threads i with
  | some t => if (s.heap t).state = .runnable then some t else none
  | none => none

/-- The second loop of `tsched`, over `(current_index + i) % 16`. -/
def nextThread (s : State) : Option Nat :=
  (List.range' 1 16).findSome? fun i => s.runnableAt (Fin.ofNat 16 (s.currentIndex + i))

/-- `tsched`, called with `k` still to be done afterwards. When there is no
    RUNNABLE thread it returns at once and the caller stays current. -/
def tsched (s : State) (k : Cont) : State :=
  { s.setCtl s.current (.resume k) with current := s.nextThread.getD s.current }

def tyield (s : State) (k : Cont) : State :=
  (s.setState s.current .runnable).tsched k

/-- `thread_wrapper` up to the call of the thread's function. -/
def threadWrapper (s : State) : State := s.setCtl s.current .func

/-- The rest of `thread_wrapper`, entered when the thread's function returns. -/
def threadExit (s : State) : State :=
  (s.setState s.current .exited).tsched .wrapper

/-- The first empty slot of the table, where `tcreate` puts the thread. -/
def freeSlot (s : State) : Option (Fin 16) :=
  (List.finRange 16).find? fun i => s.threads i = none

/-- `tcreate`; a full table leaves the new thread out. -/
def tcreate (s : State) (func arg : Nat) : State :=
  { s with
    heap := update s.heap s.fresh
      { tid := UInt8.ofNat s.nextTid.toNat, state := .runnable, func := func, arg := arg }
    nextTid := s.nextTid + 1
    fresh := s.fresh + 1
    ctl := update s.ctl s.fresh .wrapper
    threads := match s.freeSlot with
      | some i => update s.threads i (some s.fresh)
      | none => s.threads }

/-- The test in the loop of `tjoin`; its argument is an `int`, a tid a `uint8`. -/
def hasTid (s : State) (tid : Int) (i : Fin 16) : Bool :=
  match s.threads i with
  | some t => ((s.heap t).tid.toNat : Int) = tid
  | none => false

/-- The thread `tjoin` selects: the first one of the table with this tid. -/
def findTid (s : State) (tid : Int) : Option Nat :=
  ((List.finRange 16).find? (s.hasTid tid)).bind s.threads

def twhoami (s : State) : UInt8 := (s.heap s.current).tid

def initlock (s : State) (lk : Nat) : State :=
  { s with locks := update s.locks lk { locked := 0, tid := 255 } }

def holding (s : State) (lk : Nat) : Bool :=
  (s.locks lk).locked ≠ 0 ∧ (s.locks lk).tid = s.twhoami

end State

/-- What a step shows besides the new state: a thread's function being entered,
    a thread returned by `tcreate`, or a value returned by `tjoin`. -/
inductive Obs where
  | silent
  | entered (t : Nat)
  | created (t : Nat)
  | joined (tid result : Int)
  deriving Repr, DecidableEq

/-- The loop of `tjoin`, from its test on. -/
def tjoinLoop (s : State) (tid : Int) (target : Nat) : State × Obs :=
  if (s.heap target).state = .exited then (s.setCtl s.current .func, .joined tid 0)
  else (s.tyield (.tjoin tid target), .silent)

/-- The loop of `acquire`, from its atomic exchange on. -/
def acquireLoop (s : State) (lk : Nat) : State :=
  if (s.locks lk).locked = 0 then
    { s.setCtl s.current .func with
      locks := update s.locks lk { locked := 1, tid := s.twhoami } }
  else s.tyield (.acquire lk)

def release (s : State) (lk : Nat) : State :=
  if s.holding lk then
    { s with locks := update s.locks lk { locked := 0, tid := 255 } }.tyield .user
  else s.halt

inductive Event where
  /-- An instruction of the running function that is no library call. -/
  | work
  | tcreate (func arg : Nat)
  | tyield
  | tsched
  | tjoin (tid : Int)
  | initlock (lk : Nat)
  | acquire (lk : Nat)
  | release (lk : Nat)
  /-- The running function returns; for `main`, `_main` then calls `exit`. -/
  | ret
  /-- The running thread goes on in library code. -/
  | resume
  | fault
  deriving Repr, DecidableEq

/-- A library call, or another instruction, of the function the current thread executes. -/
def stepFunc (s : State) : Event → Option (State × Obs)
  | .work => some (s, .silent)
  | .tcreate func arg => some (s.tcreate func arg, .created s.fresh)
  | .tyield => some (s.tyield .user, .silent)
  | .tsched => some (s.tsched .user, .silent)
  | .tjoin tid =>
      match s.findTid tid with
      | none => some (s, .joined tid (-1))
      | some target => some (tjoinLoop s tid target)
  | .initlock lk => some (s.initlock lk, .silent)
  | .acquire lk => some (if s.holding lk then s.halt else acquireLoop s lk, .silent)
  | .release lk => some (User.release s lk, .silent)
  | .ret => some (if s.current = mainThread then s.halt else s.threadExit, .silent)
  | .resume => none
  | .fault => some (s.halt, .silent)

/-- Library code that the current thread still has to finish. `tcreate` makes
    `thread_wrapper` the return address of `thread_wrapper` itself, so a thread
    that reaches its end starts it again. -/
def stepResume (s : State) : Cont → State × Obs
  | .user => (s.setCtl s.current .func, .silent)
  | .tjoin tid target => tjoinLoop s tid target
  | .acquire lk => (acquireLoop s lk, .silent)
  | .wrapper => (s.setCtl s.current .wrapper, .silent)

def step (s : State) (e : Event) : Option (State × Obs) :=
  if s.halted then none
  else
    match s.ctl s.current, e with
    | .func, e => stepFunc s e
    | .wrapper, .resume => some (s.threadWrapper, .entered s.current)
    | .resume k, .resume => some (stepResume s k)
    | _, .fault => some (s.halt, .silent)
    | _, _ => none

def machine : Lib.Machine State Event Obs := ⟨step⟩

end Xv6.User
