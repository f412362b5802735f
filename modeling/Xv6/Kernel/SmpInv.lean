import Xv6.Kernel.Smp

/-! # What every interleaving keeps

Which locks a thread holds can be read off the operations it has still to do,
because every function takes and releases its locks in a fixed order. From that
follows who may touch a slot: its own thread, and threads that hold its lock.
-/

namespace Xv6.Kernel.Smp

/-! ## Locks -/

@[simp] theorem Lk.inner_wait : Lk.wait.inner = true := rfl

@[simp] theorem Lk.inner_proc (i : Fin NPROC) : (Lk.proc i).inner = true := rfl

@[simp] theorem Lk.inner_pipe (n : Nat) : (Lk.pipe n).inner = false := rfl

/-- The lock of a slot that an operation is started with and that it, or what it
    leaves to be done, releases. -/
@[simp] def Op.slotLock : Op → List Lk
  | .killAt _ i => [.proc i]
  | .forkAt i => [.proc i]
  | .waitAt _ i => [.proc i]
  | _ => []

/-- The same for `wait_lock`. -/
@[simp] def Op.waitLock : Op → List Lk
  | .waitScan _ _ _ => [.wait]
  | .waitAt _ _ => [.wait]
  | .waitKilled _ => [.wait]
  | _ => []

/-- The same for the lock of the thread's own process. -/
@[simp] def Op.ownLock : Thread → Op → List Lk
  | .proc p, .exitSched => [.proc p]
  | .proc p, .testKilled _ => [.proc p]
  | .proc p, .waitKilled _ => [.proc p]
  | _, _ => []

/-- The locks held before an operation, from those held after it. -/
@[simp] def Op.holding (t : Thread) (after : Lk → Prop) : Op → Lk → Prop
  | .acquire lk, x => x ≠ lk ∧ after x
  | .release lk, x => x = lk ∨ after x
  | op, x => x ∈ op.slotLock ∨ x ∈ op.waitLock ∨ x ∈ op.ownLock t ∨ after x

/-- The inner locks that a thread holds where it has these operations to do. -/
def need (t : Thread) : List Op → Lk → Prop
  | [] => fun _ => False
  | op :: k => op.holding t (need t k)

@[simp] theorem need_nil (t : Thread) (x : Lk) : need t [] x ↔ False := Iff.rfl

@[simp] theorem need_cons (t : Thread) (op : Op) (k : List Op) (x : Lk) :
    need t (op :: k) x ↔ op.holding t (need t k) x := Iff.rfl

/-- No lock of a slot is held. -/
@[simp] def NoSlots (t : Thread) (k : List Op) : Prop := ∀ j, ¬ need t k (.proc j)

/-- How far the loop of `wait` has got. -/
structure Scan where
  havekids : Bool
  /-- The slots before this one are done. -/
  upTo : Nat
  /-- The child whose lock the loop is about to take or has taken. -/
  child : Option (Fin NPROC)
  deriving DecidableEq

@[simp] def Op.scanning : Op → Option Scan
  | .waitScan _ havekids i => some ⟨havekids, i, none⟩
  | .waitAt _ i => some ⟨true, i, some i⟩
  | .waitKilled _ => some ⟨true, NPROC, none⟩
  | .sleepSched (.proc _) => some ⟨true, NPROC, none⟩
  | _ => none

/-- What the first operation of `wait` tells that a thread has still to do. -/
@[simp] def scan : List Op → Scan
  | [] => ⟨true, 0, none⟩
  | op :: k => op.scanning.getD (scan k)

/-- The loop has not begun. -/
@[simp] def Scan.Fresh (sc : Scan) : Prop := sc.upTo = 0 ∧ sc.child = none

@[simp] def Op.rings : Op → Option Bool
  | .reparent _ => some false
  | .exitWakeup => some false
  | .release .wait => some false
  | .exitZombie _ => some true
  | _ => none

/-- `exit` has called `wakeup` for the parent, and may still be in that call. -/
@[simp] def rung : List Op → Bool
  | [] => false
  | op :: k => op.rings.getD (rung k)

/-- What may follow an operation. -/
inductive Op.Fits (t : Thread) : Op → List Op → Prop where
  | acquire {lk k} (held : lk.inner = true → need t k lk)
      (fresh : lk = .wait → (scan k).Fresh ∧ rung k = false) : Fits t (.acquire lk) k
  | release {lk k} (out : lk.inner = true → ¬ need t k lk) : Fits t (.release lk) k
  | iret {k} (free : ∀ lk, lk.inner = true → ¬ need t k lk) : Fits t .iret k
  | tidyUp {p lk k} (self : t = .proc p) :
      Fits t .tidyUp (.release (.proc p) :: .acquire lk :: k)
  | sleepSched {p chan lk k} (self : t = .proc p) (outer : lk.inner = false)
      (other : ∀ q, chan ≠ .proc q) :
      Fits t (.sleepSched chan) (.tidyUp :: .release (.proc p) :: .acquire lk :: k)
  | waitSched {p addr} (self : t = .proc p) :
      Fits t (.sleepSched (.proc p))
        [.tidyUp, .release (.proc p), .acquire .wait, .waitScan addr false 0]
  | yieldSched {p k} (self : t = .proc p) : Fits t .yieldSched (.release (.proc p) :: k)
  | wakeup {chan i k} (free : NoSlots t k) : Fits t (.wakeup chan i) k
  | wakeAt {chan i k} (held : need t k (.proc i)) : Fits t (.wakeAt chan i) k
  | kill {pid i k} (free : NoSlots t k) : Fits t (.kill pid i) k
  | killAt {pid i k} (free : NoSlots t k) : Fits t (.killAt pid i) k
  | setkilled {i k} (held : need t k (.proc i)) : Fits t (.setkilled i) k
  | fork {p i} (self : t = .proc p) : Fits t (.fork i) []
  | forkAt {p i} (self : t = .proc p) : Fits t (.forkAt i) []
  | forkParent {p np} (self : t = .proc p) : Fits t (.forkParent np)
      [.release .wait, .acquire (.proc np), .forkRunnable np, .release (.proc np)]
  | forkRunnable {p np} (self : t = .proc p) : Fits t (.forkRunnable np) [.release (.proc np)]
  | reparent {p i status} (self : t = .proc p) (other : p ≠ initproc) : Fits t (.reparent i)
      [.exitWakeup, .acquire (.proc p), .exitZombie status, .release .wait, .exitSched]
  | exitWakeup {p status} (self : t = .proc p) (other : p ≠ initproc) : Fits t .exitWakeup
      [.acquire (.proc p), .exitZombie status, .release .wait, .exitSched]
  | exitZombie {p status} (self : t = .proc p) (other : p ≠ initproc) :
      Fits t (.exitZombie status) [.release .wait, .exitSched]
  | exitSched {p} (self : t = .proc p) : Fits t .exitSched []
  | waitScan {p addr havekids i} (self : t = .proc p) : Fits t (.waitScan addr havekids i) []
  | waitAt {p addr i} (self : t = .proc p) : Fits t (.waitAt addr i) []
  | waitKilled {p addr} (self : t = .proc p) : Fits t (.waitKilled addr) []
  | test {p w} (self : t = .proc p) : Fits t (.test w) []
  | testKilled {p w} (self : t = .proc p) : Fits t (.testKilled w) []
  | ctrlC {best i k} (free : NoSlots t k) : Fits t (.ctrlC best i) k

/-- The operations of a thread fit together. -/
inductive Fits (t : Thread) : List Op → Prop where
  | nil : Fits t []
  | cons {op k} (first : op.Fits t k) (rest : Fits t k) : Fits t (op :: k)

@[simp] theorem Wait.lock_inner (w : Wait) : w.lock.inner = false := by cases w <;> rfl

theorem Lk.inner_ne_lock {lk : Lk} (inner : lk.inner = true) (w : Wait) : lk ≠ w.lock := by
  rintro rfl
  simp at inner

@[simp] theorem Lk.proc_ne_lock (i : Fin NPROC) (w : Wait) : Lk.proc i ≠ w.lock :=
  inner_ne_lock rfl w

/-- A lock taken and released leaves the locks as they were. -/
theorem bracket_iff {held : Lk → Prop} {lk x : Lk} (free : ¬ held lk) :
    (x ≠ lk ∧ (x = lk ∨ held x)) ↔ held x := by
  constructor
  · rintro ⟨different, same | now⟩
    · exact absurd same different
    · exact now
  · intro now
    exact ⟨fun same => free (same ▸ now), .inr now⟩

theorem sleepCode_locks {p : Fin NPROC} {chan : Chan} {lk : Lk} {k : List Op}
    (outer : lk.inner = false) (free : NoSlots (.proc p) k) {x : Lk} (inner : x.inner = true) :
    need (.proc p) (sleepCode p chan lk ++ k) x ↔ need (.proc p) k x := by
  have other : x ≠ lk := by
    rintro rfl
    simp [outer] at inner
  simp only [sleepCode, List.cons_append, List.nil_append, need_cons, Op.holding, Op.slotLock,
    Op.waitLock, Op.ownLock, List.not_mem_nil, false_or, ne_eq, other, not_false_eq_true, true_and]
  exact bracket_iff (free p)

theorem sleepCode_fits {p : Fin NPROC} {chan : Chan} {lk : Lk} {k : List Op}
    (outer : lk.inner = false) (other : ∀ q, chan ≠ .proc q) (free : NoSlots (.proc p) k)
    (rest : Fits (.proc p) k) : Fits (.proc p) (sleepCode p chan lk ++ k) := by
  have different : Lk.proc p ≠ lk := by
    rintro rfl
    simp at outer
  refine .cons (.acquire (by simp [different]) (by simp)) (.cons (.release (by simp [outer])) ?_)
  refine .cons (.sleepSched rfl outer other) (.cons (.tidyUp rfl) ?_)
  refine .cons (.release fun _ held => free p held.2) (.cons (.acquire (by simp [outer]) ?_) rest)
  rintro rfl
  simp at outer

theorem Wait.wakeup_locks (t : Thread) (w : Wait) (k : List Op) (x : Lk) :
    need t (w.wakeup ++ k) x ↔ need t k x := by
  cases w <;> simp [Wait.wakeup]

theorem Wait.wakeup_fits {t : Thread} (w : Wait) {k : List Op} (free : NoSlots t k)
    (rest : Fits t k) : Fits t (w.wakeup ++ k) := by
  cases w with
  | pipewrite n => exact .cons (.wakeup free) rest
  | piperead | consoleread | sleep => exact rest

/-! ## Control -/

/-- Everything that an operation of `t` can leave to be done. -/
inductive Next (t : Thread) (tb : Table) : Op → List Op → Prop where
  | iret : Next t tb .iret []
  | tidyUp : Next t tb .tidyUp []
  | wakeupSelf {chan} {i : Fin NPROC} (self : t = .proc i) :
      Next t tb (.wakeup chan i) [.wakeup chan (i + 1)]
  | wakeupVisit {chan} {i : Fin NPROC} (other : t ≠ .proc i) : Next t tb (.wakeup chan i)
      [.acquire (.proc i), .wakeAt chan i, .release (.proc i), .wakeup chan (i + 1)]
  | wakeupEnd {chan n} (all : NPROC ≤ n) : Next t tb (.wakeup chan n) []
  | wakeAt {chan i} : Next t tb (.wakeAt chan i) []
  | killVisit {pid} {i : Fin NPROC} : Next t tb (.kill pid i) [.acquire (.proc i), .killAt pid i]
  | killEnd {pid n} : Next t tb (.kill pid n) []
  | killFound {pid i} : Next t tb (.killAt pid i) [.release (.proc i)]
  | killNext {pid i} : Next t tb (.killAt pid i) [.release (.proc i), .kill pid (i + 1)]
  | setkilled {i} : Next t tb (.setkilled i) []
  | forkVisit {i : Fin NPROC} : Next t tb (.fork i) [.acquire (.proc i), .forkAt i]
  | forkEnd {n} : Next t tb (.fork n) []
  | forkTaken {i} : Next t tb (.forkAt i) [.release (.proc i), .fork (i + 1)]
  | forkAlloc {i} (unused : (tb.procs i).state = .unused) : Next t tb (.forkAt i)
      [.release (.proc i), .acquire .wait, .forkParent i, .release .wait, .acquire (.proc i),
        .forkRunnable i, .release (.proc i)]
  | forkFail {i} : Next t tb (.forkAt i) [.release (.proc i)]
  | forkParent {i} : Next t tb (.forkParent i) []
  | forkRunnable {i} : Next t tb (.forkRunnable i) []
  | reparentChild {p} {i : Fin NPROC} (self : t = .proc p) (child : (tb.procs i).parent = some p) :
      Next t tb (.reparent i) [.wakeup (.proc initproc) 0, .reparent (i + 1)]
  | reparentOther {p} {i : Fin NPROC} (self : t = .proc p)
      (other : (tb.procs i).parent ≠ some p) : Next t tb (.reparent i) [.reparent (i + 1)]
  | reparentEnd {n} (all : NPROC ≤ n) : Next t tb (.reparent n) []
  | exitWakeup {p q} (self : t = .proc p) (parent : (tb.procs p).parent = some q) :
      Next t tb .exitWakeup [.wakeup (.proc q) 0]
  | exitOrphan {p} (self : t = .proc p) (parent : (tb.procs p).parent = none) :
      Next t tb .exitWakeup []
  | exitZombie {status} : Next t tb (.exitZombie status) []
  | waitVisit {p addr havekids} {i : Fin NPROC} (self : t = .proc p)
      (child : (tb.procs i).parent = some p) :
      Next t tb (.waitScan addr havekids i) [.acquire (.proc i), .waitAt addr i]
  | waitSkip {p addr havekids} {i : Fin NPROC} (self : t = .proc p)
      (other : (tb.procs i).parent ≠ some p) :
      Next t tb (.waitScan addr havekids i) [.waitScan addr havekids (i + 1)]
  | waitTest {p addr n} (self : t = .proc p) (all : NPROC ≤ n) :
      Next t tb (.waitScan addr true n) [.acquire (.proc p), .waitKilled addr]
  | waitNone {addr n} (all : NPROC ≤ n) : Next t tb (.waitScan addr false n) [.release .wait]
  | waitReturn {addr i} : Next t tb (.waitAt addr i) [.release (.proc i), .release .wait]
  | waitNext {addr i} (alive : (tb.procs i).state ≠ .zombie) :
      Next t tb (.waitAt addr i) [.release (.proc i), .waitScan addr true (i + 1)]
  | waitStop {p addr} (self : t = .proc p) :
      Next t tb (.waitKilled addr) [.release (.proc p), .release .wait]
  | waitSleep {p addr} (self : t = .proc p) (alive : (tb.procs p).killed = false) :
      Next t tb (.waitKilled addr) [.release (.proc p), .acquire (.proc p), .release .wait,
        .sleepSched (.proc p), .tidyUp, .release (.proc p), .acquire .wait, .waitScan addr false 0]
  | testWait {p w} (self : t = .proc p) :
      Next t tb (.test w) [.acquire (.proc p), .testKilled w]
  | testEnd {w} : Next t tb (.test w) w.ending
  | testReturn {w} : Next t tb (.test w) [.release w.lock]
  | testStop {p w} (self : t = .proc p) :
      Next t tb (.testKilled w) [.release (.proc p), .release w.lock]
  | testSleep {p w} (self : t = .proc p) (alive : (tb.procs p).killed = false) :
      Next t tb (.testKilled w)
        (.release (.proc p) :: w.wakeup ++ sleepCode p (.io w) w.lock ++ [.test w])
  | testAgain {p w} (self : t = .proc p) : Next t tb (.testKilled w) [.release (.proc p), .test w]
  | ctrlC {best best' n} : Next t tb (.ctrlC best n) [.ctrlC best' (n + 1)]
  | ctrlEnd {best n} : Next t tb (.ctrlC best n) []
  | ctrlKill {best n} : Next t tb (.ctrlC best n)
      [.acquire (.proc best), .setkilled best, .release (.proc best)]

/-! ## Slots -/

theorem Table.set_procs (tb : Table) (i j : Fin NPROC) (x : Proc) :
    (tb.set i x).procs j = if j = i then x else tb.procs j := by
  simp only [Table.set, Function.update_apply]

/-- Everything an operation of `t` can do to slot `i`. -/
inductive Touch (t : Thread) (tb : Table) (i : Fin NPROC) : Op → Proc → Prop where
  | same {op} : Touch t tb i op (tb.procs i)
  | tidyUp (self : t = .proc i) : Touch t tb i .tidyUp { tb.procs i with chan := none }
  | woken {chan} (asleep : (tb.procs i).state = .sleeping) (on : (tb.procs i).chan = some chan) :
      Touch t tb i (.wakeAt chan i) { tb.procs i with state := .runnable }
  | killed {pid} (found : (tb.procs i).pid = pid) : Touch t tb i (.killAt pid i)
      { tb.procs i with
        killed := true
        state := if (tb.procs i).state = .sleeping then .runnable else (tb.procs i).state }
  | setkilled : Touch t tb i (.setkilled i) { tb.procs i with killed := true }
  | allocated {sz trapframe pagetable} (unused : (tb.procs i).state = .unused) :
      Touch t tb i (.forkAt i) { tb.procs i with
        state := .used
        pid := tb.nextpid
        sz := sz
        trapframe := trapframe
        pagetable := pagetable }
  | failed (unused : (tb.procs i).state = .unused) : Touch t tb i (.forkAt i) freeproc
  | adopted {p} (self : t = .proc p) :
      Touch t tb i (.forkParent i) { tb.procs i with parent := some p }
  | started : Touch t tb i (.forkRunnable i) { tb.procs i with state := .runnable }
  | reparented {p} (self : t = .proc p) (child : (tb.procs i).parent = some p) :
      Touch t tb i (.reparent i) { tb.procs i with parent := some initproc }
  | exited {status} (self : t = .proc i) : Touch t tb i (.exitZombie status)
      { tb.procs i with state := .zombie, xstate := status }
  | reaped {p addr} (self : t = .proc p) (zombie : (tb.procs i).state = .zombie) :
      Touch t tb i (.waitAt addr i) freeproc

theorem Touch.of_set {t : Thread} {tb : Table} {op : Op} {j : Fin NPROC} {x : Proc}
    (here : Touch t tb j op x) (i : Fin NPROC) : Touch t tb i op ((tb.set j x).procs i) := by
  rw [Table.set_procs]
  split
  · rename_i same
    subst same
    exact here
  · exact .same

/-- Everything an operation of `t` can report, with the table it leaves. -/
inductive Shows (t : Thread) (ch : Choice) (tb : Table) : Op → Table → Obs → Prop where
  | silent {op tb'} : Shows t ch tb op tb' .silent
  | forkFailed {op tb'} : Shows t ch tb op tb' (.forked none)
  | forked {i sz trapframe pagetable} (unused : (tb.procs i).state = .unused) :
      Shows t ch tb (.forkAt i)
        (Table.set { tb with nextpid := tb.nextpid + 1 } i { tb.procs i with
          state := .used
          pid := tb.nextpid
          sz := sz
          trapframe := trapframe
          pagetable := pagetable })
        (.forked (some (i, tb.nextpid)))
  | exited {p status} (self : t = .proc p) : Shows t ch tb (.exitZombie status)
      (tb.set p { tb.procs p with state := .zombie, xstate := status })
      (.exited p (tb.procs p).pid status)
  | noChild {p addr n} (self : t = .proc p) (all : NPROC ≤ n) :
      Shows t ch tb (.waitScan addr false n) tb (.waited p none)
  | copyoutFailed {p i} (self : t = .proc p) (zombie : (tb.procs i).state = .zombie)
      (fails : ch = .fail) : Shows t ch tb (.waitAt true i) tb (.waited p none)
  | reaped {p addr i} (self : t = .proc p) (zombie : (tb.procs i).state = .zombie) :
      Shows t ch tb (.waitAt addr i) (tb.set i freeproc)
        (.waited p (some (i, (tb.procs i).pid, (tb.procs i).xstate)))
  | waitKilled {p addr} (self : t = .proc p) (marked : (tb.procs p).killed = true) :
      Shows t ch tb (.waitKilled addr) tb (.waited p none)
  | notFound {pid n} : Shows t ch tb (.kill pid n) tb (.killed pid none)
  | killed {i} : Shows t ch tb (.killAt (tb.procs i).pid i)
      (tb.set i { tb.procs i with
        killed := true
        state := if (tb.procs i).state = .sleeping then .runnable else (tb.procs i).state })
      (.killed (tb.procs i).pid (some i))

/-- What an operation of `t` does: to its own code, to each slot, what it reports, where it
    starts a thread and whether it draws a pid. -/
structure Does (t : Thread) (ch : Choice) (tb : Table) (op : Op) (eff : Effect) : Prop where
  next : Next t tb op eff.next
  touch : ∀ i, Touch t tb i op (eff.table.procs i)
  shows : Shows t ch tb op eff.table eff.obs
  spawns : ∀ i, eff.spawned = some i →
    op = .forkAt i ∧ (tb.procs i).state = .unused ∧ (eff.table.procs i).state = .used
  draws : eff.table.nextpid = tb.nextpid ∨ ∃ i, op = .forkAt i ∧ (tb.procs i).state = .unused ∧
    eff.table.nextpid = tb.nextpid + 1

section

variable {t : Thread} {ch : Choice} {tb : Table} {op : Op} {ops : List Op} {o : Obs} {eff : Effect}

theorem Does.quiet (next : Next t tb op ops) (shows : Shows t ch tb op tb o) :
    Does t ch tb op { table := tb, next := ops, obs := o } :=
  ⟨next, fun _ => .same, shows, by simp, .inl rfl⟩

theorem Does.set {j : Fin NPROC} {x : Proc} (next : Next t tb op ops) (here : Touch t tb j op x)
    (shows : Shows t ch tb op (tb.set j x) o) :
    Does t ch tb op { table := tb.set j x, next := ops, obs := o } :=
  ⟨next, .of_set here, shows, by simp, .inl rfl⟩

theorem execProc_does {p : Fin NPROC}
    (done : execProc p ch tb op = some eff) : Does (.proc p) ch tb op eff := by
  cases op with
  | tidyUp =>
    cases done
    exact .set .tidyUp (.tidyUp rfl) .silent
  | fork j =>
    dsimp only [execProc] at done
    split at done <;> cases done
    · rename_i inside
      exact .quiet (.forkVisit (i := ⟨j, inside⟩)) .silent
    · exact .quiet .forkEnd .forkFailed
  | forkAt j =>
    dsimp only [execProc] at done
    split at done
    · rename_i unused
      unfold forkSlot at done
      split at done
      · split at done <;> cases done
        exact ⟨.forkAlloc unused, .of_set (.allocated unused), .forked unused,
          fun _ same => Option.some.inj same ▸ ⟨rfl, unused, by simp [Table.set_procs]⟩,
          .inr ⟨j, rfl, unused, rfl⟩⟩
      · cases done
        exact ⟨.forkFail, .of_set (.failed unused), .forkFailed, by simp,
          .inr ⟨j, rfl, unused, rfl⟩⟩
    · cases done
      exact .quiet .forkTaken .silent
  | forkParent np =>
    cases done
    exact .set .forkParent (.adopted rfl) .silent
  | forkRunnable np =>
    cases done
    exact .set .forkRunnable .started .silent
  | reparent j =>
    dsimp only [execProc] at done
    split at done
    · rename_i inside
      split at done <;> cases done
      · rename_i child
        exact .set (.reparentChild (i := ⟨j, inside⟩) rfl child) (.reparented rfl child) .silent
      · rename_i other
        exact .quiet (.reparentOther (i := ⟨j, inside⟩) rfl other) .silent
    · rename_i outside
      cases done
      exact .quiet (.reparentEnd (Nat.le_of_not_lt outside)) .silent
  | exitWakeup =>
    cases done
    cases parent : (tb.procs p).parent with
    | none => exact .quiet (.exitOrphan rfl parent) .silent
    | some q => exact .quiet (.exitWakeup rfl parent) .silent
  | exitZombie status =>
    cases done
    exact .set .exitZombie (.exited rfl) (.exited rfl)
  | waitScan addr havekids j =>
    dsimp only [execProc] at done
    split at done
    · rename_i inside
      split at done <;> cases done
      · rename_i child
        exact .quiet (.waitVisit (i := ⟨j, inside⟩) rfl child) .silent
      · rename_i other
        exact .quiet (.waitSkip (i := ⟨j, inside⟩) rfl other) .silent
    · rename_i outside
      split at done <;> cases done
      · rename_i kids
        subst kids
        exact .quiet (.waitTest rfl (Nat.le_of_not_lt outside)) .silent
      · rename_i kids
        rw [Bool.not_eq_true] at kids
        subst kids
        have all := Nat.le_of_not_lt outside
        exact .quiet (.waitNone all) (.noChild rfl all)
  | waitAt addr j =>
    dsimp only [execProc] at done
    split at done
    · rename_i zombie
      split at done
      · rename_i fails
        obtain ⟨rfl, fails⟩ := fails
        cases done
        exact .quiet .waitReturn (.copyoutFailed rfl zombie fails)
      · cases done
        exact .set .waitReturn (.reaped rfl zombie) (.reaped rfl zombie)
    · rename_i alive
      cases done
      exact .quiet (.waitNext alive) .silent
  | waitKilled addr =>
    dsimp only [execProc] at done
    split at done <;> cases done
    · rename_i marked
      exact .quiet (.waitStop rfl) (.waitKilled rfl marked)
    · rename_i alive
      exact .quiet (.waitSleep rfl (Bool.not_eq_true _ ▸ alive)) .silent
  | test w =>
    dsimp only [execProc] at done
    split at done <;> cases done
    · exact .quiet (.testWait rfl) .silent
    · exact .quiet .testEnd .silent
    · exact .quiet .testReturn .silent
  | testKilled w =>
    dsimp only [execProc] at done
    split at done
    · cases done
      exact .quiet (.testStop rfl) .silent
    · rename_i alive
      split at done <;> cases done
      · exact .quiet (.testSleep rfl (Bool.not_eq_true _ ▸ alive)) .silent
      · exact .quiet (.testAgain rfl) .silent
  | _ => cases done

theorem exec_does (done : exec t ch tb op = some eff) : Does t ch tb op eff := by
  cases op with
  | iret =>
    cases done
    exact .quiet .iret .silent
  | wakeup chan j =>
    dsimp only [exec] at done
    split at done
    · rename_i inside
      split at done <;> cases done
      · rename_i self
        exact .quiet (.wakeupSelf (i := ⟨j, inside⟩) self) .silent
      · rename_i other
        exact .quiet (.wakeupVisit (i := ⟨j, inside⟩) other) .silent
    · rename_i outside
      cases done
      exact .quiet (.wakeupEnd (Nat.le_of_not_lt outside)) .silent
  | wakeAt chan j =>
    dsimp only [exec] at done
    split at done <;> cases done
    · rename_i asleep
      exact .set .wakeAt (.woken asleep.1 asleep.2) .silent
    · exact .quiet .wakeAt .silent
  | kill pid j =>
    dsimp only [exec] at done
    split at done <;> cases done
    · rename_i inside
      exact .quiet (.killVisit (i := ⟨j, inside⟩)) .silent
    · exact .quiet .killEnd .notFound
  | killAt pid j =>
    dsimp only [exec] at done
    split at done
    · rename_i found
      subst found
      cases done
      exact .set .killFound (.killed rfl) .killed
    · cases done
      exact .quiet .killNext .silent
  | setkilled j =>
    cases done
    exact .set .setkilled .setkilled .silent
  | ctrlC best j =>
    dsimp only [exec] at done
    split at done
    · cases done
      exact .quiet .ctrlC .silent
    · split at done
      · cases done
      · split at done <;> cases done
        · exact .quiet .ctrlEnd .silent
        · exact .quiet .ctrlKill .silent
  | _ =>
    cases t with
    | proc p =>
      dsimp only [exec] at done
      exact execProc_does done
    | idle c => cases done

end

/-! ## Locks along the code -/

/-- The operations `ops` do what `op` was there to do, as far as locks go. -/
structure Replaces (t : Thread) (op : Op) (k ops : List Op) : Prop where
  locks : ∀ lk, lk.inner = true → (need t (ops ++ k) lk ↔ need t (op :: k) lk)
  fits : Fits t (ops ++ k)

/-- Whatever `op` is replaced by does what `op` was there to do. -/
def Replaced (op : Op) : Prop :=
  ∀ {t tb k ops}, Next t tb op ops → op.Fits t k → Fits t k → Replaces t op k ops

theorem wakeup_replaced (chan : Chan) (i : Nat) : Replaced (.wakeup chan i) := by
  intro t tb k ops next first rest
  cases first with
  | wakeup free =>
    cases next with
    | wakeupEnd => exact ⟨by simp, rest⟩
    | wakeupSelf => exact ⟨by simp, .cons (.wakeup free) rest⟩
    | wakeupVisit =>
      refine ⟨fun lk _ => by simpa using bracket_iff (free _), ?_⟩
      refine .cons (.acquire (by simp) (by simp)) (.cons (.wakeAt (by simp)) ?_)
      exact .cons (.release (by simpa using free _)) (.cons (.wakeup free) rest)

theorem kill_replaced (pid : BitVec 32) (i : Nat) : Replaced (.kill pid i) := by
  intro t tb k ops next first rest
  cases first with
  | kill free =>
    cases next with
    | killEnd => exact ⟨by simp, rest⟩
    | killVisit =>
      refine ⟨fun lk _ => by simpa using bracket_iff (free _), ?_⟩
      exact .cons (.acquire (by simp) (by simp)) (.cons (.killAt free) rest)

theorem killAt_replaced (pid : BitVec 32) (i : Fin NPROC) : Replaced (.killAt pid i) := by
  intro t tb k ops next first rest
  cases first with
  | killAt free =>
    cases next with
    | killFound => exact ⟨by simp, .cons (.release (by simpa using free i)) rest⟩
    | killNext =>
      exact ⟨by simp, .cons (.release (by simpa using free i)) (.cons (.kill free) rest)⟩

theorem fork_replaced (i : Nat) : Replaced (.fork i) := by
  intro t tb k ops next first rest
  cases first with
  | fork self =>
    cases next with
    | forkVisit => exact ⟨by simp, .cons (.acquire (by simp) (by simp)) (.cons (.forkAt self) .nil)⟩
    | forkEnd => exact ⟨by simp, .nil⟩

theorem forkAt_replaced (i : Fin NPROC) : Replaced (.forkAt i) := by
  intro t tb k ops next first rest
  cases first with
  | forkAt self =>
    cases next with
    | forkTaken => exact ⟨by simp, .cons (.release (by simp)) (.cons (.fork self) .nil)⟩
    | forkFail => exact ⟨by simp, .cons (.release (by simp)) .nil⟩
    | forkAlloc =>
      refine ⟨by simp, .cons (.release (by simp)) (.cons (.acquire (by simp) (by simp)) ?_)⟩
      refine .cons (.forkParent self) (.cons (.release (by simp)) ?_)
      refine .cons (.acquire (by simp) (by simp)) (.cons (.forkRunnable self) ?_)
      exact .cons (.release (by simp)) .nil

theorem reparent_replaced (i : Nat) : Replaced (.reparent i) := by
  intro t tb k ops next first rest
  cases first with
  | reparent self other =>
    subst self
    cases next with
    | reparentEnd => exact ⟨by simp, rest⟩
    | reparentOther => exact ⟨by simp, .cons (.reparent rfl other) rest⟩
    | reparentChild =>
      exact ⟨by simp, .cons (.wakeup (by simp)) (.cons (.reparent rfl other) rest)⟩

theorem exitWakeup_replaced : Replaced .exitWakeup := by
  intro t tb k ops next first rest
  cases first with
  | exitWakeup self other =>
    subst self
    cases next with
    | exitOrphan => exact ⟨by simp, rest⟩
    | exitWakeup => exact ⟨by simp, .cons (.wakeup (by simp)) rest⟩

theorem waitScan_replaced (addr havekids : Bool) (i : Nat) :
    Replaced (.waitScan addr havekids i) := by
  intro t tb k ops next first rest
  cases first with
  | waitScan self =>
    subst self
    cases next with
    | waitSkip => exact ⟨by simp, .cons (.waitScan rfl) .nil⟩
    | waitNone => exact ⟨by simp, .cons (.release (by simp)) .nil⟩
    | waitVisit =>
      refine ⟨by simp; grind, ?_⟩
      exact .cons (.acquire (by simp) (by simp)) (.cons (.waitAt rfl) .nil)
    | waitTest self =>
      cases self
      refine ⟨by simp; grind, ?_⟩
      exact .cons (.acquire (by simp) (by simp)) (.cons (.waitKilled rfl) .nil)

theorem waitAt_replaced (addr : Bool) (i : Fin NPROC) : Replaced (.waitAt addr i) := by
  intro t tb k ops next first rest
  cases first with
  | waitAt self =>
    cases next with
    | waitReturn => exact ⟨by simp, .cons (.release (by simp)) (.cons (.release (by simp)) .nil)⟩
    | waitNext => exact ⟨by simp, .cons (.release (by simp)) (.cons (.waitScan self) .nil)⟩

theorem waitKilled_replaced (addr : Bool) : Replaced (.waitKilled addr) := by
  intro t tb k ops next first rest
  cases first with
  | waitKilled self =>
    subst self
    cases next with
    | waitStop self =>
      cases self
      exact ⟨by simp; grind, .cons (.release (by simp)) (.cons (.release (by simp)) .nil)⟩
    | waitSleep self =>
      cases self
      refine ⟨by simp; grind, .cons (.release (by simp)) ?_⟩
      refine .cons (.acquire (by simp) (by simp)) (.cons (.release (by simp)) ?_)
      refine .cons (.waitSched rfl) (.cons (.tidyUp rfl) (.cons (.release (by simp)) ?_))
      exact .cons (.acquire (by simp) (by simp)) (.cons (.waitScan rfl) .nil)

theorem test_replaced (w : Wait) : Replaced (.test w) := by
  intro t tb k ops next first rest
  have unlock : ∀ {lk : Lk}, lk.inner = true → lk ≠ w.lock :=
    fun inner => Lk.inner_ne_lock inner w
  cases first with
  | test self =>
    cases next with
    | testWait self =>
      subst self
      exact ⟨by simp, .cons (.acquire (by simp) (by simp)) (.cons (.testKilled rfl) .nil)⟩
    | testReturn =>
      refine ⟨fun lk inner => ?_, .cons (.release (by simp)) .nil⟩
      simpa using unlock inner
    | testEnd =>
      cases w with
      | piperead n | pipewrite n =>
        refine ⟨fun lk inner => ?_, .cons (.wakeup (by simp)) (.cons (.release (by simp)) .nil)⟩
        simpa [Wait.ending, Wait.lock] using unlock inner
      | consoleread | sleep =>
        refine ⟨fun lk inner => ?_, .cons (.release (by simp)) .nil⟩
        simpa [Wait.ending] using unlock inner

theorem testKilled_replaced (w : Wait) : Replaced (.testKilled w) := by
  intro t tb k ops next first rest
  cases first with
  | @testKilled p w self =>
    subst self
    cases next with
    | testStop self =>
      cases self
      refine ⟨fun lk inner => ?_, .cons (.release (by simp)) (.cons (.release (by simp)) .nil)⟩
      simp [Lk.inner_ne_lock inner w]
    | testAgain self =>
      cases self
      exact ⟨by simp, .cons (.release (by simp)) (.cons (.test rfl) .nil)⟩
    | testSleep self =>
      cases self
      have sleeps : Fits (.proc p) (sleepCode p (.io w) w.lock ++ [.test w]) :=
        sleepCode_fits (by simp) (by simp) (by simp) (.cons (.test rfl) .nil)
      have quiet : ∀ lk, lk.inner = true →
          ¬ need (.proc p) (w.wakeup ++ (sleepCode p (.io w) w.lock ++ [.test w])) lk := by
        intro lk inner
        rw [Wait.wakeup_locks, sleepCode_locks (by simp) (by simp) inner]
        simp
      simp only [List.append_assoc, List.cons_append]
      refine ⟨fun lk inner => ?_, ?_⟩
      · simpa using fun held => absurd held (quiet lk inner)
      · rw [List.append_nil]
        refine .cons (.release fun _ => quiet (.proc p) rfl) (w.wakeup_fits ?_ sleeps)
        intro j held
        exact quiet (.proc j) rfl ((w.wakeup_locks _ _ _).mpr held)

theorem ctrlC_replaced (best : Fin NPROC) (i : Nat) : Replaced (.ctrlC best i) := by
  intro t tb k ops next first rest
  cases first with
  | ctrlC free =>
    cases next with
    | ctrlEnd => exact ⟨by simp, rest⟩
    | ctrlC => exact ⟨by simp, .cons (.ctrlC free) rest⟩
    | ctrlKill =>
      refine ⟨fun lk _ => by simpa using bracket_iff (free _), ?_⟩
      refine .cons (.acquire (by simp) (by simp)) (.cons (.setkilled (by simp)) ?_)
      exact .cons (.release (by simpa using free _)) rest

theorem replaced (op : Op) : Replaced op := by
  cases op with
  | wakeup chan i => exact wakeup_replaced chan i
  | kill pid i => exact kill_replaced pid i
  | killAt pid i => exact killAt_replaced pid i
  | fork i => exact fork_replaced i
  | forkAt i => exact forkAt_replaced i
  | reparent i => exact reparent_replaced i
  | exitWakeup => exact exitWakeup_replaced
  | waitScan addr havekids i => exact waitScan_replaced addr havekids i
  | waitAt addr i => exact waitAt_replaced addr i
  | waitKilled addr => exact waitKilled_replaced addr
  | test w => exact test_replaced w
  | testKilled w => exact testKilled_replaced w
  | ctrlC best i => exact ctrlC_replaced best i
  | _ =>
    intro t tb k ops next first rest
    cases next <;> exact ⟨by simp, rest⟩

/-! ## Calls -/

/-- Everything that a call can put before the operations `k` that `t` has still to do. -/
inductive Calls (t : Thread) : List Op → List Op → Prop where
  | acquire {k lk} (outer : lk.inner = false) : Calls t k [.acquire lk]
  | release {k lk} (outer : lk.inner = false) : Calls t k [.release lk]
  | wakeup {k chan} (other : ∀ q, chan ≠ .proc q) : Calls t k [.wakeup chan 0]
  | ctrlC {k} : Calls t k [.ctrlC initproc 0]
  | yield {k p} (self : t = .proc p) :
      Calls t k [.acquire (.proc p), .yieldSched, .release (.proc p)]
  | sleep {p n lk} (self : t = .proc p) (outer : lk.inner = false) :
      Calls t [] (sleepCode p (.other n) lk)
  | kill {pid} : Calls t [] [.kill pid 0]
  | fault {p} (self : t = .proc p) :
      Calls t [] [.acquire (.proc p), .setkilled p, .release (.proc p)]
  | fork {p} (self : t = .proc p) : Calls t [] [.fork 0]
  | exit {p status} (self : t = .proc p) (other : p ≠ initproc) : Calls t [] (exitCode p status)
  | wait {p addr} (self : t = .proc p) : Calls t [] [.acquire .wait, .waitScan addr false 0]
  | loop {p w} (self : t = .proc p) : Calls t [] [.acquire w.lock, .test w]

theorem handlerCode_calls {t : Thread} {k ops : List Op} {call : Call}
    (code : call.handlerCode t = some ops) : Calls t k ops := by
  cases call with
  | acquire lk =>
    dsimp only [Call.handlerCode] at code
    split at code <;> cases code
    rename_i outer
    exact .acquire (Bool.not_eq_true _ ▸ outer)
  | release lk =>
    dsimp only [Call.handlerCode] at code
    split at code <;> cases code
    rename_i outer
    exact .release (Bool.not_eq_true _ ▸ outer)
  | wakeup chan =>
    cases chan with
    | proc q => cases code
    | io | other =>
      cases code
      exact .wakeup (by simp)
  | ctrlC =>
    cases code
    exact .ctrlC
  | yield =>
    cases t with
    | idle c => cases code
    | proc p =>
      cases code
      exact .yield rfl
  | _ => cases code

/-- Calls are made where no function of this model is at work. -/
theorem callCode_calls {t : Thread} {k ops : List Op} {call : Call}
    (code : callCode t k call = some ops) : (k = [] ∨ ∃ k', k = .iret :: k') ∧ Calls t k ops := by
  unfold callCode at code
  split at code
  · exact ⟨.inr ⟨_, rfl⟩, handlerCode_calls code⟩
  · refine ⟨.inl rfl, ?_⟩
    cases call with
    | sleep n lk =>
      dsimp only [Call.code] at code
      split at code <;> cases code
      rename_i outer
      exact .sleep rfl (Bool.not_eq_true _ ▸ outer)
    | kill pid =>
      cases code
      exact .kill
    | fault =>
      cases code
      exact .fault rfl
    | fork =>
      cases code
      exact .fork rfl
    | exit status =>
      dsimp only [Call.code] at code
      split at code <;> cases code
      rename_i other
      exact .exit rfl other
    | wait addr =>
      cases code
      exact .wait rfl
    | loop w =>
      cases code
      exact .loop rfl
    | _ =>
      dsimp only [Call.code] at code
      exact handlerCode_calls code
  · cases code

/-- A call takes no inner lock at once, and its operations fit. -/
theorem Calls.fits {t : Thread} {k ops : List Op} (calls : Calls t k ops)
    (free : ∀ lk, lk.inner = true → ¬ need t k lk) (rest : Fits t k) :
    (∀ lk, lk.inner = true → ¬ need t (ops ++ k) lk) ∧ Fits t (ops ++ k) := by
  have slots : NoSlots t k := fun j => free (.proc j) rfl
  cases calls with
  | @acquire k lk outer =>
    have other : lk ≠ .wait := by
      rintro rfl
      simp at outer
    refine ⟨fun x inner => ?_, .cons (.acquire (by simp [outer]) (by simp [other])) rest⟩
    simpa using fun _ => free x inner
  | @release k lk outer =>
    refine ⟨fun x inner => ?_, .cons (.release (by simp [outer])) rest⟩
    have other : x ≠ lk := by
      rintro rfl
      rw [inner] at outer
      cases outer
    simpa [other] using free x inner
  | wakeup => exact ⟨by simpa using free, .cons (.wakeup slots) rest⟩
  | ctrlC => exact ⟨by simpa using free, .cons (.ctrlC slots) rest⟩
  | @yield k p self =>
    subst self
    refine ⟨fun lk inner => ?_, .cons (.acquire (by simp) (by simp)) (.cons (.yieldSched rfl) ?_)⟩
    · simpa using fun different => ⟨different, free lk inner⟩
    · exact .cons (.release fun _ => slots p) rest
  | sleep self outer =>
    subst self
    refine ⟨fun x inner => ?_, sleepCode_fits outer (by simp) (by simp) .nil⟩
    rw [sleepCode_locks outer (by simp) inner]
    exact free x inner
  | kill => exact ⟨by simp, .cons (.kill (by simp)) .nil⟩
  | fault self =>
    refine ⟨by simp, .cons (.acquire (by simp) (by simp)) (.cons (.setkilled (by simp)) ?_)⟩
    exact .cons (.release (by simp)) .nil
  | fork self => exact ⟨by simp, .cons (.fork self) .nil⟩
  | exit self other =>
    subst self
    refine ⟨by simp [exitCode]; grind, .cons (.acquire (by simp) (by simp)) ?_⟩
    refine .cons (.reparent rfl other) (.cons (.exitWakeup rfl other) ?_)
    refine .cons (.acquire (by simp) (by simp)) (.cons (.exitZombie rfl other) ?_)
    exact .cons (.release (by simp)) (.cons (.exitSched rfl) .nil)
  | wait self =>
    exact ⟨by simp, .cons (.acquire (by simp) (by simp)) (.cons (.waitScan self) .nil)⟩
  | @loop p w self =>
    have other : w.lock ≠ .wait := (Lk.inner_ne_lock rfl w).symm
    exact ⟨by simp, .cons (.acquire (by simp) (by simp [other])) (.cons (.test self) .nil)⟩

end Xv6.Kernel.Smp
