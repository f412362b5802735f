import Xv6.Kernel.SmpCore

/-! # Parents and children

`fork` makes a process the parent of a slot, `exit` hands its children to init and
becomes a ZOMBIE, `wait` looks for ZOMBIE children and sleeps if there are none.
All of them hold `wait_lock`, so a thread that holds it knows what it has found out
about the table since it took it, and a parent that sleeps while a child becomes a
ZOMBIE is going to be woken by the holder.
-/

namespace Xv6.Kernel.Smp

variable {i q p : Fin NPROC} {k ops : List Op} {t : Thread} {tb : Table} {op : Op}

/-! ## What the code says -/

@[simp] def Op.disowns : Op → Option Nat
  | .reparent i => some i
  | .exitWakeup => some NPROC
  | .exitZombie _ => some NPROC
  | _ => none

/-- The slots before this one are no longer children of a process that has this to do. -/
@[simp] def disowned : List Op → Nat
  | [] => 0
  | op :: k => op.disowns.getD (disowned k)

@[simp] def Op.rouses (q : Fin NPROC) : Op → Option Bool
  | .release .wait => some false
  | .wakeup chan i => if chan = .proc q ∧ i ≤ q then some true else none
  | .wakeAt chan i => if chan = .proc q ∧ i = q then some true else none
  | _ => none

/-- Before it releases `wait_lock`, the thread will wake `q` if `q` sleeps in `wait`. -/
@[simp] def rouse (q : Fin NPROC) : List Op → Bool
  | [] => false
  | op :: k => (op.rouses q).getD (rouse q k)

/-- What `wait` has still to do from the test of `killed` to `sched`. -/
inductive WaitSleep (p : Fin NPROC) : List Op → Prop where
  | tested {addr} : WaitSleep p [.release (.proc p), .acquire (.proc p), .release .wait,
      .sleepSched (.proc p), .tidyUp, .release (.proc p), .acquire .wait, .waitScan addr false 0]
  | sleep {addr} : WaitSleep p [.acquire (.proc p), .release .wait, .sleepSched (.proc p),
      .tidyUp, .release (.proc p), .acquire .wait, .waitScan addr false 0]
  | locked {addr} : WaitSleep p [.release .wait, .sleepSched (.proc p), .tidyUp,
      .release (.proc p), .acquire .wait, .waitScan addr false 0]
  | sched {addr} : WaitSleep p [.sleepSched (.proc p), .tidyUp, .release (.proc p),
      .acquire .wait, .waitScan addr false 0]

/-- `q` sleeps in `wait`, or is about to. -/
def Dozing (s : State) (q : Fin NPROC) : Prop :=
  (s.proc q).state = .sleeping ∧ (s.proc q).chan = some (.proc q) ∨
    ∃ k, s.code (.proc q) = .sleepSched (.proc q) :: k

/-- The holder of `wait_lock` is going to wake `q`. -/
def Alarm (s : State) (q : Fin NPROC) : Prop :=
  ∃ p, need (.proc p) (s.code (.proc p)) .wait ∧ rouse q (s.code (.proc p)) = true

/-- What `q`, which holds `wait_lock`, has found out about its children. -/
def Scanned (tb : Table) (q : Fin NPROC) (sc : Scan) : Prop :=
  (∀ i : Fin NPROC, i < sc.upTo → (tb.procs i).parent = some q →
    sc.havekids = true ∧ (tb.procs i).state ≠ .zombie) ∧
  ∀ i, sc.child = some i → (tb.procs i).parent = some q

structure Family (s : State) : Prop where
  orphan : ∀ i, (s.proc i).state = .unused → (s.proc i).parent = none
  alive : ∀ i q, (s.proc i).parent = some q →
    (s.proc q).state ≠ .unused ∧ (s.proc q).state ≠ .zombie
  init : (s.proc initproc).state ≠ .unused ∧ (s.proc initproc).state ≠ .zombie
  disowned : ∀ q (i : Fin NPROC), i < disowned (s.code (.proc q)) → (s.proc i).parent ≠ some q
  scanned : ∀ q, need (.proc q) (s.code (.proc q)) .wait →
    Scanned s.table q (scan (s.code (.proc q)))
  sleeps : ∀ p q, .sleepSched (.proc q) ∈ s.code (.proc p) → WaitSleep p (s.code (.proc p))
  rung : ∀ i, rung (s.code (.proc i)) = true → ∀ q, (s.proc i).parent = some q → Dozing s q →
    rouse q (s.code (.proc i)) = true
  heard : ∀ i q, (s.proc i).parent = some q → (s.proc i).state = .zombie → Dozing s q → Alarm s q

/-! ## What a step changes -/

section

variable {s s' : State} {e : Event} {o : Obs}

theorem step_parent (taken : step s e = some (s', o)) (parent : (s'.proc i).parent = some q) :
    (s.proc i).parent = some q ∨ (∃ c ch k, e = .go c ch ∧ s.cpus c = .running q ∧
        s.code (.proc q) = .forkParent i :: k) ∨
      q = initproc ∧ ∃ c ch p k, e = .go c ch ∧ s.cpus c = .running p ∧
        s.code (.proc p) = .reparent i :: k ∧ (s.proc i).parent = some p := by
  have slot := step_slot taken i
  generalize s'.proc i = x at slot parent
  cases slot with
  | same | picked => exact .inl parent
  | switch runs code sets => cases sets <;> exact .inl parent
  | touch runs code touch =>
    cases touch with
    | failed | reaped => cases parent
    | adopted self =>
      subst self
      cases parent
      exact .inr (.inl ⟨_, _, _, rfl, State.thread_eq_proc.mp runs, code⟩)
    | reparented self child =>
      subst self
      cases parent
      exact .inr (.inr ⟨rfl, _, _, _, _, rfl, State.thread_eq_proc.mp runs, code, child⟩)
    | _ => exact .inl parent

theorem step_zombie (taken : step s e = some (s', o)) (zombie : (s'.proc i).state = .zombie) :
    (s.proc i).state = .zombie ∨ ∃ c ch status k, e = .go c ch ∧ s.cpus c = .running i ∧
      s.code (.proc i) = .exitZombie status :: k := by
  have slot := step_slot taken i
  generalize s'.proc i = x at slot zombie
  cases slot with
  | same => exact .inl zombie
  | picked => cases zombie
  | switch runs code sets =>
    cases sets with
    | exit => exact .inl zombie
    | sleep | yield => cases zombie
  | touch runs code touch =>
    cases touch with
    | same | tidyUp | setkilled | adopted | reparented => exact .inl zombie
    | woken | allocated | started | failed | reaped => cases zombie
    | killed =>
      simp only at zombie
      split at zombie
      · cases zombie
      · exact .inl zombie
    | exited self =>
      subst self
      exact .inr ⟨_, _, _, _, rfl, State.thread_eq_proc.mp runs, code⟩

/-- A slot falls free only when `wait` has found a ZOMBIE there. -/
theorem step_unused (taken : step s e = some (s', o)) (unused : (s'.proc i).state = .unused) :
    (s.proc i).state = .unused ∨ (s.proc i).state = .zombie := by
  have slot := step_slot taken i
  generalize s'.proc i = x at slot unused
  cases slot with
  | same => exact .inl unused
  | picked => cases unused
  | switch runs code sets =>
    cases sets with
    | exit => exact .inl unused
    | sleep | yield => cases unused
  | touch runs code touch =>
    rcases touch.state with same | ⟨-, state⟩ | ⟨-, state⟩ | ⟨-, -, state⟩ | ⟨_, -, -, state⟩ |
      ⟨_, -, zombie, -⟩
    · exact .inl (same.symm.trans unused)
    all_goals first | exact .inr zombie | exact absurd (unused.symm.trans state) (by simp)

/-- Who has `wait_lock` by its code is on a CPU that holds it. -/
theorem Core.wait_running (core : Core s) (holds : need (.proc p) (s.code (.proc p)) .wait) :
    ∃ c, s.cpus c = .running p ∧ s.locks .wait = some c := by
  obtain ⟨c, runs⟩ := (core.placed p).busy (.inl holds)
  exact ⟨c, runs, (core.holds c _ (State.thread_eq_proc.mpr runs) _ rfl).mpr holds⟩

theorem Core.wait_unique (core : Core s) (one : need (.proc p) (s.code (.proc p)) .wait)
    (two : need (.proc q) (s.code (.proc q)) .wait) : p = q := by
  obtain ⟨c, runs, held⟩ := core.wait_running one
  obtain ⟨d, runs', held'⟩ := core.wait_running two
  obtain rfl : c = d := Option.some.inj (held.symm.trans held')
  rw [runs] at runs'
  cases runs'
  rfl

/-- A process on a CPU dozes only if `sched` is next. -/
theorem Core.not_dozing {c : Nat} (core : Core s) (runs : s.cpus c = .running q)
    (next : ∀ k, s.code (.proc q) ≠ .sleepSched (.proc q) :: k) : ¬ Dozing s q := by
  rintro (⟨asleep, -⟩ | ⟨k, code⟩)
  · rcases core.running_state runs with state | state <;> rw [asleep] at state <;> cases state
  · exact next k code

theorem WaitSleep.need (sleeps : WaitSleep p k) : ∃ lk, lk.inner = true ∧ need (.proc p) k lk := by
  cases sleeps with
  | tested => exact ⟨.proc p, rfl, by simp⟩
  | sleep => exact ⟨.wait, rfl, by simp⟩
  | locked => exact ⟨.wait, rfl, by simp⟩
  | sched => exact ⟨.proc p, rfl, by simp⟩

theorem Calls.ne_nil (calls : Calls t k ops) : ops ≠ [] := by
  cases calls <;> simp [sleepCode, exitCode]

theorem Calls.not_sleeps (calls : Calls t k ops) : .sleepSched (.proc q) ∉ ops := by
  cases calls <;> simp [sleepCode, exitCode]

theorem sleeps_step (core : Core s) (family : Family s) (taken : step s e = some (s', o))
    (p q : Fin NPROC) (inside : .sleepSched (.proc q) ∈ s'.code (.proc p)) :
    WaitSleep p (s'.code (.proc p)) := by
  have before := family.sleeps p q
  have changes := step_code taken (.proc p)
  generalize s'.code (.proc p) = code' at changes inside
  cases changes with
  | same => exact before inside
  | acquire runs code free =>
    rw [code] at before
    cases before (List.mem_cons_of_mem _ inside) with
    | sleep => exact .locked
  | release runs code held =>
    rw [code] at before
    cases before (List.mem_cons_of_mem _ inside) with
    | tested => exact .sleep
    | locked => exact .sched
  | switch self runs code sets =>
    rw [code] at before
    cases before (List.mem_cons_of_mem _ inside) with
    | tested | sleep | locked => cases sets
    | sched => simp at inside
  | exec runs code next =>
    obtain ⟨first, -⟩ := core.head code
    rw [code] at before
    rcases List.mem_append.mp inside with inside | inside
    · cases next with
      | waitSleep self =>
        cases self
        cases first
        exact .tested
      | @testSleep p' w => cases w <;> simp [Wait.wakeup, sleepCode] at inside
      | @testEnd w => cases w <;> simp [Wait.ending] at inside
      | _ => simp at inside
    · cases before (List.mem_cons_of_mem _ inside) with
      | tested | sleep | locked | sched => cases next
  | call runs idle calls =>
    rcases List.mem_append.mp inside with inside | inside
    · exact absurd inside calls.not_sleeps
    · obtain ⟨lk, inner, held⟩ := (before inside).need
      exact absurd held (core.idle_free inner idle)
  | interrupt runs enabled =>
    obtain ⟨lk, inner, held⟩ := (before (by simpa using inside)).need
    exact absurd held (core.enabled_free inner runs enabled)
  | spawned self unused => simp [forkret] at inside

/-- A process begins to doze when `sleep` releases `wait_lock`. -/
theorem dozing_step (family : Family s) (taken : step s e = some (s', o)) (dozing : Dozing s' q) :
    Dozing s q ∨ ∃ c ch k, e = .go c ch ∧ s.cpus c = .running q ∧
      s.code (.proc q) = .release .wait :: .sleepSched (.proc q) :: k := by
  rcases dozing with ⟨asleep, on⟩ | ⟨k, code'⟩
  · have slot := step_slot taken q
    generalize s'.proc q = x at slot asleep on
    refine .inl ?_
    cases slot with
    | same => exact .inl ⟨asleep, on⟩
    | picked => cases asleep
    | switch runs code sets =>
      cases sets with
      | sleep =>
        cases on
        exact .inr ⟨_, code⟩
      | yield => cases asleep
      | exit => exact .inl ⟨asleep, on⟩
    | touch runs code touch =>
      cases touch with
      | same | setkilled | adopted | reparented => exact .inl ⟨asleep, on⟩
      | tidyUp => cases on
      | woken | allocated | failed | started | exited | reaped => cases asleep
      | killed =>
        simp only at asleep
        split at asleep
        · cases asleep
        · exact .inl ⟨asleep, on⟩
  · have before := family.sleeps q q
    have changes := step_code taken (.proc q)
    rw [code'] at changes
    generalize whole : Op.sleepSched (.proc q) :: k = code'' at changes
    cases changes with
    | same => exact .inl (.inr ⟨k, whole.symm⟩)
    | acquire runs code =>
      rw [code, ← whole] at before
      cases before (by simp)
    | release runs code =>
      rw [code, ← whole] at before
      cases before (by simp) with
      | locked => exact .inr ⟨_, _, _, rfl, State.thread_eq_proc.mp runs, by rw [code, ← whole]⟩
    | switch self runs code sets =>
      rw [code, ← whole] at before
      cases before (by simp) with
      | locked => cases sets
    | @exec c ch op k' ops runs code next =>
      exfalso
      rw [code] at before
      by_cases inside : Op.sleepSched (.proc q) ∈ k'
      · cases before (List.mem_cons_of_mem _ inside) <;> cases next
      · have head : Op.sleepSched (.proc q) ∈ ops := by
          have : Op.sleepSched (.proc q) ∈ ops ++ k' := by simp [← whole]
          exact (List.mem_append.mp this).resolve_right inside
        cases next with
        | waitSleep => simp at whole
        | @testSleep p w => cases w <;> simp [Wait.wakeup, sleepCode] at head
        | @testEnd w => cases w <;> simp [Wait.ending] at head
        | _ => simp at head
    | @call c call ops runs idle calls =>
      cases ops with
      | nil => exact absurd rfl calls.ne_nil
      | cons op ops =>
        cases whole
        exact absurd List.mem_cons_self calls.not_sleeps
    | interrupt => cases whole
    | spawned => cases whole

theorem not_dozing_wakeAt {c : Nat} {ch : Choice}
    (core : Core s) (family : Family s) (taken : step s (.go c ch) = some (s', o))
    (runs : s.thread c = some t) (code : s.code t = .wakeAt (.proc q) q :: k) :
    ¬ Dozing s' q := by
  intro dozing
  have mine : s.locks (.proc q) = some c := by
    rw [core.holds c t runs _ rfl, code]
    cases (core.head code).1 with
    | wakeAt held => simpa using held
  -- `q` cannot be about to switch: it would hold its own lock
  have off : ∀ k', s.code (.proc q) ≠ .sleepSched (.proc q) :: k' := by
    intro k' same
    obtain ⟨d, runs'⟩ := (core.placed q).busy (.inr ⟨_, _, same⟩)
    have theirs : s.locks (.proc q) = some d := by
      have sleeps := family.sleeps q q (by simp [same])
      rw [core.holds d _ (State.thread_eq_proc.mpr runs') _ rfl]
      rw [same] at sleeps ⊢
      cases sleeps
      simp
    obtain rfl : c = d := Option.some.inj (mine.symm.trans theirs)
    obtain rfl : t = .proc q :=
      Option.some.inj (runs.symm.trans (State.thread_eq_proc.mpr runs'))
    rw [code] at same
    cases same
  obtain ⟨eff, done, rfl, -⟩ := step_op taken runs code (by simp) rfl
  rcases dozing with ⟨asleep, on⟩ | ⟨k', same⟩
  · rw [State.apply_proc] at asleep on
    dsimp only [Smp.exec] at done
    split at done
    · cases done
      simp [Table.set_procs] at asleep
    · rename_i awake
      cases done
      exact awake ⟨asleep, on⟩
  · have changes := step_code taken (.proc q)
    rw [same] at changes
    generalize whole : Op.sleepSched (.proc q) :: k' = code' at changes
    cases changes with
    | same => exact off k' whole.symm
    | exec runs' code' next =>
      obtain rfl : t = .proc q := Option.some.inj (runs.symm.trans runs')
      rw [code] at code'
      cases code'
      cases next
      have sleeps := family.sleeps q q
      rw [code, ← List.nil_append k, ← whole] at sleeps
      cases sleeps (by simp)
    | acquire runs' code' | release runs' code' =>
      obtain rfl : t = .proc q := Option.some.inj (runs.symm.trans runs')
      rw [code] at code'
      cases code'
    | switch self runs' code' sets =>
      obtain rfl : t = .proc q :=
        Option.some.inj (runs.symm.trans (State.thread_eq_proc.mpr (by cases self; exact runs')))
      rw [code] at code'
      cases code'
      cases sets
    | spawned => cases whole

/-- What an operation leaves to be done wakes `q` if the operation was going to, unless
    it has done so, or it is `q` that makes the call. -/
theorem rouse_next
    (next : Next t tb op ops) (first : op.Fits t k) (rouses : rouse q (op :: k) = true) :
    rouse q (ops ++ k) = true ∨ t = .proc q ∧ (∃ chan, op = .wakeup chan q) ∨
      op = .wakeAt (.proc q) q := by
  cases next with
  | @wakeupSelf chan i self =>
    by_cases same : i = q
    · subst same
      exact .inr (.inl ⟨self, chan, rfl⟩)
    · refine .inl ?_
      have : (i : Nat) ≤ q ↔ (i : Nat) + 1 ≤ q := by omega
      simpa [this] using rouses
  | @wakeupVisit chan i other =>
    refine .inl ?_
    have : (i : Nat) ≤ q ↔ i = q ∨ (i : Nat) + 1 ≤ q := by omega
    by_cases here : chan = .proc q
    · rcases eq_or_ne i q with same | different
      · simp [here, same]
      · simpa [here, different, this] using rouses
    · simpa [here] using rouses
  | @wakeupEnd chan n all =>
    have : ¬ n ≤ q := by omega
    exact .inl (by simpa [this] using rouses)
  | @wakeAt chan i =>
    by_cases here : chan = .proc q ∧ i = q
    · exact .inr (.inr (by rw [here.1, here.2]))
    · exact .inl (by simpa [here] using rouses)
  | forkAlloc | waitNone | waitReturn | waitStop | waitSleep =>
    cases first
    simp at rouses
  | reparentChild | exitWakeup =>
    refine .inl ?_
    have tail : rouse q k = true := by simpa using rouses
    simp only [List.cons_append, List.nil_append, rouse, Op.rouses, Option.getD_none, tail]
    split <;> rfl
  | @testEnd w | @testReturn w | @testStop p w | @testSleep p w =>
    cases first
    simp at rouses
  | _ => exact .inl (by simpa using rouses)

theorem rouse_step (core : Core s) (family : Family s)
    (taken : step s e = some (s', o)) (holds : need (.proc p) (s.code (.proc p)) .wait)
    (rouses : rouse q (s.code (.proc p)) = true) (dozing : Dozing s' q) :
    need (.proc p) (s'.code (.proc p)) .wait ∧ rouse q (s'.code (.proc p)) = true := by
  have changes := step_code taken (.proc p)
  generalize after : s'.code (.proc p) = code' at changes
  cases changes with
  | same => exact ⟨holds, rouses⟩
  | acquire runs code free =>
    rw [code] at holds rouses
    exact ⟨holds.2, by simpa using rouses⟩
  | @release c ch lk k runs code held =>
    rw [code] at holds rouses
    cases lk with
    | wait => simp at rouses
    | _ => exact ⟨by simpa using holds, by simpa using rouses⟩
  | switch self runs code sets held only =>
    cases self
    exact absurd holds (core.switch_free runs held only)
  | call runs idle calls => exact absurd holds (core.idle_free rfl idle)
  | interrupt runs enabled => exact absurd holds (core.enabled_free rfl runs enabled)
  | spawned self unused =>
    cases self
    obtain ⟨c, runs, -⟩ := core.wait_running holds
    rcases core.running_state runs with state | state <;> rw [unused] at state <;> cases state
  | exec runs code next =>
    obtain ⟨first, rest⟩ := core.head code
    rw [code] at holds rouses
    refine ⟨((replaced _ next first rest).locks .wait rfl).mpr holds, ?_⟩
    rcases rouse_next next first rouses with done | ⟨self, chan, rfl⟩ | rfl
    · exact done
    · -- `q` itself is running, and not at the end of `sleep`
      cases self
      rcases dozing_step family taken dozing with dozing | ⟨_, _, _, -, -, code'⟩
      · exact absurd dozing (core.not_dozing (State.thread_eq_proc.mp runs) (by simp [code]))
      · rw [code] at code'
        cases code'
    · exact absurd dozing (not_dozing_wakeAt core family taken runs code)

/-! ## The parts of the invariant -/

theorem Core.forkParent_code (core : Core s) (code : s.code t = .forkParent i :: k) :
    k = [.release .wait, .acquire (.proc i), .forkRunnable i, .release (.proc i)] := by
  cases (core.head code).1 with
  | forkParent => rfl

theorem Core.reparent_code {n : Nat} (core : Core s)
    (code : s.code (.proc p) = .reparent n :: k) : p ≠ initproc ∧ ∃ status,
      k = [.exitWakeup, .acquire (.proc p), .exitZombie status, .release .wait, .exitSched] := by
  cases (core.head code).1 with
  | reparent self other =>
    cases self
    exact ⟨other, _, rfl⟩

theorem Core.exitZombie_code {status : BitVec 32} (core : Core s)
    (code : s.code (.proc p) = .exitZombie status :: k) :
    p ≠ initproc ∧ k = [.release .wait, .exitSched] := by
  cases (core.head code).1 with
  | exitZombie self other =>
    cases self
    exact ⟨other, rfl⟩

theorem orphan_step (core : Core s) (family : Family s) (taken : step s e = some (s', o))
    (i : Fin NPROC) (unused : (s'.proc i).state = .unused) : (s'.proc i).parent = none := by
  have slot := step_slot taken i
  have before := family.orphan i
  generalize s'.proc i = x at slot unused
  cases slot with
  | same => exact before unused
  | picked => cases unused
  | switch runs code sets =>
    cases sets with
    | exit => exact before unused
    | sleep | yield => cases unused
  | touch runs code touch =>
    cases touch with
    | same | tidyUp | setkilled => exact before unused
    | woken | allocated | started | exited => cases unused
    | failed | reaped => rfl
    | killed =>
      simp only at unused
      split at unused
      · cases unused
      · exact before unused
    | adopted =>
      obtain rfl := core.forkParent_code code
      have used := core.forking _ i (by rw [code]; simp)
      exact absurd (used.symm.trans unused) (by simp)
    | reparented self child => exact absurd (child.symm.trans (before unused)) (by simp)

theorem alive_keeps (taken : step s e = some (s', o))
    (alive : (s.proc q).state ≠ .unused ∧ (s.proc q).state ≠ .zombie)
    (stays : ∀ status k, s.code (.proc q) ≠ .exitZombie status :: k) :
    (s'.proc q).state ≠ .unused ∧ (s'.proc q).state ≠ .zombie := by
  constructor
  · intro unused
    rcases step_unused taken unused with before | before
    · exact alive.1 before
    · exact alive.2 before
  · intro zombie
    rcases step_zombie taken zombie with before | ⟨_, _, status, k, -, -, code⟩
    · exact alive.2 before
    · exact stays status k code

theorem init_step (core : Core s) (family : Family s) (taken : step s e = some (s', o)) :
    (s'.proc initproc).state ≠ .unused ∧ (s'.proc initproc).state ≠ .zombie :=
  alive_keeps taken family.init fun _ _ code => (core.exitZombie_code code).1 rfl

theorem alive_step (core : Core s) (family : Family s) (taken : step s e = some (s', o))
    (i q : Fin NPROC) (parent : (s'.proc i).parent = some q) :
    (s'.proc q).state ≠ .unused ∧ (s'.proc q).state ≠ .zombie := by
  rcases step_parent taken parent with before | ⟨c, ch, k, -, runs, code⟩ | ⟨rfl, -⟩
  · refine alive_keeps taken (family.alive i q before) fun status k code => ?_
    exact family.disowned q i (by rw [code]; exact i.isLt) before
  · refine alive_keeps taken ?_ fun status k' code' => ?_
    · rcases (core.placed q).running c runs with ⟨running, -⟩ | ⟨-, dying⟩
      · simp [running]
      · rw [code] at dying
        simp [Dying] at dying
    · rw [code] at code'
      cases code'
  · exact init_step core family taken

theorem Fits.disowned_init (fits : Fits (.proc initproc) k) : disowned k = 0 := by
  induction fits with
  | nil => rfl
  | cons first _ ih =>
    cases first with
    | reparent self other | exitWakeup self other | exitZombie self other =>
      cases self
      exact absurd rfl other
    | tidyUp | sleepSched | yieldSched => simpa using ih
    | _ => simp [ih]

theorem Calls.disowned (calls : Calls t k ops) : disowned (ops ++ k) ≤ disowned k := by
  cases calls <;> simp [sleepCode, exitCode]

theorem disowned_next
    (next : Next t tb op ops) (first : op.Fits t k) (after : i < disowned (ops ++ k)) :
    i < disowned (op :: k) ∨ op = .reparent i := by
  cases next with
  | @reparentChild p j | @reparentOther p j =>
    simp only [List.cons_append, List.nil_append, disowned, Op.disowns, Option.getD_none,
      Option.getD_some] at after
    by_cases same : i = j
    · exact .inr (by rw [same])
    · refine .inl ?_
      simp only [disowned, Op.disowns, Option.getD_some]
      omega
  | reparentEnd all =>
    refine .inl ?_
    simp only [disowned, Op.disowns, Option.getD_some]
    omega
  | exitWakeup | exitOrphan => exact .inl i.isLt
  | exitZombie =>
    cases first
    simp at after
  | @testEnd w | @testReturn w | @testStop p w | @testSleep p w =>
    cases first
    cases w <;> simp [Wait.ending, Wait.wakeup, sleepCode] at after
  | _ => exact .inl (by simpa using after)

theorem disowned_step (core : Core s) (family : Family s) (taken : step s e = some (s', o))
    (q i : Fin NPROC) (before : i < disowned (s'.code (.proc q))) :
    (s'.proc i).parent ≠ some q := by
  intro parent
  have changes := step_code taken (.proc q)
  rcases step_parent taken parent with child | ⟨c, ch, k, rfl, runs, code⟩ | ⟨rfl, -⟩
  · have left := fun less => family.disowned q i less child
    generalize s'.code (.proc q) = code' at changes before
    cases changes with
    | same => exact left before
    | acquire runs code | release runs code =>
      rw [code] at left
      exact left (by simpa using before)
    | switch self runs code sets =>
      rw [code] at left
      cases sets <;> exact left (by simpa using before)
    | call runs idle calls => exact left (before.trans_le calls.disowned)
    | interrupt => exact left (by simpa using before)
    | spawned => simp [forkret] at before
    | exec runs code next =>
      rw [code] at left
      obtain rfl := (disowned_next next (core.head code).1 before).resolve_left left
      obtain ⟨other, -⟩ := core.reparent_code code
      obtain ⟨eff, done, rfl, -⟩ := step_op taken runs code (by simp) rfl
      dsimp only [Smp.exec, execProc] at done
      rw [State.proc] at child
      rw [dif_pos i.isLt, if_pos child] at done
      cases done
      simp [Table.set_procs, Ne.symm other] at parent
  · obtain rfl := core.forkParent_code code
    generalize s'.code (.proc q) = code' at changes before
    cases changes with
    | same => simp [code] at before
    | acquire _ code' | release _ code' =>
      rw [code] at code'
      cases code'
    | switch _ _ code' sets =>
      rw [code] at code'
      cases code'
      cases sets
    | exec _ code' next =>
      rw [code] at code'
      cases code'
      cases next
      simp at before
    | spawned => simp [forkret] at before
  · have fits := (core_step core taken).fits (.proc initproc)
    rw [fits.disowned_init] at before
    exact absurd before (by simp)

theorem Scanned.of_fresh {sc : Scan} (fresh : sc.Fresh) :
    Scanned tb q sc :=
  ⟨fun i less => absurd less (by simp [fresh.1]), fun i here => by simp [fresh.2] at here⟩

/-- The operations with which the holder of `wait_lock` changes parents and children. -/
def Op.Meddles (sc : Scan) : Op → Prop
  | .forkParent _ => True
  | .reparent _ => True
  | .exitZombie _ => True
  | .waitAt _ _ => sc.child ≠ none
  | _ => False

/-- While `p` has `wait_lock`, parents change only where `p` itself changes them. -/
theorem parent_held (core : Core s) (taken : step s e = some (s', o))
    (holds : need (.proc p) (s.code (.proc p)) .wait)
    (other : ∀ k, s.code (.proc p) ≠ .forkParent i :: k ∧ s.code (.proc p) ≠ .reparent i :: k)
    (parent : (s'.proc i).parent = some q) : (s.proc i).parent = some q := by
  rcases step_parent taken parent with before | ⟨c, ch, k, -, -, code⟩ |
    ⟨-, c, ch, p', k, -, -, code, -⟩
  · exact before
  · obtain rfl := core.forkParent_code code
    obtain rfl := core.wait_unique holds (p := p) (q := q) (by rw [code]; simp)
    exact absurd code (other _).1
  · obtain ⟨-, status, rfl⟩ := core.reparent_code code
    obtain rfl := core.wait_unique holds (p := p) (q := p') (by rw [code]; simp)
    exact absurd code (other _).2

theorem dozing_held (core : Core s) (family : Family s) (taken : step s e = some (s', o))
    (holds : need (.proc p) (s.code (.proc p)) .wait)
    (other : ∀ k, s.code (.proc p) ≠ .release .wait :: k) (dozing : Dozing s' q) :
    Dozing s q := by
  rcases dozing_step family taken dozing with before | ⟨c, ch, k, -, -, code⟩
  · exact before
  · obtain rfl := core.wait_unique holds (p := p) (q := q) (by rw [code]; simp)
    exact absurd code (other _)

/-- What `q` has found out stays true until `q` itself changes it. -/
theorem Scanned.step {sc : Scan} (core : Core s) (family : Family s)
    (taken : step s e = some (s', o)) (holds : need (.proc q) (s.code (.proc q)) .wait)
    (old : Scanned s.table q sc)
    (own : ∀ c ch op k, e = .go c ch → s.cpus c = .running q → s.code (.proc q) = op :: k →
      op.Meddles sc → sc.Fresh) : Scanned s'.table q sc := by
  by_cases fresh : sc.Fresh
  · exact .of_fresh fresh
  -- nobody else has `wait_lock`
  have meddles : ∀ c ch p op k, e = .go c ch → s.cpus c = .running p →
      s.code (.proc p) = op :: k → need (.proc p) (op :: k) .wait → ¬ op.Meddles sc := by
    intro c ch p op k go runs code needs meddles
    obtain rfl := core.wait_unique holds (code.symm ▸ needs)
    exact fresh (own c ch op k go runs code meddles)
  refine ⟨fun i less parent => ?_, fun i here => ?_⟩
  · have child : (s.proc i).parent = some q := by
      rcases step_parent taken parent with before | ⟨c, ch, k, go, runs, code⟩ |
        ⟨-, c, ch, p, k, go, runs, code, -⟩
      · exact before
      · obtain rfl := core.forkParent_code code
        exact absurd trivial (meddles c ch q _ _ go runs code (by simp))
      · obtain ⟨-, status, rfl⟩ := core.reparent_code code
        exact absurd trivial (meddles c ch p _ _ go runs code (by simp))
    obtain ⟨kids, alive⟩ := old.1 i less child
    refine ⟨kids, fun zombie => ?_⟩
    rcases step_zombie taken zombie with before | ⟨c, ch, status, k, go, runs, code⟩
    · exact alive before
    · obtain ⟨-, rfl⟩ := core.exitZombie_code code
      exact meddles c ch i _ _ go runs code (by simp) trivial
  · have parent := old.2 i here
    have slot := step_slot taken i
    show (s'.proc i).parent = some q
    generalize s'.proc i = x at slot
    cases slot with
    | same | picked => exact parent
    | switch runs code sets => cases sets <;> exact parent
    | touch runs code touch =>
      cases touch with
      | failed unused => exact absurd (parent.symm.trans (family.orphan i unused)) (by simp)
      | adopted self =>
        subst self
        obtain rfl := core.forkParent_code code
        exact absurd trivial
          (meddles _ _ _ _ _ rfl (State.thread_eq_proc.mp runs) code (by simp))
      | reparented self =>
        subst self
        obtain ⟨-, status, rfl⟩ := core.reparent_code code
        exact absurd trivial
          (meddles _ _ _ _ _ rfl (State.thread_eq_proc.mp runs) code (by simp))
      | reaped self =>
        subst self
        have other : sc.child ≠ none := by simp [here]
        exact absurd other
          (meddles _ _ _ _ _ rfl (State.thread_eq_proc.mp runs) code (by simp))
      | _ => exact parent

theorem scan_next (next : Next (.proc q) tb op ops) (first : op.Fits (.proc q) k)
    (old : Scanned tb q (scan (op :: k))) : Scanned tb q (scan (ops ++ k)) := by
  cases next with
  | @waitVisit p addr havekids i self child =>
    cases self
    refine ⟨fun j less parent => ?_, fun j here => ?_⟩
    · exact ⟨rfl, (old.1 j less parent).2⟩
    · cases here
      exact child
  | @waitSkip p addr havekids i self other =>
    cases self
    refine ⟨fun j less parent => ?_, fun j here => by simp at here⟩
    have different : (j : Nat) ≠ i := by
      intro same
      obtain rfl := Fin.ext same
      exact other parent
    exact old.1 j (by simp at less ⊢; omega) parent
  | waitTest self all =>
    refine ⟨fun j less parent => ?_, fun j here => by simp at here⟩
    exact ⟨rfl, (old.1 j (by simp; omega) parent).2⟩
  | @waitNext addr i alive =>
    refine ⟨fun j less parent => ⟨rfl, ?_⟩, fun j here => by simp at here⟩
    by_cases same : (j : Nat) = i
    · obtain rfl := Fin.ext same
      exact alive
    · exact (old.1 j (by simp at less ⊢; omega) parent).2
  | waitSleep => exact old
  | waitNone | waitReturn | waitStop =>
    cases first
    exact .of_fresh (by simp)
  | @testEnd w | @testReturn w | @testStop p w | @testSleep p w =>
    cases first
    cases w <;> exact .of_fresh (by simp [Wait.ending, Wait.wakeup, sleepCode])
  | _ => simpa using old

/-- A meddling operation leaves nothing of the loop of `wait`. -/
theorem meddles_next (next : Next (.proc q) tb op ops) (first : op.Fits (.proc q) k)
    (meddles : op.Meddles (scan (ops ++ k))) : (scan (ops ++ k)).Fresh := by
  cases first with
  | forkParent | reparent | exitZombie =>
    cases next <;> simp
  | waitAt =>
    cases next with
    | waitReturn => simp
    | waitNext => simp [Op.Meddles] at meddles
  | _ => exact absurd meddles (by simp [Op.Meddles])

theorem scanned_step (core : Core s) (family : Family s) (taken : step s e = some (s', o))
    (q : Fin NPROC) (holds : need (.proc q) (s'.code (.proc q)) .wait) :
    Scanned s'.table q (scan (s'.code (.proc q))) := by
  have old := family.scanned q
  have changes := step_code taken (.proc q)
  -- the first operation of `q`, after which it still has `wait_lock`
  have own : ∀ {op k sc}, s.code (.proc q) = op :: k → need (.proc q) (op :: k) .wait →
      (Scanned s.table q (scan (op :: k)) → Scanned s.table q sc) → (op.Meddles sc → sc.Fresh) →
      Scanned s'.table q sc := by
    intro op k sc code before known meddles
    rw [← code] at before known
    refine (known (old before)).step core family taken before ?_
    intro c ch op' k' _ _ code'
    rw [code] at code'
    cases code'
    exact meddles
  generalize s'.code (.proc q) = code' at changes holds
  cases changes with
  | same other =>
    refine (old holds).step core family taken holds ?_
    intro c ch op k go runs
    exact absurd (State.thread_eq_proc.mpr runs) (other c ch go)
  | @acquire c ch lk k runs code free =>
    by_cases same : lk = .wait
    · cases (core.head code).1 with
      | acquire _ fresh => exact .of_fresh (fresh same).1
    · exact own code ⟨Ne.symm same, holds⟩ id (by simp [Op.Meddles])
  | release runs code held => exact own code (.inr holds) id (by simp [Op.Meddles])
  | switch self runs code sets held only =>
    cases self
    refine absurd ?_ (core.switch_free runs held only)
    rw [code]
    cases sets <;> simp [holds]
  | call runs idle calls =>
    have free : ∀ lk, lk.inner = true → ¬ need (.proc q) (s.code (.proc q)) lk :=
      fun lk inner => core.idle_free inner idle
    exact absurd holds ((calls.fits free (core.fits _)).1 .wait rfl)
  | interrupt runs enabled =>
    have free : ¬ need (.proc q) (s.code (.proc q)) .wait := core.enabled_free rfl runs enabled
    exact absurd (by simpa using holds) free
  | spawned => simp [forkret] at holds
  | exec runs code next =>
    obtain ⟨first, rest⟩ := core.head code
    exact own code (((replaced _ next first rest).locks .wait rfl).mp holds)
      (scan_next next first) (meddles_next next first)

/-- `wakeup` for the parent is called with `wait_lock` held. -/
theorem Fits.rung_holds (fits : Fits t k) (rings : rung k = true) : need t k .wait := by
  induction fits with
  | nil => cases rings
  | @cons op rest first _ ih =>
    cases first with
    | acquire _ fresh =>
      have tail : rung rest = true := by simpa using rings
      refine ⟨fun same => ?_, ih tail⟩
      rw [(fresh same.symm).2] at tail
      cases tail
    | @release lk =>
      cases lk with
      | wait => simp at rings
      | _ => exact .inr (ih (by simpa using rings))
    | exitZombie => simp
    | reparent | exitWakeup => simp at rings
    | _ => simp_all

theorem Calls.rung (calls : Calls t k ops) (rings : rung (ops ++ k) = true) : rung k = true := by
  cases calls with
  | @release k lk outer =>
    cases lk with
    | wait => cases outer
    | _ => simpa using rings
  | @sleep p n lk self outer =>
    cases lk with
    | wait => cases outer
    | _ => simp [sleepCode] at rings
  | acquire | wakeup | ctrlC | yield => simpa using rings
  | _ => simp [exitCode] at rings

theorem rung_next (next : Next t tb op ops) (first : op.Fits t k) (rings : rung (ops ++ k) = true) :
    rung (op :: k) = true ∨ op = .exitWakeup := by
  cases next with
  | exitWakeup | exitOrphan => exact .inr rfl
  | exitZombie | reparentEnd =>
    cases first
    simp at rings
  | reparentChild | reparentOther => simp at rings
  | @testEnd w | @testReturn w | @testStop p w | @testSleep p w =>
    cases first
    cases w <;> simp [Wait.ending, Wait.wakeup, sleepCode, Wait.lock] at rings
  | forkAlloc | waitNone | waitReturn | waitStop | waitSleep =>
    cases first
    simp at rings
  | _ => exact .inl (by simpa using rings)

/-- `exit` gets to the `wakeup` for the parent through `exitWakeup` only. -/
theorem rung_before (core : Core s) (taken : step s e = some (s', o))
    (rings : rung (s'.code (.proc i)) = true) :
    rung (s.code (.proc i)) = true ∨ ∃ c ch k, e = .go c ch ∧ s.thread c = some (.proc i) ∧
      s.code (.proc i) = .exitWakeup :: k := by
  have changes := step_code taken (.proc i)
  generalize s'.code (.proc i) = code' at changes rings
  cases changes with
  | same => exact .inl rings
  | acquire runs code => exact .inl (by rw [code]; simpa using rings)
  | @release c ch lk k runs code =>
    obtain ⟨first, rest⟩ := core.head code
    rw [code]
    cases first with
    | release out =>
      -- after `wait_lock` there is no more of `exit`
      cases lk with
      | wait => exact absurd (rest.rung_holds rings) (out rfl)
      | _ => exact .inl (by simpa using rings)
  | switch self runs code sets =>
    rw [code]
    cases sets <;> exact .inl (by simpa using rings)
  | call runs idle calls => exact .inl (calls.rung rings)
  | interrupt => exact .inl (by simpa using rings)
  | spawned => simp [forkret] at rings
  | exec runs code next =>
    rw [code]
    rcases rung_next next (core.head code).1 rings with old | rfl
    · exact .inl old
    · exact .inr ⟨_, _, _, rfl, runs, rfl⟩

theorem rung_step (core : Core s) (family : Family s) (taken : step s e = some (s', o))
    (i : Fin NPROC) (rings : rung (s'.code (.proc i)) = true) (q : Fin NPROC)
    (parent : (s'.proc i).parent = some q) (dozing : Dozing s' q) :
    rouse q (s'.code (.proc i)) = true := by
  rcases rung_before core taken rings with old | ⟨c, ch, k, rfl, runs, code⟩
  · have holds := (core.fits (.proc i)).rung_holds old
    -- `i` has `wait_lock`, so neither its parent nor who dozes has changed
    have child : (s.proc i).parent = some q := by
      refine parent_held core taken holds (fun k => ⟨fun code => ?_, fun code => ?_⟩) parent
      · obtain rfl := core.forkParent_code code
        simp [code] at old
      · obtain ⟨-, status, rfl⟩ := core.reparent_code code
        simp [code] at old
    have asleep : Dozing s q := by
      refine dozing_held core family taken holds (fun k code => ?_) dozing
      simp [code] at old
    exact (rouse_step core family taken holds (family.rung i old q child asleep) dozing).2
  · obtain ⟨eff, done, rfl, -⟩ := step_op taken runs code (by simp) rfl
    cases done
    rw [State.apply_proc] at parent
    rw [State.apply_code_self (by simp), parent]
    simp

/-- The children of a process that is about to sleep in `wait` are not ZOMBIEs. -/
theorem Family.no_zombie (family : Family s)
    (code : s.code (.proc q) = .release .wait :: .sleepSched (.proc q) :: k)
    (parent : (s.proc i).parent = some q) : (s.proc i).state ≠ .zombie := by
  have known := family.scanned q (by simp [code])
  rw [code] at known
  exact (known.1 i i.isLt parent).2

theorem heard_step (core : Core s) (family : Family s) (taken : step s e = some (s', o))
    (i q : Fin NPROC) (parent : (s'.proc i).parent = some q)
    (zombie : (s'.proc i).state = .zombie) (dozing : Dozing s' q) : Alarm s' q := by
  rcases step_zombie taken zombie with was | ⟨c, ch, status, k, rfl, runs, code⟩
  · rcases step_parent taken parent with child | ⟨c, ch, k, -, runs, code⟩ |
      ⟨rfl, c, ch, p, k, rfl, runs, code, child⟩
    · rcases dozing_step family taken dozing with asleep | ⟨c, ch, k, -, -, code⟩
      · obtain ⟨p, holds, rouses⟩ := family.heard i q child was asleep
        obtain ⟨holds', rouses'⟩ := rouse_step core family taken holds rouses dozing
        exact ⟨p, holds', rouses'⟩
      · exact absurd was (family.no_zombie code child)
    · obtain rfl := core.forkParent_code code
      have used := core.forking (.proc q) i (by rw [code]; simp)
      exact absurd (used.symm.trans was) (by simp)
    · -- init gets a child that is a ZOMBIE, and is woken next
      obtain ⟨-, status, rfl⟩ := core.reparent_code code
      have runs' := State.thread_eq_proc.mpr runs
      obtain ⟨eff, done, rfl, -⟩ := step_op taken runs' code (by simp) rfl
      dsimp only [Smp.exec, execProc] at done
      rw [State.proc] at child
      rw [dif_pos i.isLt, if_pos child] at done
      cases done
      refine ⟨p, ?_, ?_⟩ <;> rw [State.apply_code_self (by simp)] <;> simp
  · -- `i` exits, and has woken its parent before
    obtain ⟨-, rfl⟩ := core.exitZombie_code code
    have holds : need (.proc i) (s.code (.proc i)) .wait := by simp [code]
    have child : (s.proc i).parent = some q :=
      parent_held core taken holds (fun k => by simp [code]) parent
    have asleep : Dozing s q := dozing_held core family taken holds (by simp [code]) dozing
    have rouses := family.rung i (by simp [code]) q child asleep
    simp [code] at rouses

theorem family_step (core : Core s) (family : Family s) (taken : step s e = some (s', o)) :
    Family s' where
  orphan := orphan_step core family taken
  alive := alive_step core family taken
  init := init_step core family taken
  disowned := disowned_step core family taken
  scanned := scanned_step core family taken
  sleeps := sleeps_step core family taken
  rung := rung_step core family taken
  heard := heard_step core family taken

end

theorem family_start (trapframe pagetable : Nat) : Family (start trapframe pagetable) where
  orphan := by
    intro i unused
    simp only [State.proc, start] at unused ⊢
    split <;> rfl
  alive := by
    intro i q parent
    simp only [State.proc, start] at parent
    split at parent <;> cases parent
  init := by simp [State.proc, start]
  disowned := by
    intro q i less
    simp [start, forkret] at less
  scanned := by
    intro q holds
    simp [start, forkret] at holds
  sleeps := by
    intro p q inside
    simp [start, forkret] at inside
  rung := by
    intro i rings
    simp [start, forkret] at rings
  heard := by
    intro i q parent
    simp only [State.proc, start] at parent
    split at parent <;> cases parent

theorem family_run {trapframe pagetable : Nat} {tr : List (Event × Obs)} {s : State}
    (run : machine.Run (start trapframe pagetable) tr s) : Family s :=
  run.always_invariant (fun _ s => Family s) (family_start trapframe pagetable)
    fun _ _ _ _ _ earlier family taken => family_step (core_run earlier) family taken

end Xv6.Kernel.Smp
