import Xv6.Kernel.SmpWait

/-! # sleep and wakeup

A process that calls `sleep` takes its own lock before it releases the one it was
given, and keeps it until the scheduler has switched away from it. A `wakeup` that
comes after that release waits for the lock, and so finds the process SLEEPING.
-/

namespace Xv6.Kernel.Smp

/-- `p` is in `sleep(chan, lk)`, has released `lk` and has not been woken. Once it runs
    again it goes on with `k`. -/
def InSleep (s : State) (p : Fin NPROC) (chan : Chan) (k : List Op) : Prop :=
  s.code (.proc p) = .sleepSched chan :: k ∨
    (s.proc p).state = .sleeping ∧ (s.proc p).chan = some chan ∧ s.code (.proc p) = k

/-- What is left of a `wakeup(chan)` that has not got past slot `p`. -/
inductive Visiting (chan : Chan) (p : Fin NPROC) : List Op → Prop where
  | loop {n} (before : n ≤ p.val) : Visiting chan p [.wakeup chan n]
  | acquire {i : Fin NPROC} (before : i ≤ p) : Visiting chan p
      [.acquire (.proc i), .wakeAt chan i, .release (.proc i), .wakeup chan (i + 1)]
  | wake {i : Fin NPROC} (before : i ≤ p) :
      Visiting chan p [.wakeAt chan i, .release (.proc i), .wakeup chan (i + 1)]
  | release {i : Fin NPROC} (before : i < p) :
      Visiting chan p [.release (.proc i), .wakeup chan (i + 1)]

/-- Thread `t` is in a `wakeup(chan)` that has not got past slot `p`, before `rest`;
    interrupt handlers may run first. -/
def Waking (s : State) (t : Thread) (chan : Chan) (p : Fin NPROC) (rest : List Op) : Prop :=
  ∃ ops now, s.code t = ops ++ (now ++ rest) ∧ Visiting chan p now

section

variable {s s' : State} {e : Event} {o : Obs} {p : Fin NPROC} {chan : Chan} {k : List Op}

theorem Core.off_of_sleeping (core : Core s) (asleep : (s.proc p).state = .sleeping) (c : Nat) :
    s.cpus c ≠ .running p := by
  intro runs
  rcases core.running_state runs with state | state <;> rw [asleep] at state <;> cases state

/-- What a thread has still to do changes only while it runs. -/
theorem code_of_off (taken : step s e = some (s', o))
    (off : ∀ c, s.cpus c ≠ .running p) (used : (s.proc p).state ≠ .unused) :
    s'.code (.proc p) = s.code (.proc p) := by
  have changes := step_code taken (.proc p)
  generalize s'.code (.proc p) = code' at changes
  cases changes with
  | same => rfl
  | acquire runs | release runs | exec runs | call runs | interrupt runs =>
    exact absurd (State.thread_eq_proc.mp runs) (off _)
  | switch self runs =>
    cases self
    exact absurd runs (off _)
  | spawned self unused =>
    cases self
    exact absurd unused used

/-- A process that is about to sleep holds its own lock. -/
theorem Core.sleepSched_holds (core : Core s) (code : s.code (.proc p) = .sleepSched chan :: k) :
    need (.proc p) (.sleepSched chan :: k) (.proc p) := by
  cases (core.head code).1 with
  | sleepSched self | waitSched self =>
    cases self
    simp

theorem inSleep_step (core : Core s) (taken : step s e = some (s', o))
    (asleep : InSleep s p chan k) : InSleep s' p chan k ∨ (s'.proc p).state = .runnable := by
  rcases asleep with code | ⟨state, on, code⟩
  · have holds := core.sleepSched_holds code
    rw [← code] at holds
    refine .inl ?_
    have changes := step_code taken (.proc p)
    generalize after : s'.code (.proc p) = code' at changes
    rw [InSleep, after]
    cases changes with
    | same => exact .inl code
    | acquire _ code' | release _ code' =>
      rw [code] at code'
      cases code'
    | exec _ code' next =>
      rw [code] at code'
      cases code'
      cases next
    | switch self runs code' sets =>
      cases self
      obtain ⟨x, sets', rfl⟩ := step_switch taken runs code rfl
      cases sets' with
      | sleep =>
        rw [code] at code'
        cases code'
        exact .inr ⟨by simp [State.proc, State.switched, Table.set_procs],
          by simp [State.proc, State.switched, Table.set_procs], rfl⟩
    | call _ idle => exact absurd holds (core.idle_free rfl idle)
    | interrupt runs enabled => exact absurd holds (core.enabled_free rfl runs enabled)
    | spawned self unused =>
      cases self
      rcases core.unused_code unused with same | same <;> rw [code] at same <;> cases same
  · have off := core.off_of_sleeping state
    have code' := code_of_off taken off (by simp [state])
    have slot := step_slot taken p
    rw [InSleep, code']
    generalize s'.proc p = x at slot
    cases slot with
    | same => exact .inl (.inr ⟨state, on, code⟩)
    | picked ready =>
      rw [state] at ready
      cases ready
    | switch runs => exact absurd runs (off _)
    | touch runs code' touch =>
      cases touch with
      | same | setkilled | adopted | reparented => exact .inl (.inr ⟨state, on, code⟩)
      | woken | started => exact .inr rfl
      | killed => exact .inr (if_pos state)
      | tidyUp self | exited self =>
        subst self
        exact absurd (State.thread_eq_proc.mp runs) (off _)
      | allocated unused | failed unused => exact absurd (state.symm.trans unused) (by simp)
      | reaped self zombie => exact absurd (state.symm.trans zombie) (by simp)

theorem Visiting.mem {now : List Op} (visiting : Visiting chan p now) :
    ∃ n, .wakeup chan n ∈ now := by
  cases visiting <;> simp

theorem runnable_of_wakeAt {c : Nat} {ch : Choice} {t : Thread} {rest : List Op} (core : Core s)
    (taken : step s (.go c ch) = some (s', o)) (runs : s.thread c = some t)
    (code : s.code t = .wakeAt chan p :: rest) (other : t ≠ .proc p)
    (asleep : InSleep s p chan k) : (s'.proc p).state = .runnable := by
  have mine : s.locks (.proc p) = some c := by
    rw [core.holds c t runs _ rfl, code]
    cases (core.head code).1 with
    | wakeAt held => simpa using held
  rcases asleep with sleeps | ⟨state, on, -⟩
  · -- `p` would hold its lock
    obtain ⟨d, runs'⟩ := (core.placed p).busy (.inr ⟨_, _, sleeps⟩)
    have runs' := State.thread_eq_proc.mpr runs'
    have theirs : s.locks (.proc p) = some d := by
      rw [core.holds d _ runs' _ rfl, sleeps]
      exact core.sleepSched_holds sleeps
    obtain rfl : c = d := Option.some.inj (mine.symm.trans theirs)
    exact absurd (Option.some.inj (runs.symm.trans runs')) other
  · obtain ⟨eff, done, rfl, -⟩ := step_op taken runs code (by simp) rfl
    dsimp only [Smp.exec] at done
    rw [if_pos ⟨state, on⟩] at done
    cases done
    simp [Table.set_procs]

theorem waking_step {t : Thread} {rest : List Op} (core : Core s)
    (taken : step s e = some (s', o)) (asleep : InSleep s p chan k) (other : t ≠ .proc p)
    (waking : Waking s t chan p rest) :
    Waking s' t chan p rest ∨ (s'.proc p).state = .runnable := by
  obtain ⟨ops, now, code, visiting⟩ := waking
  have changes := step_code taken t
  generalize after : s'.code t = code' at changes
  rw [Waking, after]
  cases changes with
  | same => exact .inl ⟨ops, now, code, visiting⟩
  | acquire runs code' =>
    rw [code] at code'
    cases ops with
    | cons op ops =>
      cases code'
      exact .inl ⟨ops, now, rfl, visiting⟩
    | nil =>
      cases visiting with
      | acquire before =>
        cases code'
        exact .inl ⟨[], _, rfl, .wake before⟩
      | _ => cases code'
  | release runs code' =>
    rw [code] at code'
    cases ops with
    | cons op ops =>
      cases code'
      exact .inl ⟨ops, now, rfl, visiting⟩
    | nil =>
      cases visiting with
      | release before =>
        cases code'
        exact .inl ⟨[], _, rfl, .loop before⟩
      | _ => cases code'
  | switch self runs code' sets =>
    rw [code] at code'
    cases ops with
    | cons op ops =>
      cases code'
      exact .inl ⟨ops, now, rfl, visiting⟩
    | nil => cases visiting <;> cases code' <;> cases sets
  | call => exact .inl ⟨_ ++ ops, now, by rw [code, List.append_assoc], visiting⟩
  | interrupt => exact .inl ⟨.iret :: ops, now, by rw [code]; rfl, visiting⟩
  | @spawned _ i self unused =>
    exfalso
    subst self
    obtain ⟨n, inside⟩ := visiting.mem
    have inside : Op.wakeup chan n ∈ s.code (.proc i) := by
      rw [code]
      exact List.mem_append_right _ (List.mem_append_left _ inside)
    rcases core.unused_code unused with empty | fresh
    · simp [empty] at inside
    · simp [fresh, forkret] at inside
  | @exec c ch op k' next runs code' does =>
    have whole := code
    rw [code] at code'
    cases ops with
    | cons op ops =>
      cases code'
      exact .inl ⟨next ++ ops, now, (List.append_assoc ..).symm, visiting⟩
    | nil =>
      cases visiting with
      | loop before =>
        cases code'
        cases does with
        | @wakeupSelf _ i self =>
          have : i ≠ p := by
            rintro rfl
            exact other self
          exact .inl ⟨[], _, rfl, .loop (by omega)⟩
        | wakeupVisit => exact .inl ⟨[], _, rfl, .acquire before⟩
        | wakeupEnd all => exact absurd p.isLt (by omega)
      | @wake i before =>
        cases code'
        cases does
        rcases Nat.lt_or_eq_of_le before with less | same
        · exact .inl ⟨[], _, rfl, .release less⟩
        · obtain rfl := Fin.ext same
          exact .inr (runnable_of_wakeAt core taken runs whole other asleep)
      | acquire | release =>
        cases code'
        cases does

/-- A channel is set only between `sched` and the end of `sleep`. -/
def Tidy (s : State) : Prop :=
  ∀ p, (s.proc p).chan = none ∨ ∃ k, s.code (.proc p) = .tidyUp :: k

theorem tidy_step (core : Core s) (tidy : Tidy s) (taken : step s e = some (s', o)) : Tidy s' := by
  intro p
  rcases tidy p with none | ⟨k, code⟩
  · have slot := step_slot taken p
    generalize after : s'.proc p = x at slot
    cases slot with
    | same | picked => exact .inl none
    | switch runs code sets =>
      cases sets with
      | yield | exit => exact .inl none
      | sleep =>
        refine .inr ?_
        obtain ⟨y, -, rfl⟩ := step_switch taken runs code rfl
        cases (core.head code).1 <;> exact ⟨_, Function.update_self ..⟩
    | touch runs code touch => cases touch <;> first | exact .inl none | exact .inl rfl
  · have holds : need (.proc p) (s.code (.proc p)) (.proc p) := by
      rw [code]
      cases (core.head code).1 with
      | tidyUp self =>
        cases self
        simp
    have changes := step_code taken (.proc p)
    generalize after : s'.code (.proc p) = code' at changes
    cases changes with
    | same => exact .inr ⟨k, code⟩
    | acquire _ code' | release _ code' =>
      rw [code] at code'
      cases code'
    | switch self runs code' sets =>
      rw [code] at code'
      cases code'
      cases sets
    | call _ idle => exact absurd holds (core.idle_free rfl idle)
    | interrupt runs enabled => exact absurd holds (core.enabled_free rfl runs enabled)
    | spawned self unused =>
      cases self
      rcases core.unused_code unused with same | same <;> rw [code] at same <;> cases same
    | exec runs code' next =>
      refine .inl ?_
      obtain ⟨eff, done, rfl, -⟩ := step_op taken runs code (by simp) rfl
      cases done
      simp [Table.set_procs]

end

/-- No wakeup is lost, and `sleep` returns as it was called. -/
structure SleepWakeup (init : State) (tr : List (Event × Obs)) : Prop where
  /-- `p` releases `lk` in `sleep(chan, lk)`; after that `t` calls `wakeup(chan)`; when
      the call has returned, `p` has been RUNNABLE. -/
  woken : ∀ pre c ch p lk chan k mid t rest more u v w,
    pre ++ (.go c ch, .silent) :: (mid ++ more) <+: tr →
    machine.Run init pre u → u.cpus c = .running p →
    u.code (.proc p) = .release lk :: .sleepSched chan :: .tidyUp :: .release (.proc p) ::
      .acquire lk :: k →
    machine.Run init (pre ++ (.go c ch, .silent) :: mid) v → v.code t = .wakeup chan 0 :: rest →
    machine.Run init (pre ++ (.go c ch, .silent) :: (mid ++ more)) w → w.code t = rest →
    ∃ upTo x, upTo <+: mid ++ more ∧
      machine.Run init (pre ++ (.go c ch, .silent) :: upTo) x ∧ (x.proc p).state = .runnable
  /-- The last thing that `sleep` does is to take `lk` again. -/
  returns : ∀ pre c ch o p lk k u v, pre ++ [(.go c ch, o)] <+: tr → machine.Run init pre u →
    u.cpus c = .running p → u.code (.proc p) = .acquire lk :: k →
    machine.Run init (pre ++ [(.go c ch, o)]) v →
    v.code (.proc p) = k ∧ v.cpus c = .running p ∧ v.locks lk = some c ∧ (v.proc p).chan = none

section

variable {trapframe pagetable : Nat} {tr : List (Event × Obs)}

theorem tidy_run {s : State} (run : machine.Run (start trapframe pagetable) tr s) : Tidy s := by
  refine run.always_invariant (fun _ s => Tidy s) ?_ ?_
  · intro p
    refine .inl ?_
    simp only [State.proc, start]
    split <;> rfl
  · exact fun _ _ _ _ _ earlier tidy taken => tidy_step (core_run earlier) tidy taken

theorem inSleep_of_release {u v : State} {c : Nat} {ch : Choice} {o : Obs} {p : Fin NPROC}
    {lk : Lk} {chan : Chan} {k : List Op} (core : Core u)
    (taken : step u (.go c ch) = some (v, o)) (runs : u.cpus c = .running p)
    (code : u.code (.proc p) = .release lk :: .sleepSched chan :: k) :
    InSleep v p chan k := by
  have changes := step_code taken (.proc p)
  generalize after : v.code (.proc p) = code' at changes
  rw [InSleep, after]
  cases changes with
  | same other => exact absurd (State.thread_eq_proc.mpr runs) (other c ch rfl)
  | acquire _ code' =>
    rw [code] at code'
    cases code'
  | release _ code' =>
    rw [code] at code'
    cases code'
    exact .inl rfl
  | switch _ _ code' sets =>
    rw [code] at code'
    cases code'
    cases sets
  | exec _ code' next =>
    rw [code] at code'
    cases code'
    cases next
  | spawned self unused =>
    cases self
    exact absurd runs (core.unused_off unused c)

/-- A `wakeup` that is called while `p` is in its sleep ends the sleep before it returns. -/
theorem runnable_of_wakeup {pre mid more : List (Event × Obs)} {u v w : State} {p : Fin NPROC}
    {chan : Chan} {t : Thread} {k rest : List Op}
    (before : machine.Run (start trapframe pagetable) pre u)
    (asleep : InSleep u p chan (.tidyUp :: k))
    (calls : machine.Run (start trapframe pagetable) (pre ++ mid) v)
    (call : v.code t = .wakeup chan 0 :: rest)
    (returns : machine.Run (start trapframe pagetable) (pre ++ (mid ++ more)) w)
    (ret : w.code t = rest) :
    ∃ upTo x, upTo <+: mid ++ more ∧ machine.Run (start trapframe pagetable) (pre ++ upTo) x ∧
      (x.proc p).state = .runnable := by
  rcases before.until (InSleep · p chan (.tidyUp :: k)) (fun s => (s.proc p).state = .runnable)
    asleep (fun _ _ _ _ _ earlier asleep taken => inSleep_step (core_run earlier) taken asleep)
    calls with asleep | ⟨upTo, x, within, reached, runnable⟩
  · have other : t ≠ .proc p := by
      rintro rfl
      rcases asleep with code | ⟨-, -, code⟩ <;> rw [call] at code <;> cases code
    have waking : Waking v t chan p rest := ⟨[], _, call, .loop (Nat.zero_le _)⟩
    have keep : ∀ pre u e o v, machine.Run (start trapframe pagetable) pre u →
        InSleep u p chan (.tidyUp :: k) ∧ Waking u t chan p rest → machine.step u e = some (v, o) →
        (InSleep v p chan (.tidyUp :: k) ∧ Waking v t chan p rest) ∨
          (v.proc p).state = .runnable := by
      rintro pre u e o v earlier ⟨asleep, waking⟩ taken
      rcases inSleep_step (core_run earlier) taken asleep with asleep' | runnable
      · rcases waking_step (core_run earlier) taken asleep other waking with waking' | runnable
        · exact .inl ⟨asleep', waking'⟩
        · exact .inr runnable
      · exact .inr runnable
    rw [← List.append_assoc] at returns
    rcases calls.until (fun s => InSleep s p chan (.tidyUp :: k) ∧ Waking s t chan p rest)
      (fun s => (s.proc p).state = .runnable) ⟨asleep, waking⟩
      keep returns with
      ⟨-, ops, now, code, visiting⟩ | ⟨upTo, x, within, reached, runnable⟩
    · -- a `wakeup` that has returned has nothing left
      obtain ⟨n, inside⟩ := visiting.mem
      rw [ret] at code
      have length := congrArg List.length code
      have := List.length_pos_of_mem inside
      simp only [List.length_append] at length
      omega
    · rw [List.append_assoc] at reached
      exact ⟨_, x, (List.prefix_append_right_inj _).mpr within, reached, runnable⟩
  · exact ⟨upTo, x, within.trans (List.prefix_append ..), reached, runnable⟩

theorem sleepWakeup_of_run {s : State} (run : machine.Run (start trapframe pagetable) tr s) :
    SleepWakeup (start trapframe pagetable) tr where
  woken := by
    intro pre c ch p lk chan k mid t rest more u v w inside before runs code calls call
      returns ret
    rw [← List.singleton_append, ← List.append_assoc] at inside calls returns
    obtain ⟨x, taken, released⟩ := run.step_of_prefix before ((List.prefix_append ..).trans inside)
    have asleep := inSleep_of_release (core_run before) taken runs code
    simpa only [List.append_assoc, List.singleton_append] using
      runnable_of_wakeup released asleep calls call returns ret
  returns := by
    intro pre c ch o p lk k u v inside before runs code after
    obtain ⟨v', taken, after'⟩ := run.step_of_prefix before inside
    obtain rfl := after'.unique after
    obtain rfl := step_acquire taken (State.thread_eq_proc.mpr runs) code
    refine ⟨Function.update_self .., runs, Function.update_self .., ?_⟩
    rcases tidy_run before p with none | ⟨k', code'⟩
    · exact none
    · rw [code] at code'
      cases code'

end

/-- init sleeps in `wait` and is woken by its child. -/
theorem sleepWakeup_reapRun : (∃ s, machine.Run (start 1 2) reapRun s) ∧
    SleepWakeup (start 1 2) reapRun := by
  obtain ⟨s, run, -⟩ := reapRun_run
  exact ⟨⟨s, run⟩, sleepWakeup_of_run run⟩

end Xv6.Kernel.Smp
