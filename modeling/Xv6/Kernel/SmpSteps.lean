import Xv6.Kernel.SmpInv

/-! # The steps of the machine

Everything that a step can be, with its guards, and everything that it can do to
one slot of the process table.
-/

namespace Xv6.Kernel.Smp

open Function

/-- What `sched` leaves: CPU `c` is back in the scheduler. -/
def State.switched (s : State) (c : Nat) (p : Fin NPROC) (x : Proc) (k : List Op) : State :=
  { s with
    table := s.table.set p x
    cpus := update s.cpus c (.leaving p)
    code := update s.code (.proc p) k }

/-- What the scheduler leaves that has picked `p`. -/
def State.picked (s : State) (c : Nat) (p : Fin NPROC) : State :=
  { s.acquire c (.proc p) with
    table := s.table.set p { s.proc p with state := .running }
    cpus := update s.cpus c (.running p) }

/-- What it leaves after releasing the lock of the process it ran. -/
def State.left (s : State) (c : Nat) (p : Fin NPROC) : State :=
  { s.release c (.proc p) with cpus := update s.cpus c .idle }

/-- The fields a process sets before it calls `sched`. -/
inductive Switch (x : Proc) : Op → Proc → Prop where
  | sleep {chan} : Switch x (.sleepSched chan) { x with chan := some chan, state := .sleeping }
  | yield : Switch x .yieldSched { x with state := .runnable }
  | exit : Switch x .exitSched x

/-- Everything a step can be. -/
inductive Step (s : State) : Event → State → Obs → Prop where
  | acquire {c ch t lk k} (runs : s.thread c = some t) (code : s.code t = .acquire lk :: k)
      (free : s.locks lk = none) : Step s (.go c ch) ((s.acquire c lk).setCode t k) .silent
  | release {c ch t lk k} (runs : s.thread c = some t) (code : s.code t = .release lk :: k)
      (held : s.locks lk = some c) : Step s (.go c ch) ((s.release c lk).setCode t k) .silent
  | switch {c ch p op k x} (runs : s.cpus c = .running p) (code : s.code (.proc p) = op :: k)
      (sets : Switch (s.proc p) op x) (held : s.locks (.proc p) = some c) (only : s.noff c = 1) :
      Step s (.go c ch) (s.switched c p x k) .silent
  | exec {c ch t op k eff} (runs : s.thread c = some t) (code : s.code t = op :: k)
      (done : exec t ch s.table op = some eff) : Step s (.go c ch) (s.apply t eff k) eff.obs
  | call {c call t ops} (runs : s.thread c = some t)
      (idle : s.code t = [] ∨ ∃ k, s.code t = .iret :: k) (calls : Calls t (s.code t) ops) :
      Step s (.call c call) (s.setCode t (ops ++ s.code t)) .silent
  | interrupt {c t} (runs : s.thread c = some t) (enabled : s.noff c = 0) :
      Step s (.interrupt c) (s.setCode t (.iret :: s.code t)) .silent
  | schedule {c p} (idle : s.cpus c = .idle) (code : s.code (.idle c) = [])
      (free : s.locks (.proc p) = none) (ready : (s.proc p).state = .runnable) :
      Step s (.schedule c p) (s.picked c p) .silent
  | leave {c p} (leaving : s.cpus c = .leaving p) (held : s.locks (.proc p) = some c) :
      Step s (.leave c) (s.left c p) .silent

section

variable {s s' : State} {c d : Nat} {ch : Choice} {t : Thread} {tb : Table} {op : Op} {k : List Op}
  {eff : Effect} {e : Event} {o : Obs} {p i : Fin NPROC} {x : Proc} {lk : Lk}

theorem State.thread_eq_proc : s.thread c = some (.proc p) ↔ s.cpus c = .running p := by
  unfold thread
  cases s.cpus c <;> simp

theorem State.thread_eq_idle : s.thread c = some (.idle d) ↔ s.cpus c = .idle ∧ c = d := by
  unfold thread
  cases s.cpus c <;> simp

theorem schedOp_switch (done : schedOp s c p k op = some s') :
    ∃ x, Switch (s.proc p) op x ∧ s.locks (.proc p) = some c ∧ s.noff c = 1 ∧
      s' = s.switched c p x k := by
  have sched : ∀ x, s.sched c p x k = some s' →
      s.locks (.proc p) = some c ∧ s.noff c = 1 ∧ s' = s.switched c p x k := by
    intro x done
    unfold State.sched at done
    split at done
    · rename_i ok
      cases done
      exact ⟨ok.1, ok.2, rfl⟩
    · cases done
  cases op with
  | sleepSched chan => exact ⟨_, .sleep, sched _ done⟩
  | yieldSched => exact ⟨_, .yield, sched _ done⟩
  | exitSched => exact ⟨_, .exit, sched _ done⟩
  | _ => cases done

theorem step_cases (taken : step s e = some (s', o)) : Step s e s' o := by
  cases e with
  | go c ch =>
    simp only [step] at taken
    split at taken
    · cases taken
    rename_i t runs
    split at taken
    · cases taken
    rename_i op k code
    unfold goOp at taken
    split at taken
    · split at taken <;> cases taken
      rename_i free
      exact .acquire runs code free
    · split at taken <;> cases taken
      rename_i held
      exact .release runs code held
    · split at taken
      · split at taken
        · rename_i p _
          obtain ⟨s'', done, same⟩ := Option.map_eq_some_iff.mp taken
          cases same
          obtain ⟨x, sets, held, only, rfl⟩ := schedOp_switch done
          exact .switch (State.thread_eq_proc.mp runs) code sets held only
        · cases taken
      · obtain ⟨eff, done, same⟩ := Option.map_eq_some_iff.mp taken
        cases same
        exact .exec runs code done
  | call c call =>
    simp only [step] at taken
    split at taken
    · cases taken
    rename_i t runs
    obtain ⟨ops, code, same⟩ := Option.map_eq_some_iff.mp taken
    cases same
    obtain ⟨idle, calls⟩ := callCode_calls code
    exact .call runs idle calls
  | interrupt c =>
    simp only [step] at taken
    split at taken
    · cases taken
    rename_i t runs
    split at taken <;> cases taken
    rename_i enabled
    exact .interrupt runs enabled
  | schedule c p =>
    simp only [step] at taken
    split at taken <;> cases taken
    rename_i ok
    exact .schedule ok.1 ok.2.1 ok.2.2.1 ok.2.2.2
  | leave c =>
    simp only [step] at taken
    split at taken
    · rename_i p leaving
      split at taken <;> cases taken
      rename_i held
      exact .leave leaving held
    · cases taken

/-! ## Operations on the table -/

namespace State

variable (s t eff k)

@[simp] theorem apply_table : (s.apply t eff k).table = eff.table := by
  unfold apply
  split <;> rfl

@[simp] theorem apply_proc (i : Fin NPROC) : (s.apply t eff k).proc i = eff.table.procs i := by
  rw [proc, apply_table]

@[simp] theorem apply_cpus : (s.apply t eff k).cpus = s.cpus := by
  unfold apply
  split <;> rfl

@[simp] theorem apply_thread (c : Nat) : (s.apply t eff k).thread c = s.thread c := by
  simp only [thread, apply_cpus]

@[simp] theorem apply_locks : (s.apply t eff k).locks = s.locks := by
  unfold apply
  split <;> rfl

@[simp] theorem apply_noff : (s.apply t eff k).noff = s.noff := by
  unfold apply
  split <;> rfl

variable {s t eff k}

theorem apply_code_spawned (spawned : eff.spawned = some i) :
    (s.apply t eff k).code (.proc i) = forkret i := by
  simp [apply, spawned, setCode]

theorem apply_code_self (other : ∀ i, t = .proc i → eff.spawned ≠ some i) :
    (s.apply t eff k).code t = eff.next ++ k := by
  unfold apply
  split
  · rename_i i spawned
    have : t ≠ .proc i := fun same => other i same spawned
    simp [setCode, this]
  · simp [setCode]

theorem apply_code_other {u : Thread} (different : u ≠ t)
    (other : ∀ i, u = .proc i → eff.spawned ≠ some i) :
    (s.apply t eff k).code u = s.code u := by
  unfold apply
  split
  · rename_i i spawned
    have : u ≠ .proc i := fun same => other i same spawned
    simp [setCode, this, different]
  · simp [setCode, different]

end State

theorem Touch.state (touch : Touch t tb i op x) : x.state = (tb.procs i).state ∨
      (tb.procs i).state = .sleeping ∧ x.state = .runnable ∨
      op = .forkRunnable i ∧ x.state = .runnable ∨
      op = .forkAt i ∧ (tb.procs i).state = .unused ∧ x.state = .used ∨
      (∃ status, op = .exitZombie status ∧ t = .proc i ∧ x.state = .zombie) ∨
      ∃ addr, op = .waitAt addr i ∧ (tb.procs i).state = .zombie ∧ x.state = .unused := by
  cases touch with
  | same | tidyUp | setkilled | adopted | reparented => exact .inl rfl
  | woken asleep => exact .inr (.inl ⟨asleep, rfl⟩)
  | killed =>
    by_cases asleep : (tb.procs i).state = .sleeping
    · exact .inr (.inl ⟨asleep, if_pos asleep⟩)
    · exact .inl (if_neg asleep)
  | allocated unused => exact .inr (.inr (.inr (.inl ⟨rfl, unused, rfl⟩)))
  | failed unused => exact .inl unused.symm
  | started => exact .inr (.inr (.inl ⟨rfl, rfl⟩))
  | exited self => exact .inr (.inr (.inr (.inr (.inl ⟨_, rfl, self, rfl⟩))))
  | reaped self zombie => exact .inr (.inr (.inr (.inr (.inr ⟨_, rfl, zombie, rfl⟩))))

theorem forkAt_cases (done : exec t ch tb (.forkAt i) = some eff) :
    (eff.spawned = none ∧ (eff.table.procs i).state = (tb.procs i).state ∧
      ∀ np, .forkRunnable np ∉ eff.next) ∨
    ((tb.procs i).state = .unused ∧ eff.spawned = some i ∧
      eff.obs = .forked (some (i, tb.nextpid)) ∧ (eff.table.procs i).state = .used) := by
  cases t with
  | idle c => cases done
  | proc p =>
    dsimp only [exec, execProc] at done
    split at done
    · rename_i unused
      unfold forkSlot at done
      split at done
      · split at done <;> cases done
        exact .inr ⟨unused, rfl, rfl, by simp [Table.set_procs]⟩
      · cases done
        exact .inl ⟨rfl, by simp [Table.set_procs, freeproc, unused], by simp⟩
    · cases done
      exact .inl ⟨rfl, rfl, by simp⟩

/-- Only `fork` starts another process, and nothing starts the end of `exit`. -/
theorem Next.mem {ops : List Op} (next : Next t tb op ops) :
    .exitSched ∉ ops ∧ (∀ status, .exitZombie status ∉ ops) ∧
      ∀ np, .forkRunnable np ∈ ops → op = .forkAt np := by
  cases next with
  | @testEnd w => cases w <;> simp [Wait.ending]
  | @testSleep p w => cases w <;> simp [Wait.wakeup, sleepCode]
  | _ => simp

section

variable (taken : step s (.go c ch) = some (s', o))
include taken

theorem step_op (runs : s.thread c = some t) (code : s.code t = op :: k)
    (lock : ∀ lk, op ≠ .acquire lk ∧ op ≠ .release lk) (stays : op.switches = false) :
    ∃ eff, exec t ch s.table op = some eff ∧ s' = s.apply t eff k ∧ o = eff.obs := by
  have same : ∀ {u op' k'}, s.thread c = some u → s.code u = op' :: k' →
      u = t ∧ op' = op ∧ k' = k := by
    intro u op' k' runs' code'
    obtain rfl : u = t := Option.some.inj (runs'.symm.trans runs)
    rw [code] at code'
    cases code'
    exact ⟨rfl, rfl, rfl⟩
  cases step_cases taken with
  | acquire runs' code' =>
    obtain ⟨-, rfl, -⟩ := same runs' code'
    exact absurd rfl (lock _).1
  | release runs' code' =>
    obtain ⟨-, rfl, -⟩ := same runs' code'
    exact absurd rfl (lock _).2
  | switch runs' code' sets =>
    obtain ⟨-, rfl, -⟩ := same (State.thread_eq_proc.mpr runs') code'
    cases sets <;> cases stays
  | exec runs' code' done =>
    obtain ⟨rfl, rfl, rfl⟩ := same runs' code'
    exact ⟨_, done, rfl, rfl⟩

theorem step_acquire (runs : s.thread c = some t) (code : s.code t = .acquire lk :: k) :
    s' = (s.acquire c lk).setCode t k := by
  simp only [step, runs, code, goOp] at taken
  split at taken <;> cases taken
  rfl

theorem step_switch (runs : s.cpus c = .running p) (code : s.code (.proc p) = op :: k)
    (switches : op.switches = true) :
    ∃ x, Switch (s.proc p) op x ∧ s' = s.switched c p x k := by
  have same : ∀ {u op' k'}, s.thread c = some u → s.code u = op' :: k' →
      u = .proc p ∧ op' = op ∧ k' = k := by
    intro u op' k' runs' code'
    obtain rfl := Option.some.inj (runs'.symm.trans (State.thread_eq_proc.mpr runs))
    rw [code] at code'
    cases code'
    exact ⟨rfl, rfl, rfl⟩
  cases step_cases taken with
  | acquire runs' code' | release runs' code' =>
    obtain ⟨-, rfl, -⟩ := same runs' code'
    cases switches
  | switch runs' code' sets =>
    obtain ⟨self, rfl, rfl⟩ := same (State.thread_eq_proc.mpr runs') code'
    cases self
    exact ⟨_, sets, rfl⟩
  | @exec _ _ _ _ _ eff runs' code' done =>
    obtain ⟨-, rfl, -⟩ := same runs' code'
    have next := (exec_does done).next
    generalize eff.next = ops at next
    cases next <;> cases switches

end

/-! ## Observations -/

theorem step_shows (taken : step s e = some (s', o))
    (loud : o ≠ .silent) : ∃ c ch t op k, e = .go c ch ∧ s.thread c = some t ∧
      s.code t = op :: k ∧ Shows t ch s.table op s'.table o := by
  cases step_cases taken with
  | exec runs code done =>
    refine ⟨_, _, _, _, _, rfl, runs, code, ?_⟩
    rw [State.apply_table]
    exact (exec_does done).shows
  | _ => exact absurd rfl loud

end

/-! ## Slots -/

/-- Everything a step can do to slot `i`. -/
inductive SlotStep (s : State) (i : Fin NPROC) : Event → Proc → Prop where
  | same {e} : SlotStep s i e (s.proc i)
  | touch {c ch t op k x} (runs : s.thread c = some t) (code : s.code t = op :: k)
      (touch : Touch t s.table i op x) : SlotStep s i (.go c ch) x
  | switch {c ch op k x} (runs : s.cpus c = .running i) (code : s.code (.proc i) = op :: k)
      (sets : Switch (s.proc i) op x) : SlotStep s i (.go c ch) x
  | picked {c} (ready : (s.proc i).state = .runnable) :
      SlotStep s i (.schedule c i) { s.proc i with state := .running }

theorem step_slot {s s' : State} {e : Event} {o : Obs} (taken : step s e = some (s', o))
    (i : Fin NPROC) : SlotStep s i e (s'.proc i) := by
  cases step_cases taken with
  | acquire | release | call | interrupt | leave => exact .same
  | @switch c ch p op k x runs code sets =>
    rw [State.proc, State.switched, Table.set_procs]
    split
    · rename_i here
      subst here
      exact .switch runs code sets
    · exact .same
  | exec runs code done =>
    rw [State.apply_proc]
    exact .touch runs code ((exec_does done).touch i)
  | @schedule c p _ _ _ ready =>
    rw [State.proc, State.picked, Table.set_procs]
    split
    · rename_i here
      subst here
      exact .picked ready
    · exact .same

/-! ## Threads -/

/-- Everything a step can do to what thread `t` has still to do. -/
inductive CodeStep (s : State) (t : Thread) : Event → List Op → Prop where
  | same {e} (other : ∀ c ch, e = .go c ch → s.thread c ≠ some t) : CodeStep s t e (s.code t)
  | acquire {c ch lk k} (runs : s.thread c = some t) (code : s.code t = .acquire lk :: k)
      (free : s.locks lk = none) : CodeStep s t (.go c ch) k
  | release {c ch lk k} (runs : s.thread c = some t) (code : s.code t = .release lk :: k)
      (held : s.locks lk = some c) : CodeStep s t (.go c ch) k
  | switch {c ch p op k x} (self : t = .proc p) (runs : s.cpus c = .running p)
      (code : s.code t = op :: k) (sets : Switch (s.proc p) op x)
      (held : s.locks (.proc p) = some c) (only : s.noff c = 1) : CodeStep s t (.go c ch) k
  | exec {c ch op k ops} (runs : s.thread c = some t) (code : s.code t = op :: k)
      (next : Next t s.table op ops) : CodeStep s t (.go c ch) (ops ++ k)
  | call {c call ops} (runs : s.thread c = some t)
      (idle : s.code t = [] ∨ ∃ k, s.code t = .iret :: k) (calls : Calls t (s.code t) ops) :
      CodeStep s t (.call c call) (ops ++ s.code t)
  | interrupt {c} (runs : s.thread c = some t) (enabled : s.noff c = 0) :
      CodeStep s t (.interrupt c) (.iret :: s.code t)
  | spawned {e i} (self : t = .proc i) (unused : (s.proc i).state = .unused) :
      CodeStep s t e (forkret i)

theorem step_code {s s' : State} {e : Event} {o : Obs} (taken : step s e = some (s', o))
    (t : Thread) : CodeStep s t e (s'.code t) := by
  have other : ∀ {c : Nat} {u : Thread} {e : Event}, s.thread c = some u → t ≠ u →
      (∀ d ch, e = .go d ch → d = c) → ∀ d ch, e = .go d ch → s.thread d ≠ some t := by
    intro c u e runs different cpu d ch go runs'
    rw [cpu d ch go, runs] at runs'
    cases runs'
    exact different rfl
  have update : ∀ {c : Nat} {u : Thread} {k : List Op} {e : Event}, s.thread c = some u →
      (∀ d ch, e = .go d ch → d = c) → CodeStep s u e k →
      CodeStep s t e (update s.code u k t) := by
    intro c u k e runs cpu step
    by_cases here : t = u
    · rw [here, update_self]
      exact step
    · rw [update_of_ne here]
      exact .same (other runs here cpu)
  cases step_cases taken with
  | acquire runs code free => exact update runs (by simp) (.acquire runs code free)
  | release runs code held => exact update runs (by simp) (.release runs code held)
  | switch runs code sets held only =>
    exact update (State.thread_eq_proc.mpr runs) (by simp) (.switch rfl runs code sets held only)
  | call runs idle calls => exact update runs (by simp) (.call runs idle calls)
  | interrupt runs enabled => exact update runs (by simp) (.interrupt runs enabled)
  | schedule | leave => exact .same (by simp)
  | @exec c ch u op k eff runs code done =>
    by_cases born : ∃ i, t = .proc i ∧ eff.spawned = some i
    · obtain ⟨i, rfl, spawned⟩ := born
      rw [State.apply_code_spawned spawned]
      exact .spawned rfl ((exec_does done).spawns i spawned).2.1
    · have fresh : ∀ i, t = .proc i → eff.spawned ≠ some i :=
        fun i same spawned => born ⟨i, same, spawned⟩
      by_cases here : t = u
      · subst here
        rw [State.apply_code_self fresh]
        exact .exec runs code (exec_does done).next
      · rw [State.apply_code_other here fresh]
        exact .same (other runs here (by simp))

end Xv6.Kernel.Smp
