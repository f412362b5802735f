import Xv6.Kernel.SmpSteps

/-! # Threads, CPUs and locks

The invariant behind all results about processes: each CPU holds the locks that
its thread's operations call for, a process runs on one CPU at most, and a
process that is switched out will resume holding its own lock and no other.
-/

namespace Xv6.Kernel.Smp

open Function (update update_apply update_self update_of_ne)

variable {c : Nat} {t : Thread} {p : Fin NPROC} {lk : Lk} {k ops : List Op} {op : Op}
variable {s s' : State}

/-! ## The invariant -/

/-- What a process has still to do once `exit` has made it a ZOMBIE. -/
def Dying (k : List Op) : Prop := k = [.release .wait, .exitSched] ∨ k = [.exitSched]

/-- `p` is on CPU `c`, or being switched out there. -/
def On (s : State) (c : Nat) (p : Fin NPROC) : Prop :=
  s.cpus c = .running p ∨ s.cpus c = .leaving p

/-- `noff` counts the locks that CPU `d` holds. -/
def Counted (s : State) (d : Nat) : Prop :=
  ∃ held : List Lk, held.Nodup ∧ (∀ lk, lk ∈ held ↔ s.locks lk = some d) ∧ s.noff d = held.length

/-- Where process `p` is, what state it is in and what it has still to do go together. -/
structure Placed (s : State) (p : Fin NPROC) : Prop where
  running : ∀ c, s.cpus c = .running p →
    (s.proc p).state = .running ∧ ¬ Dying (s.code (.proc p)) ∨
      (s.proc p).state = .zombie ∧ Dying (s.code (.proc p))
  onCpu : (s.proc p).state = .running → ∃ c, s.cpus c = .running p
  parked : (∀ c, s.cpus c ≠ .running p) → (s.proc p).state ≠ .unused →
    (s.proc p).state ≠ .zombie → ¬ Dying (s.code (.proc p)) ∧
      ∀ lk, lk.inner = true → (need (.proc p) (s.code (.proc p)) lk ↔ lk = .proc p)
  dead : (∀ c, s.cpus c ≠ .running p) →
    (s.proc p).state = .unused ∨ (s.proc p).state = .zombie →
    s.code (.proc p) = [] ∨ s.code (.proc p) = forkret p
  busy : need (.proc p) (s.code (.proc p)) .wait ∨
    (∃ chan k, s.code (.proc p) = .sleepSched chan :: k) → ∃ c, s.cpus c = .running p

structure Core (s : State) : Prop where
  fits : ∀ t, Fits t (s.code t)
  counted : ∀ c, Counted s c
  holds : ∀ c t, s.thread c = some t → ∀ lk, lk.inner = true →
    (s.locks lk = some c ↔ need t (s.code t) lk)
  leaving : ∀ c p, s.cpus c = .leaving p → s.locks (.proc p) = some c ∧ s.noff c = 1
  idleCode : ∀ c, s.cpus c ≠ .idle → s.code (.idle c) = []
  unique : ∀ c d p, On s c p → On s d p → c = d
  placed : ∀ p, Placed s p
  exits : ∀ t, .exitSched ∈ s.code t →
    (∃ status, .exitZombie status ∈ s.code t) ∨ Dying (s.code t)
  forking : ∀ t np, .forkRunnable np ∈ s.code t → (s.proc np).state = .used
  forkOnce : ∀ t u np, .forkRunnable np ∈ s.code t → .forkRunnable np ∈ s.code u → t = u

theorem core_start (trapframe pagetable : Nat) : Core (start trapframe pagetable) where
  fits := by
    intro t
    cases t with
    | proc p => exact .cons (.release (by simp)) .nil
    | idle c => exact .nil
  counted := fun c => ⟨[], by simp [start]⟩
  holds := by
    intro c t runs lk _
    cases t with
    | proc p => cases runs
    | idle d => simp [start, need_nil]
  leaving := by
    intro c p leaving
    cases leaving
  idleCode := fun c _ => rfl
  unique := by
    rintro c d p (on | on) <;> cases on
  placed := by
    intro p
    refine ⟨fun c on => ?_, fun running => ?_, fun _ _ _ => ?_, fun _ _ => .inr rfl,
      fun holds => ?_⟩
    · cases on
    · simp only [State.proc, start] at running
      split at running <;> cases running
    · refine ⟨by simp [Dying, start, forkret], fun lk _ => ?_⟩
      simp [start, forkret]
    · simp [start, forkret] at holds
  exits := by
    intro t inside
    cases t <;> simp [start, forkret] at inside
  forking := by
    intro t np inside
    cases t <;> simp [start, forkret] at inside
  forkOnce := by
    intro t u np inside
    cases t <;> simp [start, forkret] at inside

namespace Core

variable {s : State}

section

variable (core : Core s)
include core

theorem thread_unique {d : Nat} (runs : s.thread c = some t) (runs' : s.thread d = some t) :
    c = d := by
  cases t with
  | proc p =>
    rw [State.thread_eq_proc] at runs runs'
    exact core.unique c d p (.inl runs) (.inl runs')
  | idle b =>
    rw [State.thread_eq_idle] at runs runs'
    exact runs.2.trans runs'.2.symm

theorem running_state (runs : s.cpus c = .running p) :
    (s.proc p).state = .running ∨ (s.proc p).state = .zombie := by
  rcases (core.placed p).running c runs with ⟨running, -⟩ | ⟨zombie, -⟩
  · exact .inl running
  · exact .inr zombie

theorem unused_off (unused : (s.proc p).state = .unused) (c : Nat) : s.cpus c ≠ .running p := by
  intro runs
  rcases core.running_state runs with state | state <;> rw [unused] at state <;> cases state

theorem unused_code (unused : (s.proc p).state = .unused) :
    s.code (.proc p) = [] ∨ s.code (.proc p) = forkret p :=
  (core.placed p).dead (core.unused_off unused) (.inl unused)

theorem noff_pos (held : s.locks lk = some c) : 0 < s.noff c := by
  obtain ⟨locks, -, all, count⟩ := core.counted c
  rw [count]
  exact List.length_pos_of_mem ((all lk).mpr held)

/-- What the first operation of a thread says of those that follow. -/
theorem head (code : s.code t = op :: k) : op.Fits t k ∧ Fits t k := by
  have fits := core.fits t
  rw [code] at fits
  cases fits with
  | cons first rest => exact ⟨first, rest⟩

theorem idle_free (inner : lk.inner = true) (idle : s.code t = [] ∨ ∃ k, s.code t = .iret :: k) :
    ¬ need t (s.code t) lk := by
  rcases idle with code | ⟨k, code⟩
  · simp [code]
  · rw [code]
    cases (core.head code).1 with
    | iret free => simpa using free lk inner

theorem enabled_free (inner : lk.inner = true) (runs : s.thread c = some t)
    (enabled : s.noff c = 0) : ¬ need t (s.code t) lk := by
  intro held
  have := core.noff_pos ((core.holds c t runs lk inner).mpr held)
  omega

theorem only_lock {x : Lk} (held : s.locks lk = some c) (one : s.noff c = 1) :
    s.locks x = some c ↔ x = lk := by
  obtain ⟨locks, -, all, count⟩ := core.counted c
  obtain ⟨y, rfl⟩ := List.length_eq_one_iff.mp (count.symm.trans one)
  rw [← all x, ← all lk] at *
  simp only [List.mem_singleton] at held ⊢
  rw [held]

/-- A thread that switches holds only the lock of its process. -/
theorem switch_free (runs : s.cpus c = .running p) (held : s.locks (.proc p) = some c)
    (one : s.noff c = 1) :
    ¬ need (.proc p) (s.code (.proc p)) .wait := by
  rw [← core.holds c _ (State.thread_eq_proc.mpr runs) _ rfl, core.only_lock held one]
  simp

end

end Core

/-- A step that leaves the slot, the operations and the CPU of `p` alone. -/
theorem Placed.congr {p : Fin NPROC} (placed : Placed s p) (proc : s'.proc p = s.proc p)
    (code : s'.code (.proc p) = s.code (.proc p))
    (cpus : ∀ c, s'.cpus c = .running p ↔ s.cpus c = .running p) : Placed s' p := by
  constructor <;> simp only [proc, code, cpus, ne_eq]
  · exact placed.running
  · exact placed.onCpu
  · exact placed.parked
  · exact placed.dead
  · exact placed.busy

/-- Of a process on a CPU only its state is in question. -/
theorem Placed.of_running {c : Nat} {p : Fin NPROC} (on : s.cpus c = .running p)
    (state : (s.proc p).state = .running ∧ ¬ Dying (s.code (.proc p)) ∨
      (s.proc p).state = .zombie ∧ Dying (s.code (.proc p))) :
    Placed s p where
  running := fun _ _ => state
  onCpu := fun _ => ⟨c, on⟩
  parked := fun off => absurd on (off c)
  dead := fun off => absurd on (off c)
  busy := fun _ => ⟨c, on⟩

theorem counted_acquire (free : s.locks lk = none) (counted : ∀ c, Counted s c) (d : Nat) :
    Counted (s.acquire c lk) d := by
  obtain ⟨held, nodup, all, count⟩ := counted d
  have fresh : lk ∉ held := by
    rw [all, free]
    simp
  by_cases here : d = c
  · subst here
    refine ⟨lk :: held, List.nodup_cons.mpr ⟨fresh, nodup⟩, ?_, by simp [State.acquire, count]⟩
    intro x
    simp only [List.mem_cons, State.acquire, update_apply, all]
    by_cases same : x = lk
    · simp [same]
    · simp [same]
  · refine ⟨held, nodup, ?_, by simp [State.acquire, here, count]⟩
    intro x
    simp only [State.acquire, update_apply]
    by_cases same : x = lk
    · rw [if_pos same, same]
      simp [fresh, Ne.symm here]
    · rw [if_neg same]
      exact all x

theorem counted_release (mine : s.locks lk = some c) (counted : ∀ c, Counted s c) (d : Nat) :
    Counted (s.release c lk) d := by
  obtain ⟨held, nodup, all, count⟩ := counted d
  by_cases here : d = c
  · subst here
    have inside : lk ∈ held := (all lk).mpr mine
    refine ⟨held.erase lk, nodup.erase lk, ?_, ?_⟩
    · intro x
      simp only [State.release, update_apply, nodup.mem_erase_iff, all]
      by_cases same : x = lk
      · simp [same]
      · simp [same]
    · simp [State.release, count, List.length_erase_of_mem inside]
  · refine ⟨held, nodup, ?_, by simp [State.release, here, count]⟩
    intro x
    simp only [State.release, update_apply]
    by_cases same : x = lk
    · rw [if_pos same, all, same, mine]
      simp [Ne.symm here]
    · rw [if_neg same]
      exact all x

theorem Calls.mem (calls : Calls t k ops) : ¬ Dying (ops ++ k) ∧ (∀ np, .forkRunnable np ∉ ops) ∧
      (.exitSched ∈ ops → ∃ status, .exitZombie status ∈ ops) := by
  cases calls with
  | @release k lk outer =>
    refine ⟨?_, by simp, by simp⟩
    rintro (same | same)
    · cases same
      cases outer
    · cases same
  | _ => simp [Dying, sleepCode, exitCode]

/-- An operation changes the code of its own thread, and of one that `fork` starts. -/
theorem State.apply_code_cases {s : State} {eff : Effect} {u : Thread} (other : u ≠ t) :
    (s.apply t eff k).code u = s.code u ∨
      ∃ i, u = .proc i ∧ eff.spawned = some i ∧ (s.apply t eff k).code u = forkret i := by
  by_cases born : ∃ i, u = .proc i ∧ eff.spawned = some i
  · obtain ⟨i, rfl, spawned⟩ := born
    exact .inr ⟨i, rfl, spawned, State.apply_code_spawned spawned⟩
  · exact .inl (State.apply_code_other other fun i same spawned => born ⟨i, same, spawned⟩)

namespace Core

variable {s s' : State}

/-- A step in which only the control of the thread on CPU `c` and the locks of
    that CPU change. -/
theorem control (core : Core s)
    (runs : s.thread c = some t) (table : s'.table = s.table) (cpus : s'.cpus = s.cpus)
    (code : s'.code = update s.code t k) (fits : Fits t k)
    (counted : ∀ d, Counted s' d)
    (mine : ∀ lk, lk.inner = true → (s'.locks lk = some c ↔ need t k lk))
    (others : ∀ d lk, d ≠ c → (s'.locks lk = some d ↔ s.locks lk = some d))
    (noff : ∀ d, d ≠ c → s'.noff d = s.noff d) (dying : Dying k ↔ Dying (s.code t))
    (exits : .exitSched ∈ k → (∃ status, .exitZombie status ∈ k) ∨ Dying k)
    (forks : ∀ np, .forkRunnable np ∈ k → .forkRunnable np ∈ s.code t) : Core s' := by
  have thread : ∀ d, s'.thread d = s.thread d := by
    intro d
    simp only [State.thread, cpus]
  have proc : ∀ p, s'.proc p = s.proc p := by
    intro p
    simp only [State.proc, table]
  have here : s'.code t = k := by rw [code, update_self]
  have there : ∀ u, u ≠ t → s'.code u = s.code u := by
    intro u other
    rw [code, update_of_ne other]
  have dying' : ∀ u, Dying (s'.code u) ↔ Dying (s.code u) := by
    intro u
    by_cases self : u = t
    · rw [self, here]
      exact dying
    · rw [there u self]
  have forks' : ∀ u np, .forkRunnable np ∈ s'.code u → .forkRunnable np ∈ s.code u := by
    intro u np inside
    by_cases self : u = t
    · rw [self, here] at inside
      rw [self]
      exact forks np inside
    · rwa [there u self] at inside
  have placed : ∀ p, Placed s' p := by
    intro p
    by_cases self : Thread.proc p = t
    · subst self
      have on := State.thread_eq_proc.mp runs
      refine .of_running (by rw [cpus]; exact on) ?_
      rw [proc, dying']
      exact (core.placed p).running c on
    · exact (core.placed p).congr (proc p) (there _ self) fun d => by rw [cpus]
  exact
    { fits := by
        intro u
        by_cases self : u = t
        · rw [self, here]
          exact fits
        · rw [there u self]
          exact core.fits u
      counted := counted
      holds := by
        intro d u runs' lk inner
        rw [thread] at runs'
        by_cases self : d = c
        · subst self
          obtain rfl : u = t := Option.some.inj (runs'.symm.trans runs)
          rw [here]
          exact mine lk inner
        · have other : u ≠ t := by
            rintro rfl
            exact self (core.thread_unique runs' runs)
          rw [others d lk self, there u other]
          exact core.holds d u runs' lk inner
      leaving := by
        intro d p gone
        rw [cpus] at gone
        have other : d ≠ c := by
          rintro rfl
          simp [State.thread, gone] at runs
        rw [others d _ other, noff d other]
        exact core.leaving d p gone
      idleCode := by
        intro d busy
        rw [cpus] at busy
        have other : Thread.idle d ≠ t := by
          rintro rfl
          obtain ⟨idle, rfl⟩ := State.thread_eq_idle.mp runs
          exact busy idle
        rw [there _ other]
        exact core.idleCode d busy
      unique := by
        intro a b p one two
        simp only [On, cpus] at one two
        exact core.unique a b p one two
      placed := placed
      exits := by
        intro u inside
        by_cases self : u = t
        · rw [self, here] at inside ⊢
          exact exits inside
        · rw [there u self] at inside ⊢
          exact core.exits u inside
      forking := by
        intro u np inside
        rw [proc]
        exact core.forking u np (forks' u np inside)
      forkOnce := by
        intro u v np one two
        exact core.forkOnce u v np (forks' u np one) (forks' v np two) }

/-- Doing the first operation, when that is a lock, does not make a thread Dying. -/
theorem dying_tail (lock : ∀ status, op ≠ .exitZombie status)
    (exits : .exitSched ∈ op :: k → (∃ status, .exitZombie status ∈ op :: k) ∨ Dying (op :: k))
    (dying : Dying k) : Dying (op :: k) := by
  have inside : Op.exitSched ∈ op :: k := by
    rcases dying with rfl | rfl <;> simp
  rcases exits inside with ⟨status, found⟩ | same
  · rcases List.mem_cons.mp found with first | found
    · exact absurd first.symm (lock status)
    · rcases dying with rfl | rfl <;> simp at found
  · exact same

theorem exits_tail (lock : ∀ status, op ≠ .exitZombie status) (dying : Dying (op :: k) → Dying k)
    (exits : .exitSched ∈ op :: k → (∃ status, .exitZombie status ∈ op :: k) ∨ Dying (op :: k))
    (inside : .exitSched ∈ k) : (∃ status, .exitZombie status ∈ k) ∨ Dying k := by
  rcases exits (List.mem_cons_of_mem _ inside) with ⟨status, found⟩ | gone
  · rcases List.mem_cons.mp found with first | found
    · exact absurd first.symm (lock status)
    · exact .inl ⟨status, found⟩
  · exact .inr (dying gone)

theorem acquire (core : Core s)
    (runs : s.thread c = some t) (code : s.code t = .acquire lk :: k) (free : s.locks lk = none) :
    Core ((s.acquire c lk).setCode t k) := by
  obtain ⟨first, rest⟩ := core.head code
  have exits := core.exits t
  rw [code] at exits
  have alive : ¬ Dying (.acquire lk :: k) := by simp [Dying]
  have held : lk.inner = true → need t k lk := by
    cases first with
    | acquire held _ => exact held
  refine core.control runs rfl rfl rfl rest (counted_acquire free core.counted) ?_ ?_ ?_ ?_ ?_ ?_
  · intro x inner
    have before := core.holds c t runs x inner
    rw [code, need_cons, Op.holding] at before
    simp only [State.setCode, State.acquire, update_apply]
    by_cases same : x = lk
    · subst same
      simp [held inner]
    · simp [same, before]
  · intro d x other
    simp only [State.setCode, State.acquire, update_apply]
    by_cases same : x = lk
    · simp [same, free, Ne.symm other]
    · simp [same]
  · intro d other
    simp [State.setCode, State.acquire, other]
  · rw [code]
    exact ⟨fun gone => dying_tail (by simp) exits gone, fun gone => absurd gone alive⟩
  · exact exits_tail (by simp) (fun gone => absurd gone alive) exits
  · intro np inside
    rw [code]
    exact List.mem_cons_of_mem _ inside

theorem release (core : Core s) (runs : s.thread c = some t) (code : s.code t = .release lk :: k)
    (mine : s.locks lk = some c) : Core ((s.release c lk).setCode t k) := by
  obtain ⟨first, rest⟩ := core.head code
  have exits := core.exits t
  rw [code] at exits
  have dying : Dying (.release lk :: k) → Dying k := by
    rintro (same | same)
    · cases same
      exact .inr rfl
    · cases same
  have out : lk.inner = true → ¬ need t k lk := by
    cases first with
    | release out => exact out
  refine core.control runs rfl rfl rfl rest (counted_release mine core.counted) ?_ ?_ ?_ ?_ ?_ ?_
  · intro x inner
    have before := core.holds c t runs x inner
    rw [code, need_cons, Op.holding] at before
    simp only [State.setCode, State.release, update_apply]
    by_cases same : x = lk
    · subst same
      simp [out inner]
    · simp [same, before]
  · intro d x other
    simp only [State.setCode, State.release, update_apply]
    by_cases same : x = lk
    · simp [same, mine, Ne.symm other]
    · simp [same]
  · intro d other
    simp [State.setCode, State.release, other]
  · rw [code]
    exact ⟨fun gone => dying_tail (by simp) exits gone, dying⟩
  · exact exits_tail (by simp) dying exits
  · intro np inside
    rw [code]
    exact List.mem_cons_of_mem _ inside

/-- A thread that is Dying holds the lock of its process. -/
theorem dying_holds (fits : Fits t k) (dying : Dying k) :
    ∃ p, t = .proc p ∧ need t k (.proc p) := by
  rcases dying with rfl | rfl
  · cases fits with
    | cons _ rest =>
      cases rest with
      | cons first _ =>
        cases first with
        | exitSched self => exact ⟨_, self, by subst self; simp⟩
  · cases fits with
    | cons first _ =>
      cases first with
      | exitSched self => exact ⟨_, self, by subst self; simp⟩

section

variable (core : Core s)
include core

theorem interrupt (runs : s.thread c = some t) (enabled : s.noff c = 0) :
    Core (s.setCode t (.iret :: s.code t)) := by
  have free : ∀ lk, lk.inner = true → ¬ need t (s.code t) lk :=
    fun lk inner => core.enabled_free inner runs enabled
  have alive : ¬ Dying (s.code t) := by
    intro dying
    obtain ⟨p, -, held⟩ := dying_holds (core.fits t) dying
    exact free _ rfl held
  refine core.control runs rfl rfl rfl (.cons (.iret free) (core.fits t)) core.counted ?_
    (fun _ _ _ => Iff.rfl) (fun _ _ => rfl) ?_ ?_ ?_
  · intro lk inner
    rw [need_cons]
    simpa [State.setCode] using core.holds c t runs lk inner
  · exact iff_of_false (by simp [Dying]) alive
  · intro inside
    rcases core.exits t (by simpa using inside) with ⟨status, found⟩ | dying
    · exact .inl ⟨status, List.mem_cons_of_mem _ found⟩
    · exact absurd dying alive
  · intro np inside
    simpa using inside

theorem call (runs : s.thread c = some t) (idle : s.code t = [] ∨ ∃ k, s.code t = .iret :: k)
    (calls : Calls t (s.code t) ops) :
    Core (s.setCode t (ops ++ s.code t)) := by
  have free : ∀ lk, lk.inner = true → ¬ need t (s.code t) lk :=
    fun lk inner => core.idle_free inner idle
  obtain ⟨locks, fits⟩ := calls.fits free (core.fits t)
  have before : ¬ Dying (s.code t) := by
    rcases idle with code | ⟨k, code⟩ <;> simp [code, Dying]
  obtain ⟨after, forks, exits⟩ := calls.mem
  refine core.control runs rfl rfl rfl fits core.counted ?_ (fun _ _ _ => Iff.rfl) (fun _ _ => rfl)
    (iff_of_false after before) ?_ ?_
  · intro lk inner
    rw [iff_false_intro (locks lk inner), ← iff_false_intro (free lk inner)]
    exact core.holds c t runs lk inner
  · intro inside
    rcases List.mem_append.mp inside with inside | inside
    · obtain ⟨status, found⟩ := exits inside
      exact .inl ⟨status, List.mem_append_left _ found⟩
    · rcases core.exits t inside with ⟨status, found⟩ | dying
      · exact .inl ⟨status, List.mem_append_right _ found⟩
      · exact absurd dying before
  · intro np inside
    exact (List.mem_append.mp inside).resolve_left (forks np)

end

section Switch

variable {x : Proc} (core : Core s) (runs : s.cpus c = .running p)
include core runs

/-- A process on a CPU after the switch is another one, on another CPU. -/
theorem switched_running {d : Nat} {q : Fin NPROC}
    (after : (s.switched c p x k).cpus d = .running q) : s.cpus d = .running q ∧ d ≠ c ∧ q ≠ p := by
  have elsewhere : d ≠ c := by
    rintro rfl
    simp [State.switched] at after
  simp only [State.switched, update_of_ne elsewhere] at after
  refine ⟨after, elsewhere, ?_⟩
  rintro rfl
  exact elsewhere (core.unique d c q (.inl after) (.inl runs))

theorem switched_holds {d : Nat} (runs' : (s.switched c p x k).thread d = some t)
    (inner : lk.inner = true) :
    (s.switched c p x k).locks lk = some d ↔ need t ((s.switched c p x k).code t) lk := by
  cases t with
  | proc q =>
    obtain ⟨before, -, different⟩ := core.switched_running runs (State.thread_eq_proc.mp runs')
    simp only [State.switched, update_of_ne (show Thread.proc q ≠ .proc p by simpa using different)]
    exact core.holds d _ (State.thread_eq_proc.mpr before) lk inner
  | idle b =>
    obtain ⟨idle, rfl⟩ := State.thread_eq_idle.mp runs'
    have elsewhere : d ≠ c := by
      rintro rfl
      simp [State.switched] at idle
    simp only [State.switched, update_of_ne elsewhere] at idle
    simp only [State.switched, update_of_ne (show Thread.idle d ≠ .proc p by simp)]
    exact core.holds d _ (State.thread_eq_idle.mpr ⟨idle, rfl⟩) lk inner

variable (code : s.code (.proc p) = op :: k)
include code

omit core runs in
theorem switched_forks {u : Thread} {np : Fin NPROC}
    (inside : .forkRunnable np ∈ (s.switched c p x k).code u) : .forkRunnable np ∈ s.code u := by
  by_cases this : u = .proc p
  · subst this
    simp only [State.switched, update_self] at inside
    rw [code]
    exact List.mem_cons_of_mem _ inside
  · simpa only [State.switched, update_of_ne this] using inside

/-- Only a ZOMBIE gets to the end of `exit`. -/
theorem zombie_of_exitSched (ends : op = .exitSched) : (s.proc p).state = .zombie := by
  obtain ⟨first, -⟩ := core.head code
  have states := (core.placed p).running c runs
  subst ends
  rw [code] at states
  cases first with
  | exitSched =>
    rcases states with ⟨-, alive⟩ | ⟨zombie, -⟩
    · exact absurd (.inr rfl) alive
    · exact zombie

variable (sets : Switch (s.proc p) op x)
include sets

omit runs in
theorem switched_exits (inside : .exitSched ∈ k) :
    (∃ status, .exitZombie status ∈ k) ∨ Dying k := by
  obtain ⟨first, -⟩ := core.head code
  have exits := core.exits (.proc p)
  rw [code] at exits
  refine exits_tail ?_ ?_ exits inside
  · cases sets <;> simp
  · cases sets with
    | sleep | yield => simp [Dying]
    | exit =>
      cases first with
      | exitSched => simp at inside

variable (held : s.locks (.proc p) = some c) (only : s.noff c = 1)
include held only

/-- The process itself is on no CPU any more, and holds only its own lock. -/
theorem switched_self : Placed (s.switched c p x k) p := by
  obtain ⟨first, -⟩ := core.head code
  have holds := core.holds c _ (State.thread_eq_proc.mpr runs)
  have free := core.switch_free runs held only
  have ended := core.zombie_of_exitSched runs code
  rw [code] at holds free
  have here : (s.switched c p x k).code (.proc p) = k := update_self ..
  have self : (s.switched c p x k).proc p = x := by
    simp [State.proc, State.switched, Table.set_procs]
  have off : ∀ d, (s.switched c p x k).cpus d ≠ .running p :=
    fun d on => (core.switched_running runs on).2.2 rfl
  refine ⟨fun d on => absurd on (off d), ?_, ?_, ?_, ?_⟩ <;> simp only [here, self]
  · intro running
    cases sets with
    | sleep | yield => cases running
    | exit =>
      rw [ended rfl] at running
      cases running
  · intro _ _ alive
    cases sets with
    | exit => exact absurd (ended rfl) alive
    | sleep | yield =>
      refine ⟨by cases first <;> simp [Dying], fun lk inner => ?_⟩
      have same := (holds lk inner).symm.trans (core.only_lock held only)
      simpa using same
  · intro _ state
    cases sets with
    | sleep | yield => simp at state
    | exit =>
      cases first
      exact .inl rfl
  · -- none of its code switches twice
    rintro (waits | ⟨chan, k', rfl⟩)
    · cases sets with
      | sleep | yield => exact absurd (by simpa using waits) free
      | exit =>
        cases first
        simp at waits
    · cases sets <;> cases first

theorem switch : Core (s.switched c p x k) := by
  have there : ∀ u, u ≠ .proc p → (s.switched c p x k).code u = s.code u :=
    fun u other => update_of_ne other ..
  have proc : ∀ q, q ≠ p → (s.switched c p x k).proc q = s.proc q := by
    intro q other
    simp [State.proc, State.switched, Table.set_procs, other]
  have cpu : ∀ d, d ≠ c → (s.switched c p x k).cpus d = s.cpus d :=
    fun d other => update_of_ne other ..
  have cpuHere : (s.switched c p x k).cpus c = .leaving p := update_self ..
  have on : ∀ d q, On (s.switched c p x k) d q → On s d q := by
    intro d q on
    by_cases this : d = c
    · subst this
      simp only [On, cpuHere] at on
      rcases on with on | on <;> cases on
      exact .inl runs
    · simpa only [On, cpu d this] using on
  exact
    { fits := by
        intro u
        by_cases this : u = .proc p
        · rw [this]
          simp only [State.switched, update_self]
          exact (core.head code).2
        · rw [there u this]
          exact core.fits u
      counted := core.counted
      holds := fun d u runs' lk inner => core.switched_holds runs runs' inner
      leaving := by
        intro d q gone
        by_cases this : d = c
        · subst this
          rw [cpuHere] at gone
          cases gone
          exact ⟨held, only⟩
        · rw [cpu d this] at gone
          exact core.leaving d q gone
      idleCode := by
        intro d busy
        rw [there _ (by simp)]
        by_cases this : d = c
        · subst this
          exact core.idleCode d (by simp [runs])
        · rw [cpu d this] at busy
          exact core.idleCode d busy
      unique := fun a b q one two => core.unique a b q (on a q one) (on b q two)
      placed := by
        intro q
        by_cases this : q = p
        · rw [this]
          exact core.switched_self runs code sets held only
        · refine (core.placed q).congr (proc q this) (there _ (by simpa using this)) fun d => ?_
          by_cases elsewhere : d = c
          · subst elsewhere
            simp [cpuHere, runs, Ne.symm this]
          · rw [cpu d elsewhere]
      exits := by
        intro u inside
        by_cases this : u = .proc p
        · subst this
          simp only [State.switched, update_self] at inside ⊢
          exact core.switched_exits code sets inside
        · rw [there u this] at inside ⊢
          exact core.exits u inside
      forking := by
        intro u np inside
        have before := core.forking u np (switched_forks code inside)
        have different : np ≠ p := by
          rintro rfl
          rcases core.running_state runs with state | state <;> rw [state] at before <;>
            cases before
        rw [proc np different]
        exact before
      forkOnce := fun u v np one two => core.forkOnce u v np (switched_forks code one)
        (switched_forks code two) }

end Switch

section

variable (core : Core s)
include core

/-- A process that the scheduler may pick is on no CPU. -/
theorem off_of_ready (free : s.locks (.proc p) = none) (ready : (s.proc p).state = .runnable)
    (c : Nat) : ¬ On s c p := by
  rintro (runs | gone)
  · rcases core.running_state runs with state | state <;> rw [ready] at state <;> cases state
  · rw [(core.leaving c p gone).1] at free
    cases free

theorem schedule (idle : s.cpus c = .idle) (code : s.code (.idle c) = [])
    (free : s.locks (.proc p) = none) (ready : (s.proc p).state = .runnable) :
    Core (s.picked c p) := by
  have off := core.off_of_ready free ready
  obtain ⟨alive, needs⟩ := (core.placed p).parked (fun d runs => off d (.inl runs))
    (by simp [ready]) (by simp [ready])
  have proc : ∀ q, q ≠ p → (s.picked c p).proc q = s.proc q := by
    intro q other
    simp [State.proc, State.picked, Table.set_procs, other]
  have self : ((s.picked c p).proc p).state = .running := by
    simp [State.proc, State.picked, Table.set_procs]
  have cpuHere : (s.picked c p).cpus c = .running p := update_self ..
  have cpu : ∀ d, d ≠ c → (s.picked c p).cpus d = s.cpus d :=
    fun d other => update_of_ne other ..
  have lock : ∀ lk, (s.picked c p).locks lk = if lk = .proc p then some c else s.locks lk :=
    fun lk => update_apply ..
  have on : ∀ d q, On (s.picked c p) d q → q = p ∧ d = c ∨ q ≠ p ∧ d ≠ c ∧ On s d q := by
    intro d q on
    by_cases here : d = c
    · subst here
      simp only [On, cpuHere] at on
      rcases on with on | on <;> cases on
      exact .inl ⟨rfl, rfl⟩
    · simp only [On, cpu d here] at on
      refine .inr ⟨?_, here, on⟩
      rintro rfl
      exact off d on
  have placed : ∀ q, Placed (s.picked c p) q := by
    intro q
    by_cases same : q = p
    · subst same
      exact .of_running cpuHere (.inl ⟨self, alive⟩)
    · refine (core.placed q).congr (proc q same) rfl fun d => ?_
      by_cases here : d = c
      · subst here
        simp [cpuHere, idle, Ne.symm same]
      · rw [cpu d here]
  exact
    { fits := core.fits
      counted := counted_acquire free core.counted
      holds := by
        intro d u runs lk inner
        rw [lock]
        by_cases here : d = c
        · subst here
          simp only [State.thread, cpuHere, Option.some.injEq] at runs
          subst runs
          have before := core.holds d _ (State.thread_eq_idle.mpr ⟨idle, rfl⟩) lk inner
          rw [code, need_nil] at before
          rw [show (s.picked d p).code = s.code from rfl, needs lk inner]
          by_cases same : lk = .proc p
          · simp [same]
          · simp [same, before]
        · simp only [State.thread, cpu d here] at runs
          rw [show (s.picked c p).code = s.code from rfl, ← core.holds d u runs lk inner]
          by_cases same : lk = .proc p
          · simp [same, free, Ne.symm here]
          · simp [same]
      leaving := by
        intro d q gone
        obtain ⟨-, rfl⟩ | ⟨other, here, -⟩ := on d q (.inr gone)
        · rw [cpuHere] at gone
          cases gone
        · rw [cpu d here] at gone
          rw [lock, if_neg (by simpa using other)]
          refine ⟨(core.leaving d q gone).1, ?_⟩
          rw [← (core.leaving d q gone).2]
          exact update_of_ne here ..
      idleCode := by
        intro d busy
        by_cases here : d = c
        · rw [here]
          exact code
        · rw [cpu d here] at busy
          exact core.idleCode d busy
      unique := by
        intro a b q one two
        obtain ⟨same, rfl⟩ | ⟨other, -, one⟩ := on a q one
        · obtain ⟨-, rfl⟩ | ⟨other, -, -⟩ := on b q two
          · rfl
          · exact absurd same other
        · obtain ⟨same, -⟩ | ⟨-, -, two⟩ := on b q two
          · exact absurd same other
          · exact core.unique a b q one two
      placed := placed
      exits := core.exits
      forking := by
        intro u np inside
        have before := core.forking u np inside
        have other : np ≠ p := by
          rintro rfl
          rw [ready] at before
          cases before
        rw [proc np other]
        exact before
      forkOnce := core.forkOnce }

theorem leave (gone : s.cpus c = .leaving p) : Core (s.left c p) := by
  obtain ⟨held, one⟩ := core.leaving c p gone
  have cpuHere : (s.left c p).cpus c = .idle := update_self ..
  have cpu : ∀ d, d ≠ c → (s.left c p).cpus d = s.cpus d :=
    fun d other => update_of_ne other ..
  have lock : ∀ lk, (s.left c p).locks lk = if lk = .proc p then none else s.locks lk :=
    fun lk => update_apply ..
  have runs : ∀ d q, (s.left c p).cpus d = .running q ↔ s.cpus d = .running q := by
    intro d q
    by_cases here : d = c
    · subst here
      simp [cpuHere, gone]
    · rw [cpu d here]
  have on : ∀ d q, On (s.left c p) d q → On s d q ∧ d ≠ c := by
    intro d q on
    have here : d ≠ c := by
      rintro rfl
      simp [On, cpuHere] at on
    simp only [On, cpu d here] at on
    exact ⟨on, here⟩
  have placed : ∀ q, Placed (s.left c p) q := fun q => (core.placed q).congr rfl rfl (runs · q)
  exact
    { fits := core.fits
      counted := counted_release held core.counted
      holds := by
        intro d u runs' lk inner
        rw [lock]
        by_cases here : d = c
        · subst here
          simp only [State.thread, cpuHere, Option.some.injEq] at runs'
          subst runs'
          rw [show (s.left d p).code = s.code from rfl, core.idleCode d (by simp [gone]), need_nil]
          have only := core.only_lock (x := lk) held one
          by_cases same : lk = .proc p
          · simp [same]
          · simp [same, only]
        · simp only [State.thread, cpu d here] at runs'
          rw [show (s.left c p).code = s.code from rfl, ← core.holds d u runs' lk inner]
          by_cases same : lk = .proc p
          · simp [same, held, Ne.symm here]
          · simp [same]
      leaving := by
        intro d q gone'
        obtain ⟨-, here⟩ := on d q (.inr gone')
        rw [cpu d here] at gone'
        obtain ⟨mine, one'⟩ := core.leaving d q gone'
        have other : q ≠ p := by
          rintro rfl
          rw [held] at mine
          cases mine
          exact here rfl
        rw [lock, if_neg (by simpa using other)]
        exact ⟨mine, (update_of_ne here ..).trans one'⟩
      idleCode := by
        intro d busy
        by_cases here : d = c
        · rw [here, cpuHere] at busy
          exact absurd rfl busy
        · rw [cpu d here] at busy
          exact core.idleCode d busy
      unique := fun a b q one two => core.unique a b q (on a q one).1 (on b q two).1
      placed := placed
      exits := core.exits
      forking := core.forking
      forkOnce := core.forkOnce }

end

/-- An operation that is not the end of `exit` leaves its thread alive. -/
theorem not_dying_next {tb : Table}
    (next : Next t tb op ops) (other : ∀ status, op ≠ .exitZombie status)
    (exits : .exitSched ∈ op :: k → (∃ status, .exitZombie status ∈ op :: k) ∨ Dying (op :: k)) :
    ¬ Dying (ops ++ k) := by
  intro dying
  obtain ⟨noSched, noZombie, -⟩ := next.mem
  have inside : Op.exitSched ∈ ops ++ k := by
    rcases dying with same | same <;> simp [same]
  have tail := (List.mem_append.mp inside).resolve_left noSched
  rcases exits (List.mem_cons_of_mem _ tail) with ⟨status, found⟩ | before
  · have found := (List.mem_cons.mp found).resolve_left (other status).symm
    have found := List.mem_append_right ops found
    rcases dying with same | same <;> rw [same] at found <;> simp at found
  · rcases before with same | same <;> cases same <;> cases next

/-- A process that runs is not reaped: it still holds its own lock. -/
theorem not_reaped {d : Nat} {addr : Bool}
    (core : Core s) (runs : s.thread c = some t) (code : s.code t = .waitAt addr p :: k)
    (on : s.cpus d = .running p) : (s.proc p).state ≠ .zombie := by
  intro zombie
  rcases (core.placed p).running d on with ⟨running, -⟩ | ⟨-, dying⟩
  · rw [running] at zombie
    cases zombie
  have mine : s.locks (.proc p) = some c := by
    rw [core.holds c t runs _ rfl, code]
    simp
  obtain ⟨q, same, held⟩ := dying_holds (core.fits _) dying
  cases same
  have theirs := (core.holds d _ (State.thread_eq_proc.mpr on) _ rfl).mpr held
  obtain rfl : c = d := Option.some.inj (mine.symm.trans theirs)
  obtain rfl : t = .proc p := Option.some.inj (runs.symm.trans (State.thread_eq_proc.mpr on))
  rw [code] at dying
  simp [Dying] at dying

/-- How an operation of `t` can change the state of process `p`. -/
inductive Shift (t : Thread) (tb : Table) (op : Op) (eff : Effect) (p : Fin NPROC) :
    ProcState → ProcState → Prop where
  | same {st} : Shift t tb op eff p st st
  | woken : Shift t tb op eff p .sleeping .runnable
  | started (starts : op = .forkRunnable p) : Shift t tb op eff p .used .runnable
  | born (spawned : eff.spawned = some p) (shows : eff.obs = .forked (some (p, tb.nextpid))) :
      Shift t tb op eff p .unused .used
  | died {st status} (ends : op = .exitZombie status) (self : t = .proc p) :
      Shift t tb op eff p st .zombie
  | reaped {addr} (waits : op = .waitAt addr p) : Shift t tb op eff p .zombie .unused

theorem shift {ch : Choice} {eff : Effect} (core : Core s) (code : s.code t = op :: k)
    (done : Smp.exec t ch s.table op = some eff) (p : Fin NPROC) :
    Shift t s.table op eff p (s.proc p).state (eff.table.procs p).state := by
  rcases ((exec_does done).touch p).state with same | ⟨asleep, now⟩ | ⟨rfl, now⟩ |
    ⟨rfl, unused, -⟩ | ⟨status, ends, self, now⟩ | ⟨addr, waits, zombie, now⟩
  · rw [same]
    exact .same
  · rw [State.proc, asleep, now]
    exact .woken
  · rw [core.forking t p (by rw [code]; exact List.mem_cons_self), now]
    exact .started rfl
  · rcases forkAt_cases done with ⟨-, same, -⟩ | ⟨-, spawned, shows, used⟩
    · rw [same]
      exact .same
    · rw [State.proc, unused, used]
      exact .born spawned shows
  · rw [now]
    exact .died ends self
  · rw [State.proc, zombie, now]
    exact .reaped waits

section Exec

variable {ch : Choice} {eff : Effect} {d : Nat} {u v : Thread} {np : Fin NPROC} (core : Core s)
  (done : Smp.exec t ch s.table op = some eff)
include core done

/-- A thread on a CPU is not where `fork` starts one. -/
theorem not_spawned (spawned : eff.spawned = some p) : s.thread d ≠ some (.proc p) := by
  intro runs
  obtain ⟨-, unused, -⟩ := (exec_does done).spawns _ spawned
  rcases core.running_state (State.thread_eq_proc.mp runs) with state | state <;>
    rw [State.proc, unused] at state <;> cases state

theorem code_onCpu (runs : s.thread d = some u) (other : u ≠ t) :
    (s.apply t eff k).code u = s.code u :=
  State.apply_code_other other fun _ same spawned => core.not_spawned done spawned (same ▸ runs)

theorem code_self (runs : s.thread c = some t) : (s.apply t eff k).code t = eff.next ++ k :=
  State.apply_code_self fun _ same spawned => core.not_spawned done spawned (same ▸ runs)

variable (runs : s.thread c = some t) (code : s.code t = op :: k)
include runs code

/-- On a CPU the state of a process changes only at the end of its own `exit`. -/
theorem state_onCpu (on : s.cpus d = .running p)
    (live : (∀ status, op ≠ .exitZombie status) ∨ .proc p ≠ t) :
    (eff.table.procs p).state = (s.proc p).state := by
  have state := core.running_state on
  have shift := core.shift code done p
  generalize (eff.table.procs p).state = now at shift ⊢
  generalize before : (s.proc p).state = st at shift state ⊢
  cases shift with
  | same => rfl
  | woken | started | born => simp at state
  | died ends self =>
    rcases live with other | other
    · exact absurd ends (other _)
    · exact absurd self.symm other
  | reaped waits =>
    subst waits
    exact absurd before (core.not_reaped runs code on)

omit core runs code in
theorem not_dying : ¬ Dying (op :: k) := by
  have next := (exec_does done).next
  rintro (same | same) <;> cases same <;> cases next

omit runs in
theorem exitZombie_dying {status : BitVec 32} (ends : op = .exitZombie status) :
    Dying (eff.next ++ k) := by
  obtain ⟨first, -⟩ := core.head code
  have next := (exec_does done).next
  subst ends
  generalize eff.next = ops at next ⊢
  cases next
  cases first
  exact .inl rfl

theorem placed_running (on : s.cpus d = .running p) : Placed (s.apply t eff k) p := by
  refine .of_running (by rw [State.apply_cpus]; exact on) ?_
  rw [State.apply_proc]
  have before := (core.placed p).running d on
  by_cases here : Thread.proc p = t
  · subst here
    rw [core.code_self done runs]
    rw [code] at before
    obtain ⟨running, -⟩ := before.resolve_right fun dead => not_dying done dead.2
    by_cases ends : ∃ status, op = .exitZombie status
    · obtain ⟨status, rfl⟩ := ends
      refine .inr ⟨?_, core.exitZombie_dying done code rfl⟩
      cases done
      simp [Table.set_procs]
    · push Not at ends
      have exits := core.exits (.proc p)
      rw [code] at exits
      rw [core.state_onCpu done runs code on (.inl ends)]
      exact .inl ⟨running, not_dying_next (exec_does done).next ends exits⟩
  · rw [core.code_onCpu done (State.thread_eq_proc.mpr on) here,
      core.state_onCpu done runs code on (.inr here)]
    exact before

theorem placed_parked (off : ∀ d, s.cpus d ≠ .running p) : Placed (s.apply t eff k) p := by
  have does := exec_does done
  have shift := core.shift code done p
  have placed := core.placed p
  have different : Thread.proc p ≠ t := by
    rintro rfl
    exact off c (State.thread_eq_proc.mp runs)
  have same (old : eff.spawned ≠ some p) :
      (s.apply t eff k).code (.proc p) = s.code (.proc p) := by
    refine State.apply_code_other different fun i same => ?_
    cases same
    exact old
  constructor <;> simp only [State.apply_cpus, State.apply_proc]
  · exact fun d on => absurd on (off d)
  · intro running
    refine placed.onCpu ?_
    rw [running] at shift
    generalize (s.proc p).state = st at shift ⊢
    cases shift
    rfl
  · intro _ used live
    by_cases fresh : (s.proc p).state = .unused
    · -- a slot that gets into use is one where `fork` starts a thread
      have spawned : eff.spawned = some p := by
        rw [fresh] at shift
        generalize (eff.table.procs p).state = now at shift used live
        cases shift with
        | same => exact absurd rfl used
        | born spawned => exact spawned
        | died => exact absurd rfl live
      rw [State.apply_code_spawned spawned]
      exact ⟨by simp [Dying, forkret], by simp [forkret]⟩
    · rw [same fun spawned => fresh (does.spawns _ spawned).2.1]
      refine placed.parked off fresh fun zombie => ?_
      rw [zombie] at shift
      generalize (eff.table.procs p).state = now at shift used live
      cases shift with
      | same | died => exact live rfl
      | reaped => exact used rfl
  · intro _ state
    rw [same fun spawned => by simp [(does.spawns _ spawned).2.2] at state]
    refine placed.dead off ?_
    generalize (eff.table.procs p).state = now at shift state
    generalize (s.proc p).state = st at shift ⊢
    cases shift with
    | same => exact state
    | woken | started | born => simp at state
    | died _ self => exact absurd self.symm different
    | reaped => exact .inr rfl
  · intro holds
    rcases State.apply_code_cases different with same | ⟨i, -, -, same⟩ <;> rw [same] at holds
    · exact placed.busy holds
    · simp [forkret] at holds

theorem exits_apply (inside : .exitSched ∈ (s.apply t eff k).code u) :
    (∃ status, .exitZombie status ∈ (s.apply t eff k).code u) ∨
      Dying ((s.apply t eff k).code u) := by
  obtain ⟨noSched, -⟩ := (exec_does done).next.mem
  by_cases here : u = t
  · subst here
    have exits := core.exits u
    rw [code] at exits
    rw [core.code_self done runs] at inside ⊢
    have tail := (List.mem_append.mp inside).resolve_left noSched
    rcases exits (List.mem_cons_of_mem _ tail) with ⟨status, found⟩ | dead
    · rcases List.mem_cons.mp found with same | found
      · exact .inr (core.exitZombie_dying done code same.symm)
      · exact .inl ⟨status, List.mem_append_right _ found⟩
    · exact absurd dead (not_dying done)
  · rcases State.apply_code_cases here with same | ⟨i, -, -, same⟩ <;> rw [same] at inside
    · rw [same]
      exact core.exits u inside
    · simp [forkret] at inside

/-- A child to be started is one that was there before, or the one that is new. -/
theorem forks_apply (inside : .forkRunnable np ∈ (s.apply t eff k).code u) :
    .forkRunnable np ∈ s.code u ∧ (u = t → .forkRunnable np ∈ k) ∨
      u = t ∧ eff.spawned = some np := by
  obtain ⟨-, -, alloc⟩ := (exec_does done).next.mem
  by_cases here : u = t
  · subst here
    rw [core.code_self done runs] at inside
    rcases List.mem_append.mp inside with inside | inside
    · obtain rfl := alloc np inside
      refine .inr ⟨rfl, ?_⟩
      rcases forkAt_cases done with ⟨-, -, none⟩ | ⟨-, spawned, -, -⟩
      · exact absurd inside (none np)
      · exact spawned
    · exact .inl ⟨by rw [code]; exact List.mem_cons_of_mem _ inside, fun _ => inside⟩
  · rcases State.apply_code_cases here with same | ⟨i, -, -, same⟩ <;> rw [same] at inside
    · exact .inl ⟨inside, fun this => absurd this here⟩
    · simp [forkret] at inside

theorem forking_apply (inside : .forkRunnable np ∈ (s.apply t eff k).code u) :
    (eff.table.procs np).state = .used := by
  rcases core.forks_apply done runs code inside with ⟨before, tail⟩ | ⟨-, spawned⟩
  · have used := core.forking u np before
    have shift := core.shift code done np
    rw [used] at shift
    generalize (eff.table.procs np).state = now at shift ⊢
    cases shift with
    | same => rfl
    | started starts =>
      subst starts
      have here : u = t := core.forkOnce u t np before (by rw [code]; exact List.mem_cons_self)
      have later := tail here
      cases (core.head code).1 with
      | forkRunnable => simp at later
    | died _ self =>
      subst self
      rcases core.running_state (State.thread_eq_proc.mp runs) with state | state
      all_goals exact absurd (used.symm.trans state) (by simp)
  · exact ((exec_does done).spawns _ spawned).2.2

theorem forkOnce_apply (one : .forkRunnable np ∈ (s.apply t eff k).code u)
    (two : .forkRunnable np ∈ (s.apply t eff k).code v) : u = v := by
  have clash : ∀ u, .forkRunnable np ∈ s.code u → eff.spawned ≠ some np := by
    intro u inside spawned
    have used := core.forking u np inside
    exact absurd (used.symm.trans ((exec_does done).spawns _ spawned).2.1) (by simp)
  rcases core.forks_apply done runs code one with ⟨before, -⟩ | ⟨rfl, spawned⟩ <;>
    rcases core.forks_apply done runs code two with ⟨before', -⟩ | ⟨rfl, spawned'⟩
  · exact core.forkOnce u v np before before'
  · exact absurd spawned' (clash u before)
  · exact absurd spawned (clash v before')
  · rfl

theorem exec : Core (s.apply t eff k) := by
  obtain ⟨first, rest⟩ := core.head code
  obtain ⟨locks, fits⟩ := replaced op (exec_does done).next first rest
  have self := core.code_self (k := k) done runs
  exact
    { fits := by
        intro u
        by_cases here : u = t
        · rw [here, self]
          exact fits
        · rcases State.apply_code_cases here with same | ⟨i, rfl, -, same⟩ <;> rw [same]
          · exact core.fits u
          · exact .cons (.release (by simp)) .nil
      counted := by simpa [Counted] using core.counted
      holds := by
        intro d u runs' lk inner
        rw [State.apply_thread] at runs'
        rw [State.apply_locks]
        have before := core.holds d u runs' lk inner
        by_cases here : u = t
        · subst here
          rw [self, locks lk inner, ← code]
          exact before
        · rw [core.code_onCpu done runs' here]
          exact before
      leaving := by simpa using core.leaving
      idleCode := by
        intro d busy
        rw [State.apply_cpus] at busy
        rw [State.apply_code_other ?_ (by simp)]
        · exact core.idleCode d busy
        · rintro rfl
          obtain ⟨idle, rfl⟩ := State.thread_eq_idle.mp runs
          exact busy idle
      unique := by simpa [On] using core.unique
      placed := by
        intro p
        by_cases on : ∃ d, s.cpus d = .running p
        · obtain ⟨d, on⟩ := on
          exact core.placed_running done runs code on
        · exact core.placed_parked done runs code fun d here => on ⟨d, here⟩
      exits := fun u => core.exits_apply done runs code
      forking := by
        intro u np inside
        rw [State.apply_proc]
        exact core.forking_apply done runs code inside
      forkOnce := fun u v np => core.forkOnce_apply done runs code }

end Exec

end Core

theorem core_step {e : Event} {o : Obs} (core : Core s) (taken : step s e = some (s', o)) :
    Core s' := by
  cases step_cases taken with
  | acquire runs code free => exact core.acquire runs code free
  | release runs code held => exact core.release runs code held
  | switch runs code sets held only => exact core.switch runs code sets held only
  | exec runs code done => exact core.exec done runs code
  | call runs idle calls => exact core.call runs idle calls
  | interrupt runs enabled => exact core.interrupt runs enabled
  | schedule idle code free ready => exact core.schedule idle code free ready
  | leave leaving => exact core.leave leaving

theorem core_run {trapframe pagetable : Nat} {tr : List (Event × Obs)}
    (run : machine.Run (start trapframe pagetable) tr s) : Core s :=
  run.always_invariant (fun _ s => Core s) (core_start trapframe pagetable)
    fun _ _ _ _ _ _ core taken => core_step core taken

/-- A slot gets into use only when `fork` reports it. -/
theorem forked_of_used {e : Event} {o : Obs} {i : Fin NPROC} (core : Core s)
    (taken : step s e = some (s', o)) (unused : (s.proc i).state = .unused)
    (used : (s'.proc i).state ≠ .unused) : o = .forked (some (i, s.table.nextpid)) := by
  have off := core.unused_off unused
  cases step_cases taken with
  | acquire | release | call | interrupt | leave => exact absurd unused used
  | @switch c ch p op k x runs =>
    rw [State.proc, State.switched, Table.set_procs] at used
    split at used
    · rename_i here
      exact absurd (here ▸ runs) (off c)
    · exact absurd unused used
  | @schedule c p _ _ _ ready =>
    rw [State.proc, State.picked, Table.set_procs] at used
    split at used
    · rename_i here
      rw [← here, unused] at ready
      cases ready
    · exact absurd unused used
  | @exec c ch t op k eff runs code done =>
    rw [State.apply_proc] at used
    have shift := core.shift code done i
    rw [unused] at shift
    generalize (eff.table.procs i).state = now at shift used
    cases shift with
    | same => exact absurd rfl used
    | born _ shows => exact shows
    | died _ self =>
      subst self
      exact absurd (State.thread_eq_proc.mp runs) (off c)

end Xv6.Kernel.Smp
