import Xv6.User.ThreadIdentity

/-! # Locks of the thread library

`acquire` waits on the flag `locked`, while `holding` compares the tid that the
last `acquire` wrote with the caller's. The flag alone gives mutual exclusion.
The comparison takes two threads with one tid for the same thread, and `_main`
has given the main thread the tid of the first thread created.
-/

namespace Xv6.User

open Function

variable {s s' : State} {e : Event} {o : Obs} {lk t : Nat}

/-- The lock whose `acquire` returns in the step from `s` to `s'`. -/
def acquireReturns (s : State) (e : Event) (s' : State) : Option Nat :=
  if s'.halted = false ∧ s'.ctl s.current = .func then
    match s.ctl s.current, e with
    | .func, .acquire lk => some lk
    | .resume (.acquire lk), .resume => some lk
    | _, _ => none
  else none

/-- For each lock, the threads between a return of `acquire` and the next call of `release`. -/
abbrev Sections := Nat → Nat → Bool

def noteLocks (s : State) (e : Event) (s' : State) (inside : Sections) : Sections := fun lk t =>
  if t = s.current ∧ acquireReturns s e s' = some lk then true
  else if t = s.current ∧ e = .release lk then false
  else inside lk t

/-- The library, with the critical sections on record. -/
def lockMachine : Lib.Machine (State × Sections) Event Obs := machine.watch noteLocks

def lockStart : State × Sections := (start, fun _ _ => false)

/-- Every thread acquires and releases each lock in pairs, and no lock is
    initialised while a thread is between the two. -/
def Paired (x : State × Sections) (e : Event) : Prop :=
  match e with
  | .acquire lk => x.2 lk x.1.current = false
  | .release lk => x.2 lk x.1.current = true
  | .initlock lk => ∀ t, x.2 lk t = false
  | _ => True

/-- The error exits of `acquire` and `release`. -/
def ErrorExit (x : State × Sections) (e : Event) : Prop :=
  match e with
  | .acquire lk => x.1.holding lk = true
  | .release lk => x.1.holding lk = false
  | _ => False

/-- At most one thread is inside a lock, and no error exit is taken. -/
def LocksWork (tr : List (Event × Obs)) : Prop :=
  lockMachine.Always lockStart tr
    (fun _ x => ∀ lk t u, x.2 lk t = true → x.2 lk u = true → t = u) ∧
  lockMachine.Throughout lockStart tr fun x e => ¬ ErrorExit x e

/-- When the main thread or the first thread created calls `acquire`, neither is inside. -/
def TwinsApart (x : State × Sections) (e : Event) : Prop :=
  ∀ lk t, e = .acquire lk → x.1.current ≤ 1 → t ≤ 1 → x.2 lk t = false

theorem step_not_halted (taken : step s e = some (s', o)) : s.halted = false := by
  by_contra halted
  rw [Bool.not_eq_false] at halted
  simp [step, halted] at taken

theorem acquireReturns_eq_none (elsewhere : s.ctl s.current = .func → ∀ lk, e ≠ .acquire lk)
    (fresh : ∀ lk, s.ctl s.current = .resume (.acquire lk) → e ≠ .resume) :
    acquireReturns s e s' = none := by
  unfold acquireReturns
  split
  · split
    · rename_i lk here
      exact absurd rfl (elsewhere here lk)
    · rename_i lk here
      exact absurd rfl (fresh lk here)
    · rfl
  · rfl

theorem step_locks (taken : step s e = some (s', o)) :
    (∃ lk, acquireReturns s e s' = some lk ∧ (∀ lk, e ≠ .release lk) ∧ (s.locks lk).locked = 0 ∧
      s'.locks = update s.locks lk { locked := 1, tid := s.twhoami }) ∨
    (acquireReturns s e s' = none ∧ ((∃ lk, e = .release lk ∧ s'.locks =
          if s.holding lk then update s.locks lk { locked := 0, tid := 255 }
          else s.locks) ∨
        (∃ lk, e = .initlock lk ∧ s' = s.initlock lk) ∨
        (∀ lk, e ≠ .release lk) ∧ s'.locks = s.locks)) := by
  have alive := step_not_halted taken
  cases step_moves taken with
  | acquired test free =>
    refine .inl ⟨_, ?_, ?_, free, rfl⟩
    · cases test with
      | call here | again here => simp [acquireReturns, State.setCtl, alive, here]
    · cases test <;> simp
  | spins test =>
    refine .inr ⟨by simp [acquireReturns, State.tyield], .inr (.inr ⟨?_, rfl⟩)⟩
    cases test <;> simp
  | held => exact .inr ⟨by simp [acquireReturns, State.halt], .inr (.inr ⟨by simp, rfl⟩)⟩
  | @release lk holds =>
    exact .inr ⟨acquireReturns_eq_none (by simp) (by simp), .inl ⟨lk, rfl, (if_pos holds).symm⟩⟩
  | @notHeld lk out =>
    refine .inr ⟨acquireReturns_eq_none (by simp) (by simp), .inl ⟨lk, rfl, ?_⟩⟩
    simp [out, State.halt]
  | initlock lk =>
    exact .inr ⟨acquireReturns_eq_none (by simp) (by simp), .inr (.inl ⟨lk, rfl, rfl⟩)⟩
  | joined test | waits test =>
    refine .inr ⟨?_, .inr (.inr ⟨?_, rfl⟩)⟩
    · cases test with
      | call => exact acquireReturns_eq_none (by simp) (by simp)
      | again here => exact acquireReturns_eq_none (by simp) (by simp [here])
    · cases test <;> simp
  | enters here | resumes here | restarts here =>
    exact .inr ⟨acquireReturns_eq_none (by simp) (by simp [here]), .inr (.inr ⟨by simp, rfl⟩)⟩
  | _ => exact .inr ⟨acquireReturns_eq_none (by simp) (by simp), .inr (.inr ⟨by simp, rfl⟩)⟩

theorem tsched_current_cases (s : State) (k : Cont) :
    (s.tsched k).current = s.current ∨ ∃ i, s.threads i = some (s.tsched k).current := by
  rw [State.tsched_current]
  cases found : s.nextThread with
  | none => exact .inl rfl
  | some t =>
    obtain ⟨i, slot, -⟩ := State.nextThread_runnable found
    exact .inr ⟨i, slot⟩

/-- Control stays where it is or moves to a thread of the table. -/
theorem step_current (taken : step s e = some (s', o)) :
    s'.current = s.current ∨ ∃ i, s.threads i = some s'.current := by
  cases step_moves taken with
  | tyield | waits | spins | release | exits => exact tsched_current_cases (State.setState ..) _
  | tsched => exact tsched_current_cases s _
  | _ => exact .inl rfl

/-- A thread with a slot of the table. -/
def Listed (s : State) (t : Nat) : Prop := t < s.fresh ∧ t < 16

theorem Numbered.listed (inv : Numbered s) {i : Fin 16}
    (slot : s.threads i = some t) : Listed s t := by
  rw [inv.table i] at slot
  split at slot
  · rename_i used
    obtain rfl := Option.some.inj slot
    exact ⟨used, i.isLt⟩
  · cases slot

theorem step_listed (taken : step s e = some (s', o)) (old : Listed s t) :
    Listed s' t ∧ (s'.heap t).tid = (s.heap t).tid := by
  rcases step_table taken with ⟨func, arg, -, rfl, -⟩ | ⟨-, same⟩
  · refine ⟨⟨Nat.lt_succ_of_lt old.1, old.2⟩, ?_⟩
    simp [State.tcreate, Nat.ne_of_lt old.1]
  · exact ⟨⟨same.fresh ▸ old.1, old.2⟩, same.tid t⟩

/-- Threads of the table with one tid are one thread, the main thread and the first
    thread created apart. -/
theorem Numbered.tid_eq_iff (inv : Numbered s) {u : Nat} (atT : Listed s t)
    (atU : Listed s u) : (s.heap t).tid = (s.heap u).tid ↔ t = u ∨ t ≤ 1 ∧ u ≤ 1 := by
  have tidT := inv.slot_tid ⟨t, atT.2⟩ atT.1
  have tidU := inv.slot_tid ⟨u, atU.2⟩ atU.1
  simp only at tidT tidU
  rw [← UInt8.toNat_inj, tidT, tidU]
  split <;> split <;> omega

/-- Who is inside which lock, against what the locks say. -/
structure LocksHeld (x : State × Sections) : Prop where
  numbered : Numbered x.1
  current : Listed x.1 x.1.current
  listed : ∀ lk t, x.2 lk t = true → Listed x.1 t
  locked : ∀ lk t, x.2 lk t = true → (x.1.locks lk).locked ≠ 0
  tid : ∀ lk t, x.2 lk t = true → (x.1.locks lk).tid = (x.1.heap t).tid
  alone : ∀ lk t u, x.2 lk t = true → x.2 lk u = true → t = u
  held : ∀ lk, (x.1.locks lk).locked ≠ 0 → ∃ t, x.2 lk t = true

theorem locksHeld_start : LocksHeld lockStart where
  numbered := numbered_start
  current := by simp [Listed, lockStart, start, mainThread]
  listed := by simp [lockStart]
  locked := by simp [lockStart]
  tid := by simp [lockStart]
  alone := by simp [lockStart]
  held := by simp [lockStart, start]

namespace LocksHeld

variable {x : State × Sections}

section

variable (inv : LocksHeld x)
include inv

/-- `holding` says who is inside up to the shared tid. -/
theorem holding_iff (lk : Nat) : x.1.holding lk = true ↔
      ∃ t, x.2 lk t = true ∧ (t = x.1.current ∨ t ≤ 1 ∧ x.1.current ≤ 1) := by
  have same : ∀ t, x.2 lk t = true →
      ((x.1.locks lk).tid = x.1.twhoami ↔ t = x.1.current ∨ t ≤ 1 ∧ x.1.current ≤ 1) := by
    intro t inside
    rw [inv.tid lk t inside]
    exact inv.numbered.tid_eq_iff (inv.listed lk t inside) inv.current
  simp only [State.holding, decide_eq_true_eq]
  constructor
  · rintro ⟨locked, mine⟩
    obtain ⟨t, inside⟩ := inv.held lk locked
    exact ⟨t, inside, (same t inside).mp mine⟩
  · rintro ⟨t, inside, twins⟩
    exact ⟨inv.locked lk t inside, (same t inside).mpr twins⟩

section

variable (taken : User.step x.1 e = some (s', o))
include taken

theorem threads_step : Numbered s' ∧ Listed s' s'.current := by
  refine ⟨inv.numbered.step taken, ?_⟩
  rcases step_current taken with stays | ⟨i, slot⟩
  · rw [stays]
    exact (step_listed taken inv.current).1
  · exact (step_listed taken (inv.numbered.listed slot)).1

theorem of_same (locks : s'.locks = x.1.locks) : LocksHeld (s', x.2) where
  numbered := (inv.threads_step taken).1
  current := (inv.threads_step taken).2
  listed := fun lk t inside => (step_listed taken (inv.listed lk t inside)).1
  locked := by rw [locks]; exact inv.locked
  tid := by
    intro lk t inside
    rw [locks, (step_listed taken (inv.listed lk t inside)).2]
    exact inv.tid lk t inside
  alone := inv.alone
  held := by rw [locks]; exact inv.held

theorem of_free {tid : UInt8} {inside : Sections}
    (locks : s'.locks = update x.1.locks lk { locked := 0, tid := tid })
    (out : ∀ t, inside lk t = false) (others : ∀ lk', lk' ≠ lk → inside lk' = x.2 lk') :
    LocksHeld (s', inside) := by
  have other : ∀ lk' t, inside lk' t = true →
      lk' ≠ lk ∧ x.2 lk' t = true ∧ s'.locks lk' = x.1.locks lk' := by
    intro lk' t here
    have different : lk' ≠ lk := by
      rintro rfl
      rw [out t] at here
      cases here
    refine ⟨different, others lk' different ▸ here, ?_⟩
    rw [locks, update_of_ne different]
  exact
    { numbered := (inv.threads_step taken).1
      current := (inv.threads_step taken).2
      listed := fun lk' t here => (step_listed taken (inv.listed lk' t (other lk' t here).2.1)).1
      locked := by
        intro lk' t here
        obtain ⟨-, before, same⟩ := other lk' t here
        rw [same]
        exact inv.locked lk' t before
      tid := by
        intro lk' t here
        obtain ⟨-, before, same⟩ := other lk' t here
        rw [same, (step_listed taken (inv.listed lk' t before)).2]
        exact inv.tid lk' t before
      alone := fun lk' t u one two =>
        inv.alone lk' t u (other lk' t one).2.1 (other lk' u two).2.1
      held := by
        intro lk' locked
        have different : lk' ≠ lk := by
          rintro rfl
          simp [locks] at locked
        rw [locks, update_of_ne different] at locked
        obtain ⟨t, before⟩ := inv.held lk' locked
        refine ⟨t, ?_⟩
        simp only [others lk' different]
        exact before }

/-- A step in which the `acquire` of `lk` returns: the lock was free, so nobody was inside. -/
theorem of_acquire (free : (x.1.locks lk).locked = 0)
    (locks : s'.locks = update x.1.locks lk { locked := 1, tid := x.1.twhoami }) :
    LocksHeld (s', fun lk' t =>
      if t = x.1.current ∧ lk' = lk then true else x.2 lk' t) := by
  have empty : ∀ t, x.2 lk t = false := by
    intro t
    by_contra inside
    exact inv.locked lk t (Bool.not_eq_false _ ▸ inside) free
  have cases_ : ∀ lk' t, (if t = x.1.current ∧ lk' = lk then true else x.2 lk' t) = true →
      (t = x.1.current ∧ lk' = lk) ∨ (lk' ≠ lk ∧ x.2 lk' t = true) := by
    intro lk' t here
    by_cases new : t = x.1.current ∧ lk' = lk
    · exact .inl new
    · rw [if_neg new] at here
      refine .inr ⟨?_, here⟩
      rintro rfl
      rw [empty t] at here
      cases here
  exact
    { numbered := (inv.threads_step taken).1
      current := (inv.threads_step taken).2
      listed := by
        intro lk' t here
        rcases cases_ lk' t here with ⟨rfl, rfl⟩ | ⟨-, before⟩
        · exact (step_listed taken inv.current).1
        · exact (step_listed taken (inv.listed lk' t before)).1
      locked := by
        intro lk' t here
        rcases cases_ lk' t here with ⟨rfl, rfl⟩ | ⟨different, before⟩
        · simp [locks]
        · simp only [locks, update_of_ne different]
          exact inv.locked lk' t before
      tid := by
        intro lk' t here
        rcases cases_ lk' t here with ⟨rfl, rfl⟩ | ⟨different, before⟩
        · rw [(step_listed taken inv.current).2]
          simp [locks, State.twhoami]
        · simp only [locks, update_of_ne different]
          rw [(step_listed taken (inv.listed lk' t before)).2]
          exact inv.tid lk' t before
      alone := by
        intro lk' t u one two
        rcases cases_ lk' t one with ⟨rfl, rfl⟩ | ⟨different, before⟩
        · rcases cases_ lk' u two with ⟨rfl, -⟩ | ⟨different, -⟩
          · rfl
          · exact absurd rfl different
        · rcases cases_ lk' u two with ⟨-, same⟩ | ⟨-, after⟩
          · exact absurd same different
          · exact inv.alone lk' t u before after
      held := by
        intro lk' locked
        by_cases same : lk' = lk
        · exact ⟨x.1.current, by simp [same]⟩
        · simp only [locks, update_of_ne same] at locked
          obtain ⟨t, before⟩ := inv.held lk' locked
          exact ⟨t, by simp [same, before]⟩ }

end

theorem step {y : State × Sections} (paired : Paired x e)
    (watched : lockMachine.step x e = some (y, o)) : LocksHeld y := by
  obtain ⟨s', inside⟩ := y
  obtain ⟨base, noted⟩ := Lib.Machine.watch_step.mp watched
  have taken : User.step x.1 e = some (s', o) := base
  obtain rfl : inside = noteLocks x.1 e s' x.2 := noted
  rcases step_locks taken with ⟨lk, back, noRelease, free, locks⟩ |
    ⟨back, ⟨lk, rfl, locks⟩ | ⟨lk, rfl, rfl⟩ | ⟨noRelease, locks⟩⟩
  · have noted : noteLocks x.1 e s' x.2 =
        fun lk' t => if t = x.1.current ∧ lk' = lk then true else x.2 lk' t := by
      funext lk' t
      simp [noteLocks, back, noRelease, eq_comm]
    rw [noted]
    exact inv.of_acquire taken free locks
  · -- the caller is inside, so it holds the lock, and nobody else is inside
    have mine : x.2 lk x.1.current = true := paired
    have holds : x.1.holding lk = true := (inv.holding_iff lk).mpr ⟨_, mine, .inl rfl⟩
    rw [if_pos holds] at locks
    refine inv.of_free taken locks ?_ ?_
    · intro t
      by_cases self : t = x.1.current
      · simp [noteLocks, back, self]
      · simp only [noteLocks, self, false_and, if_false]
        by_contra inside
        exact self (inv.alone lk t _ (Bool.not_eq_false _ ▸ inside) mine)
    · intro lk' different
      funext t
      simp [noteLocks, back, Ne.symm different]
  · have noted : noteLocks x.1 (.initlock lk) (x.1.initlock lk) x.2 = x.2 := by
      funext lk' t
      simp [noteLocks, back]
    rw [noted]
    exact inv.of_free taken rfl paired (fun _ _ => rfl)
  · have noted : noteLocks x.1 e s' x.2 = x.2 := by
      funext lk' t
      simp [noteLocks, back, noRelease]
    rw [noted]
    exact inv.of_same taken locks

theorem errorExit_iff (paired : Paired x e) : ErrorExit x e ↔ ¬ TwinsApart x e := by
  cases e with
  | acquire lk =>
    have outside : x.2 lk x.1.current = false := paired
    simp only [ErrorExit, TwinsApart, inv.holding_iff lk]
    constructor
    · rintro ⟨t, inside, same | ⟨low, twin⟩⟩ apart
      · rw [same, outside] at inside
        cases inside
      · rw [apart lk t rfl twin low] at inside
        cases inside
    · intro together
      push Not at together
      obtain ⟨lk', t, same, twin, low, inside⟩ := together
      cases same
      exact ⟨t, Bool.not_eq_false _ ▸ inside, .inr ⟨low, twin⟩⟩
  | release lk =>
    have mine : x.1.holding lk = true := (inv.holding_iff lk).mpr ⟨_, paired, .inl rfl⟩
    simp [ErrorExit, TwinsApart, mine]
  | _ => simp [ErrorExit, TwinsApart]

end

end LocksHeld

theorem locksHeld_run {tr : List (Event × Obs)} {x : State × Sections}
    (run : lockMachine.Run lockStart tr x) (paired : lockMachine.Throughout lockStart tr Paired) :
    LocksHeld x :=
  run.invariant (fun _ x => LocksHeld x) paired locksHeld_start
    (fun _ _ _ _ _ _ inv ok taken => inv.step ok taken)

/-- Locks work exactly in the runs in which the two threads that share a tid never
    meet at a lock. -/
theorem locksWork_iff {tr : List (Event × Obs)}
    (paired : lockMachine.Throughout lockStart tr Paired) :
    LocksWork tr ↔ lockMachine.Throughout lockStart tr TwinsApart := by
  have inv : ∀ pre e o x, pre ++ [(e, o)] <+: tr → lockMachine.Run lockStart pre x →
      (ErrorExit x e ↔ ¬ TwinsApart x e) := by
    intro pre e o x inside reached
    have earlier := paired.of_prefix ((List.prefix_append _ _).trans inside)
    exact (locksHeld_run reached earlier).errorExit_iff (paired pre x e o inside reached)
  constructor
  · rintro ⟨-, clean⟩ pre x e o inside reached
    by_contra together
    exact clean pre x e o inside reached ((inv pre e o x inside reached).mpr together)
  · intro apart
    refine ⟨?_, ?_⟩
    · intro pre x inside reached
      exact (locksHeld_run reached (paired.of_prefix inside)).alone
    · intro pre x e o inside reached wrong
      exact (inv pre e o x inside reached).mp wrong (apart pre x e o inside reached)

/-- `Paired` and `TwinsApart` for events other than `initlock`, as a test. -/
def pairedApart (x : State × Sections) : Event → Bool
  | .acquire lk => !x.2 lk x.1.current && (decide (1 < x.1.current) || !x.2 lk 0 && !x.2 lk 1)
  | .release lk => x.2 lk x.1.current
  | .initlock _ => false
  | _ => true

theorem paired_of_pairedApart {x : State × Sections} (ok : pairedApart x e = true) :
    Paired x e := by
  cases e with
  | acquire lk =>
    simp only [pairedApart, Bool.and_eq_true, Bool.not_eq_true'] at ok
    exact ok.1
  | release lk => exact ok
  | initlock lk => cases ok
  | _ => trivial

/-- The main thread holds a lock while the second thread created waits for it. -/
def contendRun : List (Event × Obs) :=
  [(.tcreate 1 0, .created 1), (.tcreate 1 0, .created 2), (.acquire 0, .silent),
    (.tyield, .silent), (.resume, .entered 1), (.tyield, .silent), (.resume, .entered 2),
    (.acquire 0, .silent), (.resume, .silent), (.release 0, .silent), (.resume, .silent),
    (.tyield, .silent), (.resume, .silent), (.release 0, .silent)]

theorem locksWork_contendRun : (∃ x, lockMachine.Run lockStart contendRun x) ∧
      lockMachine.Throughout lockStart contendRun Paired ∧ LocksWork contendRun := by
  have ran : (lockMachine.exec lockStart (contendRun.map Prod.fst)).map (fun r => (r.1, ())) =
      some (contendRun, ()) := by decide
  obtain ⟨x, run, -⟩ := Lib.Machine.run_of_exec (fun _ => ()) ran
  have tested : lockMachine.allows pairedApart lockStart (contendRun.map Prod.fst) = true := by
    decide
  have allowed := Lib.Machine.throughout_of_allows tested
  have paired : lockMachine.Throughout lockStart contendRun Paired :=
    fun pre x e o inside reached => paired_of_pairedApart (allowed pre x e o inside reached)
  refine ⟨⟨x, run⟩, paired, (locksWork_iff paired).mpr ?_⟩
  rintro pre x e o inside reached lk t rfl low twin
  have ok := allowed pre x _ o inside reached
  simp only [pairedApart, Bool.and_eq_true, Bool.not_eq_true', Bool.or_eq_true,
    decide_eq_true_eq] at ok
  rcases ok.2 with high | ⟨main, first⟩
  · omega
  · obtain rfl | rfl : t = 0 ∨ t = 1 := by omega
    · exact main
    · exact first

/-- The main thread holds a lock when the first thread created asks for it. -/
def twinRun : List (Event × Obs) :=
  [(.tcreate 1 0, .created 1), (.acquire 0, .silent), (.tyield, .silent), (.resume, .entered 1),
    (.acquire 0, .silent)]

theorem not_locksWork_twinRun : (∃ x, lockMachine.Run lockStart twinRun x ∧ x.1.halted = true) ∧
      lockMachine.Throughout lockStart twinRun Paired ∧ ¬ LocksWork twinRun := by
  have ran : (lockMachine.exec lockStart (twinRun.map Prod.fst)).map
      (fun r => (r.1, r.2.1.halted)) = some (twinRun, true) := by decide
  have before : (lockMachine.exec lockStart (twinRun.dropLast.map Prod.fst)).map
      (fun r => (r.1, r.2.1.holding 0)) = some (twinRun.dropLast, true) := by decide
  obtain ⟨y, reached, holds⟩ :=
    Lib.Machine.run_of_exec (fun x : State × Sections => x.1.holding 0) before
  have tested : lockMachine.allows
      (fun x e => pairedApart x e || (e == .acquire 0) && !x.2 0 x.1.current) lockStart
      (twinRun.map Prod.fst) = true := by decide
  have allowed := Lib.Machine.throughout_of_allows tested
  refine ⟨Lib.Machine.run_of_exec (fun x : State × Sections => x.1.halted) ran, ?_, ?_⟩
  · intro pre x e o inside reached
    have ok := allowed pre x e o inside reached
    simp only [Bool.or_eq_true, Bool.and_eq_true, beq_iff_eq, Bool.not_eq_true'] at ok
    rcases ok with ok | ⟨rfl, outside⟩
    · exact paired_of_pairedApart ok
    · exact outside
  · rintro ⟨-, clean⟩
    exact clean twinRun.dropLast y (.acquire 0) .silent List.prefix_rfl reached holds

end Xv6.User
