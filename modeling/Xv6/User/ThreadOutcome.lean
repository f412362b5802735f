import Xv6.User.ThreadIdentity

/-! # What becomes of created threads

Nothing ever empties a slot of the table, nothing stores what a thread's
function returns, and `_main` calls `exit` as soon as `main` returns. So the
sixteenth thread created gets no slot however few are still alive, `tjoin`
leaves the caller's buffer as it was, and threads that have not finished when
`main` returns never do.
-/

namespace Xv6.User

open Function

variable {s s' : State} {tid : Int} {o : Obs} {p p' : Prog}

/-! ## Slots -/

/-- How many threads, the main thread included, are not EXITED. -/
def liveCount (s : State) : Nat :=
  (List.range s.fresh).countP fun t => (s.heap t).state ≠ .exited

/-- `tcreate`, called in `s`, loses no thread: the new one has a slot, those not
    EXITED keep theirs, and from `s'` on no `tjoin` by the new tid returns -1. -/
structure KeepsThreads (s s' : State) : Prop where
  listed : ∃ i, s'.threads i = some s.fresh
  runnable : (s'.heap s.fresh).state = .runnable
  others : ∀ t < s.fresh, (s.heap t).state ≠ .exited →
    ∃ i, s.threads i = some t ∧ s'.threads i = some t
  joins : ∀ tr u e v r, machine.Run s' tr u →
    step u e = some (v, .joined (s'.heap s.fresh).tid.toNat r) → r ≠ -1

/-- A `tjoin` that returns -1 finds no thread with that tid. -/
theorem joined_failed {e : Event}
    (taken : step s e = some (s', .joined tid (-1))) : s.findTid tid = none := by
  cases step_moves taken with
  | unknown nobody => exact nobody

/-- What `tjoin` selects for a tid is settled for the rest of the run. -/
theorem Numbered.findTid_run {u : State} {tr : List (Event × Obs)} {t : Nat}
    (inv : Numbered s) (run : machine.Run s tr u) (found : s.findTid tid = some t) :
    Numbered u ∧ u.findTid tid = some t :=
  run.always_invariant (fun _ u => Numbered u ∧ u.findTid tid = some t) ⟨inv, found⟩
    (fun _ _ _ _ _ _ now taken => ⟨now.1.step taken, now.1.findTid_stays taken now.2⟩)

theorem Numbered.keepsThreads_iff (inv : Numbered s) (func arg : Nat) :
    KeepsThreads s (s.tcreate func arg) ↔ s.fresh < 16 := by
  have after := inv.tcreate func arg
  constructor
  · rintro ⟨⟨i, slot⟩, -, -, -⟩
    rw [after.table i] at slot
    split at slot
    · have := Option.some.inj slot
      omega
    · cases slot
  · intro room
    have table : ∀ t (below : t < 16), t < s.fresh + 1 →
        (s.tcreate func arg).threads ⟨t, below⟩ = some t := by
      intro t below old
      rw [after.table]
      exact if_pos old
    have tid : ((s.tcreate func arg).heap s.fresh).tid.toNat = s.fresh := by
      rw [after.tid_toNat inv.born (Nat.lt_succ_self _)]
      omega
    have found : ∃ t, (s.tcreate func arg).findTid s.fresh = some t := by
      have grown : s.fresh < (s.tcreate func arg).fresh := Nat.lt_succ_self _
      have born := inv.born
      rw [after.findTid_eq]
      by_cases first : s.fresh = 1
      · exact ⟨_, if_pos first⟩
      · rw [if_neg first, if_pos ⟨by omega, by omega, grown⟩]
        exact ⟨_, rfl⟩
    refine ⟨⟨⟨s.fresh, room⟩, table s.fresh room (by omega)⟩, ?_, ?_, ?_⟩
    · simp [State.tcreate]
    · intro t old _
      have below : t < 16 := by omega
      refine ⟨⟨t, below⟩, ?_, table t below (by omega)⟩
      rw [inv.table]
      exact if_pos old
    · rintro tr u e v r run taken rfl
      obtain ⟨t, found⟩ := found
      rw [tid] at taken
      have nothing := joined_failed taken
      rw [(after.findTid_run run found).2] at nothing
      cases nothing

/-- With fewer than 16 threads not EXITED, `tcreate` loses no thread exactly when
    fewer than 15 threads were created before. -/
theorem keepsThreads_iff_creations {tr : List (Event × Obs)} {s s' : State} {func arg : Nat}
    {o : Obs} (run : machine.Run start tr s)
    (taken : step s (.tcreate func arg) = some (s', o)) :
    (liveCount s < 16 → KeepsThreads s s') ↔ (liveCount s < 16 → creations tr < 15) := by
  obtain ⟨inv, -, count⟩ := numbered_run run
  obtain rfl : s' = s.tcreate func arg := by
    rcases step_table taken with ⟨func', arg', same, rfl, -⟩ | ⟨other, -⟩
    · cases same
      rfl
    · exact absurd rfl (other func arg)
  rw [inv.keepsThreads_iff func arg, count]
  constructor
  · intro kept few
    have := kept few
    omega
  · intro early few
    have := early few
    omega

/-- A thread is created, runs, creates another one and returns. -/
def twoThreads : List (Event × Obs) :=
  [(.tcreate 1 0, .created 1), (.tyield, .silent), (.resume, .entered 1),
    (.tcreate 1 0, .created 2), (.ret, .silent), (.resume, .entered 2)]

theorem keepsThreads_twoThreads : ∃ s s', machine.Run start twoThreads s ∧ liveCount s = 2 ∧
    step s (.tcreate 1 0) = some (s', .created 3) ∧ KeepsThreads s s' := by
  have ran : (machine.exec start (twoThreads.map Prod.fst)).map
      (fun r => (r.1, (r.2.halted, r.2.ctl r.2.current, r.2.fresh, liveCount r.2))) =
      some (twoThreads, (false, .func, 3, 2)) := by decide
  obtain ⟨s, run, seen⟩ := Lib.Machine.run_of_exec
    (fun s : State => (s.halted, s.ctl s.current, s.fresh, liveCount s)) ran
  simp only [Prod.mk.injEq] at seen
  obtain ⟨alive, here, fresh, live⟩ := seen
  have taken : step s (.tcreate 1 0) = some (s.tcreate 1 0, .created 3) := by
    simp [step, alive, here, stepFunc, fresh]
  exact ⟨s, s.tcreate 1 0, run, live, taken,
    (keepsThreads_iff_creations run taken).mpr (fun _ => by decide) (by omega)⟩

/-- Fifteen creations, after which the first thread created returns. -/
def fullRun : List (Event × Obs) :=
  (List.range 15).map (fun i => (.tcreate 1 0, .created (i + 1))) ++
    [(.tyield, .silent), (.resume, .entered 1), (.ret, .silent), (.resume, .entered 2)]

theorem not_keepsThreads_fullRun :
    ∃ s s', machine.Run start fullRun s ∧ step s (.tcreate 1 0) = some (s', .created 16) ∧
      liveCount s = 15 ∧ ¬ KeepsThreads s s' := by
  have ran : (machine.exec start (fullRun.map Prod.fst)).map
      (fun r => (r.1, (r.2.halted, r.2.ctl r.2.current, r.2.fresh, liveCount r.2))) =
      some (fullRun, (false, .func, 16, 15)) := by decide
  obtain ⟨s, run, seen⟩ := Lib.Machine.run_of_exec
    (fun s : State => (s.halted, s.ctl s.current, s.fresh, liveCount s)) ran
  simp only [Prod.mk.injEq] at seen
  obtain ⟨alive, here, fresh, live⟩ := seen
  refine ⟨s, s.tcreate 1 0, run, by simp [step, alive, here, stepFunc, fresh], live, ?_⟩
  rw [(numbered_run run).1.keepsThreads_iff, fresh]
  decide

/-! ## The exit of the process -/

/-- Every thread created is EXITED. -/
def AllExited (s : State) : Prop := ∀ t, mainThread < t → t < s.fresh → (s.heap t).state = .exited

/-- In the state in which `_main` calls `exit` every thread created is EXITED. -/
def ExitWaits (tr : List (Event × Obs)) : Prop :=
  ∀ pre o s, pre ++ [(.ret, o)] <+: tr → machine.Run start pre s → s.current = mainThread →
    ∀ s', step s .ret = some (s', o) → AllExited s'

/-- `main` returns only when no created thread is RUNNABLE. -/
def ReturnsLast (s : State) (e : Event) : Prop :=
  e = .ret → s.current = mainThread →
    ∀ t, mainThread < t → t < s.fresh → (s.heap t).state ≠ .runnable

theorem setState_state (s : State) (t u : Nat) (st : ProcState) :
    ((s.setState t st).heap u).state = st ∨
      ((s.setState t st).heap u).state = (s.heap u).state := by
  by_cases same : u = t
  · exact .inl (by rw [same, State.setState_state_self])
  · exact .inr (by rw [State.setState_heap_of_ne s st same])

/-- A state the library gives to a thread is RUNNABLE or EXITED. -/
theorem step_state {e : Event} (taken : step s e = some (s', o))
    (t : Nat) : (s'.heap t).state = (s.heap t).state ∨ (s'.heap t).state = .runnable ∨
      (s'.heap t).state = .exited := by
  cases step_moves taken with
  | tcreate =>
    by_cases new : t = s.fresh
    · exact .inr (.inl (by simp [State.tcreate, new]))
    · exact .inl (by simp [State.tcreate, new])
  | tyield | waits | spins | release =>
    rcases setState_state s s.current t .runnable with now | before
    · exact .inr (.inl now)
    · exact .inl before
  | exits =>
    rcases setState_state s s.current t .exited with now | before
    · exact .inr (.inr now)
    · exact .inl before
  | _ => exact .inl rfl

theorem created_state {tr : List (Event × Obs)} (run : machine.Run start tr s) :
    ∀ t, mainThread < t → t < s.fresh →
      (s.heap t).state = .runnable ∨ (s.heap t).state = .exited := by
  refine run.always_invariant (fun _ s => ∀ t, mainThread < t → t < s.fresh →
    (s.heap t).state = .runnable ∨ (s.heap t).state = .exited) ?_ ?_
  · intro t above below
    simp only [start, mainThread] at above below
    omega
  · intro _ s e o s' _ states taken t above below
    rcases step_state taken t with same | new
    · rcases step_table taken with ⟨func, arg, -, rfl, -⟩ | ⟨-, table⟩
      · by_cases new : t = s.fresh
        · exact .inl (by simp [State.tcreate, new])
        · rw [same]
          exact states t above (Nat.lt_of_le_of_ne (Nat.le_of_lt_succ below) new)
      · rw [same]
        exact states t above (table.fresh ▸ below)
    · exact new

/-- When `main` returns, `_main` calls `exit` at once. -/
theorem main_returns (main : s.current = mainThread)
    (taken : step s .ret = some (s', o)) : s' = s.halt := by
  cases step_moves taken with
  | returns => rfl
  | exits created => exact absurd main created
  | joined test | waits test | acquired test | spins test => cases test

/-- The exit of the process waits for the threads exactly in the runs in which
    `main` itself returns after all of them. -/
theorem exitWaits_iff {tr : List (Event × Obs)} {u : State} (run : machine.Run start tr u) :
    ExitWaits tr ↔ machine.Throughout start tr ReturnsLast := by
  constructor
  · rintro waits pre s e o inside reached rfl main t above below ready
    obtain ⟨s', taken, -⟩ := run.step_of_prefix reached inside
    obtain rfl := main_returns main taken
    have gone : (s.heap t).state = .exited :=
      waits pre o s inside reached main _ taken t above below
    rw [ready] at gone
    cases gone
  · intro last pre o s inside reached main s' taken t above below
    obtain rfl := main_returns main taken
    rcases created_state reached t above below with ready | gone
    · exact absurd ready (last pre s .ret o inside reached rfl main t above below)
    · exact gone

/-- `main` yields to the thread it created and returns after it. -/
def waitRun : List (Event × Obs) :=
  [(.tcreate 1 0, .created 1), (.tyield, .silent), (.resume, .entered 1), (.ret, .silent),
    (.resume, .silent), (.ret, .silent)]

theorem exitWaits_waitRun :
    (∃ s, machine.Run start waitRun s ∧ s.halted = true) ∧ ExitWaits waitRun := by
  have ran : (machine.exec start (waitRun.map Prod.fst)).map (fun r => (r.1, r.2.halted)) =
      some (waitRun, true) := by decide
  obtain ⟨s, run, halted⟩ := Lib.Machine.run_of_exec State.halted ran
  have tested : machine.allows (fun s e => e != .ret || s.current != mainThread ||
      (List.range s.fresh).all fun t => t == mainThread || (s.heap t).state != .runnable) start
      (waitRun.map Prod.fst) = true := by decide
  have allowed := Lib.Machine.throughout_of_allows tested
  refine ⟨⟨s, run, halted⟩, (exitWaits_iff run).mpr ?_⟩
  rintro pre s e o inside reached rfl main t above below
  have ok := allowed pre s .ret o inside reached
  simp only [main, bne_self_eq_false, Bool.false_or, List.all_eq_true, List.mem_range,
    Bool.or_eq_true, beq_iff_eq, bne_iff_ne] at ok
  rcases ok t below with same | ready
  · omega
  · exact ready

/-- `main` returns right after creating a thread. -/
def hastyRun : List (Event × Obs) := [(.tcreate 1 0, .created 1), (.ret, .silent)]

theorem not_exitWaits_hastyRun :
    (∃ s, machine.Run start hastyRun s ∧ s.halted = true ∧ (s.heap 1).state = .runnable) ∧
      ¬ ExitWaits hastyRun := by
  have ran : (machine.exec start (hastyRun.map Prod.fst)).map
      (fun r => (r.1, (r.2.halted, (r.2.heap 1).state))) = some (hastyRun, (true, .runnable)) := by
    decide
  obtain ⟨s, run, seen⟩ :=
    Lib.Machine.run_of_exec (fun s : State => (s.halted, (s.heap 1).state)) ran
  simp only [Prod.mk.injEq] at seen
  refine ⟨⟨s, run, seen⟩, fun waits => ?_⟩
  have before : (machine.exec start [.tcreate 1 0]).map (fun r => (r.1, (r.2.current, r.2.fresh))) =
      some ([(.tcreate 1 0, .created 1)], (mainThread, 2)) := by decide
  obtain ⟨t, reached, main⟩ :=
    Lib.Machine.run_of_exec (fun s : State => (s.current, s.fresh)) before
  simp only [Prod.mk.injEq] at main
  have inside : [(Event.tcreate 1 0, Obs.created 1)] ++ [(Event.ret, Obs.silent)] <+: hastyRun :=
    List.prefix_rfl
  obtain ⟨v, taken, after⟩ := run.step_of_prefix reached inside
  obtain rfl : v = s := after.unique run
  have fresh : v.fresh = 2 := by rw [main_returns main.1 taken]; exact main.2
  have gone := waits _ _ t inside reached main.1 v taken 1 (by simp [mainThread]) (by omega)
  rw [seen.2] at gone
  cases gone

/-! ## Results -/

/-- The program around the library: its memory, what thread functions returned,
    and the `status` and `size` that each thread last passed to `tjoin`. -/
structure Prog where
  lib : State
  mem : Nat → UInt8
  returned : Nat → Nat
  status : Nat → Nat
  size : Nat → Nat

inductive ProgEvent where
  /-- A step of the library machine other than a call of `tjoin` or a return. -/
  | call (e : Event)
  | tjoin (tid : Int) (status size : Nat)
  | ret (value : Nat)
  | store (addr : Nat) (byte : UInt8)
  deriving Repr, DecidableEq

namespace Prog

def start : Prog where
  lib := User.start
  mem := fun _ => 0
  returned := fun _ => 0
  status := fun _ => 0
  size := fun _ => 0

/-- `tjoin` keeps its arguments on the caller's stack; `thread_wrapper` drops the
    value of the function, so only the record here knows it. -/
def step (p : Prog) : ProgEvent → Option (Prog × Obs)
  | .call (.tjoin _) => none
  | .call .ret => none
  | .call e => (User.step p.lib e).map fun (s, o) => ({ p with lib := s }, o)
  | .tjoin tid status size =>
      (User.step p.lib (.tjoin tid)).map fun (s, o) =>
        ({ p with
            lib := s
            status := update p.status p.lib.current status
            size := update p.size p.lib.current size }, o)
  | .ret value =>
      (User.step p.lib .ret).map fun (s, o) =>
        ({ p with lib := s, returned := update p.returned p.lib.current value }, o)
  | .store addr byte =>
      (User.step p.lib .work).map fun (s, o) =>
        ({ p with lib := s, mem := update p.mem addr byte }, o)

def machine : Lib.Machine Prog ProgEvent Obs := ⟨step⟩

/-- The arguments of the `tjoin` whose loop test the event makes. -/
def joining (p : Prog) : ProgEvent → Option (Int × Nat × Nat)
  | .tjoin tid status size => some (tid, status, size)
  | .call .resume =>
      match p.lib.ctl p.lib.current with
      | .resume (.tjoin tid _) => some (tid, p.status p.lib.current, p.size p.lib.current)
      | _ => none
  | _ => none

/-- What a step of the program adds to a step of the library. -/
inductive Takes (p : Prog) (s : State) : ProgEvent → Event → Prog → Prop where
  | call {e : Event} (other : ∀ tid, e ≠ .tjoin tid) : Takes p s (.call e) e { p with lib := s }
  | tjoin (tid : Int) (status size : Nat) : Takes p s (.tjoin tid status size) (.tjoin tid)
      { p with
        lib := s
        status := update p.status p.lib.current status
        size := update p.size p.lib.current size }
  | ret (value : Nat) : Takes p s (.ret value) .ret
      { p with lib := s, returned := update p.returned p.lib.current value }
  | store (addr : Nat) (byte : UInt8) : Takes p s (.store addr byte) .work
      { p with lib := s, mem := update p.mem addr byte }

/-- A step of the program takes one step of the library. -/
theorem step_takes {e : ProgEvent} (taken : p.step e = some (p', o)) :
    ∃ e' s, User.step p.lib e' = some (s, o) ∧ s = p'.lib ∧ Takes p s e e' p' := by
  have forward : ∀ e' (f : State → Prog), (∀ s, s = (f s).lib) → (∀ s, Takes p s e e' (f s)) →
      (User.step p.lib e').map (fun (s, o) => (f s, o)) = some (p', o) →
      ∃ e' s, User.step p.lib e' = some (s, o) ∧ s = p'.lib ∧ Takes p s e e' p' := by
    intro e' f same takes moved
    simp only [Option.map_eq_some_iff, Prod.exists, Prod.mk.injEq] at moved
    obtain ⟨s, o', lib, rfl, rfl⟩ := moved
    exact ⟨e', s, lib, same s, takes s⟩
  cases e with
  | call e =>
    cases e with
    | tjoin | ret => cases taken
    | _ => exact forward _ _ (fun _ => rfl) (fun _ => .call (by simp)) taken
  | tjoin tid status size =>
    exact forward _ _ (fun _ => rfl) (fun _ => .tjoin tid status size) taken
  | ret value => exact forward _ _ (fun _ => rfl) (fun _ => .ret value) taken
  | store addr byte => exact forward _ _ (fun _ => rfl) (fun _ => .store addr byte) taken

theorem run_lib {tr : List (ProgEvent × Obs)} (run : machine.Run start tr p) :
    ∃ tr', User.machine.Run User.start tr' p.lib := by
  induction run with
  | start => exact ⟨[], .start⟩
  | snoc _ last ih =>
    obtain ⟨tr', run⟩ := ih
    obtain ⟨e', _, taken, rfl, -⟩ := step_takes last
    exact ⟨_, .snoc run taken⟩

end Prog

/-- Only a call of `tjoin` or its loop shows a returned value. -/
theorem step_joined {e : Event} {r : Int} (taken : step s e = some (s', .joined tid r)) :
    e = .tjoin tid ∨ e = .resume ∧ ∃ target, s.ctl s.current = .resume (.tjoin tid target) := by
  cases step_moves taken with
  | unknown => exact .inl rfl
  | joined test =>
    cases test with
    | call => exact .inl rfl
    | again here => exact .inr ⟨rfl, _, here⟩

/-- A loop test of `tjoin` that finds its thread EXITED returns 0. -/
theorem joins_exited {e : Event} {target : Nat}
    (listed : JoinsListed s) (taken : step s e = some (s', o))
    (test : e = .tjoin tid ∨ e = .resume ∧ ∃ target, s.ctl s.current = .resume (.tjoin tid target))
    (found : s.findTid tid = some target) (gone : (s.heap target).state = .exited) :
    o = .joined tid 0 := by
  unfold step at taken
  split at taken
  · cases taken
  rcases test with rfl | ⟨rfl, target', here⟩
  · split at taken
    · simp only [stepFunc, found, tjoinLoop, gone, if_true, Option.some.injEq,
        Prod.mk.injEq] at taken
      exact taken.2.symm
    all_goals simp_all
  · obtain rfl := Option.some.inj (found.symm.trans (listed _ _ _ here))
    simp only [here, stepResume, tjoinLoop, gone, if_true, Option.some.injEq,
      Prod.mk.injEq] at taken
    exact taken.2.symm

def SameBytes (mem : Nat → UInt8) (a b size : Nat) : Prop := ∀ i < size, mem (a + i) = mem (b + i)

/-- Whenever a `tjoin` with a buffer returns 0, the buffer has the bytes at the
    address that the joined thread's function returned. -/
def JoinDelivers (tr : List (ProgEvent × Obs)) : Prop :=
  ∀ pre e tid p, pre ++ [(e, .joined tid 0)] <+: tr → Prog.machine.Run Prog.start pre p →
    ∀ p' target, p.step e = some (p', .joined tid 0) → p'.lib.findTid tid = some target →
      p'.status p.lib.current ≠ 0 →
      SameBytes p'.mem (p'.status p.lib.current) (p'.returned target) (p'.size p.lib.current)

/-- A `tjoin` that is about to find its thread EXITED has those bytes in its buffer already. -/
def BytesThere (p : Prog) (e : ProgEvent) : Prop :=
  ∀ tid status size target, p.joining e = some (tid, status, size) →
    p.lib.findTid tid = some target → (p.lib.heap target).state = .exited → status ≠ 0 →
    SameBytes p.mem status (p.returned target) size

/-- A step that makes the loop test of a `tjoin`: its arguments are on record
    afterwards, and neither the memory nor a result has changed. -/
theorem Prog.joining_step {e : ProgEvent} {status size : Nat}
    (joins : p.joining e = some (tid, status, size)) (taken : p.step e = some (p', o)) :
    (∃ e', User.step p.lib e' = some (p'.lib, o) ∧ (e' = .tjoin tid ∨
        e' = .resume ∧ ∃ target, p.lib.ctl p.lib.current = .resume (.tjoin tid target))) ∧
    p'.mem = p.mem ∧ p'.returned = p.returned ∧ p'.status p.lib.current = status ∧
    p'.size p.lib.current = size := by
  obtain ⟨e', s, lib, -, takes⟩ := step_takes taken
  cases takes with
  | tjoin =>
    cases joins
    exact ⟨⟨_, lib, .inl rfl⟩, rfl, rfl, by simp, by simp⟩
  | call =>
    unfold joining at joins
    split at joins
    · rename_i wrong
      cases wrong
    · split at joins
      · rename_i same _ _ target here
        cases joins
        cases same
        exact ⟨⟨_, lib, .inr ⟨rfl, target, here⟩⟩, rfl, rfl, rfl, rfl⟩
      · cases joins
    · cases joins
  | ret | store => cases joins

/-- A step that shows a returned value of `tjoin` makes its loop test. -/
theorem Prog.joined_joining {e : ProgEvent} {r : Int}
    (taken : p.step e = some (p', .joined tid r)) :
    ∃ status size, p.joining e = some (tid, status, size) := by
  obtain ⟨e', s, lib, -, takes⟩ := step_takes taken
  have shows := step_joined lib
  cases takes with
  | tjoin tid' status size =>
    rcases shows with same | ⟨wrong, -⟩
    · cases same
      exact ⟨status, size, rfl⟩
    · cases wrong
  | call other =>
    rcases shows with wrong | ⟨rfl, target, here⟩
    · exact absurd wrong (other tid)
    · exact ⟨p.status p.lib.current, p.size p.lib.current, by simp only [joining, here]⟩
  | ret | store => rcases shows with wrong | ⟨wrong, -⟩ <;> cases wrong

/-- `tjoin` delivers results exactly in the runs in which the program has put
    them into the buffer by itself. -/
theorem joinDelivers_iff {tr : List (ProgEvent × Obs)} {q : Prog}
    (run : Prog.machine.Run Prog.start tr q) :
    JoinDelivers tr ↔ Prog.machine.Throughout Prog.start tr BytesThere := by
  constructor
  · intro delivers pre p e o inside reached tid status size target joins found gone buffer
    obtain ⟨tr', base⟩ := Prog.run_lib reached
    obtain ⟨inv, listed, -⟩ := numbered_run base
    obtain ⟨p', taken, -⟩ := run.step_of_prefix reached inside
    obtain ⟨⟨e', lib, test⟩, mem, returned, rfl, rfl⟩ := Prog.joining_step joins taken
    obtain rfl := joins_exited listed lib test found gone
    have same := delivers pre e tid p inside reached p' target taken (inv.findTid_stays lib found)
      buffer
    rwa [mem, returned] at same
  · intro there pre e tid p inside reached p' target taken found buffer
    obtain ⟨tr', base⟩ := Prog.run_lib reached
    obtain ⟨inv, listed, -⟩ := numbered_run base
    obtain ⟨status, size, joins⟩ := Prog.joined_joining taken
    obtain ⟨⟨e', lib, test⟩, mem, returned, rfl, rfl⟩ := Prog.joining_step joins taken
    obtain ⟨target', before, gone⟩ := joined_zero listed lib
    obtain rfl : target' = target := by
      have now := inv.findTid_stays lib before
      rw [found] at now
      exact (Option.some.inj now).symm
    rw [mem, returned]
    exact there pre p e _ inside reached tid _ _ target' joins before gone buffer

/-- `BytesThere` as a test. -/
def bytesThere (p : Prog) (e : ProgEvent) : Bool :=
  (p.joining e).all fun (tid, status, size) => (p.lib.findTid tid).all fun target =>
    (p.lib.heap target).state != .exited || status == 0 ||
      (List.range size).all fun i => p.mem (status + i) == p.mem (p.returned target + i)

theorem bytesThere_of_test {e : ProgEvent} (ok : bytesThere p e = true) :
    BytesThere p e := by
  intro tid status size target joins found gone buffer i inside
  simp only [bytesThere, joins, found, gone, Option.all_some, bne_self_eq_false, Bool.false_or,
    Bool.or_eq_true, beq_iff_eq, buffer, false_or, List.all_eq_true, List.mem_range] at ok
  exact ok i inside

/-- `main` joins the second thread created, which returns the address 2000 of a 7;
    before it does, it stores the bytes of the list. -/
def joinRun (stores : List (Nat × UInt8)) : List (ProgEvent × Obs) :=
  [(.call (.tcreate 1 0), .created 1), (.call (.tcreate 1 0), .created 2),
    (.tjoin 2 1000 1, .silent), (.call .resume, .entered 1), (.ret 0, .silent),
    (.call .resume, .entered 2)] ++
  stores.map (fun (addr, byte) => (.store addr byte, .silent)) ++
  [(.ret 2000, .silent), (.call .resume, .joined 2 0)]

theorem joinDelivers_joinRun :
    (∃ p, Prog.machine.Run Prog.start (joinRun [(2000, 7), (1000, 7)]) p ∧ p.mem 1000 = 7) ∧
      JoinDelivers (joinRun [(2000, 7), (1000, 7)]) := by
  have ran : (Prog.machine.exec Prog.start ((joinRun [(2000, 7), (1000, 7)]).map Prod.fst)).map
      (fun r => (r.1, r.2.mem 1000)) = some (joinRun [(2000, 7), (1000, 7)], 7) := by decide
  obtain ⟨p, run, seen⟩ := Lib.Machine.run_of_exec (fun p : Prog => p.mem 1000) ran
  have tested : Prog.machine.allows bytesThere Prog.start
      ((joinRun [(2000, 7), (1000, 7)]).map Prod.fst) = true := by decide
  have allowed := Lib.Machine.throughout_of_allows tested
  refine ⟨⟨p, run, seen⟩, (joinDelivers_iff run).mpr ?_⟩
  exact fun pre p e o inside reached => bytesThere_of_test (allowed pre p e o inside reached)

theorem not_joinDelivers_joinRun :
    (∃ p, Prog.machine.Run Prog.start (joinRun [(2000, 7)]) p ∧
      p.returned 2 = 2000 ∧ p.mem 2000 = 7 ∧ p.mem 1000 = 0) ∧
      ¬ JoinDelivers (joinRun [(2000, 7)]) := by
  have ran : (Prog.machine.exec Prog.start ((joinRun [(2000, 7)]).map Prod.fst)).map
      (fun r => (r.1, ([r.2.returned 2, r.2.status 0, r.2.size 0], [r.2.mem 2000, r.2.mem 1000],
        r.2.lib.findTid 2))) =
      some (joinRun [(2000, 7)], ([2000, 1000, 1], [7, 0], some 2)) := by decide
  obtain ⟨p, run, seen⟩ := Lib.Machine.run_of_exec (fun p : Prog =>
    ([p.returned 2, p.status 0, p.size 0], [p.mem 2000, p.mem 1000], p.lib.findTid 2)) ran
  simp only [Prod.mk.injEq, List.cons.injEq, and_true] at seen
  obtain ⟨⟨value, status, size⟩, ⟨result, buffer⟩, found⟩ := seen
  refine ⟨⟨p, run, value, result, buffer⟩, fun delivers => ?_⟩
  have before : (Prog.machine.exec Prog.start ((joinRun [(2000, 7)]).dropLast.map Prod.fst)).map
      (fun r => (r.1, r.2.lib.current)) = some ((joinRun [(2000, 7)]).dropLast, 0) := by decide
  obtain ⟨q, reached, main⟩ := Lib.Machine.run_of_exec (fun p : Prog => p.lib.current) before
  have inside : (joinRun [(2000, 7)]).dropLast ++ [(ProgEvent.call .resume, Obs.joined 2 0)] <+:
      joinRun [(2000, 7)] := List.prefix_rfl
  obtain ⟨p', taken, after⟩ := run.step_of_prefix reached inside
  obtain rfl : p' = p := after.unique run
  have same := delivers _ _ 2 q inside reached p' 2 taken found
  rw [main, status, size, value] at same
  have byte := same (by decide) 0 (by decide)
  rw [Nat.add_zero, Nat.add_zero, result, buffer] at byte
  cases byte

end Xv6.User
