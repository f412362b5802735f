import Xv6.User.Thread

/-! # Threads run to completion once

`thread_wrapper` relies on its last call of `tsched` not returning: the return
address of `thread_wrapper` is `thread_wrapper`, so a thread that comes back
from there starts its function again. `tsched` comes back exactly when no thread
of the table is RUNNABLE. The main thread starts as RUNNING and becomes RUNNABLE
only in its own first `tyield`, so this depends on the calls the program makes.
-/

namespace Xv6.User

namespace State

variable {t : Nat} {s : State}

@[simp] theorem setState_current (s : State) (t : Nat) (st : ProcState) :
    (s.setState t st).current = s.current := rfl

@[simp] theorem setState_fresh (s : State) (t : Nat) (st : ProcState) :
    (s.setState t st).fresh = s.fresh := rfl

@[simp] theorem setState_ctl (s : State) (t : Nat) (st : ProcState) :
    (s.setState t st).ctl = s.ctl := rfl

@[simp] theorem setState_state_self (s : State) (t : Nat) (st : ProcState) :
    ((s.setState t st).heap t).state = st := by
  simp [setState]

theorem setState_heap_of_ne (s : State) {u : Nat} (st : ProcState) (different : u ≠ t) :
    (s.setState t st).heap u = s.heap u := by
  simp [setState, different]

@[simp] theorem setState_same (s : State) (t : Nat) : s.setState t (s.heap t).state = s := by
  simp [setState]

@[simp] theorem setState_tid (s : State) (t u : Nat) (st : ProcState) :
    ((s.setState t st).heap u).tid = (s.heap u).tid := by
  by_cases same : u = t
  · subst same; simp [setState]
  · rw [setState_heap_of_ne s st same]

@[simp] theorem tsched_heap (s : State) (k : Cont) : (s.tsched k).heap = s.heap := rfl

@[simp] theorem tsched_fresh (s : State) (k : Cont) : (s.tsched k).fresh = s.fresh := rfl

@[simp] theorem tsched_ctl (s : State) (k : Cont) :
    (s.tsched k).ctl = Function.update s.ctl s.current (.resume k) := rfl

@[simp] theorem tsched_current (s : State) (k : Cont) :
    (s.tsched k).current = s.nextThread.getD s.current := rfl

theorem runnableAt_eq_some {i : Fin 16} :
    s.runnableAt i = some t ↔ s.threads i = some t ∧ (s.heap t).state = .runnable := by
  unfold runnableAt
  cases slot : s.threads i with
  | none => simp
  | some u =>
    simp only [Option.some.injEq, Option.ite_none_right_eq_some]
    constructor
    · rintro ⟨ready, rfl⟩
      exact ⟨rfl, ready⟩
    · rintro ⟨rfl, ready⟩
      exact ⟨ready, rfl⟩

/-- `tsched` only ever picks a RUNNABLE thread of the table. -/
theorem nextThread_runnable (found : s.nextThread = some t) :
    ∃ i, s.threads i = some t ∧ (s.heap t).state = .runnable := by
  obtain ⟨i, _, ready⟩ := List.exists_of_findSome?_eq_some found
  exact ⟨_, runnableAt_eq_some.mp ready⟩

/-- The second loop of `tsched` looks at every slot, the current one last. -/
theorem slot_visited (c j : Fin 16) : ∃ i ∈ List.range' 1 16, Fin.ofNat 16 (c + i) = j := by
  refine ⟨(j.val + 15 - c.val) % 16 + 1, ?_, ?_⟩
  · rw [List.mem_range'_1]
    omega
  · apply Fin.ext
    simp only [Fin.ofNat]
    omega

theorem nextThread_eq_none :
    s.nextThread = none ↔ ∀ i t, s.threads i = some t → (s.heap t).state ≠ .runnable := by
  constructor
  · intro nothing i t slot ready
    obtain ⟨k, inside, rfl⟩ := slot_visited s.currentIndex i
    have := List.findSome?_eq_none_iff.mp nothing k inside
    rw [runnableAt_eq_some.mpr ⟨slot, ready⟩] at this
    cases this
  · intro nothing
    cases found : s.nextThread with
    | none => rfl
    | some t =>
      obtain ⟨i, slot, ready⟩ := nextThread_runnable found
      exact absurd ready (nothing i t slot)

end State

variable {s s' : State} {e : Event} {o : Obs}

/-- How often the function of `t` was entered. -/
def entries (tr : List (Event × Obs)) (t : Nat) : Nat :=
  tr.countP fun x => x.2 = .entered t

theorem entries_snoc (tr : List (Event × Obs)) (e : Event) (o : Obs) (t : Nat) :
    entries (tr ++ [(e, o)]) t = entries tr t + if o = .entered t then 1 else 0 := by
  simp [entries, List.countP_append, List.countP_singleton]

/-- The running thread executes `current_thread`'s code, so a thread that is
    never current again executes nothing again. -/
def RunsOnce (tr : List (Event × Obs)) : Prop :=
  (∀ pre u, pre <+: tr → machine.Run start pre u → ∀ t, (u.heap t).state = .exited →
    ∀ later v, pre <+: later → later <+: tr → machine.Run start later v → v.current ≠ t) ∧
  ∀ t, entries tr t ≤ 1

/-- Some other thread can run when the function of a created thread returns. -/
def ReturnCovered (s : State) (e : Event) : Prop :=
  e = .ret → s.current ≠ mainThread →
    ∃ i t, s.threads i = some t ∧ t ≠ s.current ∧ (s.heap t).state = .runnable

/-- The invariant of runs in which every return is covered; `n` counts the
    entries. An EXITED thread is parked in the last call of `thread_wrapper`. -/
structure Parked (n : Nat → Nat) (s : State) : Prop where
  currentLive : (s.heap s.current).state ≠ .exited
  currentOld : s.current < s.fresh
  tableOld : ∀ i t, s.threads i = some t → t < s.fresh
  exited : ∀ t, (s.heap t).state = .exited ↔ s.ctl t = .resume .wrapper
  waiting : ∀ t, s.ctl t = .wrapper → n t = 0
  unborn : ∀ t, s.fresh ≤ t → n t = 0
  blank : ∀ t, s.fresh ≤ t → s.ctl t = .func
  once : ∀ t, n t ≤ 1

theorem parked_start : Parked (fun _ => 0) start where
  currentLive := by simp [start]
  currentOld := by simp [start, mainThread]
  tableOld := by
    intro i t slot
    simp only [start, mainThread, Option.ite_none_right_eq_some, Option.some.injEq] at slot
    simp [start, ← slot.2]
  exited := by simp [start]
  waiting := by simp
  unborn := by simp
  blank := by simp [start]
  once := by simp

namespace Parked

variable {n : Nat → Nat} {s : State}

section

variable (inv : Parked n s)
include inv

/-- Only control, the locks and the halt flag of the current thread change. -/
theorem of_func {s' : State} (heap : s'.heap = s.heap) (fresh : s'.fresh = s.fresh)
    (threads : s'.threads = s.threads) (current : s'.current = s.current)
    (ctl : s'.ctl = Function.update s.ctl s.current .func) :
    Parked n s' where
  currentLive := by rw [heap, current]; exact inv.currentLive
  currentOld := by rw [current, fresh]; exact inv.currentOld
  tableOld := by rw [threads, fresh]; exact inv.tableOld
  exited := by
    intro t
    rw [heap, ctl]
    by_cases same : t = s.current
    · subst same
      simpa using inv.currentLive
    · simpa [same] using inv.exited t
  waiting := by
    intro t
    rw [ctl]
    by_cases same : t = s.current
    · simp [same]
    · simpa [same] using inv.waiting t
  unborn := by rw [fresh]; exact inv.unborn
  blank := by
    intro t older
    rw [ctl]
    by_cases same : t = s.current
    · simp [same]
    · simpa [same] using inv.blank t (fresh ▸ older)
  once := inv.once

/-- Entering `tsched` with state `st` set by the caller. Either the caller can
    run on, or it exits and somebody else can run. -/
theorem switch (st : ProcState) (k : Cont) (exits : st = .exited ↔ k = .wrapper)
    (covered : st = .exited → ∃ i t, s.threads i = some t ∧ t ≠ s.current ∧
      (s.heap t).state = .runnable) :
    Parked n ((s.setState s.current st).tsched k) where
  currentLive := by
    rw [State.tsched_current, State.tsched_heap, State.setState_current]
    cases found : (s.setState s.current st).nextThread with
    | some t =>
      obtain ⟨i, _, ready⟩ := State.nextThread_runnable found
      simp [ready]
    | none =>
      simp only [Option.getD_none, State.setState_state_self]
      intro gone
      obtain ⟨i, t, slot, different, ready⟩ := covered gone
      refine State.nextThread_eq_none.mp found i t slot ?_
      rw [State.setState_heap_of_ne s st different]
      exact ready
  currentOld := by
    rw [State.tsched_current, State.tsched_fresh, State.setState_fresh, State.setState_current]
    cases found : (s.setState s.current st).nextThread with
    | none => exact inv.currentOld
    | some t =>
      obtain ⟨i, slot, _⟩ := State.nextThread_runnable found
      exact inv.tableOld i t slot
  tableOld := inv.tableOld
  exited := by
    intro t
    by_cases same : t = s.current
    · subst same
      simpa using exits
    · simpa [same, State.setState_heap_of_ne s st same] using inv.exited t
  waiting := by
    intro t
    by_cases same : t = s.current
    · simp [same]
    · simpa [same] using inv.waiting t
  unborn := inv.unborn
  blank := by
    intro t older
    have same : t ≠ s.current := Nat.ne_of_gt (Nat.lt_of_lt_of_le inv.currentOld older)
    simpa [same] using inv.blank t older
  once := inv.once

theorem tyield (k : Cont) (inside : k ≠ .wrapper) : Parked n (s.tyield k) :=
  inv.switch .runnable k (by simp [inside]) (by simp)

theorem tsched : Parked n (s.tsched .user) := by
  have live := inv.currentLive
  simpa using inv.switch (s.heap s.current).state .user (by simp [live]) (by simp [live])

theorem tcreate (func arg : Nat) : Parked n (s.tcreate func arg) where
  currentLive := by
    have older : s.current ≠ s.fresh := Nat.ne_of_lt inv.currentOld
    simpa [State.tcreate, older] using inv.currentLive
  currentOld := Nat.lt_succ_of_lt inv.currentOld
  tableOld := by
    intro i t slot
    simp only [State.tcreate] at slot ⊢
    cases free : s.freeSlot with
    | none => exact Nat.lt_succ_of_lt (inv.tableOld i t (by simpa [free] using slot))
    | some j =>
      by_cases here : i = j
      · obtain rfl : s.fresh = t := by simpa [free, here] using slot
        exact Nat.lt_succ_self _
      · exact Nat.lt_succ_of_lt (inv.tableOld i t (by simpa [free, here] using slot))
  exited := by
    intro t
    by_cases new : t = s.fresh
    · simp [State.tcreate, new]
    · simpa [State.tcreate, new] using inv.exited t
  waiting := by
    intro t
    by_cases new : t = s.fresh
    · exact fun _ => inv.unborn t (Nat.le_of_eq new.symm)
    · simpa [State.tcreate, new] using inv.waiting t
  unborn := fun t older => inv.unborn t (Nat.le_of_succ_le older)
  blank := by
    intro t older
    have new : t ≠ s.fresh := Nat.ne_of_gt older
    simpa [State.tcreate, new] using inv.blank t (Nat.le_of_succ_le older)
  once := inv.once

/-- The call of the thread's function, the one step that is an entry. -/
theorem threadWrapper (here : s.ctl s.current = .wrapper) :
    Parked (fun t => n t + if Obs.entered s.current = .entered t then 1 else 0)
      s.threadWrapper where
  currentLive := inv.currentLive
  currentOld := inv.currentOld
  tableOld := inv.tableOld
  exited :=
    have entered : Parked n s.threadWrapper := inv.of_func rfl rfl rfl rfl rfl
    entered.exited
  waiting := by
    intro t
    by_cases same : t = s.current
    · simp [State.threadWrapper, State.setCtl, same]
    · have other : s.current ≠ t := fun h => same h.symm
      simpa [State.threadWrapper, State.setCtl, same, other] using inv.waiting t
  unborn := by
    intro t older
    have other : s.current ≠ t := Nat.ne_of_lt (Nat.lt_of_lt_of_le inv.currentOld older)
    simpa [other] using inv.unborn t older
  blank :=
    have entered : Parked n s.threadWrapper := inv.of_func rfl rfl rfl rfl rfl
    entered.blank
  once := by
    intro t
    by_cases same : s.current = t
    · have none := inv.waiting t (same ▸ here)
      simp [same, none]
    · simpa [same] using inv.once t

end

end Parked

/-- `e` makes the test in the loop of `tjoin(tid)`, for the thread it selected. -/
inductive Joins (s : State) (tid : Int) (target : Nat) : Event → Prop where
  | call (found : s.findTid tid = some target) : Joins s tid target (.tjoin tid)
  | again (here : s.ctl s.current = .resume (.tjoin tid target)) : Joins s tid target .resume

/-- `e` makes the atomic exchange in the loop of `acquire`. -/
inductive Acquires (s : State) (lk : Nat) : Event → Prop where
  | call (here : s.ctl s.current = .func) : Acquires s lk (.acquire lk)
  | again (here : s.ctl s.current = .resume (.acquire lk)) : Acquires s lk .resume

/-- Everything a step can be. -/
inductive Moves (s : State) : Event → State → Obs → Prop where
  | work : Moves s .work s .silent
  | tcreate (func arg : Nat) : Moves s (.tcreate func arg) (s.tcreate func arg) (.created s.fresh)
  | initlock (lk : Nat) : Moves s (.initlock lk) (s.initlock lk) .silent
  | tyield : Moves s .tyield (s.tyield .user) .silent
  | tsched : Moves s .tsched (s.tsched .user) .silent
  | unknown {tid : Int} (nobody : s.findTid tid = none) : Moves s (.tjoin tid) s (.joined tid (-1))
  | joined {e : Event} {tid : Int} {target : Nat} (test : Joins s tid target e)
      (gone : (s.heap target).state = .exited) :
      Moves s e (s.setCtl s.current .func) (.joined tid 0)
  | waits {e : Event} {tid : Int} {target : Nat} (test : Joins s tid target e)
      (live : (s.heap target).state ≠ .exited) : Moves s e (s.tyield (.tjoin tid target)) .silent
  | acquired {e : Event} {lk : Nat} (test : Acquires s lk e) (free : (s.locks lk).locked = 0) :
      Moves s e { s.setCtl s.current .func with
        locks := Function.update s.locks lk { locked := 1, tid := s.twhoami } } .silent
  | spins {e : Event} {lk : Nat} (test : Acquires s lk e) :
      Moves s e (s.tyield (.acquire lk)) .silent
  | held {lk : Nat} (holds : s.holding lk = true) : Moves s (.acquire lk) s.halt .silent
  | release {lk : Nat} (holds : s.holding lk = true) : Moves s (.release lk)
      (State.tyield { s with
        locks := Function.update s.locks lk { locked := 0, tid := 255 } } .user) .silent
  | notHeld {lk : Nat} (out : s.holding lk = false) : Moves s (.release lk) s.halt .silent
  | exits (created : s.current ≠ mainThread) : Moves s .ret s.threadExit .silent
  | returns (main : s.current = mainThread) : Moves s .ret s.halt .silent
  | fault : Moves s .fault s.halt .silent
  | enters (here : s.ctl s.current = .wrapper) :
      Moves s .resume s.threadWrapper (.entered s.current)
  | resumes (here : s.ctl s.current = .resume .user) :
      Moves s .resume (s.setCtl s.current .func) .silent
  | restarts (here : s.ctl s.current = .resume .wrapper) :
      Moves s .resume (s.setCtl s.current .wrapper) .silent

section

variable {s s' : State} {e : Event} {o : Obs} {t : Nat}

theorem tjoinLoop_moves {tid : Int} {target : Nat} (test : Joins s tid target e) :
    Moves s e (tjoinLoop s tid target).1 (tjoinLoop s tid target).2 := by
  unfold tjoinLoop
  split
  · rename_i gone
    exact .joined test gone
  · rename_i live
    exact .waits test live

theorem acquireLoop_moves {lk : Nat} (test : Acquires s lk e) :
    Moves s e (acquireLoop s lk) .silent := by
  unfold acquireLoop
  split
  · rename_i free
    exact .acquired test free
  · exact .spins test

theorem stepFunc_moves (here : s.ctl s.current = .func) (taken : stepFunc s e = some (s', o)) :
    Moves s e s' o := by
  cases e with
  | work => cases taken; exact .work
  | tcreate func arg => cases taken; exact .tcreate func arg
  | tyield => cases taken; exact .tyield
  | tsched => cases taken; exact .tsched
  | initlock lk => cases taken; exact .initlock lk
  | fault => cases taken; exact .fault
  | tjoin tid =>
    simp only [stepFunc] at taken
    split at taken
    · rename_i nobody
      cases taken
      exact .unknown nobody
    · rename_i target found
      have moves := tjoinLoop_moves (.call found)
      rwa [Option.some.inj taken] at moves
  | acquire lk =>
    cases taken
    split
    · rename_i holds
      exact .held holds
    · exact acquireLoop_moves (.call here)
  | release lk =>
    cases taken
    unfold release
    split
    · rename_i holds
      exact .release holds
    · rename_i out
      exact .notHeld (Bool.eq_false_iff.mpr out)
  | ret =>
    cases taken
    split
    · rename_i main
      exact .returns main
    · rename_i created
      exact .exits created
  | resume => cases taken

theorem step_moves (taken : step s e = some (s', o)) : Moves s e s' o := by
  unfold step at taken
  split at taken
  · cases taken
  split at taken
  · rename_i here
    exact stepFunc_moves here taken
  · rename_i here
    cases taken
    exact .enters here
  · rename_i k here
    cases k with
    | user => cases taken; exact .resumes here
    | tjoin tid target =>
      have moves := tjoinLoop_moves (.again here)
      rwa [show tjoinLoop s tid target = (s', o) from Option.some.inj taken] at moves
    | acquire lk => cases taken; exact acquireLoop_moves (.again here)
    | wrapper => cases taken; exact .restarts here
  · cases taken
    exact .fault
  · cases taken

theorem Parked.step {n : Nat → Nat} (inv : Parked n s) (covered : ReturnCovered s e)
    (taken : step s e = some (s', o)) :
    Parked (fun t => n t + if o = .entered t then 1 else 0) s' := by
  cases step_moves taken with
  | work | unknown => exact inv
  | initlock | held | notHeld | returns | fault => exact { inv with }
  | joined | acquired | resumes => exact inv.of_func rfl rfl rfl rfl rfl
  | tcreate func arg => exact inv.tcreate func arg
  | tyield | waits | spins => exact inv.tyield _ (by simp)
  | tsched => exact inv.tsched
  | release =>
    refine Parked.tyield ?_ .user (by simp)
    exact { inv with }
  | exits created => exact inv.switch .exited .wrapper (by simp) fun _ => covered rfl created
  | enters here => exact inv.threadWrapper here
  -- a thread that is current is not EXITED, so it is not parked here
  | restarts here => exact absurd ((inv.exited _).mpr here) inv.currentLive

/-- Only the running thread, or a new one, has its struct written. -/
theorem step_heap_of_ne (taken : step s e = some (s', o)) (other : t ≠ s.current)
    (old : t ≠ s.fresh) : s'.heap t = s.heap t := by
  cases step_moves taken with
  | tcreate => simp [State.tcreate, old]
  | tyield | waits | spins | release | exits => exact State.setState_heap_of_ne _ _ other
  | _ => rfl

end

theorem Parked.exited_stays {n : Nat → Nat} {t : Nat} (inv : Parked n s)
    (taken : User.step s e = some (s', o)) (gone : (s.heap t).state = .exited) :
    (s'.heap t).state = .exited := by
  have other : t ≠ s.current := by
    rintro rfl
    exact inv.currentLive gone
  have old : t ≠ s.fresh := by
    rintro rfl
    have parked := (inv.exited _).mp gone
    rw [inv.blank _ (Nat.le_refl _)] at parked
    cases parked
  rw [step_heap_of_ne taken other old]
  exact gone

/-- What a run of covered steps keeps: the invariant, and every exit so far. -/
theorem parked_run {tr : List (Event × Obs)} (run : machine.Run start tr s)
    (covered : machine.Throughout start tr ReturnCovered) :
    Parked (entries tr) s ∧ ∀ pre u t, pre <+: tr → machine.Run start pre u →
      (u.heap t).state = .exited → (s.heap t).state = .exited := by
  refine run.invariant (fun tr s => Parked (entries tr) s ∧ ∀ pre u t, pre <+: tr →
    machine.Run start pre u → (u.heap t).state = .exited → (s.heap t).state = .exited)
    covered ⟨parked_start, ?_⟩ ?_
  · intro pre u t inside reached gone
    obtain rfl := List.prefix_nil.mp inside
    rwa [← reached.unique .start]
  · intro tr s e o s' reached ⟨inv, exits⟩ ok taken
    refine ⟨?_, ?_⟩
    · have next := inv.step ok taken
      rwa [show entries (tr ++ [(e, o)]) = fun t => entries tr t + if o = .entered t then 1 else 0
        from funext (entries_snoc tr e o)]
    · intro pre u t inside earlier gone
      rcases List.prefix_concat_iff.mp inside with rfl | inside
      · rwa [← earlier.unique (.snoc reached taken)]
      · exact inv.exited_stays taken (exits pre u t inside earlier gone)

/-- An uncovered return leaves the EXITED thread current: `tsched` found nobody. -/
theorem uncovered_return (taken : step s .ret = some (s', o))
    (uncovered : ¬ ReturnCovered s .ret) :
    s'.current = s.current ∧ (s'.heap s.current).state = .exited := by
  simp only [ReturnCovered, forall_const, not_forall, not_exists, not_and] at uncovered
  obtain ⟨created, alone⟩ := uncovered
  cases step_moves taken with
  | returns main => exact absurd main created
  | exits =>
    have nobody : (s.setState s.current .exited).nextThread = none := by
      rw [State.nextThread_eq_none]
      intro i t slot
      by_cases same : t = s.current
      · simp [same]
      · rw [State.setState_heap_of_ne s _ same]
        exact alone i t slot same
    simp [State.threadExit, nobody]
  | joined test | waits test | acquired test | spins test => cases test

/-- Threads run to completion once in exactly the runs in which, whenever the
    function of a created thread returns, another thread of the table is RUNNABLE. -/
theorem runsOnce_iff {tr : List (Event × Obs)} {s : State} (run : machine.Run start tr s) :
    RunsOnce tr ↔ machine.Throughout start tr ReturnCovered := by
  constructor
  · intro once pre t e o inside reached
    by_contra uncovered
    obtain rfl : e = .ret := by
      by_contra other
      exact uncovered fun h => absurd h other
    obtain ⟨v, taken, after⟩ := run.step_of_prefix reached inside
    obtain ⟨stays, gone⟩ := uncovered_return taken uncovered
    exact once.1 _ v inside after _ gone _ v List.prefix_rfl inside after stays
  · intro covered
    refine ⟨?_, (parked_run run covered).1.once⟩
    intro pre u _ reached t gone later v inside within after same
    obtain ⟨inv, exits⟩ := parked_run after (covered.of_prefix within)
    apply inv.currentLive
    rw [same]
    exact exits pre u t inside reached gone

/-- Neither the table nor any tid changes. -/
structure SameTable (s s' : State) : Prop where
  threads : s'.threads = s.threads
  fresh : s'.fresh = s.fresh
  nextTid : s'.nextTid = s.nextTid
  tid : ∀ t, (s'.heap t).tid = (s.heap t).tid

theorem sameTable_switch (s : State) (st : ProcState) (k : Cont) :
    SameTable s ((s.setState s.current st).tsched k) := ⟨rfl, rfl, rfl, by simp⟩

/-- `tcreate` is the only step that touches the table or a tid. -/
theorem step_table (taken : step s e = some (s', o)) :
    (∃ func arg, e = .tcreate func arg ∧ s' = s.tcreate func arg ∧ o = .created s.fresh) ∨
      (∀ func arg, e ≠ .tcreate func arg) ∧ SameTable s s' := by
  by_cases creates : ∃ func arg, e = .tcreate func arg
  · obtain ⟨func, arg, rfl⟩ := creates
    cases step_moves taken with
    | tcreate => exact .inl ⟨func, arg, rfl, rfl, rfl⟩
    | joined test | waits test | acquired test | spins test => cases test
  · push Not at creates
    refine .inr ⟨creates, ?_⟩
    cases step_moves taken with
    | tcreate func arg => exact absurd rfl (creates func arg)
    | tyield | waits | spins | exits => exact sameTable_switch s _ _
    | release => exact ⟨rfl, rfl, rfl, by simp [State.tyield]⟩
    | _ => exact ⟨rfl, rfl, rfl, fun _ => rfl⟩

/-- `main` calls `tsched` itself only once it is RUNNABLE, after its first `tyield`. -/
def MainYields (s : State) (e : Event) : Prop :=
  e = .tsched → s.current = mainThread → (s.heap mainThread).state = .runnable

/-- The main thread is in the table and can be picked whenever it is switched out. -/
structure MainReady (s : State) : Prop where
  listed : s.threads 0 = some mainThread
  old : mainThread < s.fresh
  ready : s.current ≠ mainThread → (s.heap mainThread).state = .runnable

theorem mainReady_start : MainReady start where
  listed := by simp [start]
  old := by simp [start, mainThread]
  ready := by simp [start]

/-- A thread that leaves the processor in a step of its own did so in `tyield`,
    in `tsched` or by returning. -/
theorem step_leaves (taken : step s e = some (s', o)) (leaves : s'.current ≠ s.current) :
    (s'.heap s.current).state = .runnable ∨
      e = .tsched ∧ (s'.heap s.current).state = (s.heap s.current).state ∨
      s.current ≠ mainThread := by
  cases step_moves taken with
  | tyield | waits | spins | release => exact .inl (by simp [State.tyield])
  | tsched => exact .inr (.inl ⟨rfl, rfl⟩)
  | exits created => exact .inr (.inr created)
  | _ => exact absurd rfl leaves

theorem MainReady.step (inv : MainReady s) (yields : MainYields s e)
    (taken : step s e = some (s', o)) : MainReady s' where
  listed := by
    rcases step_table taken with ⟨func, arg, -, rfl, -⟩ | ⟨-, same⟩
    · simp only [State.tcreate]
      cases free : s.freeSlot with
      | none => exact inv.listed
      | some j =>
        have empty := List.find?_some free
        have elsewhere : (0 : Fin 16) ≠ j := by
          rintro rfl
          simp [inv.listed] at empty
        simpa [elsewhere] using inv.listed
    · rw [same.threads]; exact inv.listed
  old := by
    rcases step_table taken with ⟨func, arg, -, rfl, -⟩ | ⟨-, same⟩
    · exact Nat.lt_succ_of_lt inv.old
    · rw [same.fresh]; exact inv.old
  ready := by
    intro elsewhere
    by_cases isMain : s.current = mainThread
    · have leaves : s'.current ≠ s.current := by rwa [isMain]
      rcases step_leaves taken leaves with ready | ⟨called, kept⟩ | created
      · rwa [← isMain]
      · rw [← isMain, kept, isMain]
        exact yields called isMain
      · exact absurd isMain created
    · rw [step_heap_of_ne taken (fun h => isMain h.symm) (Nat.ne_of_lt inv.old)]
      exact inv.ready isMain

/-- A program whose `main` gives up the processor through `tyield` (or `tjoin`,
    `acquire`, `release`) before it calls `tsched` itself has every return covered. -/
theorem covered_of_main_yields {tr : List (Event × Obs)}
    (yields : machine.Throughout start tr MainYields) :
    machine.Throughout start tr ReturnCovered := by
  intro pre t e o inside reached returns created
  have inv : MainReady t :=
    reached.invariant (fun _ s => MainReady s)
      (yields.of_prefix ((List.prefix_append _ _).trans inside)) mainReady_start
      (fun _ _ _ _ _ _ inv ok taken => inv.step ok taken)
  exact ⟨0, mainThread, inv.listed, fun same => created same.symm, inv.ready created⟩

/-- `main` creates a thread and yields to it; the thread returns. -/
def yieldRun : List (Event × Obs) :=
  [(.tcreate 1 0, .created 1), (.tyield, .silent), (.resume, .entered 1), (.work, .silent),
    (.ret, .silent), (.resume, .silent)]

theorem runsOnce_yieldRun : (∃ s, machine.Run start yieldRun s) ∧ RunsOnce yieldRun := by
  have ran : (machine.exec start (yieldRun.map Prod.fst)).map (fun r => (r.1, ())) =
      some (yieldRun, ()) := by decide
  obtain ⟨s, run, -⟩ := Lib.Machine.run_of_exec (fun _ => ()) ran
  have noCall : ∀ x ∈ yieldRun, x.1 ≠ .tsched := by decide
  refine ⟨⟨s, run⟩, (runsOnce_iff run).mpr (covered_of_main_yields ?_)⟩
  exact Lib.Machine.throughout_of_events fun x inside _ called => absurd called (noCall x inside)

/-- `main`, still RUNNING, calls `tsched` itself; the thread it switches to
    returns, finds nobody to switch to and runs its function again. -/
def tschedRun : List (Event × Obs) :=
  [(.tcreate 1 0, .created 1), (.tsched, .silent), (.resume, .entered 1), (.ret, .silent),
    (.resume, .silent), (.resume, .entered 1)]

theorem not_runsOnce_tschedRun :
    (∃ s, machine.Run start tschedRun s ∧ s.current = 1 ∧ (s.heap 1).state = .exited) ∧
      ¬ RunsOnce tschedRun := by
  have ran : (machine.exec start (tschedRun.map Prod.fst)).map
      (fun r => (r.1, (r.2.current, (r.2.heap 1).state))) = some (tschedRun, (1, .exited)) := by
    decide
  obtain ⟨s, run, seen⟩ :=
    Lib.Machine.run_of_exec (fun s : State => (s.current, (s.heap 1).state)) ran
  simp only [Prod.mk.injEq] at seen
  refine ⟨⟨s, run, seen⟩, fun once => ?_⟩
  have twice : entries tschedRun 1 = 2 := by decide
  have := once.2 1
  omega

end Xv6.User
