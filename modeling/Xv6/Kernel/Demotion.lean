import Xv6.Kernel.SchedRuns

/-! # Demotion and promotion

A timer yield lowers the priority of a process and sets its promotion timer, which
every call of `sched` in the system counts down. No run skips the end of the count.
-/

namespace Xv6.Kernel.Sched

variable {s t : State} {e : Event} {o : Unit} {q : Fin NPROC} {x y : Proc}

/-- The sections that call `sched`. -/
def Event.callsSched : Event → Bool
  | .yield _ _ | .sleep _ | .exit _ => true
  | _ => false

def schedCalls (tr : List (Event × Unit)) : Nat := tr.countP fun x => x.1.callsSched

/-- Process `q` yields because of the timer. -/
def Preempts (s : State) (q : Fin NPROC) (e : Event) : Prop :=
  ∃ c loop, e = .yield c .timer ∧ (s.cpus c).pc = .proc loop q false

/-- The fields that `sched` counts with agree. -/
def SameTimer (x y : Proc) : Prop :=
  x.priority = y.priority ∧ x.promotionTimer = y.promotionTimer

/-- Everything a step can do to the timer of slot `q`. -/
inductive Clock (s : State) (q : Fin NPROC) (e : Event) (x : Proc) : Prop where
  | kept (quiet : e.callsSched = false) (same : SameTimer x (s.procs q))
  | reset (quiet : e.callsSched = false) (high : x.priority = 0)
  | tick (calls : e.callsSched = true) (y : Proc) (same : SameTimer y (s.procs q))
      (after : x = promote y)
  | demoted (preempts : Preempts s q e) (calls : e.callsSched = true) (y : Proc)
      (lower : y.priority = if (s.procs q).priority + 1 > MAX_PRIO then (s.procs q).priority
        else (s.procs q).priority + 1)
      (timer : y.promotionTimer = PROM_TIME) (after : x = promote y)

/-- Writing the state and the lock of a slot keeps the timers. -/
theorem sameTimer_setProc (s : State) (p : Fin NPROC) (st : ProcState) (lk : Option Nat)
    (q : Fin NPROC) :
    SameTimer ((s.setProc p { s.procs p with state := st, lock := lk }).procs q) (s.procs q) := by
  by_cases here : q = p
  · subst here
    rw [State.setProc_procs_self]
    exact ⟨rfl, rfl⟩
  · rw [State.setProc_procs_of_ne s _ here]
    exact ⟨rfl, rfl⟩

theorem sameTimer_scanSection (c : Nat) (loop : Loop) (p q : Fin NPROC) :
    SameTimer ((scanSection s c loop p).procs q) (s.procs q) := by
  have dispatched : ∀ loop', SameTimer ((s.dispatch c loop' p).procs q) (s.procs q) :=
    fun _ => sameTimer_setProc s p .running (some c) q
  unfold scanSection
  split <;> (repeat' split) <;> first | exact dispatched _ | exact ⟨rfl, rfl⟩

theorem sameTimer_moveSlot {old new : ProcState} {p : Fin NPROC}
    (moved : moveSlot s p old new = some t) (q : Fin NPROC) :
    SameTimer (t.procs q) (s.procs q) := by
  unfold moveSlot at moved
  split at moved
  · split at moved <;> cases moved
    · exact sameTimer_setProc s p new (s.procs p).lock q
    · exact ⟨rfl, rfl⟩
  · cases moved

theorem sameTimer_wakeup {c : Nat} {p : Fin NPROC} (woken : wakeup s c p = some t) (q : Fin NPROC) :
    SameTimer (t.procs q) (s.procs q) := by
  unfold wakeup at woken
  split at woken
  · cases woken
    exact ⟨rfl, rfl⟩
  · exact sameTimer_moveSlot woken q

theorem sameTimer_idleSection {c : Nat} (taken : idleSection s c e = some t) (q : Fin NPROC) :
    e.callsSched = false ∧ SameTimer (t.procs q) (s.procs q) := by
  cases e with
  | scheduler d =>
    refine ⟨rfl, ?_⟩
    dsimp only [idleSection, schedulerSection] at taken
    split at taken
    · cases taken
      exact ⟨rfl, rfl⟩
    · split at taken
      · split at taken <;> cases taken
        exact sameTimer_scanSection c _ _ q
      · cases taken
        exact ⟨rfl, rfl⟩
    · cases taken
    · cases taken
  | wakeup d p => exact ⟨rfl, sameTimer_wakeup taken q⟩
  | _ => cases taken

theorem clock_procSection {c : Nat} {loop : Loop} {p : Fin NPROC}
    (at_ : (s.cpus e.cpu).pc = .proc loop p false)
    (taken : procSection s c loop p e = some t) (q : Fin NPROC) : Clock s q e (t.procs q) := by
  cases e with
  | yield d reason =>
    dsimp only [procSection] at taken
    split at taken <;> cases taken
    by_cases timer : reason = .timer ∧ q = p
    · obtain ⟨rfl, rfl⟩ := timer
      refine .demoted ⟨d, loop, rfl, at_⟩ rfl _ ?_ ?_ rfl <;> rw [State.setProc_procs_self]
    · refine .tick rfl _ ?_ rfl
      by_cases here : q = p
      · subst here
        cases reason with
        | timer => exact absurd ⟨rfl, rfl⟩ timer
        | other =>
          rw [State.setProc_procs_self]
          exact ⟨rfl, rfl⟩
      · rw [State.setProc_procs_of_ne s _ here]
        exact ⟨rfl, rfl⟩
  | sleep d | exit d =>
    dsimp only [procSection] at taken
    split at taken <;> cases taken
    exact .tick rfl _ (sameTimer_setProc s p _ (some c) q) rfl
  | wakeup d r => exact .kept rfl (sameTimer_wakeup taken q)
  | kill d r | fork d r | freeproc d r => exact .kept rfl (sameTimer_moveSlot taken q)
  | allocproc d r ok =>
    dsimp only [procSection] at taken
    split at taken <;> cases taken
    by_cases here : q = r
    · subst here
      refine .reset rfl ?_
      rw [State.setProc_procs_self]
    · refine .kept rfl ?_
      rw [State.setProc_procs_of_ne s _ here]
      exact ⟨rfl, rfl⟩
  | schedset d impl =>
    cases taken
    exact .kept rfl ⟨rfl, rfl⟩
  | scheduler d | release d => cases taken

theorem step_clock (taken : step s e = some (t, o)) (q : Fin NPROC) : Clock s q e (t.procs q) := by
  simp only [step, Option.map_eq_some_iff, Prod.mk.injEq, and_true] at taken
  obtain ⟨t', taken, rfl⟩ := taken
  split at taken
  case h_1 loop p at_ => exact clock_procSection at_ taken q
  case h_2 loop p at_ =>
    split at taken
    · rename_i released
      cases taken
      rw [released]
      exact .kept rfl (sameTimer_setProc s p (s.procs p).state none q)
    · cases taken
  case h_3 loop p at_ =>
    split at taken
    · rename_i scheduler
      cases taken
      rw [scheduler]
      refine .kept rfl ?_
      unfold backSection
      split <;> exact sameTimer_setProc s p (s.procs p).state none q
    · cases taken
  all_goals
    obtain ⟨quiet, same⟩ := sameTimer_idleSection taken q
    exact .kept quiet same

/-! ## The count -/

/-- What every slot satisfies. -/
structure Bounded (x : Proc) : Prop where
  priority : x.priority ≤ MAX_PRIO
  timer : x.priority = 1 → 1 ≤ x.promotionTimer ∧ x.promotionTimer ≤ PROM_TIME

theorem Bounded.congr (bounded : Bounded y) (same : SameTimer x y) : Bounded x := by
  refine ⟨?_, fun low => ?_⟩
  · rw [same.1]
    exact bounded.priority
  · rw [same.2]
    exact bounded.timer (same.1 ▸ low)

/-- `sched` counts a demoted process down by one, or promotes it. -/
theorem Bounded.promote (bounded : Bounded y) : Bounded (promote y) ∧
    ((promote y).priority = 1 → y.priority = 1 ∧
      (promote y).promotionTimer = y.promotionTimer - 1) := by
  have low := bounded.priority
  unfold MAX_PRIO at low
  unfold Sched.promote
  by_cases demoted : 0 < y.priority
  · have counted := bounded.timer (by omega)
    rw [if_pos demoted]
    refine ⟨⟨?_, ?_⟩, ?_⟩ <;> dsimp only <;> split <;> unfold MAX_PRIO at * <;> omega
  · rw [if_neg demoted]
    exact ⟨bounded, fun one => absurd one (by omega)⟩

theorem bounded_demoted (before : Bounded (s.procs q))
    (lower : y.priority = if (s.procs q).priority + 1 > MAX_PRIO then (s.procs q).priority
      else (s.procs q).priority + 1) (timer : y.promotionTimer = PROM_TIME) : Bounded y := by
  have low := before.priority
  refine ⟨?_, fun _ => ?_⟩
  · rw [lower]
    unfold MAX_PRIO at *
    split <;> omega
  · rw [timer]
    decide

theorem bounded_step (bounded : Bounded (s.procs q)) (taken : step s e = some (t, o)) :
    Bounded (t.procs q) := by
  cases step_clock taken q with
  | kept _ same => exact bounded.congr same
  | reset _ high =>
    exact ⟨by rw [high]; decide, fun low => absurd (high.symm.trans low) (by decide)⟩
  | tick _ y same after =>
    rw [after]
    exact (bounded.congr same).promote.1
  | demoted _ _ y lower timer after =>
    rw [after]
    exact (bounded_demoted bounded lower timer).promote.1

theorem bounded_run {tr : List (Event × Unit)} (run : machine.Run boot tr s) (q : Fin NPROC) :
    Bounded (s.procs q) :=
  run.always_invariant (fun _ s => Bounded (s.procs q))
    ⟨by simp [boot, MAX_PRIO], by simp [boot]⟩ fun _ _ _ _ _ _ bounded taken =>
      bounded_step bounded taken

/-- Process `q` gets priority 0 on the way, before `sched` is called too often. -/
def Promoted (s : State) (q : Fin NPROC) (tr : List (Event × Unit)) : Prop :=
  ∃ pre v, pre <+: tr ∧ machine.Run s pre v ∧ (v.procs q).priority = 0 ∧
    (schedCalls pre : Int) ≤ PROM_TIME

/-- While `q` is not promoted, what is left of its count and the calls of `sched` so
    far make up no more than `PROM_TIME`. -/
theorem promoted_or_counts {more : List (Event × Unit)} (bounded : Bounded (s.procs q))
    (run : machine.Run s more t) (alone : machine.Throughout s more fun v e => ¬Preempts v q e) :
    Promoted s q more ∨ Bounded (t.procs q) ∧ (t.procs q).priority = 1 ∧
      (t.procs q).promotionTimer + schedCalls more ≤ PROM_TIME := by
  -- a state where `q` has priority 0 ends the count
  have stop : ∀ {tr v}, machine.Run s tr v → Bounded (v.procs q) →
      (schedCalls tr : Int) ≤ PROM_TIME → ((v.procs q).priority = 1 →
        (v.procs q).promotionTimer + schedCalls tr ≤ PROM_TIME) →
      Promoted s q tr ∨ Bounded (v.procs q) ∧ (v.procs q).priority = 1 ∧
        (v.procs q).promotionTimer + schedCalls tr ≤ PROM_TIME := by
    intro tr v ran bound few counts
    by_cases low : (v.procs q).priority = 1
    · exact .inr ⟨bound, low, counts low⟩
    · have := bound.priority
      unfold MAX_PRIO at this
      exact .inl ⟨tr, v, List.prefix_rfl, ran, by omega, few⟩
  refine run.invariant (fun tr v => Promoted s q tr ∨ Bounded (v.procs q) ∧
    (v.procs q).priority = 1 ∧ (v.procs q).promotionTimer + schedCalls tr ≤ PROM_TIME) alone ?_ ?_
  · exact stop .start bounded (by decide) fun low => by
      simpa [schedCalls] using (bounded.timer low).2
  · intro pre u e o v earlier before notPreempted taken
    rcases before with ⟨early, w, inside, ran, high, few⟩ | ⟨bound, low, counts⟩
    · exact .inl ⟨early, w, inside.trans (List.prefix_append _ _), ran, high, few⟩
    have positive := (bound.timer low).1
    have calls : (schedCalls (pre ++ [(e, o)]) : Int) =
        schedCalls pre + if e.callsSched then 1 else 0 := by
      simp only [schedCalls, List.countP_append, List.countP_singleton]
      split <;> simp
    refine stop (earlier.snoc taken) (bounded_step bound taken) ?_ ?_ <;> rw [calls]
    · split <;> omega
    · intro still
      cases step_clock taken q with
      | kept quiet same =>
        rw [same.2, quiet]
        simpa using counts
      | reset _ high => exact absurd (high.symm.trans still) (by decide)
      | tick called y same after =>
        rw [after] at still ⊢
        have down := ((bound.congr same).promote.2 still).2
        rw [down, same.2, called, if_pos rfl]
        omega
      | demoted preempts => exact absurd preempts notPreempted

/-- In every state priorities are bounded and the timer of a demoted process is
    between 1 and `PROM_TIME`; within `PROM_TIME` calls of `sched` it has priority 0,
    unless it is preempted again. -/
theorem demotion_bounded {tr : List (Event × Unit)} (run : machine.Run boot tr s) :
    (∀ q, (s.procs q).priority ≤ MAX_PRIO ∧ ((s.procs q).priority = 1 →
      1 ≤ (s.procs q).promotionTimer ∧ (s.procs q).promotionTimer ≤ PROM_TIME)) ∧
    ∀ q more u, machine.Run s more u → machine.Throughout s more (fun v e => ¬Preempts v q e) →
      PROM_TIME ≤ schedCalls more → Promoted s q more := by
  refine ⟨fun q => ⟨(bounded_run run q).priority, (bounded_run run q).timer⟩, ?_⟩
  intro q more u ran alone many
  rcases promoted_or_counts (bounded_run run q) ran alone with promoted | ⟨bound, low, counts⟩
  · exact promoted
  · have positive := (bound.timer low).1
    omega

/-- The first process is dispatched and preempted. -/
def preemptedRun : List (Event × Unit) :=
  steps [.scheduler 0, .scheduler 0, .release 0, .yield 0 .timer]

/-- From there it runs on five other CPUs, one after the other, and gives each up by itself. -/
def yieldingRun : List (Event × Unit) := steps (.scheduler 0 :: [1, 2, 3, 4, 5].flatMap fun c =>
  [.scheduler c, .scheduler c, .release c, .yield c .other, .scheduler c])

theorem demotion_bounded_preempted : ∃ s u, machine.Run boot preemptedRun s ∧
    (s.procs initproc).priority = 1 ∧ (s.procs initproc).promotionTimer = 4 ∧
    (∀ q, (s.procs q).priority ≤ MAX_PRIO) ∧ machine.Run s yieldingRun u ∧
    Promoted s initproc yieldingRun := by
  have ran : (machine.exec boot ((preemptedRun ++ yieldingRun).map Prod.fst)).map
      (fun r => (r.1, ())) = some (preemptedRun ++ yieldingRun, ()) := by
    decide +kernel
  have halfway : (machine.exec boot (preemptedRun.map Prod.fst)).map (fun r => (r.1,
      (r.2.procs initproc).priority, (r.2.procs initproc).promotionTimer)) =
      some (preemptedRun, 1, 4) := by
    decide +kernel
  obtain ⟨s, run, seen⟩ := Lib.Machine.run_of_exec (fun s : State =>
    ((s.procs initproc).priority, (s.procs initproc).promotionTimer)) halfway
  obtain ⟨u, whole, -⟩ := Lib.Machine.run_of_exec (fun _ => ()) ran
  have more := whole.rest run
  simp only [Prod.mk.injEq] at seen
  have quiet : ∀ x ∈ yieldingRun, x.1 ≠ .yield x.1.cpu .timer := by decide
  obtain ⟨bounds, promoted⟩ := demotion_bounded run
  refine ⟨s, u, run, seen.1, seen.2, fun q => (bounds q).1, more, promoted initproc _ u more
    (Lib.Machine.throughout_of_events ?_) (by decide)⟩
  rintro x member t ⟨c, loop, timer, -⟩
  refine quiet x member ?_
  rw [timer]
  rfl

end Xv6.Kernel.Sched
