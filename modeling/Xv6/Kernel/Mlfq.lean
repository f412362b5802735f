import Xv6.Kernel.SchedRuns

/-! # The priority rule of `mlfq_scheduler`

The first loop of `mlfq_scheduler` ends only after a scan that met no RUNNABLE
process of priority 0. The second loop looks for such a process again, but only in
the slot that it has come to: a process dispatched from there may leave another one
RUNNABLE behind it, and the loop goes on with the slots that follow.
-/

namespace Xv6.Kernel.Sched

/-- A RUNNABLE process of priority 0. -/
def High (s : State) (q : Fin NPROC) : Prop :=
  (s.procs q).state = .runnable ∧ (s.procs q).priority = 0

/-- A RUNNABLE process of lower priority. -/
def Low (s : State) (q : Fin NPROC) : Prop :=
  (s.procs q).state = .runnable ∧ 0 < (s.procs q).priority

/-- When the section switches from `mlfq_scheduler` to a process whose priority is not
    0, no process of priority 0 is RUNNABLE. -/
def PriorityRule (s : State) (e : Event) : Prop :=
  ∀ t o loop p, step s e = some (t, o) → loop ≠ .rr → (t.cpus e.cpu).pc = .proc loop p true →
    0 < (s.procs p).priority → ∀ q, ¬ High s q

/-- The second loop, about to go on with slot `i`, has nobody to give way to, or meets
    a process of priority 0 before every other RUNNABLE one. -/
def GivesWay (s : State) (i : Nat) : Prop :=
  (∀ r, ¬ High s r) ∨ ∀ q : Fin NPROC, i ≤ q → Low s q → ∃ r : Fin NPROC, i ≤ r ∧ r < q ∧ High s r

/-- Where `swtch` returns to the second loop, the loop gives way. An interrupt handler
    that runs on top of a scan wakes nobody whom the scan would have to notice. -/
def KeepsRule (s : State) : Event → Prop
  | .scheduler c => ∀ p, (s.cpus c).pc = .back .low p → GivesWay s (p + 1)
  | .wakeup c q => (s.procs q).state = .sleeping →
      (∀ i, (s.cpus c).pc = .scan (.high false) i → q < i → 0 < (s.procs q).priority) ∧
      ∀ i, (s.cpus c).pc = .scan .low i → 0 < (s.procs q).priority ∧ ∀ r, ¬ High s r
  | _ => True

/-- What the loops of `mlfq_scheduler` know when they have come to slot `i`. The first
    one sets `high_avail` before it dispatches. -/
def Scanned (s : State) : Pc → Prop
  | .scan (.high false) i => ∀ q : Fin NPROC, q < i → ¬ High s q
  | .scan .low i => GivesWay s i
  | .scan .rr _ | .scan (.high true) _ | .scheduler => True
  | .proc loop _ _ | .back loop _ => loop ≠ .high false

section

variable {s t : State} {c i : Nat} {pc : Pc} {loop : Loop} {p q : Fin NPROC}

/-- The second loop dispatches only when nobody of priority 0 is RUNNABLE. -/
theorem GivesWay.dispatch (gives : GivesWay s p) (low : Low s p) (q : Fin NPROC) : ¬ High s q := by
  rcases gives with none | before
  · exact none q
  · obtain ⟨r, behind, ahead, -⟩ := before p le_rfl low
    omega

theorem GivesWay.next (gives : GivesWay s p)
    (still : (s.procs p).state ≠ .runnable) : GivesWay s (p + 1) := by
  rcases gives with none | before
  · exact .inl none
  · refine .inr fun q ahead low => ?_
    obtain ⟨r, behind, earlier, high⟩ := before q (by omega) low
    have other : r ≠ p := by
      rintro rfl
      exact still high.1
    exact ⟨r, by omega, earlier, high⟩

/-! ## The loops -/

theorem scanned_setPc (scanned : Scanned s pc) :
    Scanned (s.setPc c pc) ((s.setPc c pc).cpus c).pc := by
  rw [State.setPc, State.setCpu_cpus_self]
  exact scanned

theorem scanned_dispatch (available : loop ≠ .high false) :
    Scanned (s.dispatch c loop p) ((s.dispatch c loop p).cpus c).pc := by
  rw [State.dispatch, State.setCpu_cpus_self]
  exact available

theorem scanned_scanSection (scanned : Scanned s (.scan loop p)) :
    Scanned (scanSection s c loop p) ((scanSection s c loop p).cpus c).pc := by
  cases loop with
  | rr =>
    simp only [scanSection]
    split
    · exact scanned_dispatch (by simp)
    · exact scanned_setPc trivial
  | high avail =>
    have next (passed : ¬ High s p) : Scanned s (.scan (.high avail) (p + 1)) := by
      cases avail with
      | true => trivial
      | false =>
        intro q before high
        rcases Nat.lt_or_eq_of_le (Nat.le_of_lt_succ before) with earlier | here
        · exact scanned q earlier high
        · exact passed (Fin.ext here ▸ high)
    simp only [scanSection]
    split
    · rename_i lower
      exact scanned_setPc (next fun high => by simp [high.2] at lower)
    · split
      · exact scanned_dispatch (by simp)
      · rename_i still
        exact scanned_setPc (next fun high => still high.1)
  | low =>
    simp only [scanSection]
    split
    · exact scanned_setPc trivial
    · split
      · exact scanned_dispatch (by simp)
      · rename_i still
        exact scanned_setPc (GivesWay.next scanned still)

/-- At the end of the table: the second loop is entered only after a scan of the whole
    table that met no process of priority 0. -/
theorem scanned_done (ended : NPROC ≤ i)
    (scanned : Scanned s (.scan loop i)) : Scanned s loop.done := by
  cases loop with
  | rr | low => trivial
  | high avail =>
    cases avail with
    | true => exact fun q before => absurd before (Nat.not_lt_zero _)
    | false => exact .inl fun r => scanned r (by omega)

theorem scanned_schedulerSection (scanned : Scanned s (s.cpus c).pc)
    (taken : schedulerSection s c = some t) : Scanned t (t.cpus c).pc := by
  simp only [schedulerSection] at taken
  split at taken
  case h_1 at_ =>
    cases taken
    rw [State.setCpu_cpus_self]
    cases s.schedPointer with
    | rr => trivial
    | mlfq => exact fun q before => absurd before (Nat.not_lt_zero _)
  case h_2 loop i at_ =>
    rw [at_] at scanned
    split at taken
    · split at taken
      · cases taken
        exact scanned_scanSection scanned
      · cases taken
    · cases taken
      exact scanned_setPc (scanned_done (by omega) scanned)
  case h_3 => cases taken
  case h_4 => cases taken

/-- Releasing a lock changes nobody's state or priority. -/
theorem GivesWay.releaseLock (gives : GivesWay s i) : GivesWay (s.releaseLock p) i := by
  have same : ∀ q, ((s.releaseLock p).procs q).state = (s.procs q).state ∧
      ((s.releaseLock p).procs q).priority = (s.procs q).priority := by
    intro q
    by_cases self : q = p
    · rw [self, State.releaseLock, State.setProc_procs_self]
      exact ⟨rfl, rfl⟩
    · rw [State.releaseLock, State.setProc_procs_of_ne _ _ self]
      exact ⟨rfl, rfl⟩
  simpa only [GivesWay, High, Low, same] using gives

theorem scanned_backSection (available : loop ≠ .high false)
    (gives : loop = .low → GivesWay s (p + 1)) :
    Scanned (backSection s c loop p) ((backSection s c loop p).cpus c).pc := by
  unfold backSection
  split
  · exact scanned_setPc trivial
  · rw [State.setCpu_cpus_self]
    cases loop with
    | rr => trivial
    | high avail =>
      cases avail with
      | true => trivial
      | false => exact absurd rfl available
    | low => exact (gives rfl).releaseLock

/-- A handler on top of a scan: the process it wakes is the only new one. -/
theorem scanned_woken (scanned : Scanned s (s.cpus c).pc)
    (keeps : KeepsRule s (.wakeup c q)) (asleep : (s.procs q).state = .sleeping) :
    Scanned (s.setProc q { s.procs q with state := .runnable }) (s.cpus c).pc := by
  obtain ⟨first, second⟩ := keeps asleep
  have old : ∀ r, High (s.setProc q { s.procs q with state := .runnable }) r →
      High s r ∨ r = q ∧ (s.procs q).priority = 0 := by
    intro r high
    by_cases self : r = q
    · subst self
      rw [High, State.setProc_procs_self] at high
      exact .inr ⟨rfl, high.2⟩
    · rw [High, State.setProc_procs_of_ne _ _ self] at high
      exact .inl high
  generalize (s.cpus c).pc = pc at *
  cases pc with
  | scheduler => trivial
  | proc | back => exact scanned
  | scan loop i =>
    cases loop with
    | rr => trivial
    | high avail =>
      cases avail with
      | true => trivial
      | false =>
        intro r before high
        rcases old r high with known | ⟨rfl, zero⟩
        · exact scanned r before known
        · have lower := first i rfl before
          omega
    | low =>
      obtain ⟨lower, none⟩ := second i rfl
      refine .inl fun r high => ?_
      rcases old r high with known | ⟨-, zero⟩
      · exact none r known
      · omega

theorem wakeup_cpus (taken : wakeup s c q = some t) : t.cpus = s.cpus := by
  simp only [wakeup, moveSlot] at taken
  split at taken
  · cases taken
    rfl
  · split at taken <;> (try split at taken) <;> cases taken <;> rfl

theorem scanned_wakeup (scanned : Scanned s (s.cpus c).pc)
    (keeps : KeepsRule s (.wakeup c q)) (taken : wakeup s c q = some t) :
    Scanned t (t.cpus c).pc := by
  simp only [wakeup, moveSlot] at taken
  split at taken
  · cases taken
    exact scanned
  · split at taken
    · split at taken
      · cases taken
        exact scanned_woken scanned keeps ‹_›
      · cases taken
        exact scanned
    · cases taken

end

/-! ## Runs -/

/-- The sections of one CPU: its process runs on or leaves, `swtch` has returned to a
    loop, the scheduler goes on, or a handler runs on top of it. -/
inductive Turn (s : State) (c : Nat) : Event → State → Prop where
  | process {loop p locked e t} (before : (s.cpus c).pc = .proc loop p locked)
      (after : (t.cpus c).pc = .proc loop p false ∨ (t.cpus c).pc = .back loop p) : Turn s c e t
  | back {loop p} (before : (s.cpus c).pc = .back loop p) :
      Turn s c (.scheduler c) (backSection s c loop p)
  | scheduler {t} (taken : schedulerSection s c = some t) : Turn s c (.scheduler c) t
  | wakeup {q t} (before : (s.cpus c).pc.current = none) (taken : wakeup s c q = some t) :
      Turn s c (.wakeup c q) t

section

variable {s t : State} {e : Event} {o : Unit} {c : Nat} {loop loop' : Loop} {p p' : Fin NPROC}

theorem step_turn (taken : step s e = some (t, o)) : Turn s e.cpu e t := by
  have moved := step_section taken
  simp only [step, Option.map_eq_some_iff, Prod.mk.injEq, and_true] at taken
  obtain ⟨t', taken, rfl⟩ := taken
  split at taken
  case h_1 loop p at_ =>
    refine .process at_ ?_
    cases moved with
    | idle _ _ none | dispatch _ _ none => simp [at_, Pc.current] at none
    | release loop' p' before => simp [at_] at before
    | leave loop' p' x before =>
      rw [at_] at before
      cases before
      exact .inr (by simp [sched, State.setPc])
    | back loop' p' before => simp [at_] at before
    | slot | stay | schedset => exact .inl at_
  case h_2 loop p at_ =>
    split at taken
    · cases taken
      exact .process at_ (.inl (by simp [State.setPc]))
    · cases taken
  case h_3 loop p at_ =>
    split at taken
    · rename_i scheduler
      cases taken
      rw [scheduler]
      exact .back at_
    · cases taken
  all_goals
    rename_i at_
    cases e with
    | scheduler c => exact .scheduler taken
    | wakeup c q => exact .wakeup (by rw [at_]; rfl) taken
    | _ => cases taken

theorem scanned_step (scanned : Scanned s (s.cpus e.cpu).pc)
    (keeps : KeepsRule s e) (taken : step s e = some (t, o)) : Scanned t (t.cpus e.cpu).pc := by
  have turn := step_turn taken
  generalize e.cpu = c at *
  cases turn with
  | process before after =>
    rw [before] at scanned
    rcases after with after | after <;> rw [after] <;> exact scanned
  | @back loop p before =>
    rw [before] at scanned
    exact scanned_backSection scanned fun low => keeps p (low ▸ before)
  | scheduler taken => exact scanned_schedulerSection scanned taken
  | wakeup before taken => exact scanned_wakeup scanned keeps taken

theorem priorityRule_scanSection (scanned : Scanned s (.scan loop' p')) (mlfq : loop ≠ .rr)
    (switched : ((scanSection s c loop' p').cpus c).pc = .proc loop p true)
    (lower : 0 < (s.procs p).priority) : ∀ q, ¬ High s q := by
  cases loop' with
  | rr =>
    simp only [scanSection] at switched
    split at switched <;> simp [State.dispatch, State.setPc] at switched
    exact absurd switched.1.symm mlfq
  | high avail =>
    simp only [scanSection] at switched
    split at switched
    · simp [State.setPc] at switched
    · split at switched <;> simp [State.dispatch, State.setPc] at switched
      rename_i first _
      exact absurd (switched.2 ▸ lower) first
  | low =>
    simp only [scanSection] at switched
    split at switched
    · simp [State.setPc] at switched
    · split at switched <;> simp [State.dispatch, State.setPc] at switched
      rename_i ready
      obtain ⟨-, rfl⟩ := switched
      exact GivesWay.dispatch scanned ⟨ready, lower⟩

theorem priorityRule_schedulerSection (scanned : Scanned s (s.cpus c).pc)
    (taken : schedulerSection s c = some t)
    (mlfq : loop ≠ .rr) (switched : (t.cpus c).pc = .proc loop p true)
    (lower : 0 < (s.procs p).priority) : ∀ q, ¬ High s q := by
  simp only [schedulerSection] at taken
  split at taken
  case h_1 at_ =>
    cases taken
    simp at switched
  case h_2 loop' i at_ =>
    rw [at_] at scanned
    split at taken
    · split at taken
      · cases taken
        exact priorityRule_scanSection scanned mlfq switched lower
      · cases taken
    · cases taken
      rw [State.setPc, State.setCpu_cpus_self] at switched
      cases loop' with
      | rr | low => cases switched
      | high avail => cases avail <;> cases switched
  case h_3 => cases taken
  case h_4 => cases taken

theorem priorityRule_of_scanned (scanned : Scanned s (s.cpus e.cpu).pc) : PriorityRule s e := by
  intro t o loop p taken mlfq switched lower
  have turn := step_turn taken
  generalize e.cpu = c at *
  cases turn with
  | process before after =>
    rcases after with after | after <;> rw [after] at switched <;> cases switched
  | back before =>
    unfold backSection at switched
    split at switched <;> simp [State.setPc] at switched
  | scheduler taken => exact priorityRule_schedulerSection scanned taken mlfq switched lower
  | wakeup before taken =>
    rw [wakeup_cpus taken] at switched
    simp [switched, Pc.current] at before

end

/-- As long as `swtch` returns to the second loop only where that loop gives way, the
    CPU obeys the priority rule, from any state of the table on. -/
theorem priorityRule_run {c : Nat} {s : State} {tr : List (Event × Unit)}
    (entry : (s.cpus c).pc = .scheduler)
    (alone : ∀ x ∈ tr, x.1.cpu = c) (keeps : machine.Throughout s tr KeepsRule) :
    machine.Throughout s tr PriorityRule := by
  intro pre u e o inside reached
  have only : ∀ x ∈ pre ++ [(e, o)], x.1.cpu = c := fun x found => alone x (inside.subset found)
  have here : e.cpu = c := only (e, o) (by simp)
  have before := (List.prefix_append pre [(e, o)]).trans inside
  -- what the loops know, kept along the run up to `u`
  have scanned : Scanned u (u.cpus c).pc := by
    refine reached.invariant (fun done v => (∀ x ∈ done, x.1.cpu = c) → Scanned v (v.cpus c).pc)
      (keeps.of_prefix before) (fun _ => by rw [entry]; trivial) ?_
      fun x found => only x (List.mem_append_left _ found)
    intro done v e' o' w _ scanned ok taken only'
    have cpu : e'.cpu = c := only' (e', o') (by simp)
    subst cpu
    exact scanned_step (scanned fun x found => only' x (List.mem_append_left _ found)) ok taken
  subst here
  exact priorityRule_of_scanned scanned

instance (s : State) (q : Fin NPROC) : Decidable (High s q) :=
  inferInstanceAs (Decidable (_ ∧ _))

instance (s : State) (q : Fin NPROC) : Decidable (Low s q) :=
  inferInstanceAs (Decidable (_ ∧ _))

instance (s : State) (i : Nat) : Decidable (GivesWay s i) :=
  inferInstanceAs (Decidable (_ ∨ _))

/-- `KeepsRule`, evaluated where no interrupt arrives. -/
def keepsRule (s : State) : Event → Bool
  | .scheduler c =>
      match (s.cpus c).pc with
      | .back .low p => GivesWay s (p + 1)
      | _ => true
  | .wakeup c _ => (s.cpus c).pc.current.isSome
  | _ => true

theorem keepsRule_of_test {s : State} {e : Event} (ok : keepsRule s e = true) : KeepsRule s e := by
  cases e with
  | scheduler c =>
    intro p at_
    simpa [keepsRule, at_] using ok
  | wakeup c q =>
    refine fun _ => ⟨fun i at_ => ?_, fun i at_ => ?_⟩ <;>
      simp [keepsRule, at_, Pc.current] at ok
  | _ => trivial

/-- A process of priority 0 sleeps in slot 0, two others are RUNNABLE behind it. -/
def threeProcs : State where
  procs := fun p =>
    { state := if p.val = 0 then .sleeping else if p.val < 3 then .runnable else .unused
      priority := if p.val = 0 then 0 else 1
      promotionTimer := PROM_TIME
      lock := none }
  cpus := fun _ => { proc := none, pc := .scheduler }
  schedPointer := .mlfq

/-- CPU 0 scans the table twice and gets to slot 1. -/
def toSlotOne : List Event := List.replicate 68 (.scheduler 0) ++ [.release 0]

/-- The process in slot 1 yields, and slot 2 is next. -/
def yieldRun : List (Event × Unit) := steps
  (toSlotOne ++ [.yield 0 .timer, .scheduler 0, .scheduler 0])

/-- The process in slot 1 wakes the one in slot 0 and sleeps, and slot 2 is next. -/
def wokenRun : List (Event × Unit) := steps
  (toSlotOne ++ [.wakeup 0 ⟨0, NPROC_pos⟩, .sleep 0, .scheduler 0])

theorem priorityRule_yieldRun :
    (∃ s, machine.Run threeProcs yieldRun s ∧ (s.cpus 0).proc = some ⟨2, by decide⟩) ∧
      machine.Throughout threeProcs yieldRun PriorityRule := by
  have ran : (machine.exec threeProcs (yieldRun.map Prod.fst)).map
      (fun r => (r.1, (r.2.cpus 0).proc)) = some (yieldRun, some ⟨2, by decide⟩) := by
    decide +kernel
  have test : machine.allows keepsRule threeProcs (yieldRun.map Prod.fst) = true := by
    decide +kernel
  have alone : ∀ x ∈ yieldRun, x.1.cpu = 0 := by
    decide +kernel
  refine ⟨Lib.Machine.run_of_exec (fun s : State => (s.cpus 0).proc) ran, ?_⟩
  exact priorityRule_run rfl alone fun pre u e o inside reached =>
    keepsRule_of_test (Lib.Machine.throughout_of_allows test pre u e o inside reached)

/-- The next step dispatches a process of priority 1 while slot 0 is RUNNABLE with
    priority 0. -/
theorem not_priorityRule_wokenRun : ∃ s t, machine.Run threeProcs wokenRun s ∧
    step s (.scheduler 0) = some (t, ()) ∧ (t.cpus 0).pc = .proc .low ⟨2, by decide⟩ true ∧
    (s.procs ⟨2, by decide⟩).priority = 1 ∧ High s ⟨0, by decide⟩ ∧
    ¬ machine.Throughout threeProcs (wokenRun ++ [(.scheduler 0, ())]) PriorityRule := by
  have ran : (machine.exec threeProcs (wokenRun.map Prod.fst)).map (fun r => (r.1,
      (step r.2 (.scheduler 0)).map (fun x => (x.1.cpus 0).pc),
      (r.2.procs ⟨2, by decide⟩).priority, decide (High r.2 ⟨0, by decide⟩))) =
      some (wokenRun, some (.proc .low ⟨2, by decide⟩ true), 1, true) := by
    decide +kernel
  obtain ⟨s, run, seen⟩ := Lib.Machine.run_of_exec (fun s : State =>
    ((step s (.scheduler 0)).map (fun x => (x.1.cpus 0).pc),
      (s.procs ⟨2, by decide⟩).priority, decide (High s ⟨0, by decide⟩))) ran
  simp only [Prod.mk.injEq, decide_eq_true_eq] at seen
  obtain ⟨switched, lower, high⟩ := seen
  obtain ⟨⟨t, o⟩, taken, switched⟩ := Option.map_eq_some_iff.mp switched
  refine ⟨s, t, run, taken, switched, lower, high, fun rule => ?_⟩
  exact rule wokenRun s _ () List.prefix_rfl run t () .low _ taken (by simp) switched
    (by rw [lower]; decide) _ high

end Xv6.Kernel.Sched
