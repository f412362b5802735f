import Mathlib

/-! # Runs of event-driven machines

A machine reads one event at a time and either refuses it or moves on with an
observation. Nondeterminism is the choice of the event, so a theorem about all
runs is a theorem about every schedule. Properties of a run speak about its
prefixes: `Always` about the states that the prefixes reach, `Throughout` about
the steps taken from them.
-/

namespace Xv6.Lib

/-- `step s e = none` says that `e` cannot happen in `s`. -/
structure Machine (State Event Obs : Type) where
  step : State → Event → Option (State × Obs)

namespace Machine

variable {State Event Obs : Type} {m : Machine State Event Obs}

/-- `m.Run s tr t`: the steps `tr`, taken in order from `s`, end in `t`. -/
inductive Run (m : Machine State Event Obs) (s : State) : List (Event × Obs) → State → Prop where
  | start : Run m s [] s
  | snoc {tr t e o u} : Run m s tr t → m.step t e = some (u, o) → Run m s (tr ++ [(e, o)]) u

/-- Run the events of a list in order; the executable side of `Run`. -/
def exec (m : Machine State Event Obs) (s : State) :
    List Event → Option (List (Event × Obs) × State)
  | [] => some ([], s)
  | e :: es =>
      match m.step s e with
      | none => none
      | some (t, o) => (m.exec t es).map fun (tr, u) => ((e, o) :: tr, u)

variable {s t u : State} {e : Event} {o : Obs} {tr more : List (Event × Obs)} {es : List Event}
  {ok : State → Event → Prop}

theorem Run.cons (first : m.step s e = some (t, o)) (rest : m.Run t tr u) :
    m.Run s ((e, o) :: tr) u := by
  induction rest with
  | start => simpa using Run.snoc .start first
  | snoc _ last ih => exact .snoc ih last

theorem exec_run (done : m.exec s es = some (tr, u)) : m.Run s tr u := by
  induction es generalizing s tr with
  | nil =>
    simp only [exec, Option.some.injEq, Prod.mk.injEq] at done
    obtain ⟨rfl, rfl⟩ := done
    exact .start
  | cons e es ih =>
    simp only [exec] at done
    split at done
    · cases done
    · rename_i t o first
      simp only [Option.map_eq_some_iff, Prod.exists, Prod.mk.injEq] at done
      obtain ⟨tr', u', rest, rfl, rfl⟩ := done
      exact .cons first (ih rest)

/-- A concrete run, found by running its events and looking at the outcome. -/
theorem run_of_exec {Seen : Type} (see : State → Seen) {x : Seen}
    (done : (m.exec s es).map (fun r => (r.1, see r.2)) = some (tr, x)) :
    ∃ u, m.Run s tr u ∧ see u = x := by
  obtain ⟨⟨tr', u⟩, ran, same⟩ := Option.map_eq_some_iff.mp done
  simp only [Prod.mk.injEq] at same
  obtain ⟨rfl, rfl⟩ := same
  exact ⟨u, exec_run ran, rfl⟩

theorem exec_events (done : m.exec s es = some (tr, u)) : tr.map Prod.fst = es := by
  induction es generalizing s tr with
  | nil =>
    simp only [exec, Option.some.injEq, Prod.mk.injEq] at done
    simp [← done.1]
  | cons e es ih =>
    simp only [exec] at done
    split at done
    · cases done
    · simp only [Option.map_eq_some_iff, Prod.exists, Prod.mk.injEq] at done
      obtain ⟨tr', u', rest, rfl, rfl⟩ := done
      rw [List.map_cons, ih rest]

/-- The same for events that cannot be compared: only what the steps show is. -/
theorem run_of_obs {Seen : Type} {os : List Obs} (see : State → Seen) {x : Seen}
    (done : (m.exec s es).map (fun r => (r.1.map Prod.snd, see r.2)) = some (os, x)) :
    ∃ u, m.Run s (es.zip os) u ∧ see u = x := by
  obtain ⟨⟨tr, u⟩, ran, same⟩ := Option.map_eq_some_iff.mp done
  simp only [Prod.mk.injEq] at same
  obtain ⟨rfl, rfl⟩ := same
  refine ⟨u, ?_, rfl⟩
  rw [← exec_events ran, List.zip_map_left, List.zip_map_right]
  have both : List.zip tr tr = tr.map fun x => (x, x) := by
    simp [List.zip_eq_zipWith, List.zipWith_self]
  simpa [both, Function.comp_def] using exec_run ran

theorem Run.last (run : m.Run s (tr ++ [(e, o)]) u) :
    ∃ t, m.Run s tr t ∧ m.step t e = some (u, o) := by
  generalize whole : tr ++ [(e, o)] = full at run
  cases run with
  | start => simp at whole
  | snoc earlier last =>
    obtain ⟨rfl, ends⟩ := List.append_inj' whole rfl
    simp only [List.cons.injEq, Prod.mk.injEq, and_true] at ends
    obtain ⟨rfl, rfl⟩ := ends
    exact ⟨_, earlier, last⟩

theorem Run.append (run : m.Run s tr t) (rest : m.Run t more u) : m.Run s (tr ++ more) u := by
  induction rest with
  | start => simpa using run
  | snoc _ last ih =>
    rw [← List.append_assoc]
    exact .snoc ih last

theorem Run.of_append (run : m.Run s (tr ++ more) u) :
    ∃ t, m.Run s tr t := by
  induction more using List.reverseRecOn generalizing u with
  | nil => exact ⟨u, by simpa using run⟩
  | append_singleton more last ih =>
    rw [← List.append_assoc] at run
    obtain ⟨t, earlier, _⟩ := run.last
    exact ih earlier

/-- Running the events of a run takes the same steps. -/
theorem Run.exec_append (run : m.Run s tr t) (es : List Event) :
    m.exec s (tr.map Prod.fst ++ es) = (m.exec t es).map fun r => (tr ++ r.1, r.2) := by
  induction run generalizing es with
  | start => simp
  | snoc _ last ih =>
    rw [List.map_append, List.append_assoc, ih]
    simp [exec, last, Function.comp_def]

theorem Run.exec_eq (run : m.Run s tr t) :
    m.exec s (tr.map Prod.fst) = some (tr, t) := by
  simpa [exec] using run.exec_append []

theorem Run.rest (run : m.Run s (tr ++ more) u) (earlier : m.Run s tr t) : m.Run t more u := by
  have ran := run.exec_eq
  rw [List.map_append, earlier.exec_append, Option.map_eq_some_iff] at ran
  obtain ⟨⟨more', u'⟩, rest, same⟩ := ran
  simp only [Prod.mk.injEq, List.append_cancel_left_eq] at same
  obtain ⟨rfl, rfl⟩ := same
  exact exec_run rest

/-- The machine is deterministic: the steps taken determine the state reached. -/
theorem Run.unique (one : m.Run s tr t) (other : m.Run s tr u) : t = u := by
  have same := one.exec_eq.symm.trans other.exec_eq
  simpa using same

/-- In a run, the state before a step and the step determine what follows it. -/
theorem Run.step_of_prefix {pre : List (Event × Obs)} (run : m.Run s tr u)
    (before : m.Run s pre t) (inside : pre ++ [(e, o)] <+: tr) :
    ∃ v, m.step t e = some (v, o) ∧ m.Run s (pre ++ [(e, o)]) v := by
  obtain ⟨more, whole⟩ := inside
  obtain ⟨v, after⟩ := (whole ▸ run).of_append
  obtain ⟨t', before', taken⟩ := after.last
  obtain rfl := before'.unique before
  exact ⟨v, taken, after⟩

/-- `P` holds in every state that a prefix of `tr` reaches. -/
def Always (m : Machine State Event Obs) (s : State) (tr : List (Event × Obs))
    (P : List (Event × Obs) → State → Prop) : Prop :=
  ∀ pre t, pre <+: tr → m.Run s pre t → P pre t

/-- Every step of `tr` is taken in a state where `ok` allows its event. -/
def Throughout (m : Machine State Event Obs) (s : State) (tr : List (Event × Obs))
    (ok : State → Event → Prop) : Prop :=
  ∀ pre t e o, pre ++ [(e, o)] <+: tr → m.Run s pre t → ok t e

theorem Throughout.of_prefix (all : m.Throughout s more ok) (pre : tr <+: more) :
    m.Throughout s tr ok :=
  fun pre' t e o inside run => all pre' t e o (inside.trans pre) run

theorem Throughout.append (first : m.Throughout s tr ok) (run : m.Run s tr t)
    (rest : m.Throughout t more ok) :
    m.Throughout s (tr ++ more) ok := by
  intro pre u e o inside earlier
  rcases List.prefix_or_prefix_of_prefix inside (List.prefix_append tr more) with within | beyond
  · exact first pre u e o within earlier
  · rcases List.prefix_concat_iff.mp beyond with whole | ⟨mid, rfl⟩
    · exact first pre u e o (whole ▸ List.prefix_rfl) earlier
    · rw [List.append_assoc, List.prefix_append_right_inj] at inside
      exact rest mid u e o inside (earlier.rest run)

/-- The invariant rule: what holds at the start and is kept by every allowed
    step holds wherever a run of allowed steps ends. -/
theorem Run.invariant (P : List (Event × Obs) → State → Prop) (run : m.Run s tr t)
    (all : m.Throughout s tr ok) (start : P [] s)
    (keep : ∀ pre u e o v, m.Run s pre u → P pre u → ok u e → m.step u e = some (v, o) →
      P (pre ++ [(e, o)]) v) :
    P tr t := by
  induction run with
  | start => exact start
  | snoc earlier last ih =>
    exact keep _ _ _ _ _ earlier (ih (all.of_prefix (List.prefix_append _ _)))
      (all _ _ _ _ List.prefix_rfl earlier) last

/-- A condition that only looks at the events is checked on the list of steps. -/
theorem throughout_of_events (each : ∀ x ∈ tr, ∀ t, ok t x.1) : m.Throughout s tr ok :=
  fun pre t e o inside _ => each (e, o) (inside.subset (by simp)) t

/-- Whether every event of the list is allowed where the run of the list takes it. -/
def allows (m : Machine State Event Obs) (ok : State → Event → Bool) (s : State) :
    List Event → Bool
  | [] => true
  | e :: es => ok s e && (m.step s e).all fun (t, _) => m.allows ok t es

theorem Run.allows_rest {ok : State → Event → Bool} (run : m.Run s tr t)
    (all : m.allows ok s (tr.map Prod.fst ++ es) = true) :
    m.allows ok t es = true := by
  induction run generalizing es with
  | start => exact all
  | snoc _ last ih =>
    rw [List.map_append, List.append_assoc] at all
    have rest := ih all
    simp only [List.map_cons, List.map_nil, List.cons_append, List.nil_append, allows, last,
      Option.all_some, Bool.and_eq_true] at rest
    exact rest.2

/-- A condition on state and event is checked by running the events. -/
theorem throughout_of_allows {ok : State → Event → Bool}
    (all : m.allows ok s (tr.map Prod.fst) = true) :
    m.Throughout s tr (fun t e => ok t e = true) := by
  rintro pre t e o ⟨more, rfl⟩ run
  rw [List.append_assoc, List.map_append] at all
  have rest := run.allows_rest all
  simp only [List.cons_append, List.map_cons, allows, Bool.and_eq_true] at rest
  exact rest.1

theorem throughout_true (s : State) (tr : List (Event × Obs)) :
    m.Throughout s tr (fun _ _ => True) :=
  fun _ _ _ _ _ _ => trivial

/-- The invariant rule for runs without a condition on the steps. -/
theorem Run.always_invariant (P : List (Event × Obs) → State → Prop) (run : m.Run s tr t)
    (start : P [] s)
    (keep : ∀ pre u e o v, m.Run s pre u → P pre u → m.step u e = some (v, o) →
      P (pre ++ [(e, o)]) v) :
    P tr t :=
  run.invariant P (throughout_true s tr) start
    (fun pre u e o v run holds _ step => keep pre u e o v run holds step)

/-- The rule for waiting: what every step keeps or ends with `Q` still holds where a run
    gets to, or `Q` has held on the way. -/
theorem Run.until {pre mid : List (Event × Obs)} (P Q : State → Prop) (before : m.Run s pre t)
    (now : P t)
    (keep : ∀ pre v e o w, m.Run s pre v → P v → m.step v e = some (w, o) → P w ∨ Q w)
    (run : m.Run s (pre ++ mid) u) :
    P u ∨ ∃ mid' v, mid' <+: mid ∧ m.Run s (pre ++ mid') v ∧ Q v := by
  induction mid using List.reverseRecOn generalizing u with
  | nil =>
    rw [List.append_nil] at run
    exact .inl (run.unique before ▸ now)
  | append_singleton mid last ih =>
    rw [← List.append_assoc] at run
    obtain ⟨v, earlier, taken⟩ := run.last
    rcases ih earlier with holds | ⟨mid', w, inside, reached, ended⟩
    · rcases keep _ _ _ _ _ earlier holds taken with holds | ended
      · exact .inl holds
      · refine .inr ⟨_, u, List.prefix_rfl, ?_, ended⟩
        rwa [← List.append_assoc]
    · exact .inr ⟨mid', w, inside.trans (List.prefix_append _ _), reached, ended⟩

/-- `m` with a history variable: `note` brings it up to date after each step,
    from the states before and after it. No step depends on it. -/
def watch {Ghost : Type} (m : Machine State Event Obs)
    (note : State → Event → State → Ghost → Ghost) : Machine (State × Ghost) Event Obs :=
  ⟨fun x e => (m.step x.1 e).map fun (t, o) => ((t, note x.1 e t x.2), o)⟩

section watch

variable {Ghost : Type} {note : State → Event → State → Ghost → Ghost}

theorem watch_step {x y : State × Ghost} {e : Event} {o : Obs} :
    (m.watch note).step x e = some (y, o) ↔
      m.step x.1 e = some (y.1, o) ∧ y.2 = note x.1 e y.1 x.2 := by
  obtain ⟨s, g⟩ := x
  obtain ⟨t, g'⟩ := y
  simp only [watch, Option.map_eq_some_iff, Prod.exists, Prod.mk.injEq]
  constructor
  · rintro ⟨t', o', taken, ⟨rfl, rfl⟩, rfl⟩
    exact ⟨taken, rfl⟩
  · rintro ⟨taken, rfl⟩
    exact ⟨t, o, taken, ⟨rfl, rfl⟩, rfl⟩

end watch

end Machine

end Xv6.Lib
