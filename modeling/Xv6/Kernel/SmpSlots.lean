import Xv6.Kernel.SmpCore

/-! # Free slots of the process table

`allocproc` sets only some fields of the slot it takes and relies on `freeproc` for
the others. That is sound as long as nobody writes to a slot that is UNUSED, and
`kill` and the handler of ^C find the slots they write to by scanning the table.
-/

namespace Xv6.Kernel.Smp

variable {s s' : State} {e : Event} {o : Obs} {i : Fin NPROC}

/-- The fields that are 0 in a slot `freeproc` has reset. -/
def Proc.Clean (x : Proc) : Prop :=
  x.pid = 0 ∧ x.killed = false ∧ x.chan = none ∧ x.parent = none ∧ x.sz = 0 ∧
    x.trapframe = 0 ∧ x.pagetable = 0

def CleanSlots (s : State) : Prop := ∀ i, (s.proc i).state = .unused → (s.proc i).Clean

/-- The step is the one of `kill(pid)` at slot `i`, or the one of `setkilled` there. -/
inductive Marks (s : State) (i : Fin NPROC) (pid : BitVec 32) : Event → Prop where
  | kill {c ch t k} (runs : s.thread c = some t) (code : s.code t = .killAt pid i :: k) :
      Marks s i pid (.go c ch)
  | setkilled {c ch t k} (runs : s.thread c = some t) (code : s.code t = .setkilled i :: k) :
      Marks s i pid (.go c ch)

/-- Neither `kill(0)` nor `setkilled` gets to an UNUSED slot. -/
def SparesUnused (s : State) (e : Event) : Prop :=
  ∀ i, Marks s i 0 e → (s.proc i).state ≠ .unused

theorem Proc.clean_freeproc : freeproc.Clean := by
  simp [Proc.Clean, freeproc]

theorem cleanSlots_start (trapframe pagetable : Nat) : CleanSlots (start trapframe pagetable) := by
  intro i unused
  simp only [State.proc, start] at unused ⊢
  split at unused
  · cases unused
  · rename_i other
    rw [if_neg other]
    exact Proc.clean_freeproc

theorem cleanSlots_step (core : Core s)
    (clean : CleanSlots s) (spares : SparesUnused s e) (taken : step s e = some (s', o)) :
    CleanSlots s' := by
  intro i
  have slot := step_slot taken i
  generalize s'.proc i = x at slot
  intro unused
  cases slot with
  | same => exact clean i unused
  | picked => cases unused
  | switch runs code sets =>
    cases sets with
    | sleep | yield => cases unused
    | exit => exact clean i unused
  | @touch c ch t op k x runs code touch =>
    cases touch with
    | same => exact clean i unused
    | tidyUp self | exited self =>
      subst self
      rcases core.running_state (State.thread_eq_proc.mp runs) with state | state <;>
        simp_all [State.proc]
    | woken | allocated | started => cases unused
    | killed found =>
      exfalso
      simp only at unused
      split at unused
      · cases unused
      · obtain ⟨zero, -⟩ := clean i unused
        rw [State.proc, found] at zero
        subst zero
        exact spares i (.kill runs code) unused
    | setkilled => exact absurd unused (spares i (.setkilled runs code))
    | failed | reaped => exact Proc.clean_freeproc
    | adopted =>
      cases (core.head code).1 with
      | forkParent =>
        have used := core.forking t i (by rw [code]; simp)
        rw [State.proc] at used
        rw [used] at unused
        cases unused
    | reparented self child =>
      obtain ⟨-, -, -, none, -⟩ := clean i unused
      rw [State.proc, child] at none
      cases none

/-- A slot of a process keeps its pid, and is marked only by `kill` of that pid and by
    `setkilled`. -/
theorem killed_step
    (taken : step s e = some (s', o)) (used : (s.proc i).state ≠ .unused) :
    ((s'.proc i).state ≠ .unused → (s'.proc i).pid = (s.proc i).pid) ∧
      ((s'.proc i).killed = true → (s.proc i).killed = true ∨ Marks s i (s.proc i).pid e) := by
  have slot := step_slot taken i
  generalize s'.proc i = x at slot
  cases slot with
  | same | picked => exact ⟨fun _ => rfl, .inl⟩
  | switch runs code sets => cases sets <;> exact ⟨fun _ => rfl, .inl⟩
  | touch runs code touch =>
    cases touch with
    | same | tidyUp | woken | adopted | started | reparented | exited =>
      exact ⟨fun _ => rfl, .inl⟩
    | killed found =>
      subst found
      exact ⟨fun _ => rfl, fun _ => .inr (.kill runs code)⟩
    | setkilled => exact ⟨fun _ => rfl, fun _ => .inr (.setkilled runs code)⟩
    | allocated unused | failed unused => exact absurd unused used
    | reaped => exact ⟨fun now => absurd rfl now, fun now => by cases now⟩

theorem not_clean_of_marks
    (clean : CleanSlots s) (marks : Marks s i 0 e) (unused : (s.proc i).state = .unused)
    (taken : step s e = some (s', o)) : ¬ CleanSlots s' := by
  obtain ⟨zero, -⟩ := clean i unused
  rw [State.proc] at unused zero
  have dirty : (s'.proc i).state = .unused ∧ (s'.proc i).killed = true := by
    cases marks with
    | kill runs code =>
      obtain ⟨eff, done, rfl, -⟩ := step_op taken runs code (by simp) rfl
      dsimp only [Smp.exec] at done
      rw [if_pos zero] at done
      cases done
      simp [Table.set_procs, unused]
    | setkilled runs code =>
      obtain ⟨eff, done, rfl, -⟩ := step_op taken runs code (by simp) rfl
      cases done
      simp [Table.set_procs, unused]
  intro after
  obtain ⟨-, alive, -⟩ := after i dirty.1
  rw [dirty.2] at alive
  cases alive

/-- Slots are clean wherever the run gets to, a new process is not marked unless it is
    marked after it was created, and `kill` returns 0 for a process only. -/
structure SlotsWork (init : State) (tr : List (Event × Obs)) : Prop where
  clean : machine.Always init tr fun _ s => CleanSlots s
  born : ∀ pre e i pid mid s, pre ++ (e, .forked (some (i, pid))) :: mid <+: tr →
    (∀ e' pid', (e', .forked (some (i, pid'))) ∉ mid) →
    machine.Run init (pre ++ (e, .forked (some (i, pid))) :: mid) s → (s.proc i).killed = true →
    ∃ mid' e' o' u, mid' ++ [(e', o')] <+: mid ∧
      machine.Run init (pre ++ (e, .forked (some (i, pid))) :: mid') u ∧ Marks u i pid e'
  kills : ∀ pre e pid i s, pre ++ [(e, .killed pid (some i))] <+: tr →
    machine.Run init pre s → (s.proc i).state ≠ .unused ∧ (s.proc i).pid = pid

section

variable {trapframe pagetable : Nat} {tr : List (Event × Obs)}

theorem cleanSlots_run (run : machine.Run (start trapframe pagetable) tr s)
    (spares : machine.Throughout (start trapframe pagetable) tr SparesUnused) : CleanSlots s :=
  run.invariant (fun _ s => CleanSlots s) spares (cleanSlots_start trapframe pagetable)
    fun _ _ _ _ _ earlier clean ok taken => cleanSlots_step (core_run earlier) clean ok taken

/-- The slot of a new process, up to the next one there: it is free again, or it has
    the pid it was given and is marked only if a step has marked it since. -/
theorem born_run {pre : List (Event × Obs)} {pid : BitVec 32}
    (clean : machine.Always (start trapframe pagetable) tr fun _ s => CleanSlots s)
    (mid : List (Event × Obs))
    (inside : pre ++ (e, .forked (some (i, pid))) :: mid <+: tr)
    (once : ∀ e' pid', (e', .forked (some (i, pid'))) ∉ mid)
    (run : machine.Run (start trapframe pagetable) (pre ++ (e, .forked (some (i, pid))) :: mid) s) :
    ((s.proc i).state ≠ .unused → (s.proc i).pid = pid) ∧
      ((s.proc i).killed = true → ∃ mid' e' o' u, mid' ++ [(e', o')] <+: mid ∧
        machine.Run (start trapframe pagetable)
          (pre ++ (e, .forked (some (i, pid))) :: mid') u ∧ Marks u i pid e') := by
  induction mid using List.reverseRecOn generalizing s with
  | nil =>
    obtain ⟨u, earlier, taken⟩ := run.last
    obtain ⟨c, ch, t, op, k, rfl, -, -, shows⟩ := step_shows taken (by simp)
    have fresh := clean pre u ((List.prefix_append _ _).trans inside) earlier i
    rw [State.proc] at fresh ⊢
    generalize s.table = tb at shows ⊢
    cases shows with
    | forked unused =>
      obtain ⟨-, unmarked, -⟩ := fresh unused
      simp [Table.set_procs, unmarked]
  | append_singleton mid last ih =>
    obtain ⟨e', o'⟩ := last
    have shift : pre ++ (e, .forked (some (i, pid))) :: (mid ++ [(e', o')]) =
        (pre ++ (e, .forked (some (i, pid))) :: mid) ++ [(e', o')] := by simp
    have after := clean _ s inside run
    rw [shift] at run inside
    have earlier := (List.prefix_append _ _).trans inside
    obtain ⟨u, before, taken⟩ := run.last
    obtain ⟨same, marked⟩ := ih earlier
      (fun e' pid' found => once e' pid' (List.mem_append_left _ found)) before
    by_cases unused : (u.proc i).state = .unused
    · -- nobody can have taken the slot since
      have still : (s.proc i).state = .unused := by
        by_contra used
        refine once e' u.table.nextpid ?_
        rw [← forked_of_used (core_run before) taken unused used]
        simp
      refine ⟨fun now => absurd still now, fun now => ?_⟩
      obtain ⟨-, unmarked, -⟩ := after i still
      rw [now] at unmarked
      cases unmarked
    · obtain ⟨keeps, killed⟩ := killed_step taken unused
      refine ⟨fun now => (keeps now).trans (same unused), fun now => ?_⟩
      rcases killed now with before' | marks
      · obtain ⟨mid', e'', o'', v, inner, reached, marks⟩ := marked before'
        exact ⟨mid', e'', o'', v, inner.trans (List.prefix_append _ _), reached, marks⟩
      · rw [same unused] at marks
        exact ⟨mid, e', o', u, List.prefix_rfl, before, marks⟩

theorem slotsWork_iff {s : State} (run : machine.Run (start trapframe pagetable) tr s) :
    SlotsWork (start trapframe pagetable) tr ↔
      machine.Throughout (start trapframe pagetable) tr SparesUnused := by
  constructor
  · intro works pre u e o inside earlier i marks unused
    obtain ⟨v, taken, later⟩ := run.step_of_prefix earlier inside
    have before := works.clean pre u ((List.prefix_append _ _).trans inside) earlier
    exact not_clean_of_marks before marks unused taken (works.clean _ v inside later)
  · intro spares
    have clean : machine.Always (start trapframe pagetable) tr fun _ s => CleanSlots s :=
      fun pre u inside earlier => cleanSlots_run earlier (spares.of_prefix inside)
    refine ⟨clean, fun pre e i pid mid u inside once reached => ?_, ?_⟩
    · exact (born_run clean mid inside once reached).2
    · intro pre e pid i u inside earlier
      obtain ⟨v, taken, -⟩ := run.step_of_prefix earlier inside
      obtain ⟨c, ch, t, op, k, rfl, runs, code, shows⟩ := step_shows taken (by simp)
      have fresh := clean pre u ((List.prefix_append _ _).trans inside) earlier i
      have ok := spares pre u _ _ inside earlier i
      rw [State.proc] at fresh ok ⊢
      generalize v.table = tb at shows
      cases shows with
      | killed =>
        refine ⟨fun unused => ?_, rfl⟩
        obtain ⟨zero, -⟩ := fresh unused
        rw [zero] at code
        exact ok (.kill runs code) unused

end

/-- `SparesUnused`, evaluated. -/
def sparesUnused (s : State) : Event → Bool
  | .go c _ =>
      match (s.thread c).map s.code with
      | some (.killAt pid i :: _) => pid != 0 || (s.proc i).state != .unused
      | some (.setkilled i :: _) => (s.proc i).state != .unused
      | _ => true
  | _ => true

theorem spares_of_test (ok : sparesUnused s e = true) :
    SparesUnused s e := by
  intro i marks
  cases marks with
  | kill runs code => simpa [sparesUnused, runs, code] using ok
  | setkilled runs code => simpa [sparesUnused, runs, code] using ok

/-- The slot that the first `fork` takes. -/
def slotOne : Fin NPROC := ⟨1, one_lt_NPROC⟩

/-- init forks a child and kills it. -/
def forkKillRun : List (Event × Obs) :=
  let go : Event × Obs := (.go 0 .yes, .silent)
  [(.schedule 0 initproc, .silent), go, (.call 0 .fork, .silent)] ++ List.replicate 6 go ++
    [(.go 0 (.mem 3 4), .forked (some (slotOne, 2)))] ++ List.replicate 7 go ++
    [(.call 0 (.kill 2), .silent)] ++ List.replicate 6 go ++
    [(.go 0 .yes, .killed 2 (some slotOne))]

theorem slotsWork_forkKillRun : SlotsWork (start 1 2) forkKillRun ∧
    ∃ s, machine.Run (start 1 2) forkKillRun s ∧ (s.proc slotOne).killed = true := by
  have ran : (machine.exec (start 1 2) (forkKillRun.map Prod.fst)).map
      (fun r => (r.1, (r.2.proc slotOne).killed)) = some (forkKillRun, true) := by decide
  obtain ⟨s, run, marked⟩ := Lib.Machine.run_of_exec (fun s : State => (s.proc slotOne).killed) ran
  have test : machine.allows sparesUnused (start 1 2) (forkKillRun.map Prod.fst) = true := by
    decide
  have spares : machine.Throughout (start 1 2) forkKillRun SparesUnused :=
    fun pre u e o inside earlier =>
      spares_of_test (Lib.Machine.throughout_of_allows test pre u e o inside earlier)
  exact ⟨(slotsWork_iff run).mpr spares, s, run, marked⟩

/-- init calls `kill(0)`, which succeeds, and then forks a child. -/
def killZeroRun : List (Event × Obs) :=
  let go : Event × Obs := (.go 0 .yes, .silent)
  [(.schedule 0 initproc, .silent), go, (.call 0 (.kill 0), .silent)] ++ List.replicate 6 go ++
    [(.go 0 .yes, .killed 0 (some slotOne)), go, (.call 0 .fork, .silent)] ++
    List.replicate 6 go ++ [(.go 0 (.mem 3 4), .forked (some (slotOne, 2)))]

/-- The slot that `kill(0)` marked was UNUSED, and its next process is born marked. -/
theorem not_slotsWork_killZeroRun : ¬ SlotsWork (start 1 2) killZeroRun ∧
    ∃ s, machine.Run (start 1 2) killZeroRun s ∧ (s.proc slotOne).state = .used ∧
      (s.proc slotOne).pid = 2 ∧ (s.proc slotOne).killed = true := by
  have ran : (machine.exec (start 1 2) (killZeroRun.map Prod.fst)).map
      (fun r => (r.1, (r.2.proc slotOne).state, (r.2.proc slotOne).pid,
        (r.2.proc slotOne).killed)) = some (killZeroRun, .used, 2, true) := by decide
  obtain ⟨s, run, seen⟩ := Lib.Machine.run_of_exec (fun s : State => ((s.proc slotOne).state,
    (s.proc slotOne).pid, (s.proc slotOne).killed)) ran
  simp only [Prod.mk.injEq] at seen
  refine ⟨fun works => ?_, s, run, seen⟩
  -- no step after the `fork` could have marked the child
  obtain ⟨mid', e', o', -, nothing, -⟩ := works.born _ _ slotOne 2 [] s List.prefix_rfl
    (by simp) run seen.2.2
  simp at nothing

end Xv6.Kernel.Smp
