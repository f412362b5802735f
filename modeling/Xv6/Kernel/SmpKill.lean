import Xv6.Kernel.SmpSlots

/-! # kill and the loops that wait

A loop tests `killed` under the lock of the process and then calls `sleep`, which
takes that lock again. A `kill` that comes in between is seen by neither: the test
is over, and `kill` wakes only a process that is SLEEPING already.
-/

namespace Xv6.Kernel.Smp

/-- The process is SLEEPING in a wait that `kill` is to end. -/
def Proc.Waits (x : Proc) : Prop :=
  x.state = .sleeping ∧ ∃ chan, x.chan = some chan ∧ chan.interruptible = true

/-- `i` is not on its way into such a wait. -/
def Heeds (s : State) (i : Fin NPROC) : Prop :=
  ∀ chan, .sleepSched chan ∈ s.code (.proc i) → chan.interruptible = false

/-- `i` has been killed and will not wait. -/
structure Doomed (s : State) (i : Fin NPROC) : Prop where
  used : (s.proc i).state ≠ .unused
  killed : (s.proc i).killed = true
  awake : ¬ (s.proc i).Waits
  heeds : Heeds s i

/-- `kill` does not come between the test of `killed` and the switch in `sleep`. -/
def KillsHeeded (s : State) (e : Event) : Prop :=
  ∀ c ch t pid i k, e = .go c ch → s.thread c = some t → s.code t = .killAt pid i :: k →
    (s.proc i).pid = pid → Heeds s i

/-- Once `kill` has found a process, that process does not wait any more. -/
def KillsReach (init : State) (tr : List (Event × Obs)) : Prop :=
  ∀ pre e pid i mid u s, pre ++ (e, .killed pid (some i)) :: mid <+: tr →
    machine.Run init pre u → (u.proc i).state ≠ .unused → (u.proc i).state ≠ .zombie →
    (∀ mid' v, mid' <+: mid → machine.Run init (pre ++ (e, .killed pid (some i)) :: mid') v →
      (v.proc i).state ≠ .unused) →
    machine.Run init (pre ++ (e, .killed pid (some i)) :: mid) s →
    ¬ ((s.proc i).killed = true ∧ (s.proc i).Waits)

section

variable {s s' : State} {e : Event} {o : Obs} {i : Fin NPROC}

/-- A loop goes on to `sleep` only if the process is not marked. -/
theorem Next.sleepSched {t : Thread} {tb : Table} {op : Op} {ops : List Op} {chan : Chan}
    (next : Next t tb op ops) (sleeps : .sleepSched chan ∈ ops) :
    ∃ p, t = .proc p ∧ (tb.procs p).killed = false := by
  cases next with
  | waitSleep self alive | testSleep self alive => exact ⟨_, self, alive⟩
  | @testEnd w => cases w <;> simp [Wait.ending] at sleeps
  | _ => simp at sleeps

/-- Other code of the kernel sleeps on channels that `kill` leaves alone. -/
theorem Calls.sleepSched {t : Thread} {k ops : List Op} {chan : Chan} (calls : Calls t k ops)
    (sleeps : .sleepSched chan ∈ ops) : chan.interruptible = false := by
  cases calls with
  | sleep =>
    simp [sleepCode] at sleeps
    simp [sleeps, Chan.interruptible]
  | _ => simp [exitCode] at sleeps

/-- A process that is marked, or about to be, starts no wait. -/
theorem heeds_step (taken : step s e = some (s', o)) (used : (s.proc i).state ≠ .unused)
    (marked : (s.proc i).killed = true ∨ ∃ c ch t pid j k, e = .go c ch ∧
      s.thread c = some t ∧ s.code t = .killAt pid j :: k) (heeds : Heeds s i) : Heeds s' i := by
  have changes := step_code taken (.proc i)
  intro chan
  generalize s'.code (.proc i) = code' at changes
  intro sleeps
  cases changes with
  | same => exact heeds chan sleeps
  | acquire _ code | release _ code | switch _ _ code =>
    exact heeds chan (code ▸ List.mem_cons_of_mem _ sleeps)
  | exec runs code next =>
    rcases List.mem_append.mp sleeps with new | old
    · exfalso
      rcases marked with marked | ⟨_, _, t, pid, j, k, same, runs', code'⟩
      · obtain ⟨p, self, alive⟩ := next.sleepSched new
        cases self
        rw [State.proc, alive] at marked
        cases marked
      · cases same
        obtain rfl := Option.some.inj (runs.symm.trans runs')
        rw [code] at code'
        cases code'
        cases next <;> simp at new
    · exact heeds chan (code ▸ List.mem_cons_of_mem _ old)
  | call _ _ calls =>
    rcases List.mem_append.mp sleeps with new | old
    · exact calls.sleepSched new
    · exact heeds chan old
  | interrupt =>
    rcases List.mem_cons.mp sleeps with new | old
    · cases new
    · exact heeds chan old
  | spawned self unused =>
    cases self
    exact absurd unused used

theorem not_waits_of_kill {x : Proc} {killed : Bool} : ¬ Proc.Waits
      { x with killed, state := if x.state = .sleeping then .runnable else x.state } := by
  rintro ⟨asleep, -⟩
  simp only at asleep
  split at asleep
  · cases asleep
  · contradiction

/-- Only `wait` frees a process that has been killed. -/
theorem doomed_step (taken : step s e = some (s', o)) (doomed : Doomed s i) :
    Doomed s' i ∨ (s'.proc i).state = .unused := by
  obtain ⟨used, marked, awake, heeds⟩ := doomed
  have heeds' := heeds_step taken used (.inl marked) heeds
  have slot := step_slot taken i
  generalize after : s'.proc i = x at slot
  by_cases unused : x.state = .unused
  · exact .inr unused
  suffices x.killed = true ∧ ¬ x.Waits from
    .inl ⟨after ▸ unused, after ▸ this.1, after ▸ this.2, heeds'⟩
  cases slot with
  | same => exact ⟨marked, awake⟩
  | picked => exact ⟨marked, by simp [Proc.Waits]⟩
  | switch runs code sets =>
    cases sets with
    | yield => exact ⟨marked, by simp [Proc.Waits]⟩
    | exit => exact ⟨marked, awake⟩
    | @sleep chan =>
      have heeds := heeds chan (code ▸ List.mem_cons_self)
      exact ⟨marked, by simp [Proc.Waits, heeds]⟩
  | touch runs code touch =>
    cases touch with
    | same | adopted | reparented => exact ⟨marked, awake⟩
    | setkilled => exact ⟨rfl, awake⟩
    | tidyUp | woken | started | exited => exact ⟨marked, by simp [Proc.Waits]⟩
    | killed => exact ⟨rfl, not_waits_of_kill⟩
    | allocated unused' | failed unused' => exact absurd unused' used
    | reaped => exact absurd rfl unused

theorem doomed_of_kill {pid : BitVec 32} (taken : step s e = some (s', .killed pid (some i)))
    (used : (s.proc i).state ≠ .unused) (heeded : KillsHeeded s e) : Doomed s' i := by
  obtain ⟨c, ch, t, op, k, rfl, runs, code, shows⟩ := step_shows taken (by simp)
  obtain ⟨rfl, found, slot⟩ : op = .killAt pid i ∧ (s.proc i).pid = pid ∧ s'.proc i =
      { s.proc i with
        killed := true
        state := if (s.proc i).state = .sleeping then .runnable else (s.proc i).state } := by
    rw [State.proc, State.proc]
    generalize s'.table = tb at shows ⊢
    cases shows
    simp [Table.set_procs]
  have heeds := heeded c ch t pid i k rfl runs code found
  refine ⟨?_, ?_, ?_, heeds_step taken used (.inr ⟨c, ch, t, pid, i, k, rfl, runs, code⟩) heeds⟩
  · rw [slot]
    simp only
    split <;> simp [used]
  · rw [slot]
  · rw [slot]
    exact not_waits_of_kill

end

section

variable {trapframe pagetable : Nat} {tr : List (Event × Obs)}

theorem killsReach_of_heeded {s : State} (run : machine.Run (start trapframe pagetable) tr s)
    (heeded : machine.Throughout (start trapframe pagetable) tr KillsHeeded) :
    KillsReach (start trapframe pagetable) tr := by
  intro pre e pid i mid u v inside before used alive stays reached
  rw [← List.singleton_append, ← List.append_assoc] at inside reached
  have first := (List.prefix_append _ _).trans inside
  obtain ⟨w, taken, marked⟩ := run.step_of_prefix before first
  have doomed := doomed_of_kill taken used (heeded pre u e _ first before)
  rcases marked.until (Doomed · i) (fun s => (s.proc i).state = .unused) doomed
    (fun _ _ _ _ _ _ doomed taken => doomed_step taken doomed) reached with
    doomed | ⟨mid', x, within, freed, unused⟩
  · exact fun waits => doomed.awake waits.2
  · rw [List.append_assoc] at freed
    exact absurd unused (stays mid' x within freed)

end

/-- `KillsHeeded`, evaluated. -/
def killsHeeded (s : State) : Event → Bool
  | .go c _ =>
      match (s.thread c).map s.code with
      | some (.killAt pid i :: _) => (s.proc i).pid != pid ||
          (s.code (.proc i)).all fun
            | .sleepSched chan => !chan.interruptible
            | _ => true
      | _ => true
  | _ => true

theorem killsHeeded_of_test {s : State} {e : Event} (ok : killsHeeded s e = true) :
    KillsHeeded s e := by
  rintro c ch t pid i k rfl runs code found chan sleeps
  simp only [killsHeeded, runs, Option.map_some, code, found, bne_self_eq_false, Bool.false_or,
    List.all_eq_true] at ok
  simpa using ok _ sleeps

/-- init forks a child that calls `sleep` on the other CPU and has found that it is not
    killed. -/
def forkTestRun : List (Event × Obs) :=
  let go (c : Nat) : Event × Obs := (.go c .yes, .silent)
  [(.schedule 0 initproc, .silent), go 0, (.call 0 .fork, .silent)] ++ List.replicate 6 (go 0) ++
    [(.go 0 (.mem 3 4), .forked (some (slotOne, 2)))] ++ List.replicate 7 (go 0) ++
    [(.schedule 1 slotOne, .silent), go 1, (.call 1 (.loop .sleep), .silent)] ++
    List.replicate 5 (go 1)

/-- init calls `kill` for the child and gets to its slot. -/
def killBegins : List (Event × Obs) :=
  (.call 0 (.kill 2), .silent) :: List.replicate 6 (.go 0 .yes, .silent)

def killChildRun : List (Event × Obs) :=
  killBegins ++ [(.go 0 .yes, .killed 2 (some slotOne)), (.go 0 .yes, .silent)]

/-- The child goes to sleep. -/
def sleepRun : List (Event × Obs) := List.replicate 3 (.go 1 .yes, .silent)

theorem killsReach_sleepThenKill :
    KillsReach (start 1 2) (forkTestRun ++ sleepRun ++ (.leave 1, .silent) :: killChildRun) ∧
      ∃ s, machine.Run (start 1 2)
        (forkTestRun ++ sleepRun ++ (.leave 1, .silent) :: killChildRun) s ∧
        (s.proc slotOne).state = .runnable ∧ (s.proc slotOne).killed = true := by
  generalize same : forkTestRun ++ sleepRun ++ (.leave 1, .silent) :: killChildRun = tr
  have ran : (machine.exec (start 1 2) (tr.map Prod.fst)).map
      (fun r => (r.1, (r.2.proc slotOne).state, (r.2.proc slotOne).killed)) =
      some (tr, .runnable, true) := by
    subst same
    decide
  have test : machine.allows killsHeeded (start 1 2) (tr.map Prod.fst) = true := by
    subst same
    decide
  obtain ⟨s, run, seen⟩ := Lib.Machine.run_of_exec
    (fun s : State => ((s.proc slotOne).state, (s.proc slotOne).killed)) ran
  simp only [Prod.mk.injEq] at seen
  have heeded : machine.Throughout (start 1 2) tr KillsHeeded :=
    fun pre u e o inside earlier =>
      killsHeeded_of_test (Lib.Machine.throughout_of_allows test pre u e o inside earlier)
  exact ⟨killsReach_of_heeded run heeded, s, run, seen⟩

/-- `kill` returned 0 and the child sleeps until the clock has ticked often enough. -/
theorem not_killsReach_killThenSleep :
    ¬ KillsReach (start 1 2) (forkTestRun ++ killChildRun ++ sleepRun) ∧
      ∃ s, machine.Run (start 1 2) (forkTestRun ++ killChildRun ++ sleepRun) s ∧
        (s.proc slotOne).state = .sleeping ∧ (s.proc slotOne).chan = some (.io .sleep) ∧
        (s.proc slotOne).killed = true := by
  have ran : (machine.exec (start 1 2) ((forkTestRun ++ killChildRun ++ sleepRun).map Prod.fst)).map
      (fun r => (r.1, (r.2.proc slotOne).state, (r.2.proc slotOne).chan,
        (r.2.proc slotOne).killed)) =
      some (forkTestRun ++ killChildRun ++ sleepRun, .sleeping, some (.io .sleep), true) := by
    decide
  obtain ⟨s, run, seen⟩ := Lib.Machine.run_of_exec (fun s : State =>
    ((s.proc slotOne).state, (s.proc slotOne).chan, (s.proc slotOne).killed)) ran
  simp only [Prod.mk.injEq] at seen
  obtain ⟨asleep, on, marked⟩ := seen
  refine ⟨fun reach => ?_, s, run, asleep, on, marked⟩
  -- the child was running when it was killed, and its slot has not been freed
  have before : (machine.exec (start 1 2) ((forkTestRun ++ killBegins).map Prod.fst)).map
      (fun r => (r.1, (r.2.proc slotOne).state)) = some (forkTestRun ++ killBegins, .running) := by
    decide
  obtain ⟨u, earlier, running⟩ :=
    Lib.Machine.run_of_exec (fun s : State => (s.proc slotOne).state) before
  have stays : ∀ mid ∈ ((.go 0 .yes, .silent) :: sleepRun).inits,
      (machine.exec (start 1 2) ((forkTestRun ++ killBegins ++
        (.go 0 .yes, .killed 2 (some slotOne)) :: mid).map Prod.fst)).any
        (fun r => (r.2.proc slotOne).state != .unused) = true := by decide
  refine reach (forkTestRun ++ killBegins) _ 2 slotOne ((.go 0 .yes, .silent) :: sleepRun) u s
    List.prefix_rfl earlier (by simp [running]) (by simp [running]) ?_ run
    ⟨marked, asleep, _, on, rfl⟩
  intro mid v within reached
  have now := stays mid ((List.mem_inits ..).mpr within)
  rw [reached.exec_eq] at now
  simpa using now

end Xv6.Kernel.Smp
