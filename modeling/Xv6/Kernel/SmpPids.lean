import Xv6.Kernel.SmpSlots

/-! # Process identifiers

`allocpid` hands out the values of `nextpid`, an `int`, one after the other, and
nothing looks whether the value is in use. The pids of the processes are positive
and differ as long as `nextpid` itself is positive whenever one is drawn; after
2^31 - 2 calls it is not. A `fork` that runs out of memory draws a pid as well.
-/

namespace Xv6.Kernel.Smp

open Function

variable {s s' : State} {e : Event} {o : Obs} {i : Fin NPROC}

/-- The processes have positive pids that differ. -/
structure DistinctPids (s : State) : Prop where
  positive : ∀ i, (s.proc i).state ≠ .unused → 0 < (s.proc i).pid.toInt
  distinct : ∀ i j, (s.proc i).state ≠ .unused → (s.proc j).state ≠ .unused →
    (s.proc i).pid = (s.proc j).pid → i = j

/-- The step calls `allocpid`: `allocproc` has found an UNUSED slot. -/
inductive Allocpid (s : State) : Event → Prop where
  | forkAt {c ch t i k} (runs : s.thread c = some t) (code : s.code t = .forkAt i :: k)
      (unused : (s.proc i).state = .unused) : Allocpid s (.go c ch)

def PositiveNext (s : State) (e : Event) : Prop :=
  Allocpid s e → 0 < s.table.nextpid.toInt

/-! ## The counter -/

theorem step_nextpid (taken : step s e = some (s', o)) :
    s'.table.nextpid = s.table.nextpid ∨ Allocpid s e ∧ s'.table.nextpid = s.table.nextpid + 1 := by
  cases step_cases taken with
  | acquire | release | call | interrupt | leave | switch | schedule => exact .inl rfl
  | exec runs code done =>
    rw [State.apply_table]
    rcases (exec_does done).draws with same | ⟨i, rfl, unused, next⟩
    · exact .inl same
    · exact .inr ⟨.forkAt runs code unused, next⟩

/-! ## The invariant -/

/-- The pids in use lie between 0 and the next one, which has not wrapped around. -/
structure PidsBelow (s : State) : Prop where
  next : 0 < s.table.nextpid.toNat ∧ s.table.nextpid.toNat ≤ 2 ^ 31
  below : ∀ i, (s.proc i).state ≠ .unused →
    0 < (s.proc i).pid.toNat ∧ (s.proc i).pid.toNat < s.table.nextpid.toNat
  distinct : ∀ i j, (s.proc i).state ≠ .unused → (s.proc j).state ≠ .unused →
    (s.proc i).pid = (s.proc j).pid → i = j

theorem PidsBelow.distinctPids (pids : PidsBelow s) : DistinctPids s := by
  refine ⟨fun i used => ?_, pids.distinct⟩
  have below := pids.below i used
  have next := pids.next
  rw [BitVec.toInt_eq_toNat_of_lt (by omega)]
  omega

theorem pidsBelow_start (trapframe pagetable : Nat) : PidsBelow (start trapframe pagetable) := by
  have onlyInit : ∀ i, ((start trapframe pagetable).proc i).state ≠ .unused → i = initproc := by
    intro i used
    by_contra other
    exact used (by simp [State.proc, start, other, freeproc])
  refine ⟨⟨Nat.two_pos, by simp [start]⟩, fun i used => ?_, fun i j used used' _ => ?_⟩
  · rw [onlyInit i used]
    exact ⟨Nat.one_pos, Nat.one_lt_two⟩
  · rw [onlyInit i used, onlyInit j used']

/-- The counter after a step that found it positive whenever it drew a pid. -/
theorem PidsBelow.next_step (pids : PidsBelow s)
    (ok : PositiveNext s e) (taken : step s e = some (s', o)) :
    s.table.nextpid.toNat ≤ s'.table.nextpid.toNat ∧ s'.table.nextpid.toNat ≤ 2 ^ 31 := by
  rcases step_nextpid taken with same | ⟨draws, next⟩
  · rw [same]
    exact ⟨le_rfl, pids.next.2⟩
  · have small : s.table.nextpid.toNat < 2 ^ 31 := by
      have positive := BitVec.toInt_pos_iff.mp (ok draws).le
      omega
    rw [next, BitVec.toNat_add_of_lt (by simpa using by omega)]
    simp
    omega

theorem pid_forked {pid : BitVec 32}
    (taken : step s e = some (s', .forked (some (i, pid)))) :
    (s'.proc i).pid = s.table.nextpid ∧ s'.table.nextpid = s.table.nextpid + 1 := by
  obtain ⟨c, ch, t, op, k, rfl, runs, code, shows⟩ := step_shows taken (by simp)
  rw [State.proc]
  generalize s'.table = tb at shows ⊢
  cases shows with
  | forked unused => exact ⟨by simp [Table.set_procs], rfl⟩

/-- Where the pid of a process comes from: it had it before the step, or the step
    created it. -/
theorem pid_step (core : Core s)
    (taken : step s e = some (s', o)) (used : (s'.proc i).state ≠ .unused) :
    ((s.proc i).state ≠ .unused ∧ (s'.proc i).pid = (s.proc i).pid) ∨
      (o = .forked (some (i, s.table.nextpid)) ∧ (s'.proc i).pid = s.table.nextpid ∧
        s'.table.nextpid = s.table.nextpid + 1) := by
  by_cases unused : (s.proc i).state = .unused
  · obtain rfl := forked_of_used core taken unused used
    exact .inr ⟨rfl, pid_forked taken⟩
  · exact .inl ⟨unused, (killed_step taken unused).1 used⟩

theorem pidsBelow_step (core : Core s) (pids : PidsBelow s)
    (ok : PositiveNext s e) (taken : step s e = some (s', o)) : PidsBelow s' := by
  obtain ⟨grows, small⟩ := pids.next_step ok taken
  have positive := pids.next.1
  refine ⟨⟨by omega, small⟩, fun i used => ?_, fun i j used used' same => ?_⟩
  · rcases pid_step core taken used with ⟨before, keeps⟩ | ⟨-, drawn, next⟩
    · rw [keeps]
      exact ⟨(pids.below i before).1, (pids.below i before).2.trans_le grows⟩
    · rw [drawn]
      refine ⟨positive, lt_of_le_of_ne grows fun stuck => ?_⟩
      rw [next] at stuck
      bv_omega
  · -- a pid in use is below the next one, so only the new process has that one
    have fresh : ∀ k, (s.proc k).state ≠ .unused → (s.proc k).pid ≠ s.table.nextpid := by
      intro k before drawn
      have below := (pids.below k before).2
      rw [drawn] at below
      exact lt_irrefl _ below
    rcases pid_step core taken used with ⟨before, keeps⟩ | ⟨rfl, drawn, -⟩ <;>
      rcases pid_step core taken used' with ⟨before', keeps'⟩ | ⟨shows, drawn', -⟩
    · exact pids.distinct i j before before' (by rw [← keeps, same, keeps'])
    · exact absurd (by rw [← keeps, same, drawn']) (fresh i before)
    · exact absurd (by rw [← keeps', ← same, drawn]) (fresh j before')
    · simpa using shows

/-- As long as `nextpid` is positive where `allocpid` is called, pids are unique. -/
theorem distinctPids_run {trapframe pagetable : Nat} {tr : List (Event × Obs)} {s : State}
    (run : machine.Run (start trapframe pagetable) tr s)
    (positive : machine.Throughout (start trapframe pagetable) tr PositiveNext) :
    DistinctPids s := by
  have pids : PidsBelow s :=
    run.invariant (fun _ s => PidsBelow s) positive (pidsBelow_start trapframe pagetable)
      fun _ _ _ _ _ earlier pids ok taken => pidsBelow_step (core_run earlier) pids ok taken
  exact pids.distinctPids

/-- `PositiveNext`, evaluated. -/
def positiveNext (s : State) (_ : Event) : Bool := (0 : BitVec 32).slt s.table.nextpid

theorem distinctPids_forkKillRun :
    ∃ s, machine.Run (start 1 2) forkKillRun s ∧ (s.proc slotOne).pid = 2 ∧ DistinctPids s := by
  have ran : (machine.exec (start 1 2) (forkKillRun.map Prod.fst)).map
      (fun r => (r.1, (r.2.proc slotOne).pid)) = some (forkKillRun, 2) := by decide
  obtain ⟨s, run, pid⟩ := Lib.Machine.run_of_exec (fun s : State => (s.proc slotOne).pid) ran
  have test : machine.allows positiveNext (start 1 2) (forkKillRun.map Prod.fst) = true := by
    decide
  refine ⟨s, run, pid, distinctPids_run run fun pre u e o inside earlier _ => ?_⟩
  have ok := Lib.Machine.throughout_of_allows test pre u e o inside earlier
  simpa [positiveNext, BitVec.slt] using ok

/-! ## The wrap-around -/

/-- init runs on CPU 0, nobody else is there, and `nextpid` is `n`. -/
def alone (n : BitVec 32) : State where
  table :=
    { procs := fun i =>
        if i = initproc then
          { freeproc with
            state := .running
            pid := 1
            sz := PGSIZE
            trapframe := 1
            pagetable := 2 }
        else freeproc
      nextpid := n }
  locks := fun _ => none
  noff := fun _ => 0
  cpus := update (fun _ => .idle) 0 (.running initproc)
  code := update (start 1 2).code (.proc initproc) []

/-- init calls `fork` up to the point where slot 1 is found UNUSED. -/
def forkRun : List Event := .call 0 .fork :: List.replicate 6 (.go 0 .yes)

theorem State.eq_of_fields (table : s.table = s'.table) (locks : s.locks = s'.locks)
    (noff : s.noff = s'.noff) (cpus : s.cpus = s'.cpus) (code : s.code = s'.code) : s = s' := by
  cases s
  cases s'
  simp_all

theorem alone_failed (n : BitVec 32) : ∃ tr,
    machine.exec (alone n) (forkRun ++ [.go 0 .fail, .go 0 .yes]) = some (tr, alone (n + 1)) := by
  obtain ⟨tr, u, ran, table, locks, noff, cpus, code⟩ : ∃ tr u,
      machine.exec (alone n) (forkRun ++ [.go 0 .fail, .go 0 .yes]) = some (tr, u) ∧
      u.table = (alone (n + 1)).table ∧ u.locks = (alone (n + 1)).locks ∧
      u.noff = (alone (n + 1)).noff ∧ u.cpus = (alone (n + 1)).cpus ∧
      u.code = (alone (n + 1)).code := by
    refine ⟨_, _, rfl, ?_, ?_, ?_, rfl, ?_⟩
    · -- `freeproc` has reset a slot that was free
      have slots : update (alone n).table.procs slotOne freeproc =
          (alone n).table.procs := Function.update_eq_self_iff.mpr rfl
      exact congrArg (Table.mk · (n + 1)) slots
    · have locks : update (update (update (update
          (fun _ => none) (.proc initproc) (some 0)) (.proc initproc) none) (.proc slotOne)
            (some 0))
          (.proc slotOne) none = (fun _ => none : Lk → Option Nat) := by
        simp
      exact locks
    · have noff : update (update (update (update
          (fun _ => 0) 0 1) 0 0) 0 1) 0 0 = (fun _ => 0 : Nat → Nat) := by
        simp
      exact noff
    · simp [State.setCode, State.apply, State.acquire, State.release, alone]
  refine ⟨tr, ran.trans ?_⟩
  rw [State.eq_of_fields table locks noff cpus code]

theorem alone_booted : ∃ tr,
    machine.exec (start 1 2) [.schedule 0 initproc, .go 0 .yes] = some (tr, alone 2) := by
  obtain ⟨tr, u, ran, table, locks, noff, cpus, code⟩ : ∃ tr u,
      machine.exec (start 1 2) [.schedule 0 initproc, .go 0 .yes] = some (tr, u) ∧
      u.table = (alone 2).table ∧ u.locks = (alone 2).locks ∧ u.noff = (alone 2).noff ∧
      u.cpus = (alone 2).cpus ∧ u.code = (alone 2).code := by
    refine ⟨_, _, rfl, ?_, ?_, ?_, rfl, rfl⟩
    · have slots : ∀ i, ((start 1 2).table.set initproc
          { (start 1 2).proc initproc with state := .running }).procs i =
          (alone 2).table.procs i := by
        intro i
        rw [Table.set_procs]
        by_cases self : i = initproc
        · rw [if_pos self, self]
          rfl
        · rw [if_neg self]
          exact (if_neg self).trans (if_neg self).symm
      exact congrArg (Table.mk · 2) (funext slots)
    · simp [State.setCode, State.acquire, State.release, start, alone]
    · simp [State.setCode, State.acquire, State.release, start, alone]
  exact ⟨tr, ran.trans (by rw [State.eq_of_fields table locks noff cpus code])⟩

theorem alone_reached (k : Nat) :
    ∃ tr, machine.Run (start 1 2) tr (alone (2 + BitVec.ofNat 32 k)) := by
  induction k with
  | zero =>
    obtain ⟨tr, ran⟩ := alone_booted
    exact ⟨tr, Lib.Machine.exec_run ran⟩
  | succ k ih =>
    obtain ⟨tr, run⟩ := ih
    obtain ⟨more, failed⟩ := alone_failed (2 + BitVec.ofNat 32 k)
    have next : (2 : BitVec 32) + BitVec.ofNat 32 k + 1 = 2 + BitVec.ofNat 32 (k + 1) := by
      rw [BitVec.add_assoc, BitVec.ofNat_add]
      rfl
    rw [next] at failed
    exact ⟨tr ++ more, run.append (Lib.Machine.exec_run failed)⟩

/-- After 2^31 - 2 calls of `fork` that ran out of memory, the next one that succeeds
    creates a process with a negative pid. -/
theorem not_distinctPids_wrapped : ∃ tr s, machine.Run (start 1 2) tr s ∧
    (s.proc slotOne).state = .used ∧ (s.proc slotOne).pid.toInt < 0 ∧ ¬ DistinctPids s := by
  obtain ⟨tr, run⟩ := alone_reached (2 ^ 31 - 2)
  have forks : ∃ more s, machine.exec (alone (2 + BitVec.ofNat 32 (2 ^ 31 - 2)))
      (forkRun ++ [.go 0 (.mem 3 4)]) = some (more, s) ∧ (s.proc slotOne).state = .used ∧
      (s.proc slotOne).pid = 2 + BitVec.ofNat 32 (2 ^ 31 - 2) := ⟨_, _, rfl, rfl, rfl⟩
  obtain ⟨more, s, ran, used, pid⟩ := forks
  have negative : (s.proc slotOne).pid.toInt < 0 := by
    rw [pid]
    decide
  refine ⟨tr ++ more, s, ?_, used, negative, fun pids => ?_⟩
  · exact run.append (Lib.Machine.exec_run ran)
  · have positive := pids.positive slotOne (by rw [used]; decide)
    omega

end Xv6.Kernel.Smp
