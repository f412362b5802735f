import Xv6.Kernel.SmpFamily
import Xv6.Kernel.SmpSlots

/-! # The handler of ^C

`consoleintr` looks for the process with the highest pid, without a lock, follows the
pointer to its parent without a test, and marks the process if the parent is not init.
It is safe as long as it has the table for itself: a process other than init is there
when it starts, no `fork` is on its way to setting a parent, and until it is done no
slot is given away or freed and no parent changes.
-/

namespace Xv6.Kernel.Smp

variable {q best : Fin NPROC} {tb : Table} {k ops : List Op} {t : Thread} {call : Call}

/-! ## What the handler is about to do -/

/-- The operation belongs to a handler of ^C: the scan, or the mark before the end of the
    interrupt. -/
@[simp] def Op.handles : Op → List Op → Bool
  | .ctrlC _ _, _ => true
  | .setkilled _, .release _ :: .iret :: _ => true
  | _, _ => false

/-- A handler of ^C is at work, or interrupted, in a thread that has this to do. -/
@[simp] def handling : List Op → Bool
  | [] => false
  | op :: k => op.handles k || handling k

/-- The handler that is about to follow the pointer to a parent has one, and a process
    that it is about to mark is neither init nor a child of init. -/
structure CtrlCSafe (s : State) : Prop where
  parent : ∀ t best i k, s.code t = .ctrlC best i :: k → NPROC ≤ i → (s.proc best).parent ≠ none
  mark : ∀ t best lk k, s.code t = .setkilled best :: .release lk :: .iret :: k →
    best ≠ initproc ∧ (s.proc best).parent ≠ some initproc

/-! ## When it is safe -/

/-- The step gives a slot to a process, sets the parent of a process or frees a slot. -/
inductive Rearranges (s : State) : Event → Prop where
  | alloc {c ch t i k} (runs : s.thread c = some t) (code : s.code t = .forkAt i :: k)
      (unused : (s.proc i).state = .unused) : Rearranges s (.go c ch)
  | adopt {c ch t np k} (runs : s.thread c = some t) (code : s.code t = .forkParent np :: k) :
      Rearranges s (.go c ch)
  | reparent {c ch p k} {i : Fin NPROC} (runs : s.thread c = some (.proc p))
      (code : s.code (.proc p) = .reparent i :: k) (child : (s.proc i).parent = some p) :
      Rearranges s (.go c ch)
  | free {c ch t addr i k} (runs : s.thread c = some t) (code : s.code t = .waitAt addr i :: k)
      (zombie : (s.proc i).state = .zombie) : Rearranges s (.go c ch)

/-- There is a process with a pid above that of init, and no child without a parent. -/
structure Populated (s : State) : Prop where
  above : ∃ q, (s.proc q).state ≠ .unused ∧ (1 : BitVec 32).slt (s.proc q).pid = true
  adopted : ∀ p np, .forkParent np ∉ s.code (.proc p)

/-- ^C starts in a populated table, and nothing is rearranged while it is handled. -/
def Undisturbed (s : State) (e : Event) : Prop :=
  (∀ c, e = .call c .ctrlC → Populated s) ∧
    ((∃ t, handling (s.code t) = true) → ¬Rearranges s e)

/-! ## Children and parents -/

section Steps

variable {s s' : State} {e : Event} {o : Obs}

/-- What the handler looks at is the same. -/
def SameFamily (tb tb' : Table) : Prop :=
  ∀ i, (tb'.procs i).pid = (tb.procs i).pid ∧ (tb'.procs i).parent = (tb.procs i).parent ∧
    ((tb'.procs i).state = .unused ↔ (tb.procs i).state = .unused)

theorem sameFamily_step (core : Core s) (taken : step s e = some (s', o))
    (calm : ¬Rearranges s e) : SameFamily s.table s'.table := by
  intro i
  have slot := step_slot taken i
  have before : ∀ p, s.cpus p = .running i → (s.proc i).state ≠ .unused := fun c runs unused =>
    core.unused_off unused c runs
  change (s'.proc i).pid = (s.proc i).pid ∧ (s'.proc i).parent = (s.proc i).parent ∧
    ((s'.proc i).state = .unused ↔ (s.proc i).state = .unused)
  generalize s'.proc i = x at slot
  cases slot with
  | same => exact ⟨rfl, rfl, Iff.rfl⟩
  | picked ready => exact ⟨rfl, rfl, by simp [ready]⟩
  | switch runs code sets =>
    have used := before _ runs
    cases sets <;> exact ⟨rfl, rfl, by simp [used]⟩
  | touch runs code touch =>
    cases touch with
    | same | tidyUp | setkilled => exact ⟨rfl, rfl, Iff.rfl⟩
    | woken asleep =>
      have : (s.proc i).state = .sleeping := asleep
      exact ⟨rfl, rfl, by simp [this]⟩
    | killed found =>
      refine ⟨rfl, rfl, ?_⟩
      change (if (s.proc i).state = .sleeping then ProcState.runnable else (s.proc i).state) =
        .unused ↔ _
      split
      · rename_i asleep
        simp [asleep]
      · exact Iff.rfl
    | allocated unused => exact absurd (.alloc runs code unused) calm
    | failed unused => exact absurd (.alloc runs code unused) calm
    | adopted => exact absurd (.adopt runs code) calm
    | started =>
      have used := core.forking _ i (by rw [code]; exact List.mem_cons_self)
      exact ⟨rfl, rfl, by simp [used]⟩
    | reparented self child =>
      subst self
      exact absurd (.reparent runs code child) calm
    | exited self =>
      subst self
      have used := before _ (State.thread_eq_proc.mp runs)
      exact ⟨rfl, rfl, by simp [used]⟩
    | reaped self zombie => exact absurd (.free runs code zombie) calm

/-- A `fork` that takes a slot is left with setting the parent there. -/
theorem forked_code (core : Core s) {pid : BitVec 32}
    (taken : step s e = some (s', .forked (some (q, pid)))) :
    ∃ p, .forkParent q ∈ s'.code (.proc p) := by
  obtain ⟨c, ch, t, op, k, rfl, runs, code, shows⟩ := step_shows taken (by simp)
  generalize s'.table = tb at shows
  cases shows with
  | forked unused =>
    obtain ⟨eff, done, rfl, shows⟩ := step_op taken runs code (by simp) rfl
    cases t with
    | idle d => cases done
    | proc p =>
      have other : p ≠ q := by
        rintro rfl
        exact core.unused_off unused c (State.thread_eq_proc.mp runs)
      simp only [exec, execProc, unused, if_true] at done
      unfold forkSlot at done
      split at done
      · split at done <;> cases done
        refine ⟨p, ?_⟩
        rw [State.apply_code_self (by simpa using other.symm)]
        simp
      · cases done
        cases shows

theorem parent_kept (taken : step s e = some (s', o)) (used' : (s'.proc q).state ≠ .unused)
    (orphan : (s'.proc q).parent = none) : (s.proc q).parent = none := by
  have slot := step_slot taken q
  generalize s'.proc q = x at slot used' orphan
  cases slot with
  | same | picked => exact orphan
  | switch runs code sets => cases sets <;> exact orphan
  | touch runs code touch =>
    cases touch with
    | adopted | reparented => cases orphan
    | failed | reaped => exact absurd rfl used'
    | _ => exact orphan

/-- A child has no parent only as long as its `fork` has to set it. -/
theorem newborn_step (core : Core s) (taken : step s e = some (s', o))
    (newborn : (s.proc q).state ≠ .unused → (s.proc q).parent = none →
      ∃ p, .forkParent q ∈ s.code (.proc p))
    (used' : (s'.proc q).state ≠ .unused) (orphan : (s'.proc q).parent = none) :
    ∃ p, .forkParent q ∈ s'.code (.proc p) := by
  by_cases used : (s.proc q).state = .unused
  · have shows := forked_of_used core taken used used'
    subst shows
    exact forked_code core taken
  · obtain ⟨p, inside⟩ := newborn used (parent_kept taken used' orphan)
    refine ⟨p, ?_⟩
    have changes := step_code taken (.proc p)
    generalize s'.code (.proc p) = k' at changes
    cases changes with
    | same => exact inside
    | acquire _ code | release _ code =>
      rw [code] at inside
      simpa using inside
    | switch _ _ code sets =>
      rw [code] at inside
      cases sets <;> simpa using inside
    | call => exact List.mem_append_right _ inside
    | interrupt => exact List.mem_cons_of_mem _ inside
    | spawned self unused =>
      cases self
      rcases core.unused_code unused with code | code <;> rw [code] at inside <;>
        simp [forkret] at inside
    | exec runs code next =>
      rw [code] at inside
      rcases List.mem_cons.mp inside with rfl | inside
      · -- this step sets the parent
        obtain ⟨eff, done, rfl, -⟩ := step_op taken runs code (by simp) rfl
        cases done
        rw [State.apply_proc] at orphan
        simp [Table.set_procs] at orphan
      · exact List.mem_append_right _ inside

theorem initPid_step (family : Family s) (taken : step s e = some (s', o)) :
    (s'.proc initproc).pid = (s.proc initproc).pid := by
  have slot := step_slot taken initproc
  generalize s'.proc initproc = x at slot
  cases slot with
  | same | picked => rfl
  | switch runs code sets => cases sets <;> rfl
  | touch runs code touch =>
    cases touch with
    | allocated unused | failed unused => exact absurd unused family.init.1
    | reaped _ zombie => exact absurd zombie family.init.2
    | _ => rfl

/-! ## The scan -/

/-- What the scan has found out when it has come to slot `i`. -/
structure Highest (tb : Table) (best : Fin NPROC) (i : Nat) : Prop where
  adopted : ∀ q, q ≠ initproc → (tb.procs q).state ≠ .unused → (tb.procs q).parent ≠ none
  above : ∃ q, (tb.procs q).state ≠ .unused ∧ (1 : BitVec 32).slt (tb.procs q).pid = true
  used : (tb.procs best).state ≠ .unused
  highest : ∀ q : Fin NPROC, q < i → (tb.procs q).state ≠ .unused →
    (tb.procs best).pid.slt (tb.procs q).pid = false

/-- What has to be so where a handler does `op`. -/
@[simp] def Op.Minds (tb : Table) : Op → Prop
  | .ctrlC best i => Highest tb best i
  | .setkilled best => best ≠ initproc ∧ (tb.procs best).parent ≠ some initproc
  | _ => True

/-- The same for all that a thread has to do. -/
@[simp] def Minds (tb : Table) : List Op → Prop
  | [] => True
  | op :: k => (op.handles k = true → op.Minds tb) ∧ Minds tb k

theorem Highest.congr {tb' : Table} {i : Nat} (ok : Highest tb best i)
    (same : SameFamily tb tb') : Highest tb' best i where
  adopted := by
    intro q other used
    rw [(same q).2.1]
    exact ok.adopted q other fun unused => used ((same q).2.2.mpr unused)
  above := by
    obtain ⟨q, used, above⟩ := ok.above
    exact ⟨q, fun unused => used ((same q).2.2.mp unused), by rwa [(same q).1]⟩
  used := fun unused => ok.used ((same best).2.2.mp unused)
  highest := by
    intro q before used
    rw [(same q).1, (same best).1]
    exact ok.highest q before fun unused => used ((same q).2.2.mpr unused)

theorem Minds.congr {tb' : Table} (ok : Minds tb k) (same : SameFamily tb tb') :
    Minds tb' k := by
  induction k with
  | nil => trivial
  | cons op k ih =>
    refine ⟨fun handles => ?_, ih ok.2⟩
    have here := ok.1 handles
    cases op with
    | ctrlC best i => exact Highest.congr here same
    | setkilled best => exact ⟨here.1, by rw [(same best).2.1]; exact here.2⟩
    | _ => trivial

theorem Minds.of_not_handling (idle : handling k = false) :
    Minds tb k := by
  induction k with
  | nil => trivial
  | cons op k ih =>
    simp only [handling, Bool.or_eq_false_iff] at idle
    exact ⟨fun handles => absurd (idle.1.symm.trans handles) (by simp), ih idle.2⟩

/-- The operations, before `k`, are not those of a handler of ^C. -/
@[simp] def plain (k : List Op) : List Op → Bool
  | [] => true
  | op :: ops => !op.handles (ops ++ k) && plain k ops

theorem plain.minds (others : plain k ops = true) (ok : Minds tb k) : Minds tb (ops ++ k) := by
  induction ops with
  | nil => exact ok
  | cons op ops ih =>
    simp only [plain, Bool.and_eq_true, Bool.not_eq_true'] at others
    exact ⟨fun handles => absurd (others.1.symm.trans handles) (by simp), ih others.2⟩

theorem plain.handling (others : plain k ops = true)
    (idle : handling k = false) : handling (ops ++ k) = false := by
  induction ops with
  | nil => exact idle
  | cons op ops ih =>
    simp only [plain, Bool.and_eq_true, Bool.not_eq_true'] at others
    simp only [List.cons_append, Smp.handling, others.1, ih others.2, Bool.or_self]

theorem Next.plain {op : Op} (next : Next t tb op ops)
    (other : ∀ best i, op ≠ .ctrlC best i) : plain k ops = true := by
  cases next with
  | ctrlC | ctrlEnd | ctrlKill => exact absurd rfl (other _ _)
  | @testEnd w => cases w <;> simp [Wait.ending]
  | @testSleep p w => cases w <;> simp [Wait.wakeup, sleepCode]
  | _ => simp

theorem callCode_ctrlC
    (code : callCode t k call = some ops) (scan : ops = [.ctrlC initproc 0]) : call = .ctrlC := by
  have handler : ∀ {t}, call.handlerCode t = some ops → call = .ctrlC := by
    intro t code
    cases call with
    | ctrlC => rfl
    | acquire lk | release lk =>
      dsimp only [Call.handlerCode] at code
      split at code <;> cases code
      cases scan
    | wakeup chan => cases chan <;> cases code <;> cases scan
    | yield =>
      cases t <;> cases code
      cases scan
    | _ => cases code
  unfold callCode at code
  split at code
  · exact handler code
  · cases call with
    | sleep | exit =>
      dsimp only [Call.code] at code
      split at code <;> cases code
      cases scan
    | kill | fault | fork | wait | loop =>
      cases code
      cases scan
    | _ =>
      dsimp only [Call.code] at code
      exact handler code
  · cases code

theorem callCode_plain
    (code : callCode t k call = some ops) (other : call ≠ .ctrlC) : plain k ops = true := by
  obtain ⟨-, calls⟩ := callCode_calls code
  cases calls with
  | ctrlC => exact absurd (callCode_ctrlC code rfl) other
  | sleep | exit => simp [sleepCode, exitCode]
  | _ => simp

theorem Calls.minds (calls : Calls t k ops)
    (ok : Minds tb k) (begins : Highest tb initproc 0) : Minds tb (ops ++ k) := by
  cases calls with
  | ctrlC => exact ⟨fun _ => begins, ok⟩
  | sleep | exit => exact plain.minds (by simp [sleepCode, exitCode]) ok
  | _ => exact plain.minds (by simp) ok

theorem Highest.ne_init {i : Nat} (ok : Highest tb best i)
    (ends : NPROC ≤ i) (init : (tb.procs initproc).pid = 1) : best ≠ initproc := by
  rintro rfl
  obtain ⟨q, used, above⟩ := ok.above
  have below := ok.highest q (Nat.lt_of_lt_of_le q.isLt ends) used
  rw [init, above] at below
  cases below

theorem Highest.parent {i : Nat} (ok : Highest tb best i)
    (ends : NPROC ≤ i) (init : (tb.procs initproc).pid = 1) : (tb.procs best).parent ≠ none :=
  ok.adopted best (ok.ne_init ends init) ok.used

/-- The scan compares the process at slot `i` with the best one before. -/
theorem Highest.visit {i : Fin NPROC} (ok : Highest tb best i) :
    Highest tb (if (tb.procs i).state ≠ .unused ∧ (tb.procs best).pid.slt (tb.procs i).pid then i
      else best) (i + 1) := by
  by_cases better : (tb.procs i).state ≠ .unused ∧ (tb.procs best).pid.slt (tb.procs i).pid = true
  · rw [if_pos better]
    refine ⟨ok.adopted, ok.above, better.1, fun q before used => ?_⟩
    by_cases here : q = i
    · simp [here, BitVec.slt]
    · have lower := ok.highest q (by omega) used
      have higher := better.2
      simp only [BitVec.slt, decide_eq_true_eq, decide_eq_false_iff_not] at lower higher ⊢
      omega
  · rw [if_neg better]
    refine ⟨ok.adopted, ok.above, ok.used, fun q before used => ?_⟩
    by_cases here : q = i
    · subst here
      simpa [used] using better
    · exact ok.highest q (by omega) used

/-- What the operation of the scan at slot `i` leaves to be done. -/
theorem Highest.next {ch : Choice} {i : Nat}
    {eff : Effect} (ok : Highest tb best i) (init : (tb.procs initproc).pid = 1)
    (done : exec t ch tb (.ctrlC best i) = some eff) (rest : Minds tb k) :
    eff.spawned = none ∧ Minds eff.table (eff.next ++ k) := by
  dsimp only [exec] at done
  split at done
  · rename_i inside
    cases done
    exact ⟨rfl, fun _ => Highest.visit (i := ⟨i, inside⟩) ok, rest⟩
  · rename_i outside
    have ends := Nat.le_of_not_lt outside
    split at done
    · cases done
    · rename_i q parent
      split at done <;> cases done
      · exact ⟨rfl, rest⟩
      · rename_i other
        have spared : (tb.procs best).parent ≠ some initproc := by
          rw [parent]
          rintro ⟨⟩
          exact other init
        exact ⟨rfl, by simp, fun _ => ⟨ok.ne_init ends init, spared⟩, by simp, rest⟩

theorem step_call {c : Nat}
    (taken : step s (.call c call) = some (s', o)) (runs : s.thread c = some t) :
    ∃ ops, callCode t (s.code t) call = some ops ∧ s' = s.setCode t (ops ++ s.code t) := by
  simp only [step, runs, Option.map_eq_some_iff, Prod.mk.injEq] at taken
  obtain ⟨ops, code, rfl, -⟩ := taken
  exact ⟨ops, code, rfl⟩

/-! ## The invariant -/

structure CtrlC (s : State) : Prop where
  init : (s.proc initproc).pid = 1
  newborn : ∀ q, q ≠ initproc → (s.proc q).state ≠ .unused → (s.proc q).parent = none →
    ∃ p, .forkParent q ∈ s.code (.proc p)
  minds : ∀ t, Minds s.table (s.code t)

theorem ctrlC_start (trapframe pagetable : Nat) : CtrlC (start trapframe pagetable) where
  init := rfl
  newborn := by
    intro q other used
    exact absurd (by simp [State.proc, start, other, freeproc]) used
  minds := by
    intro t
    cases t <;> simp [start, forkret]

theorem CtrlC.safe (ctrl : CtrlC s) : CtrlCSafe s where
  parent := by
    intro t best i k code ends
    have here := ctrl.minds t
    rw [code] at here
    exact (here.1 rfl).parent ends ctrl.init
  mark := by
    intro t best lk k code
    have here := ctrl.minds t
    rw [code] at here
    exact here.1 rfl

theorem CtrlC.begins (ctrl : CtrlC s) (family : Family s) (populated : Populated s) :
    Highest s.table initproc 0 where
  adopted := by
    intro q other used orphan
    obtain ⟨p, inside⟩ := ctrl.newborn q other used orphan
    exact populated.adopted p q inside
  above := populated.above
  used := family.init.1
  highest := fun q before => absurd before (Nat.not_lt_zero _)

/-- What the step leaves alone still holds: nothing is rearranged, or nobody minds. -/
theorem CtrlC.kept (ctrl : CtrlC s) (core : Core s) (taken : step s e = some (s', o))
    (calm : (∃ t, handling (s.code t) = true) → ¬Rearranges s e) (t : Thread) :
    Minds s'.table (s.code t) := by
  by_cases busy : ∃ t, handling (s.code t) = true
  · exact (ctrl.minds t).congr (sameFamily_step core taken (calm busy))
  · refine .of_not_handling (Bool.eq_false_iff.mpr fun handles => busy ⟨t, handles⟩)

theorem minds_step (core : Core s) (family : Family s) (ctrl : CtrlC s)
    (taken : step s e = some (s', o)) (calm : Undisturbed s e) (t : Thread) :
    Minds s'.table (s'.code t) := by
  have kept := ctrl.kept core taken calm.2 t
  have changes := step_code taken t
  generalize after : s'.code t = k' at changes
  cases changes with
  | same => exact kept
  | acquire _ code | release _ code | switch _ _ code =>
    rw [code] at kept
    exact kept.2
  | interrupt => exact ⟨by simp, kept⟩
  | spawned => simp [forkret]
  | @call c call ops runs idle calls =>
    obtain ⟨ops', code, rfl⟩ := step_call taken runs
    obtain rfl : ops' = ops := by simpa [State.setCode] using after
    by_cases scan : call = .ctrlC
    · exact calls.minds kept (ctrl.begins family (calm.1 c (by rw [scan])))
    · exact plain.minds (callCode_plain code scan) kept
  | @exec c ch op k ops runs code next =>
    by_cases scan : ∃ best i, op = .ctrlC best i
    · obtain ⟨best, i, rfl⟩ := scan
      obtain ⟨eff, done, rfl, -⟩ := step_op taken runs code (by simp) rfl
      have here := ctrl.minds t
      rw [code] at here
      obtain ⟨quiet, minds⟩ := (here.1 rfl).next ctrl.init done here.2
      rw [← after, State.apply_code_self (by simp [quiet]), State.apply_table]
      exact minds
    · rw [code] at kept
      exact plain.minds (next.plain fun best i same => scan ⟨best, i, same⟩) kept.2

theorem ctrlC_step (core : Core s) (family : Family s) (ctrl : CtrlC s)
    (taken : step s e = some (s', o)) (calm : Undisturbed s e) : CtrlC s' where
  init := (initPid_step family taken).trans ctrl.init
  newborn := fun q other used orphan =>
    newborn_step core taken (ctrl.newborn q other) used orphan
  minds := minds_step core family ctrl taken calm

end Steps

section

variable {trapframe pagetable : Nat} {tr : List (Event × Obs)} {s : State}

theorem ctrlC_run (run : machine.Run (start trapframe pagetable) tr s)
    (calm : machine.Throughout (start trapframe pagetable) tr Undisturbed) : CtrlC s :=
  run.invariant (fun _ s => CtrlC s) calm (ctrlC_start trapframe pagetable)
    fun _ _ _ _ _ earlier ctrl ok taken =>
      ctrlC_step (core_run earlier) (family_run earlier) ctrl taken ok

/-- In a run whose handlers of ^C have the table for themselves, ^C is safe wherever the
    run gets to. -/
theorem ctrlCSafe_of_undisturbed
    (calm : machine.Throughout (start trapframe pagetable) tr Undisturbed) :
    machine.Always (start trapframe pagetable) tr fun _ s => CtrlCSafe s :=
  fun _ _ inside earlier => (ctrlC_run earlier (calm.of_prefix inside)).safe

theorem not_handling_run (run : machine.Run (start trapframe pagetable) tr s)
    (none : ∀ c o, (.call c .ctrlC, o) ∉ tr) (t : Thread) : handling (s.code t) = false := by
  induction run generalizing t with
  | start => cases t <;> simp [start, forkret]
  | @snoc tr u e o v earlier taken ih =>
    have before := ih fun c o inside => none c o (List.mem_append_left _ inside)
    have changes := step_code taken t
    generalize after : v.code t = k' at changes
    have here := before t
    cases changes with
    | same => exact here
    | acquire _ code | release _ code | switch _ _ code =>
      rw [code] at here
      simp only [handling, Bool.or_eq_false_iff] at here
      exact here.2
    | interrupt => simpa using here
    | spawned => simp [forkret]
    | @call c call ops runs idle calls =>
      obtain ⟨ops', code, rfl⟩ := step_call taken runs
      obtain rfl : ops' = ops := by simpa [State.setCode] using after
      refine plain.handling (callCode_plain code ?_) here
      rintro rfl
      exact none c o (by simp)
    | @exec c ch op k ops runs code next =>
      rw [code] at here
      simp only [handling, Bool.or_eq_false_iff] at here
      refine plain.handling (next.plain ?_) here.2
      rintro best i rfl
      cases here.1

end

/-! ## Runs -/

/-- `Rearranges`, evaluated. -/
def rearranges (s : State) : Event → Bool
  | .go c _ =>
      match s.thread c with
      | none => false
      | some t =>
          match s.code t with
          | .forkAt i :: _ => (s.proc i).state == .unused
          | .forkParent _ :: _ => true
          | .reparent i :: _ =>
              if h : i < NPROC then (s.proc ⟨i, h⟩).parent.map Thread.proc == some t else false
          | .waitAt _ i :: _ => (s.proc i).state == .zombie
          | _ => false
  | _ => false

theorem rearranges_of {s : State} {e : Event} (change : Rearranges s e) :
    rearranges s e = true := by
  cases change with
  | alloc runs code unused => simp [rearranges, runs, code, unused]
  | adopt runs code => simp [rearranges, runs, code]
  | reparent runs code child => simp [rearranges, runs, code, child]
  | free runs code zombie => simp [rearranges, runs, code, zombie]

/-- Where nothing is rearranged, and ^C comes in a populated table. -/
def undisturbed (s : State) (e : Event) : Bool :=
  !rearranges s e && match e with
    | .call _ .ctrlC =>
        decide (∃ q, (s.proc q).state ≠ .unused ∧ (1 : BitVec 32).slt (s.proc q).pid = true) &&
          decide (∀ p np : Fin NPROC, .forkParent np ∉ s.code (.proc p))
    | _ => true

theorem undisturbed_of_test {s : State} {e : Event} (ok : undisturbed s e = true) :
    Undisturbed s e := by
  unfold undisturbed at ok
  simp only [Bool.and_eq_true, Bool.not_eq_true'] at ok
  refine ⟨?_, fun _ change => ?_⟩
  · rintro c rfl
    have filled := ok.2
    simp only [Bool.and_eq_true, decide_eq_true_eq] at filled
    exact ⟨filled.1, filled.2⟩
  · rw [rearranges_of change] at ok
    cases ok.1

def slotTwo : Fin NPROC := ⟨2, by decide⟩

/-- init forks a child and the child, on another CPU, forks one. -/
def familyRun : List (Event × Obs) :=
  let forks (c : Nat) (p child : Fin NPROC) (pid : BitVec 32) : List (Event × Obs) :=
    [(.schedule c p, .silent), (.go c .yes, .silent), (.call c .fork, .silent)] ++
      List.replicate (4 * child + 2) (.go c .yes, .silent) ++
      [(.go c (.mem 3 4), .forked (some (child, pid)))] ++
      List.replicate 7 (.go c .yes, .silent)
  forks 0 initproc slotOne 2 ++ forks 1 slotOne slotTwo 3

/-- ^C on a third CPU. -/
def ctrlCRun : List (Event × Obs) :=
  [(.interrupt 2, .silent), (.call 2 (.acquire .cons), .silent), (.go 2 .yes, .silent),
    (.call 2 .ctrlC, .silent)] ++ List.replicate 68 (.go 2 .yes, .silent)

/-- Whether ^C, if it comes here, is undisturbed and marks `i`. -/
def marksAlone (i : Fin NPROC) (s : State) : Bool :=
  machine.allows undisturbed s (ctrlCRun.map Prod.fst) &&
    decide ((machine.exec s (ctrlCRun.map Prod.fst)).map (fun r => (r.1, (r.2.proc i).killed)) =
      some (ctrlCRun, true))

/-- ^C marks the child of the child. -/
theorem ctrlCSafe_ctrlCRun : ∃ s, machine.Run (start 1 2) (familyRun ++ ctrlCRun) s ∧
    (s.proc slotTwo).killed = true ∧
    machine.Always (start 1 2) (familyRun ++ ctrlCRun) fun _ s => CtrlCSafe s := by
  have ran : (machine.exec (start 1 2) (familyRun.map Prod.fst)).map (fun r =>
      (r.1, marksAlone slotTwo r.2)) = some (familyRun, true) := by decide +kernel
  obtain ⟨s, run, seen⟩ := Lib.Machine.run_of_exec (marksAlone slotTwo) ran
  rw [marksAlone, Bool.and_eq_true, decide_eq_true_eq] at seen
  obtain ⟨s', run', marked⟩ := Lib.Machine.run_of_exec
    (fun s : State => (s.proc slotTwo).killed) seen.2
  have first : machine.Throughout (start 1 2) familyRun Undisturbed := by
    intro pre u e o inside earlier
    have quiet : ∀ x ∈ familyRun, (x.1 matches .call _ .ctrlC) = false := by decide
    have none : ∀ c o', (.call c .ctrlC, o') ∉ familyRun := by
      intro c o' found
      cases quiet _ found
    refine ⟨?_, fun busy => ?_⟩
    · rintro c rfl
      exact absurd (inside.subset (by simp)) (none c o)
    · obtain ⟨t, handles⟩ := busy
      rw [not_handling_run earlier (fun c o' found =>
        none c o' (inside.subset (List.mem_append_left _ found)))] at handles
      cases handles
  have second : machine.Throughout s ctrlCRun Undisturbed := fun pre u e o inside earlier =>
    undisturbed_of_test (Lib.Machine.throughout_of_allows seen.1 pre u e o inside earlier)
  exact ⟨s', run.append run', marked, ctrlCSafe_of_undisturbed (first.append run second)⟩

/-- Only init is there when ^C comes. -/
def ctrlCAlone : List (Event × Obs) :=
  [(.interrupt 0, .silent), (.call 0 (.acquire .cons), .silent), (.go 0 .yes, .silent),
    (.call 0 .ctrlC, .silent)] ++ List.replicate 64 (.go 0 .yes, .silent)

/-- The handler follows the pointer to the parent of init, which is 0. -/
theorem not_ctrlCSafe_alone : ∃ s, machine.Run (start 1 2) ctrlCAlone s ∧
    s.code (.idle 0) = [.ctrlC initproc NPROC, .iret] ∧ (s.proc initproc).parent = none ∧
    ¬ CtrlCSafe s := by
  have ran : (machine.exec (start 1 2) (ctrlCAlone.map Prod.fst)).map
      (fun r => (r.1, r.2.code (.idle 0), (r.2.proc initproc).parent)) =
      some (ctrlCAlone, [.ctrlC initproc NPROC, .iret], none) := by decide +kernel
  obtain ⟨s, run, seen⟩ := Lib.Machine.run_of_exec
    (fun s : State => (s.code (.idle 0), (s.proc initproc).parent)) ran
  simp only [Prod.mk.injEq] at seen
  obtain ⟨code, orphan⟩ := seen
  exact ⟨s, run, code, orphan, fun safe => safe.parent _ _ _ _ code le_rfl orphan⟩

end Xv6.Kernel.Smp
