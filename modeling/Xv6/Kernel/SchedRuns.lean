import Xv6.Kernel.Sched

/-! # One current process per CPU

The lock of a process and the program counters of the CPUs agree about who runs
what, whatever the CPUs do. `c->proc` agrees with them as long as no
`mlfq_scheduler` finds itself replaced when `swtch` returns to it: its early
return leaves `c->proc` behind.
-/

namespace Xv6.Kernel.Sched

variable {p q : Fin NPROC} {c : Nat} {loop : Loop} {t : State} {e : Event} {o : Unit}
  {tr : List (Event × Unit)}

namespace Pc

/-- The process that the CPU runs or has just stopped running. -/
def current : Pc → Option (Fin NPROC)
  | .proc _ p _ | .back _ p => some p
  | .scheduler | .scan _ _ => none

/-- The process whose lock the CPU holds. -/
def holds : Pc → Option (Fin NPROC)
  | .proc _ p true | .back _ p => some p
  | .proc _ _ false | .scheduler | .scan _ _ => none

/-- The CPU executes scheduler code. -/
def inScheduler : Pc → Bool
  | .scheduler | .scan _ _ | .back _ _ => true
  | .proc _ _ _ => false

end Pc

variable {s : State}

/-- A process is `c->proc` of at most one CPU, and of none that executes scheduler
    code without holding a process lock. -/
structure OneCurrent (s : State) : Prop where
  alone : ∀ c d p, (s.cpus c).proc = some p → (s.cpus d).proc = some p → c = d
  idle : ∀ c, (s.cpus c).pc.inScheduler = true → (∀ p, (s.procs p).lock ≠ some c) →
    (s.cpus c).proc = none

/-- When `swtch` returns to a loop of `mlfq_scheduler`, that is still the scheduler. -/
def keepsScheduler (s : State) : Event → Bool
  | .scheduler c =>
      match (s.cpus c).pc with
      | .back loop _ => loop = .rr || s.schedPointer = .mlfq
      | .scheduler | .scan _ _ | .proc _ _ _ => true
  | _ => true

namespace State

@[simp] theorem setProc_cpus (s : State) (p : Fin NPROC) (x : Proc) :
    (s.setProc p x).cpus = s.cpus := rfl

@[simp] theorem setProc_procs_self (s : State) (p : Fin NPROC) (x : Proc) :
    (s.setProc p x).procs p = x := by
  simp [setProc]

theorem setProc_procs_of_ne (s : State) (x : Proc) (different : q ≠ p) :
    (s.setProc p x).procs q = s.procs q := by
  simp [setProc, different]

@[simp] theorem setCpu_procs (s : State) (c : Nat) (x : Cpu) : (s.setCpu c x).procs = s.procs := rfl

@[simp] theorem setCpu_cpus_self (s : State) (c : Nat) (x : Cpu) : (s.setCpu c x).cpus c = x := by
  simp [setCpu]

theorem setCpu_cpus_of_ne (s : State) {d : Nat} (x : Cpu) (different : d ≠ c) :
    (s.setCpu c x).cpus d = s.cpus d := by
  simp [setCpu, different]

end State

@[simp] theorem promote_state (x : Proc) : (promote x).state = x.state := by
  unfold promote
  split <;> rfl

@[simp] theorem promote_lock (x : Proc) : (promote x).lock = x.lock := by
  unfold promote
  split <;> rfl

/-! ## What a step can do -/

/-- The sections, by what they do to locks, states and program counters. -/
inductive Section (s : State) (c : Nat) : State → Prop where
  /-- Scheduler code moves on; it may clear `c->proc`. -/
  | idle (proc : Option (Fin NPROC)) (pc : Pc) :
      (s.cpus c).pc.current = none → pc.current = none →
      (proc = none ∨ proc = (s.cpus c).proc) → Section s c (s.setCpu c ⟨proc, pc⟩)
  | dispatch (loop : Loop) (p : Fin NPROC) :
      (s.cpus c).pc.current = none → (s.procs p).lock = none → (s.procs p).state = .runnable →
      Section s c (s.dispatch c loop p)
  | release (loop : Loop) (p : Fin NPROC) :
      (s.cpus c).pc = .proc loop p true →
      Section s c ((s.releaseLock p).setPc c (.proc loop p false))
  /-- The running process enters the scheduler with its lock held. -/
  | leave (loop : Loop) (p : Fin NPROC) (x : Proc) :
      (s.cpus c).pc = .proc loop p false → (s.procs p).lock = none → x.state ≠ .running →
      x.lock = some c → Section s c (sched (s.setProc p x) c loop p)
  | back (loop : Loop) (p : Fin NPROC) :
      (s.cpus c).pc = .back loop p → Section s c (backSection s c loop p)
  /-- A slot that nobody runs changes. -/
  | slot (q : Fin NPROC) (x : Proc) :
      (s.procs q).state ≠ .running → x.state ≠ .running → x.lock = (s.procs q).lock →
      Section s c (s.setProc q x)
  | stay : Section s c s
  | schedset (impl : SchedImpl) : Section s c { s with schedPointer := impl }

theorem scanSection_section (idle : (s.cpus c).pc.current = none)
    (free : (s.procs p).lock = none) :
    Section s c (scanSection s c loop p) := by
  have moved (pc : Pc) (outside : pc.current = none) : Section s c (s.setPc c pc) :=
    .idle _ pc idle outside (.inr rfl)
  cases loop with
  | rr =>
    simp only [scanSection]
    split
    · exact .dispatch _ p idle free ‹_›
    · exact moved _ rfl
  | high avail =>
    simp only [scanSection]
    split
    · exact moved _ rfl
    · split
      · exact .dispatch _ p idle free ‹_›
      · exact moved _ rfl
  | low =>
    simp only [scanSection]
    split
    · exact moved _ rfl
    · split
      · exact .dispatch _ p idle free ‹_›
      · exact moved _ rfl

theorem schedulerSection_section (taken : schedulerSection s c = some t) : Section s c t := by
  simp only [schedulerSection] at taken
  split at taken
  case h_1 at_ =>
    cases taken
    exact .idle _ _ (by simp [at_, Pc.current]) rfl (.inl rfl)
  case h_2 loop i at_ =>
    have idle : (s.cpus c).pc.current = none := by simp [at_, Pc.current]
    split at taken
    · split at taken
      · cases taken
        exact scanSection_section idle ‹_›
      · cases taken
    · cases taken
      refine .idle _ _ idle ?_ (.inr rfl)
      cases loop with
      | rr => rfl
      | high avail => cases avail <;> rfl
      | low => rfl
  case h_3 => cases taken
  case h_4 => cases taken

theorem moveSlot_section {old new : ProcState} (taken : moveSlot s q old new = some t)
    (before : old ≠ .running) (after : new ≠ .running) :
    Section s c t := by
  simp only [moveSlot] at taken
  split at taken
  · split at taken
    · rename_i found
      cases taken
      exact .slot q _ (found ▸ before) after rfl
    · cases taken
      exact .stay
  · cases taken

theorem wakeup_section (taken : wakeup s c q = some t) : Section s c t := by
  simp only [wakeup] at taken
  split at taken
  · cases taken
    exact .stay
  · exact moveSlot_section taken (by decide) (by decide)

theorem procSection_section (at_ : (s.cpus c).pc = .proc loop p false)
    (taken : procSection s c loop p e = some t) :
    Section s c t := by
  cases e with
  | yield _ reason =>
    simp only [procSection] at taken
    split at taken
    · cases taken
      refine .leave loop p _ at_ ‹_› ?_ ?_ <;> cases reason <;> simp
    · cases taken
  | sleep =>
    simp only [procSection] at taken
    split at taken
    · cases taken
      exact .leave loop p _ at_ ‹_› (by simp) rfl
    · cases taken
  | exit =>
    simp only [procSection] at taken
    split at taken
    · cases taken
      exact .leave loop p _ at_ ‹_› (by simp) rfl
    · cases taken
  | wakeup _ q => exact wakeup_section taken
  | kill _ q => exact moveSlot_section taken (by decide) (by decide)
  | allocproc _ q ok =>
    simp only [procSection] at taken
    split at taken
    · rename_i found
      cases taken
      exact .slot q _ (by simp [found.2]) (by cases ok <;> simp) rfl
    · cases taken
  | fork _ q => exact moveSlot_section taken (by decide) (by decide)
  | freeproc _ q => exact moveSlot_section taken (by decide) (by decide)
  | schedset _ impl =>
    cases taken
    exact .schedset impl
  | scheduler => cases taken
  | release => cases taken

theorem step_section (taken : step s e = some (t, o)) : Section s e.cpu t := by
  simp only [step, Option.map_eq_some_iff, Prod.mk.injEq, and_true] at taken
  obtain ⟨t', taken, rfl⟩ := taken
  split at taken
  case h_1 loop p at_ => exact procSection_section at_ taken
  case h_2 loop p at_ =>
    split at taken
    · cases taken
      exact .release loop p at_
    · cases taken
  case h_3 loop p at_ =>
    split at taken
    · cases taken
      exact .back loop p at_
    · cases taken
  all_goals
    simp only [idleSection] at taken
    split at taken
    · exact schedulerSection_section taken
    · exact wakeup_section taken
    · cases taken

/-! ## Who runs what -/

/-- Locks, process states and program counters agree, in every reachable state. -/
structure Owned (s : State) : Prop where
  held : ∀ p c, (s.procs p).lock = some c ↔ (s.cpus c).pc.holds = some p
  apart : ∀ c d p, (s.cpus c).pc.current = some p → (s.cpus d).pc.current = some p → c = d
  running : ∀ c loop p locked, (s.cpus c).pc = .proc loop p locked → (s.procs p).state = .running
  named : ∀ c p, (s.cpus c).pc.current = some p → (s.cpus c).proc = some p

theorem Pc.current_of_holds {pc : Pc} (held : pc.holds = some p) : pc.current = some p := by
  cases pc with
  | proc loop q locked => cases locked <;> simp_all [Pc.holds, Pc.current]
  | back loop q => exact held
  | scheduler => cases held
  | scan => cases held

theorem Pc.running_or_holds {pc : Pc} (current : pc.current = some p) :
    (∃ loop locked, pc = .proc loop p locked) ∨ pc.holds = some p := by
  cases pc with
  | proc loop q locked => exact .inl ⟨loop, locked, by simp_all [Pc.current]⟩
  | back loop q => exact .inr current
  | scheduler => cases current
  | scan => cases current

namespace Owned

theorem boot : Owned boot where
  held p c := by simp [Sched.boot, Pc.holds]
  apart c d p := by simp [Sched.boot, Pc.current]
  running c loop p locked := by simp [Sched.boot]
  named c p := by simp [Sched.boot, Pc.current]

variable {s : State}

section

variable (owned : Owned s)
include owned

/-- Nobody runs a slot that is neither RUNNING nor locked. -/
theorem unowned (still : (s.procs p).state ≠ .running) (free : (s.procs p).lock = none) (c : Nat) :
    (s.cpus c).pc.current ≠ some p := by
  intro current
  rcases Pc.running_or_holds current with ⟨loop, locked, at_⟩ | holds
  · exact still (owned.running c loop p locked at_)
  · rw [← owned.held, free] at holds
    cases holds

theorem not_current (mine : (s.cpus c).pc.current = some p) (d : Nat) (other : d ≠ c) :
    (s.cpus d).pc.current ≠ some p :=
  fun current => other (owned.apart d c p current mine)

/-- The frame rule: a change made by CPU `c` keeps the invariant when it leaves the
    other CPUs, their locks and what they run alone, and is right about `c` itself. -/
theorem of_local (c : Nat) (others : ∀ d, d ≠ c → t.cpus d = s.cpus d)
    (locks : ∀ d p, d ≠ c → ((t.procs p).lock = some d ↔ (s.procs p).lock = some d))
    (mine : ∀ p, (t.procs p).lock = some c ↔ (t.cpus c).pc.holds = some p)
    (current : ∀ p, (t.cpus c).pc.current = some p → (t.cpus c).proc = some p ∧ ∀ d, d ≠ c →
      (s.cpus d).pc.current ≠ some p)
    (runs : ∀ loop p locked, (t.cpus c).pc = .proc loop p locked → (t.procs p).state = .running)
    (states : ∀ p, (t.procs p).state ≠ .running → (s.procs p).state = .running → ∀ d, d ≠ c →
      (s.cpus d).pc.current ≠ some p) :
    Owned t where
  held p d := by
    by_cases same : d = c
    · exact same ▸ mine p
    · rw [locks d p same, others d same]
      exact owned.held p d
  apart d e p := by
    intro one other
    by_cases first : d = c
    · by_cases second : e = c
      · rw [first, second]
      · rw [others e second] at other
        exact absurd other ((current p (first ▸ one)).2 e second)
    · rw [others d first] at one
      by_cases second : e = c
      · exact absurd one ((current p (second ▸ other)).2 d first)
      · rw [others e second] at other
        exact owned.apart d e p one other
  running d loop p locked := by
    intro at_
    by_cases same : d = c
    · exact runs loop p locked (same ▸ at_)
    · rw [others d same] at at_
      by_contra stopped
      exact states p stopped (owned.running d loop p locked at_) d same (by rw [at_]; rfl)
  named d p := by
    intro here
    by_cases same : d = c
    · subst same
      exact (current p here).1
    · rw [others d same] at here ⊢
      exact owned.named d p here

/-- CPU `c` changes the slot `p` and moves on: the rule for every section that takes
    or gives back the lock of `p`. -/
theorem of_setProc {x : Proc} {y : Cpu} (only : ∀ q, (s.cpus c).pc.holds = some q → q = p)
    (before : (s.procs p).lock = none ∨ (s.procs p).lock = some c)
    (after : x.lock = none ∨ x.lock = some c)
    (now : y.pc.holds = if x.lock = some c then some p else none)
    (current : ∀ q, y.pc.current = some q → y.proc = some q ∧ ∀ d, d ≠ c →
      (s.cpus d).pc.current ≠ some q)
    (runs : ∀ loop q locked, y.pc = .proc loop q locked → q = p ∧ x.state = .running)
    (states : (s.procs p).state = .running → (s.cpus c).pc.current = some p) :
    Owned ((s.setProc p x).setCpu c y) := by
  refine owned.of_local c ?others ?locks ?mine ?current ?runs ?states
  case others => exact fun d other => State.setCpu_cpus_of_ne _ _ other
  case locks =>
    intro d q other
    by_cases same : q = p
    · subst same
      rw [State.setCpu_procs, State.setProc_procs_self]
      rcases before with before | before <;> rcases after with after | after <;>
        simp [before, after, Ne.symm other]
    · rw [State.setCpu_procs, State.setProc_procs_of_ne s x same]
  case mine =>
    intro q
    rw [State.setCpu_procs, State.setCpu_cpus_self, now]
    by_cases same : q = p
    · subst same
      rw [State.setProc_procs_self]
      by_cases held : x.lock = some c <;> simp [held]
    · rw [State.setProc_procs_of_ne s x same, owned.held]
      constructor
      · exact fun holds => absurd (only q holds) same
      · intro holds
        split at holds
        · exact absurd (Option.some.inj holds).symm same
        · cases holds
  case current =>
    intro q
    rw [State.setCpu_cpus_self]
    exact current q
  case runs =>
    intro loop q locked at_
    rw [State.setCpu_cpus_self] at at_
    obtain ⟨rfl, running⟩ := runs loop q locked at_
    rw [State.setCpu_procs, State.setProc_procs_self]
    exact running
  case states =>
    intro q stopped running d other
    by_cases same : q = p
    · subst same
      exact owned.not_current (states running) d other
    · rw [State.setCpu_procs, State.setProc_procs_of_ne s x same] at stopped
      exact absurd running stopped

/-- A slot that nobody runs may change, but for its lock. -/
theorem of_slot {x : Proc} (still : (s.procs q).state ≠ .running)
    (lock : x.lock = (s.procs q).lock) :
    Owned (s.setProc q x) where
  held p c := by
    rw [State.setProc_cpus, ← owned.held p c]
    by_cases same : p = q
    · subst same
      rw [State.setProc_procs_self, lock]
    · rw [State.setProc_procs_of_ne s x same]
  apart := owned.apart
  running c loop p locked at_ := by
    have running := owned.running c loop p locked at_
    by_cases same : p = q
    · exact absurd (same ▸ running) still
    · rwa [State.setProc_procs_of_ne s x same]
  named := owned.named

/-- CPU `c`, without a lock or a process, moves on in scheduler code. -/
theorem of_idle {y : Cpu} (before : (s.cpus c).pc.current = none) (after : y.pc.current = none) :
    Owned (s.setCpu c y) := by
  have free {pc : Pc} (idle : pc.current = none) (p : Fin NPROC) : pc.holds ≠ some p :=
    fun holds => by simp [Pc.current_of_holds holds] at idle
  refine owned.of_local c (fun d other => State.setCpu_cpus_of_ne _ _ other) (fun _ _ _ => .rfl)
    ?mine ?current ?runs ?states
  case mine =>
    intro p
    rw [State.setCpu_cpus_self, State.setCpu_procs, owned.held]
    exact iff_of_false (free before p) (free after p)
  case current => simp [after]
  case runs =>
    intro loop p locked at_
    rw [State.setCpu_cpus_self] at at_
    simp [at_, Pc.current] at after
  case states => exact fun p stopped running => absurd running stopped

theorem of_promote : Owned { s with procs := fun q => promote (s.procs q) } where
  held p c := by simpa using owned.held p c
  apart := owned.apart
  running c loop p locked at_ := by simpa using owned.running c loop p locked at_
  named := owned.named

theorem keep (moved : Section s c t) : Owned t := by
  cases moved with
  | idle proc pc before after _ => exact owned.of_idle before after
  | dispatch loop p before free runnable =>
    refine owned.of_setProc ?only (.inl free) (.inr rfl) (by simp [Pc.holds]) ?current ?runs ?states
    case only => exact fun q holds => by simp [Pc.current_of_holds holds] at before
    case current =>
      rintro q ⟨⟩
      exact ⟨rfl, fun d _ => owned.unowned (by simp [runnable]) free d⟩
    case runs =>
      rintro _ q _ ⟨⟩
      exact ⟨rfl, rfl⟩
    case states => simp [runnable]
  | release loop p at_ =>
    have current : (s.cpus c).pc.current = some p := by rw [at_]; rfl
    have holds : (s.cpus c).pc.holds = some p := by rw [at_]; rfl
    refine owned.of_setProc ?only (.inr ((owned.held p c).mpr holds)) (.inl rfl) rfl ?current
      ?runs (fun _ => current)
    case only => exact fun q other => Option.some.inj (other.symm.trans holds)
    case current =>
      rintro q ⟨⟩
      exact ⟨owned.named c p current, owned.not_current current⟩
    case runs =>
      rintro _ q _ ⟨⟩
      exact ⟨rfl, owned.running c loop p true at_⟩
  | leave loop p x at_ free stopped lock =>
    have current : (s.cpus c).pc.current = some p := by rw [at_]; rfl
    refine of_promote (s := (s.setProc p x).setCpu c ⟨(s.cpus c).proc, .back loop p⟩) ?_
    refine owned.of_setProc ?only (.inl free) (.inr lock) (by simp [lock, Pc.holds]) ?current
      ?runs (fun _ => current)
    case only => simp [at_, Pc.holds]
    case current =>
      rintro q ⟨⟩
      exact ⟨owned.named c p current, owned.not_current current⟩
    case runs => exact fun _ _ _ impossible => nomatch impossible
  | back loop p at_ =>
    have current : (s.cpus c).pc.current = some p := by rw [at_]; rfl
    have holds : (s.cpus c).pc.holds = some p := by rw [at_]; rfl
    have left (y : Cpu) (idle : y.pc.current = none) : Owned ((s.releaseLock p).setCpu c y) := by
      refine owned.of_setProc ?only (.inr ((owned.held p c).mpr holds)) (.inl rfl) ?now ?current
        ?runs (fun _ => current)
      case only => exact fun q other => Option.some.inj (other.symm.trans holds)
      case now =>
        rw [if_neg (by simp), Option.eq_none_iff_forall_ne_some]
        exact fun q holds => by simp [Pc.current_of_holds holds] at idle
      case current => simp [idle]
      case runs => exact fun _ _ _ at_ => by simp [at_, Pc.current] at idle
    unfold backSection
    split
    · exact left _ rfl
    · exact left _ rfl
  | slot q x still _ lock => exact owned.of_slot still lock
  | stay => exact owned
  | schedset impl => exact ⟨owned.held, owned.apart, owned.running, owned.named⟩

end

theorem run (run : machine.Run Sched.boot tr t) : Owned t :=
  run.always_invariant (fun _ s => Owned s) Owned.boot
    (fun _ _ _ _ _ _ owned taken => owned.keep (step_section taken))

end Owned

/-! ## `c->proc` -/

theorem replaced_eq_false (at_ : (s.cpus c).pc = .back loop p) :
    replaced s loop = false ↔ keepsScheduler s (.scheduler c) = true := by
  cases loop <;> simp [replaced, keepsScheduler, at_]

/-- Only scheduler code runs on a CPU that `swtch` has just returned to. -/
theorem step_back (at_ : (s.cpus e.cpu).pc = .back loop p) (taken : step s e = some (t, o)) :
    e = .scheduler e.cpu ∧ t = backSection s e.cpu loop p := by
  simp only [step, at_, Option.map_eq_some_iff, Prod.mk.injEq, and_true] at taken
  obtain ⟨t', taken, rfl⟩ := taken
  split at taken
  · exact ⟨‹_›, (Option.some.inj taken).symm⟩
  · cases taken

theorem Section.others (moved : Section s c t) (d : Nat) (other : d ≠ c) :
    t.cpus d = s.cpus d := by
  cases moved with
  | back loop p =>
    unfold backSection
    split <;> exact State.setCpu_cpus_of_ne _ _ other
  | slot => rfl
  | stay => rfl
  | schedset => rfl
  | idle | dispatch | release | leave => exact State.setCpu_cpus_of_ne _ _ other

/-- A CPU without a process has none in `c->proc` either. -/
def Cleared (s : State) : Prop :=
  ∀ c, (s.cpus c).pc.current = none → (s.cpus c).proc = none

theorem Cleared.keep (cleared : Cleared s) (moved : Section s c t)
    (still : ∀ loop p, (s.cpus c).pc = .back loop p → replaced s loop = false) : Cleared t := by
  intro d idle
  by_cases same : d = c
  case neg =>
    rw [moved.others d same] at idle ⊢
    exact cleared d idle
  subst same
  cases moved with
  | idle proc pc before _ source =>
    rw [State.setCpu_cpus_self]
    rcases source with none | old
    · exact none
    · exact old.trans (cleared d before)
  | dispatch | release => simp [State.dispatch, State.setPc, Pc.current] at idle
  | leave => simp [sched, State.setPc, Pc.current] at idle
  | back loop p at_ => simp [backSection, still loop p at_]
  | slot => exact cleared d idle
  | stay => exact cleared d idle
  | schedset => exact cleared d idle

theorem Owned.oneCurrent (owned : Owned s) (cleared : Cleared s) : OneCurrent s where
  alone c d p one other := by
    have current {c : Nat} (named : (s.cpus c).proc = some p) : (s.cpus c).pc.current = some p := by
      cases found : (s.cpus c).pc.current with
      | none => simp [cleared c found] at named
      | some q => rw [← named, owned.named c q found]
    exact owned.apart c d p (current one) (current other)
  idle c scheduling free := by
    apply cleared c
    cases at_ : (s.cpus c).pc with
    | proc => simp [at_, Pc.inScheduler] at scheduling
    | back loop p => exact absurd ((owned.held p c).mpr (by rw [at_]; rfl)) (free p)
    | scheduler => rfl
    | scan => rfl

theorem cleared_run (run : machine.Run boot tr s)
    (kept : machine.Throughout boot tr (fun s e => keepsScheduler s e = true)) : Cleared s := by
  refine run.invariant (fun _ s => Cleared s) kept (fun _ _ => rfl) ?_
  intro _ t e _ u _ cleared keeps taken
  refine cleared.keep (step_section taken) fun loop p at_ => ?_
  rw [replaced_eq_false at_, ← (step_back at_ taken).1]
  exact keeps

/-- The early return of `mlfq_scheduler` leaves the process in `c->proc`. -/
theorem not_oneCurrent_of_replaced (owned : Owned s) (taken : step s e = some (t, o))
    (left : keepsScheduler s e = false) : ¬ OneCurrent t := by
  intro one
  cases e with
  | scheduler c =>
    cases at_ : (s.cpus c).pc with
    | back loop p =>
      have after := (step_back at_ taken).2
      rw [backSection, if_pos] at after
      case hc =>
        by_contra same
        rw [Bool.not_eq_true, replaced_eq_false at_, left] at same
        cases same
      have idle : (t.cpus c).pc = .scheduler := by simp [after, State.setPc, Event.cpu]
      have stale : (t.cpus c).proc = some p := by
        rw [← owned.named c p (by rw [at_]; rfl)]
        simp [after, State.setPc, State.releaseLock, Event.cpu]
      have free (q : Fin NPROC) : (t.procs q).lock ≠ some c := by
        rw [Ne, (owned.keep (step_section taken)).held, idle]
        simp [Pc.holds]
      have cleared := one.idle c (by rw [idle]; rfl) free
      simp [stale] at cleared
    | scheduler => simp [keepsScheduler, at_] at left
    | scan => simp [keepsScheduler, at_] at left
    | proc => simp [keepsScheduler, at_] at left
  | _ => simp [keepsScheduler] at left

/-- Every CPU has its own current process, and none in scheduler code without a lock,
    in exactly the runs in which no `mlfq_scheduler` is replaced while a process that
    it dispatched runs. -/
theorem oneCurrent_iff {tr : List (Event × Unit)} {s : State} (run : machine.Run boot tr s) :
    machine.Always boot tr (fun _ t => OneCurrent t) ↔
      machine.Throughout boot tr (fun t e => keepsScheduler t e = true) := by
  constructor
  · intro one pre t e o inside reached
    obtain ⟨u, taken, after⟩ := run.step_of_prefix reached inside
    by_contra left
    exact not_oneCurrent_of_replaced (Owned.run reached) taken (by simpa using left)
      (one _ u inside after)
  · intro kept pre t inside reached
    exact (Owned.run reached).oneCurrent (cleared_run reached (kept.of_prefix inside))

/-- In such a run a timer interrupt that arrives in scheduler code yields nothing. -/
theorem not_kerneltrapYields (run : machine.Run boot tr s)
    (kept : machine.Throughout boot tr (fun t e => keepsScheduler t e = true))
    (scheduling : (s.cpus c).pc.current = none) : kerneltrapYields s c = false := by
  simp [kerneltrapYields, cleared_run run kept c scheduling]

/-- The events of a run; no section of the schedulers returns anything. -/
def steps (es : List Event) : List (Event × Unit) := es.map (·, ())

/-- CPU 0 runs the first process under `rr_scheduler`; the process chooses
    `mlfq_scheduler` and yields, and CPU 1 runs it under that one. -/
def switchRun : List (Event × Unit) := steps
  [.scheduler 0, .scheduler 0, .release 0, .schedset 0 .mlfq, .yield 0 .other, .scheduler 0,
    .scheduler 1, .scheduler 1, .release 1, .yield 1 .timer, .scheduler 1]

theorem oneCurrent_switchRun :
    (∃ s, machine.Run boot switchRun s) ∧
      machine.Always boot switchRun (fun _ t => OneCurrent t) := by
  have ran : (machine.exec boot (switchRun.map Prod.fst)).map (fun r => (r.1, ())) =
      some (switchRun, ()) := by decide
  obtain ⟨s, run, -⟩ := Lib.Machine.run_of_exec (fun _ => ()) ran
  exact ⟨⟨s, run⟩, (oneCurrent_iff run).mpr (Lib.Machine.throughout_of_allows (by decide))⟩

/-- As before, but under `mlfq_scheduler` the process goes back to `rr_scheduler`
    before it yields: CPU 1 returns early, and CPU 2 runs the process. -/
def replacedRun : List (Event × Unit) := steps
  [.scheduler 0, .scheduler 0, .release 0, .schedset 0 .mlfq, .yield 0 .other, .scheduler 0,
    .scheduler 1, .scheduler 1, .release 1, .schedset 1 .rr, .yield 1 .other, .scheduler 1,
    .scheduler 2, .scheduler 2]

theorem not_oneCurrent_replacedRun :
    ∃ s, machine.Run boot replacedRun s ∧ (s.cpus 1).proc = some initproc ∧
      (s.cpus 2).proc = some initproc ∧ ¬ OneCurrent s := by
  have ran : (machine.exec boot (replacedRun.map Prod.fst)).map
      (fun r => (r.1, ((r.2.cpus 1).proc, (r.2.cpus 2).proc))) =
      some (replacedRun, (some initproc, some initproc)) := by decide
  obtain ⟨s, run, seen⟩ :=
    Lib.Machine.run_of_exec (fun s : State => ((s.cpus 1).proc, (s.cpus 2).proc)) ran
  simp only [Prod.mk.injEq] at seen
  refine ⟨s, run, seen.1, seen.2, fun one => ?_⟩
  exact absurd (one.alone 1 2 initproc seen.1 seen.2) (by decide)

end Xv6.Kernel.Sched
