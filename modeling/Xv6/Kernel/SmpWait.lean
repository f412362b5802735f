import Xv6.Kernel.SmpFamily

/-! # exit and wait

Every exit is reported to one `wait` of the parent, no parent sleeps through it, and
`wait` fails for the three reasons it gives only.
-/

namespace Xv6.Kernel.Smp

/-- The pid and status of an exit of slot `i`. -/
def Obs.exitOf (i : Fin NPROC) : Obs → Option (BitVec 32 × BitVec 32)
  | .exited p pid status => if p = i then some (pid, status) else none
  | _ => none

/-- The pid and status that `wait` returns for slot `i`. -/
def Obs.reportOf (i : Fin NPROC) : Obs → Option (BitVec 32 × BitVec 32)
  | .waited _ (some (p, pid, status)) => if p = i then some (pid, status) else none
  | _ => none

def exitsOf (i : Fin NPROC) (tr : List (Event × Obs)) : List (BitVec 32 × BitVec 32) :=
  tr.filterMap fun x => x.2.exitOf i

def reportsOf (i : Fin NPROC) (tr : List (Event × Obs)) : List (BitVec 32 × BitVec 32) :=
  tr.filterMap fun x => x.2.reportOf i

theorem Obs.exitOf_eq_none {i : Fin NPROC} {o : Obs}
    (other : ∀ pid status, o ≠ .exited i pid status) : o.exitOf i = none := by
  cases o with
  | exited p pid status =>
    refine if_neg ?_
    rintro rfl
    exact other pid status rfl
  | _ => rfl

theorem Obs.reportOf_eq_none {i : Fin NPROC} {o : Obs}
    (other : ∀ q child, o ≠ .waited q (some (i, child))) : o.reportOf i = none := by
  cases o with
  | waited q child =>
    cases child with
    | none => rfl
    | some child =>
      refine if_neg ?_
      intro same
      exact other q child.2 (by rw [← same])
  | _ => rfl

/-- The exit that a ZOMBIE stands for. -/
def Proc.pending (x : Proc) : List (BitVec 32 × BitVec 32) :=
  if x.state = .zombie then [(x.pid, x.xstate)] else []

/-- What one step does to the exit that slot `i` stands for. -/
inductive ZombieStep (s s' : State) (i : Fin NPROC) : Obs → Prop where
  | same {o} (keeps : (s'.proc i).pending = (s.proc i).pending)
      (exits : ∀ pid status, o ≠ .exited i pid status)
      (waits : ∀ q child, o ≠ .waited q (some (i, child))) : ZombieStep s s' i o
  | exited {status} (alive : (s.proc i).state ≠ .zombie)
      (now : (s'.proc i).pending = [((s.proc i).pid, status)]) :
      ZombieStep s s' i (.exited i (s.proc i).pid status)
  | reaped {q} (zombie : (s.proc i).state = .zombie) (parent : (s.proc i).parent = some q)
      (now : (s'.proc i).state = .unused) :
      ZombieStep s s' i (.waited q (some (i, (s.proc i).pid, (s.proc i).xstate)))

theorem Proc.pending_alive {x : Proc} (alive : x.state ≠ .zombie) : x.pending = [] :=
  if_neg alive

theorem Proc.pending_eq_singleton {x : Proc} {pid status : BitVec 32} :
    x.pending = [(pid, status)] ↔ x.state = .zombie ∧ x.pid = pid ∧ x.xstate = status := by
  unfold Proc.pending
  split
  · rename_i zombie
    simp [zombie]
  · rename_i alive
    simp [alive]

section

variable {s s' : State} {e : Event} {o : Obs}

/-- A process with an operation on the table to do is not a ZOMBIE. -/
theorem Core.not_zombie {c : Nat} {p : Fin NPROC} {op : Op} {k : List Op} (core : Core s)
    (runs : s.cpus c = .running p) (code : s.code (.proc p) = op :: k)
    (alive : op ≠ .release .wait ∧ op ≠ .exitSched) : (s.proc p).state ≠ .zombie := by
  intro zombie
  rcases (core.placed p).running c runs with ⟨running, -⟩ | ⟨-, dying⟩
  · rw [running] at zombie
    cases zombie
  · rw [code] at dying
    rcases dying with same | same <;> cases same
    · exact alive.1 rfl
    · exact alive.2 rfl

/-- Other operations than the two that make and free a ZOMBIE. -/
theorem Touch.pending {t : Thread} {tb : Table} {i : Fin NPROC} {op : Op} {x : Proc}
    (touch : Touch t tb i op x) (exits : ∀ status, op ≠ .exitZombie status)
    (waits : ∀ addr, op ≠ .waitAt addr i)
    (starts : op = .forkRunnable i → (tb.procs i).state = .used) :
    x.pending = (tb.procs i).pending := by
  cases touch with
  | same | tidyUp | setkilled | adopted | reparented => rfl
  | woken asleep => simp [Proc.pending, asleep]
  | killed =>
    by_cases asleep : (tb.procs i).state = .sleeping
    · simp [Proc.pending, asleep]
    · simp [Proc.pending, asleep]
  | allocated unused => simp [Proc.pending, unused]
  | failed unused => simp [Proc.pending, unused, freeproc]
  | started => simp [Proc.pending, starts rfl]
  | exited => exact absurd rfl (exits _)
  | reaped => exact absurd rfl (waits _)

theorem zombie_step (core : Core s) (family : Family s) (taken : step s e = some (s', o))
    (i : Fin NPROC) : ZombieStep s s' i o := by
  cases step_cases taken with
  | acquire | release | call | interrupt | leave => exact .same rfl (by simp) (by simp)
  | @switch c ch p op k x runs code sets =>
    refine .same ?_ (by simp) (by simp)
    rw [State.proc, State.switched, Table.set_procs]
    split
    · rename_i here
      subst here
      cases sets with
      | exit => rfl
      | sleep | yield =>
        rw [(s.proc i).pending_alive (core.not_zombie runs code (by simp))]
        rfl
    · rfl
  | @schedule c p _ _ _ ready =>
    refine .same ?_ (by simp) (by simp)
    rw [State.proc, State.picked, Table.set_procs]
    split
    · rename_i here
      subst here
      rw [(s.proc i).pending_alive (by simp [ready])]
      rfl
    · rfl
  | @exec c ch t op k eff runs code done =>
    have first := (core.head code).1
    by_cases exits : ∃ status, op = .exitZombie status
    · obtain ⟨status, rfl⟩ := exits
      cases first with
      | @exitZombie p _ self =>
        subst self
        cases done
        by_cases here : i = p
        · subst here
          refine .exited (core.not_zombie (State.thread_eq_proc.mp runs) code (by simp)) ?_
          simp [Table.set_procs, Proc.pending, State.proc]
        · refine .same ?_ (by simp [Ne.symm here]) (by simp)
          simp [Table.set_procs, here, State.proc]
    by_cases waits : ∃ addr j, op = .waitAt addr j
    · obtain ⟨addr, j, rfl⟩ := waits
      cases first with
      | @waitAt p _ _ self =>
        subst self
        have parent : (s.proc j).parent = some p := by
          have known := family.scanned p (by simp [code])
          rw [code] at known
          exact known.2 j rfl
        dsimp only [Smp.exec, execProc] at done
        split at done
        · rename_i zombie
          split at done <;> cases done
          · exact .same rfl (by simp) (by simp)
          · by_cases here : i = j
            · subst here
              refine .reaped zombie parent ?_
              simp [Table.set_procs, freeproc]
            · refine .same ?_ (by simp) (by simp [Ne.symm here])
              simp [Table.set_procs, here, State.proc]
        · cases done
          exact .same rfl (by simp) (by simp)
    · have shows := (exec_does done).shows
      generalize eff.table = tb at shows
      refine .same ?_ ?_ ?_
      · rw [State.apply_proc]
        refine ((exec_does done).touch i).pending ?_ ?_ ?_
        · exact fun status same => exits ⟨status, same⟩
        · exact fun addr same => waits ⟨addr, i, same⟩
        · rintro rfl
          exact core.forking t i (by rw [code]; exact List.mem_cons_self)
      · intro pid status same
        rw [same] at shows
        cases shows with
        | exited => exact exits ⟨_, rfl⟩
      · intro q child same
        rw [same] at shows
        cases shows with
        | reaped => exact waits ⟨_, _, rfl⟩

end

/-! ## Runs -/

/-- What `exit` and `wait` do for each other in a run. -/
structure ExitWait (init : State) (tr : List (Event × Obs)) : Prop where
  /-- No parent is a ZOMBIE or UNUSED. -/
  parents : machine.Always init tr fun _ s => ∀ i q, (s.proc i).parent = some q →
    (s.proc q).state ≠ .unused ∧ (s.proc q).state ≠ .zombie
  /-- The parent is init or the process that called `fork`. -/
  creator : ∀ pre e i pid mid s q, pre ++ (e, .forked (some (i, pid))) :: mid <+: tr →
    (∀ e' pid', (e', .forked (some (i, pid'))) ∉ mid) →
    machine.Run init (pre ++ (e, .forked (some (i, pid))) :: mid) s →
    (s.proc i).parent = some q → q = initproc ∨
      ∃ c ch u, e = .go c ch ∧ machine.Run init pre u ∧ u.cpus c = .running q
  /-- Who has exited stays a ZOMBIE with pid and status as long as no `wait` returns it. -/
  stays : ∀ pre e p pid status mid s, pre ++ (e, .exited p pid status) :: mid <+: tr →
    (∀ e' q child, (e', .waited q (some (p, child))) ∉ mid) →
    machine.Run init (pre ++ (e, .exited p pid status) :: mid) s →
    (s.proc p).state = .zombie ∧ (s.proc p).pid = pid ∧ (s.proc p).xstate = status
  /-- `wait` returns a ZOMBIE child of its caller, with pid and status. -/
  reported : ∀ pre e q i pid status s,
    pre ++ [(e, .waited q (some (i, pid, status)))] <+: tr → machine.Run init pre s →
    (s.proc i).parent = some q ∧ (s.proc i).state = .zombie ∧ (s.proc i).pid = pid ∧
      (s.proc i).xstate = status
  /-- Exits and what calls of `wait` return correspond one to one. -/
  once : machine.Always init tr fun pre s => ∀ i,
    exitsOf i pre = reportsOf i pre ++ (s.proc i).pending
  /-- Nobody sleeps in `wait` that has a ZOMBIE child. -/
  woken : machine.Always init tr fun _ s => s.locks .wait = none → ∀ i q,
    (s.proc i).parent = some q → (s.proc i).state = .zombie →
    ¬ ((s.proc q).state = .sleeping ∧ (s.proc q).chan = some (.proc q))
  /-- `wait` fails without children, when killed, or when `copyout` fails; then the
      ZOMBIE is still there. -/
  fails : ∀ pre e q s s', pre ++ [(e, .waited q none)] <+: tr → machine.Run init pre s →
    machine.Run init (pre ++ [(e, .waited q none)]) s' →
    (∀ i, (s.proc i).parent ≠ some q) ∨ (s.proc q).killed = true ∨
      ∃ c i, e = .go c .fail ∧ (s.proc i).parent = some q ∧ (s'.proc i).state = .zombie ∧
        s'.proc i = s.proc i

section

variable {trapframe pagetable : Nat} {tr : List (Event × Obs)}

theorem once_run {s : State} (run : machine.Run (start trapframe pagetable) tr s)
    (i : Fin NPROC) : exitsOf i tr = reportsOf i tr ++ (s.proc i).pending := by
  refine run.always_invariant
    (fun tr s => exitsOf i tr = reportsOf i tr ++ (s.proc i).pending) ?_ ?_
  · simp only [exitsOf, reportsOf, List.filterMap_nil, List.nil_append, State.proc, start]
    split <;> rfl
  · intro pre u e o v earlier same taken
    simp only [exitsOf, reportsOf, List.filterMap_append, List.filterMap_cons,
      List.filterMap_nil] at same ⊢
    rw [same]
    cases zombie_step (core_run earlier) (family_run earlier) taken i with
    | same keeps exits waits =>
      rw [Obs.exitOf_eq_none exits, Obs.reportOf_eq_none waits, keeps]
      simp
    | exited alive now =>
      rw [now, Proc.pending_alive alive]
      simp [Obs.exitOf, Obs.reportOf]
    | reaped zombie parent now =>
      have gone : (v.proc i).pending = [] := Proc.pending_alive (by simp [now])
      rw [gone, Proc.pending_eq_singleton.mpr ⟨zombie, rfl, rfl⟩]
      simp [Obs.exitOf, Obs.reportOf]

theorem stays_run {pre : List (Event × Obs)} {e : Event} {p : Fin NPROC}
    {pid status : BitVec 32} (mid : List (Event × Obs)) {s : State}
    (once : ∀ e' q child, (e', .waited q (some (p, child))) ∉ mid)
    (run : machine.Run (start trapframe pagetable)
      (pre ++ (e, .exited p pid status) :: mid) s) : (s.proc p).pending = [(pid, status)] := by
  induction mid using List.reverseRecOn generalizing s with
  | nil =>
    obtain ⟨u, earlier, taken⟩ := run.last
    cases zombie_step (core_run earlier) (family_run earlier) taken p with
    | same _ exits => exact absurd rfl (exits pid status)
    | exited _ now => exact now
  | append_singleton mid last ih =>
    obtain ⟨e', o'⟩ := last
    rw [← List.cons_append, ← List.append_assoc] at run
    obtain ⟨u, before, taken⟩ := run.last
    have pending := ih
      (fun e' q child found => once e' q child (List.mem_append_left _ found)) before
    cases zombie_step (core_run before) (family_run before) taken p with
    | same keeps => exact keeps.trans pending
    | exited alive => exact absurd (Proc.pending_eq_singleton.mp pending).1 alive
    | reaped => exact absurd (List.mem_append_right _ List.mem_cons_self) (once e' _ _)

theorem Fits.forkParent_mem {t : Thread} {k : List Op} {i : Fin NPROC} (fits : Fits t k)
    (inside : .forkParent i ∈ k) : .forkRunnable i ∈ k := by
  induction fits with
  | nil => cases inside
  | cons first _ ih =>
    rcases List.mem_cons.mp inside with rfl | inside
    · cases first
      simp
    · exact List.mem_cons_of_mem _ (ih inside)

/-- Who sets the parent of slot `i`, and to what, until the slot is taken again. -/
theorem creator_run {pre : List (Event × Obs)} {c : Nat} {ch : Choice} {i p : Fin NPROC}
    {pid : BitVec 32} {u : State} (earlier : machine.Run (start trapframe pagetable) pre u)
    (runs : u.cpus c = .running p) (mid : List (Event × Obs)) {s : State}
    (once : ∀ e' pid', (e', .forked (some (i, pid'))) ∉ mid)
    (run : machine.Run (start trapframe pagetable)
      (pre ++ (.go c ch, .forked (some (i, pid))) :: mid) s) :
    (∀ t, .forkParent i ∈ s.code t → t = .proc p) ∧
      ∀ q, (s.proc i).parent = some q → q = initproc ∨ q = p := by
  induction mid using List.reverseRecOn generalizing s with
  | nil =>
    obtain ⟨u', earlier', taken⟩ := run.last
    obtain rfl := earlier'.unique earlier
    replace taken : step u' (.go c ch) = some (s, .forked (some (i, pid))) := taken
    have core := core_run earlier
    have unused : (u'.proc i).state = .unused := by
      obtain ⟨_, _, _, _, _, -, -, -, shows⟩ := step_shows taken (by simp)
      generalize s.table = tb at shows
      cases shows with
      | forked unused => exact unused
    have mine : ∀ {t}, u'.thread c = some t → t = .proc p := fun runs' =>
      Option.some.inj (runs'.symm.trans (State.thread_eq_proc.mpr runs))
    refine ⟨fun t inside => ?_, fun q parent => ?_⟩
    · have changes := step_code taken t
      generalize s.code t = code' at changes inside
      cases changes with
      | same =>
        have used := core.forking t i ((core.fits t).forkParent_mem inside)
        exact absurd (used.symm.trans unused) (by simp)
      | acquire runs' | release runs' | exec runs' => exact mine runs'
      | switch self runs' => exact mine (self ▸ State.thread_eq_proc.mpr runs')
      | spawned => simp [forkret] at inside
    · rcases step_parent taken parent with before | ⟨d, _, _, go, runs', -⟩ | ⟨same, -⟩
      · exact absurd (before.symm.trans ((family_run earlier).orphan i unused)) (by simp)
      · cases go
        rw [runs] at runs'
        cases runs'
        exact .inr rfl
      · exact .inl same
  | append_singleton mid last ih =>
    obtain ⟨e', o'⟩ := last
    rw [← List.cons_append, ← List.append_assoc] at run
    obtain ⟨v, before, taken⟩ := run.last
    have core := core_run before
    obtain ⟨setter, parents⟩ := ih
      (fun e' pid' found => once e' pid' (List.mem_append_left _ found)) before
    refine ⟨fun t inside => ?_, fun q parent => ?_⟩
    · have used : (s.proc i).state = .used :=
        (core_run run).forking t i (((core_run run).fits t).forkParent_mem inside)
      -- the slot has not been taken in this step
      have taken' : (v.proc i).state ≠ .unused := by
        intro unused
        refine once e' v.table.nextpid ?_
        rw [← forked_of_used core taken unused (by simp [used])]
        simp
      have changes := step_code taken t
      generalize s.code t = code' at changes inside
      refine setter t ?_
      cases changes with
      | same => exact inside
      | acquire _ code | release _ code | switch _ _ code =>
        rw [code]
        exact List.mem_cons_of_mem _ inside
      | call _ _ calls =>
        refine (List.mem_append.mp inside).resolve_left ?_
        generalize v.code t = k at calls
        cases calls <;> simp [sleepCode, exitCode]
      | interrupt => simpa using inside
      | spawned => simp [forkret] at inside
      | exec _ code next =>
        rw [code]
        rcases List.mem_append.mp inside with inside | inside
        · cases next with
          | forkAlloc unused =>
            obtain rfl : i = _ := by simpa using inside
            exact absurd unused taken'
          | @testEnd w => cases w <;> simp [Wait.ending] at inside
          | @testSleep p w => cases w <;> simp [Wait.wakeup, sleepCode] at inside
          | _ => simp at inside
        · exact List.mem_cons_of_mem _ inside
    · rcases step_parent taken parent with child | ⟨_, _, _, -, -, code⟩ | ⟨same, -⟩
      · exact parents q child
      · cases setter (.proc q) (by rw [code]; exact List.mem_cons_self)
        exact .inr rfl
      · exact .inl same

theorem waited_none {u v : State} {e : Event} {q : Fin NPROC} (family : Family u)
    (taken : step u e = some (v, .waited q none)) :
    (∀ i, (u.proc i).parent ≠ some q) ∨ (u.proc q).killed = true ∨
      ∃ c i, e = .go c .fail ∧ (u.proc i).parent = some q ∧ (v.proc i).state = .zombie ∧
        v.proc i = u.proc i := by
  obtain ⟨c, ch, t, op, k, rfl, -, code, shows⟩ := step_shows taken (by simp)
  have known : t = .proc q → need (.proc q) (op :: k) .wait →
      Scanned u.table q (scan (op :: k)) := by
    rintro rfl holds
    rw [← code] at holds ⊢
    exact family.scanned q holds
  generalize after : v.table = tb at shows
  cases shows with
  | noChild self all =>
    refine .inl fun i parent => ?_
    cases (known self (by simp)).1 i (by simp; omega) parent with
    | intro kids _ => cases kids
  | @copyoutFailed _ i self zombie fails =>
    subst fails
    have same : v.proc i = u.proc i := by rw [State.proc, after, State.proc]
    refine .inr (.inr ⟨c, i, rfl, (known self (by simp)).2 i rfl, ?_, same⟩)
    rw [same]
    exact zombie
  | waitKilled self marked => exact .inr (.inl marked)

theorem exitWait_of_run {s : State} (run : machine.Run (start trapframe pagetable) tr s) :
    ExitWait (start trapframe pagetable) tr where
  parents := fun _ _ _ earlier => (family_run earlier).alive
  creator := by
    intro pre e i pid mid u q _ once reached parent
    obtain ⟨v, earlier⟩ := reached.of_append
    obtain ⟨w, forked, -⟩ := (reached.step_of_prefix earlier
      (e := e) (o := .forked (some (i, pid))) ⟨mid, by simp⟩)
    obtain ⟨c, ch, t, op, k, rfl, runs, code, shows⟩ := step_shows forked (by simp)
    have fits := (core_run earlier).fits t
    rw [code] at fits
    generalize w.table = tb at shows
    cases shows with
    | forked =>
      cases fits with
      | cons first _ =>
        cases first with
        | @forkAt p _ self =>
          subst self
          have runs := State.thread_eq_proc.mp runs
          rcases (creator_run earlier runs mid once reached).2 q parent with same | rfl
          · exact .inl same
          · exact .inr ⟨c, ch, v, rfl, earlier, runs⟩
  stays := by
    intro pre e p pid status mid u _ once reached
    exact Proc.pending_eq_singleton.mp (stays_run mid once reached)
  reported := by
    intro pre e q i pid status u inside earlier
    obtain ⟨v, taken, -⟩ := run.step_of_prefix earlier inside
    cases zombie_step (core_run earlier) (family_run earlier) taken i with
    | same _ _ waits => exact absurd rfl (waits q (pid, status))
    | reaped zombie parent => exact ⟨parent, zombie, rfl, rfl⟩
  once := fun _ _ _ earlier i => once_run earlier i
  woken := by
    rintro pre u _ earlier free i q parent zombie asleep
    obtain ⟨p, holds, -⟩ := (family_run earlier).heard i q parent zombie (.inl asleep)
    obtain ⟨c, -, held⟩ := (core_run earlier).wait_running holds
    rw [free] at held
    cases held
  fails := by
    intro pre e q u v inside earlier later
    obtain ⟨w, taken, later'⟩ := run.step_of_prefix earlier inside
    obtain rfl := later'.unique later
    exact waited_none (family_run earlier) taken

end

/-- init forks a child and sleeps in `wait`; the child, on the other CPU, exits with
    status 7; init is woken and returns the child. -/
def reapRun : List (Event × Obs) :=
  let go (c : Nat) : Event × Obs := (.go c .yes, .silent)
  let child : Fin NPROC := ⟨1, one_lt_NPROC⟩
  [(.schedule 0 initproc, .silent), go 0, (.call 0 .fork, .silent)] ++ List.replicate 6 (go 0) ++
    [(.go 0 (.mem 3 4), .forked (some (child, 2)))] ++ List.replicate 7 (go 0) ++
    [(.call 0 (.wait false), .silent)] ++ List.replicate 75 (go 0) ++
    [(.leave 0, .silent), (.schedule 1 child, .silent), go 1, (.call 1 (.exit 7), .silent)] ++
    List.replicate 322 (go 1) ++ [(.go 1 .yes, .exited child 2 7), go 1, go 1, (.leave 1, .silent),
      (.schedule 0 initproc, .silent)] ++ List.replicate 6 (go 0) ++
    [(.go 0 .yes, .waited initproc (some (child, 2, 7)))]

theorem reapRun_run : ∃ s, machine.Run (start 1 2) reapRun s ∧ s.locks .wait = some 0 := by
  have ran : (machine.exec (start 1 2) (reapRun.map Prod.fst)).map
      (fun r => (r.1, r.2.locks .wait)) = some (reapRun, some 0) := by decide +kernel
  exact Lib.Machine.run_of_exec (fun s : State => s.locks .wait) ran

theorem exitWait_reapRun : (∃ s, machine.Run (start 1 2) reapRun s) ∧
    ExitWait (start 1 2) reapRun := by
  obtain ⟨s, run, -⟩ := reapRun_run
  exact ⟨⟨s, run⟩, exitWait_of_run run⟩

end Xv6.Kernel.Smp
