import Xv6.User.ThreadRuns

/-! # Thread identifiers

`_main` gives the main thread tid 1 and leaves `next_tid` at 1, so the first
thread that `tcreate` makes has the tid of the main thread, which stands before
it in the table. The table is filled in the order of creation and no slot is
ever emptied, so after any run its contents are known exactly.
-/

namespace Xv6.User

open Function

variable {s s' : State} {tid : Int} {t : Nat} {e : Event}

/-- How many threads the program has created. -/
def creations (tr : List (Event × Obs)) : Nat :=
  tr.countP fun x => match x.1 with | .tcreate _ _ => true | _ => false

/-- `tjoin(t->tid)` selects `t` itself. -/
def Selects (s : State) (t : Nat) : Prop :=
  s.findTid (s.heap t).tid.toNat = some t

/-- When a `tjoin(t->tid)` returns 0, `t` is EXITED. -/
def JoinSound (s : State) (t : Nat) : Prop :=
  ∀ e s', step s e = some (s', .joined (s.heap t).tid.toNat 0) → (s.heap t).state = .exited

/-- Tids identify threads: those in the table differ, and joining a created
    thread by its tid joins that thread. -/
def ThreadIdentity (s : State) : Prop :=
  (∀ i j t u, s.threads i = some t → s.threads j = some u → i ≠ j →
    (s.heap t).tid ≠ (s.heap u).tid) ∧
  ∀ t, mainThread < t → t < s.fresh → Selects s t ∧ JoinSound s t

/-- The table and the tids after `s.fresh - 1` creations. -/
structure Numbered (s : State) : Prop where
  born : 0 < s.fresh
  table : ∀ i : Fin 16, s.threads i = if i.val < s.fresh then some i.val else none
  mainTid : (s.heap mainThread).tid = 1
  tid : ∀ t, mainThread < t → t < s.fresh → (s.heap t).tid = UInt8.ofNat t
  next : s.nextTid = BitVec.ofNat 32 s.fresh

theorem numbered_start : Numbered start where
  born := by simp [start]
  table := by decide
  mainTid := rfl
  tid := by
    intro t above below
    simp only [mainThread, start] at above below
    omega
  next := rfl

namespace Numbered

variable {s : State}

section

variable (inv : Numbered s)
include inv

theorem freeSlot_eq_none (full : 16 ≤ s.fresh) : s.freeSlot = none := by
  rw [State.freeSlot, ← Fin.find?_eq_find?_finRange, Fin.find?_eq_none_iff]
  intro i
  have : i.val < s.fresh := by omega
  simp [inv.table, this]

theorem freeSlot_eq_some (room : s.fresh < 16) :
    s.freeSlot = some ⟨s.fresh, room⟩ := by
  rw [State.freeSlot, ← Fin.find?_eq_find?_finRange, Fin.find?_eq_some_iff]
  refine ⟨by simp [inv.table], fun j below => ?_⟩
  have : j.val < s.fresh := below
  simp [inv.table, this]

theorem tcreate (func arg : Nat) : Numbered (s.tcreate func arg) where
  born := Nat.succ_pos _
  table := by
    intro i
    by_cases room : s.fresh < 16
    · simp only [State.tcreate, inv.freeSlot_eq_some room]
      by_cases here : i = ⟨s.fresh, room⟩
      · simp [here]
      · have different : i.val ≠ s.fresh := fun same => here (Fin.ext same)
        rw [update_of_ne here, inv.table i]
        congr 1
        simp only [eq_iff_iff]
        omega
    · simp only [State.tcreate, inv.freeSlot_eq_none (Nat.le_of_not_lt room), inv.table i]
      rw [if_pos (by omega), if_pos (by omega)]
  mainTid := by
    have old : mainThread ≠ s.fresh := Nat.ne_of_lt inv.born
    simpa [State.tcreate, old] using inv.mainTid
  tid := by
    intro t above below
    by_cases new : t = s.fresh
    · subst new
      simp only [State.tcreate, update_self, inv.next, BitVec.toNat_ofNat]
      exact UInt8.toNat_inj.mp (by simp only [UInt8.toNat_ofNat']; omega)
    · have old : t < s.fresh := Nat.lt_of_le_of_ne (Nat.le_of_lt_succ below) new
      simpa [State.tcreate, new] using inv.tid t above old
  next := by
    simp only [State.tcreate, inv.next]
    exact (BitVec.ofNat_add s.fresh 1).symm

theorem step {s' : State} {e : Event} {o : Obs} (taken : User.step s e = some (s', o)) :
    Numbered s' := by
  rcases step_table taken with ⟨func, arg, -, rfl, -⟩ | ⟨-, same⟩
  · exact inv.tcreate func arg
  · exact
      { born := same.fresh ▸ inv.born
        table := by rw [same.threads, same.fresh]; exact inv.table
        mainTid := by rw [same.tid]; exact inv.mainTid
        tid := by
          intro t above below
          rw [same.tid]
          exact inv.tid t above (same.fresh ▸ below)
        next := by rw [same.nextTid, same.fresh]; exact inv.next }

theorem slot_tid (i : Fin 16) (used : i.val < s.fresh) :
    (s.heap i.val).tid.toNat = if i.val = 0 then 1 else i.val := by
  by_cases main : i.val = 0
  · rw [if_pos main, main]
    exact congrArg UInt8.toNat inv.mainTid
  · rw [inv.tid i.val (Nat.pos_of_ne_zero main) used, UInt8.toNat_ofNat', if_neg main]
    omega

theorem hasTid_iff (n : Nat) (i : Fin 16) :
    s.hasTid n i = true ↔ i.val < s.fresh ∧ (if i.val = 0 then 1 else i.val) = n := by
  rw [State.hasTid, inv.table i]
  by_cases used : i.val < s.fresh
  · simp only [used, if_true, inv.slot_tid i used, decide_eq_true_eq, true_and]
    exact Int.ofNat_inj
  · simp [used]

/-- `tjoin` selects the first slot `i` that passes its test. -/
theorem findTid_at {n : Nat} {i : Fin 16} (here : s.hasTid n i = true)
    (before : ∀ j < i, s.hasTid n j = false) : s.findTid n = some i.val := by
  have first : (List.finRange 16).find? (s.hasTid n) = some i := by
    rw [← Fin.find?_eq_find?_finRange, Fin.find?_eq_some_iff]
    exact ⟨here, before⟩
  rw [State.findTid, first, Option.bind_some, inv.table i, if_pos ((inv.hasTid_iff n i).mp here).1]

/-- What `tjoin` finds: the main thread for tid 1, the thread with that number
    for the other tids in the table, nothing otherwise. -/
theorem findTid_eq (n : Nat) : s.findTid n = if n = 1 then some mainThread
      else if 2 ≤ n ∧ n ≤ 15 ∧ n < s.fresh then some n else none := by
  by_cases one : n = 1
  · rw [if_pos one]
    refine inv.findTid_at (i := 0) ((inv.hasTid_iff n 0).mpr ⟨inv.born, by simp [one]⟩) ?_
    intro j below
    exact absurd below (Nat.not_lt_zero _)
  rw [if_neg one]
  by_cases listed : 2 ≤ n ∧ n ≤ 15 ∧ n < s.fresh
  · obtain ⟨low, high, used⟩ := listed
    rw [if_pos ⟨low, high, used⟩]
    have slot : n < 16 := by omega
    refine inv.findTid_at (i := ⟨n, slot⟩) ((inv.hasTid_iff n _).mpr ⟨used, ?_⟩) ?_
    · exact if_neg (by simp only; omega)
    · intro j below
      have lower : j.val < n := below
      rw [← Bool.not_eq_true, inv.hasTid_iff]
      rintro ⟨-, same⟩
      split at same <;> omega
  · rw [if_neg listed, State.findTid]
    have nothing : (List.finRange 16).find? (s.hasTid n) = none := by
      rw [← Fin.find?_eq_find?_finRange, Fin.find?_eq_none_iff]
      intro i
      rw [← Bool.not_eq_true, inv.hasTid_iff]
      rintro ⟨used, same⟩
      split at same <;> omega
    rw [nothing, Option.bind_none]

theorem tid_toNat {t : Nat} (above : mainThread < t) (below : t < s.fresh) :
    (s.heap t).tid.toNat = t % 256 := by
  rw [inv.tid t above below, UInt8.toNat_ofNat']

/-- The threads that joining by tid reaches are the second to the fifteenth created. -/
theorem selects_iff {t : Nat} (above : mainThread < t) (below : t < s.fresh) :
    Selects s t ↔ 2 ≤ t ∧ t ≤ 15 := by
  rw [Selects, inv.tid_toNat above below, inv.findTid_eq]
  simp only [mainThread] at above ⊢
  constructor
  · intro found
    split at found
    · simp only [Option.some.injEq] at found
      omega
    · split at found
      · simp only [Option.some.injEq] at found
        omega
      · cases found
  · rintro ⟨low, high⟩
    rw [if_neg (by omega), if_pos (by omega)]
    congr 1
    omega

end

end Numbered

theorem findTid_nat (found : s.findTid tid = some t) :
    ∃ n : Nat, tid = n := by
  obtain ⟨i, first, slot⟩ := Option.bind_eq_some_iff.mp found
  have passes := List.find?_some first
  simp only [State.hasTid, slot, decide_eq_true_eq] at passes
  exact ⟨_, passes.symm⟩

/-- What `tjoin` selects for a tid stays what it selects: slots are never reused. -/
theorem Numbered.findTid_stays {o : Obs} (inv : Numbered s)
    (taken : User.step s e = some (s', o)) (found : s.findTid tid = some t) :
    s'.findTid tid = some t := by
  obtain ⟨n, rfl⟩ := findTid_nat found
  have grows : s.fresh ≤ s'.fresh := by
    rcases step_table taken with ⟨func, arg, -, rfl, -⟩ | ⟨-, same⟩
    · exact Nat.le_succ _
    · exact Nat.le_of_eq same.fresh.symm
  rw [inv.findTid_eq] at found
  rw [(inv.step taken).findTid_eq]
  split at found
  · rename_i one
    rw [if_pos one]
    exact found
  · rename_i many
    split at found
    · rename_i listed
      rw [if_neg many, if_pos (by omega)]
      exact found
    · cases found

/-- A call of `tjoin` that waits has selected the thread it would select now. -/
def JoinsListed (s : State) : Prop :=
  ∀ t tid target, s.ctl t = .resume (.tjoin tid target) → s.findTid tid = some target

theorem step_joins {o : Obs} {target : Nat} (taken : step s e = some (s', o))
    (waits : s'.ctl t = .resume (.tjoin tid target)) :
    s.ctl t = .resume (.tjoin tid target) ∨ s.findTid tid = some target := by
  -- one step changes control at one thread only, the current or the new one
  have kept : ∀ c u, (t = u → c = .resume (.tjoin tid target) →
      s.ctl t = .resume (.tjoin tid target) ∨ s.findTid tid = some target) →
      update s.ctl u c t = .resume (.tjoin tid target) →
      s.ctl t = .resume (.tjoin tid target) ∨ s.findTid tid = some target := by
    intro c u new waits
    by_cases here : t = u
    · rw [here, update_self] at waits
      exact new here waits
    · rw [update_of_ne here] at waits
      exact .inl waits
  cases step_moves taken with
  | work | initlock | unknown | held | notHeld | returns | fault => exact .inl waits
  | waits test =>
    refine kept _ s.current ?_ waits
    rintro rfl same
    cases same
    cases test with
    | call found => exact .inr found
    | again here => exact .inl here
  | _ => exact kept _ _ (by simp) waits

/-- A waiting call of `tjoin` and one that is made now both test the thread that is found. -/
theorem Joins.found {target : Nat} (listed : JoinsListed s) (test : Joins s tid target e) :
    s.findTid tid = some target := by
  cases test with
  | call found => exact found
  | again here => exact listed _ _ _ here

/-- A `tjoin` that returns 0 found its selected thread EXITED. -/
theorem joined_zero (listed : JoinsListed s) (taken : step s e = some (s', .joined tid 0)) :
    ∃ target, s.findTid tid = some target ∧ (s.heap target).state = .exited := by
  cases step_moves taken with
  | joined test gone => exact ⟨_, test.found listed, gone⟩

/-- What every run keeps: the numbering, the waiting joins and the creation count. -/
theorem numbered_run {tr : List (Event × Obs)} (run : machine.Run start tr s) :
    Numbered s ∧ JoinsListed s ∧ s.fresh = creations tr + 1 := by
  refine run.always_invariant
    (fun tr s => Numbered s ∧ JoinsListed s ∧ s.fresh = creations tr + 1)
    ⟨numbered_start, by simp [JoinsListed, start], rfl⟩ ?_
  rintro tr s e o s' - ⟨inv, listed, count⟩ taken
  refine ⟨inv.step taken, ?_, ?_⟩
  · intro t tid target waits
    rcases step_joins taken waits with waits | found
    · exact inv.findTid_stays taken (listed t tid target waits)
    · exact inv.findTid_stays taken found
  · simp only [creations, List.countP_append, List.countP_singleton]
    rcases step_table taken with ⟨func, arg, rfl, rfl, -⟩ | ⟨other, same⟩
    · simpa [State.tcreate, creations] using count
    · rw [same.fresh, count]
      cases e with
      | tcreate func arg => exact absurd rfl (other func arg)
      | _ => simp [creations]

/-- Tids identify threads exactly as long as no thread has been created; of the
    created threads, joining by tid reaches the second to the fifteenth. -/
theorem threadIdentity_iff {tr : List (Event × Obs)} {s : State} (run : machine.Run start tr s) :
    (ThreadIdentity s ↔ creations tr = 0) ∧
      ∀ t, mainThread < t → t < s.fresh → (Selects s t ↔ 2 ≤ t ∧ t ≤ 15) ∧
        (2 ≤ t ∧ t ≤ 15 → JoinSound s t) := by
  obtain ⟨inv, listed, count⟩ := numbered_run run
  refine ⟨⟨?_, ?_⟩, ?_⟩
  · rintro ⟨-, created⟩
    by_contra some
    have firstThread : Selects s 1 := (created 1 (by simp [mainThread]) (by omega)).1
    have := (inv.selects_iff (by simp [mainThread]) (by omega)).mp firstThread
    omega
  · intro nobody
    refine ⟨?_, ?_⟩
    · intro i j t u atI atJ different
      have alone : ∀ (k : Fin 16) v, s.threads k = some v → k.val = 0 := by
        intro k v slot
        rw [inv.table k] at slot
        by_contra beyond
        rw [if_neg (by omega)] at slot
        cases slot
      exact absurd (Fin.ext ((alone i t atI).trans (alone j u atJ).symm)) different
    · intro t above below
      simp only [mainThread] at above
      omega
  · intro t above below
    refine ⟨inv.selects_iff above below, ?_⟩
    intro reached e s' taken
    obtain ⟨target, found, gone⟩ := joined_zero listed taken
    have self : Selects s t := (inv.selects_iff above below).mpr reached
    rw [Selects, found] at self
    cases self
    exact gone

/-- Two creations: joining the second thread by its tid selects it. -/
def createTwo : List (Event × Obs) := [(.tcreate 1 0, .created 1), (.tcreate 1 0, .created 2)]

theorem threadIdentity_createTwo :
    ∃ s, machine.Run start createTwo s ∧ ¬ ThreadIdentity s ∧ ¬ Selects s 1 ∧ Selects s 2 ∧
      JoinSound s 2 := by
  have ran : (machine.exec start (createTwo.map Prod.fst)).map (fun r => (r.1, r.2.fresh)) =
      some (createTwo, 3) := by decide
  obtain ⟨s, run, fresh⟩ := Lib.Machine.run_of_exec State.fresh ran
  obtain ⟨whole, each⟩ := threadIdentity_iff run
  have first := each 1 (by simp [mainThread]) (by omega)
  have second := each 2 (by simp [mainThread]) (by omega)
  refine ⟨s, run, ?_, ?_, second.1.mpr ⟨by omega, by omega⟩, second.2 ⟨by omega, by omega⟩⟩
  · rw [whole]
    decide
  · rw [first.1]
    omega

/-- After one creation `tjoin` on the new thread selects the main thread. -/
theorem not_threadIdentity_createOne :
    ∃ tr s, machine.Run start tr s ∧ ¬ ThreadIdentity s ∧
      s.findTid (s.heap 1).tid.toNat = some mainThread := by
  have ran : (machine.exec start [.tcreate 1 0]).map
      (fun r => (r.1, (r.2.fresh, r.2.findTid (r.2.heap 1).tid.toNat))) =
      some ([(.tcreate 1 0, .created 1)], (2, some mainThread)) := by decide
  obtain ⟨s, run, seen⟩ :=
    Lib.Machine.run_of_exec (fun s : State => (s.fresh, s.findTid (s.heap 1).tid.toNat)) ran
  simp only [Prod.mk.injEq] at seen
  refine ⟨_, s, run, ?_, seen.2⟩
  rintro ⟨-, created⟩
  have self : Selects s 1 := (created 1 (by simp [mainThread]) (by omega)).1
  rw [Selects, seen.2] at self
  cases self

end Xv6.User
