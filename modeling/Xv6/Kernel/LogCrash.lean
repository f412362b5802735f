import Xv6.Kernel.LogDisk

/-! # Crash atomicity of the log

The steps of a run say which group transactions were started, which of them have
their header on disk and which commits returned. At every moment the disk, put
through `recover_from_log`, holds the committed transactions and nothing else, and
an operation's updates are committed together or not at all.
-/

namespace Xv6.Kernel.Log

open Lib Function

variable {h : History} {sb : Superblock} {s : State} {e : Event} {o : Obs}

/-! ## History -/

/-- One `log_write`, with the operation that called it. -/
structure Update where
  op : Nat
  block : Nat
  data : Block

abbrev Group := List Update

structure History where
  /-- The group transactions whose `commit` was started and that no crash undid. -/
  started : List Group
  /-- How many of them have had their header written. -/
  durable : Nat
  /-- How many of them have seen `commit` finish. -/
  returned : Nat
  /-- The updates since the last `commit` was started. -/
  pending : Group
  /-- All updates ever. -/
  issued : List Update

def History.empty : History := ⟨[], 0, 0, [], []⟩

def History.after (h : History) : Event × Obs → History
  | (.logWrite op b data, .panic _) =>
      { h with pending := [], issued := h.issued ++ [⟨op, b, data⟩] }
  | (.logWrite op b data, _) =>
      { h with pending := h.pending ++ [⟨op, b, data⟩], issued := h.issued ++ [⟨op, b, data⟩] }
  | (_, .panic _) => { h with pending := [] }
  | (_, .started) => { h with started := h.started ++ [h.pending], pending := [] }
  | (_, .committed) => { h with durable := h.started.length }
  | (_, .returned) => { h with returned := h.started.length }
  | (.crash, _) => { h with started := h.started.take h.durable, pending := [] }
  | _ => h

/-- What the steps of a run say. -/
def history (tr : List (Event × Obs)) : History := tr.foldl History.after .empty

theorem history_snoc (tr : List (Event × Obs)) (x : Event × Obs) :
    history (tr ++ [x]) = (history tr).after x := by
  simp [history]

/-- The disk after the updates. -/
def applyUpdates (us : List Update) (d : Disk) : Disk :=
  replay (us.map fun u => (u.block, u.data)) d

namespace History

/-- The updates of the transactions whose header was written. -/
def saved (h : History) : List Update := (h.started.take h.durable).flatten

/-- The updates that a crash would lose. -/
def inflight (h : History) : List Update := (h.started.drop h.durable).flatten ++ h.pending

end History

/-! ## The disks of a history -/

/-- What the counters of the history say about the point that was reached. -/
def Counted (h : History) (pc : Pc) : Prop :=
  match pc with
  | .idle => h.durable = h.started.length
  | .writeLog _ | .writeHead => h.durable ≤ h.started.length ∧ h.pending = []
  | .install _ | .clear | .finish | .boot | .recover _ | .recoverClear | .panicked =>
      h.durable = h.started.length ∧ h.pending = []

structure Recorded (h : History) (s : State) : Prop where
  counted : Counted h s.pc
  returned : h.returned ≤ h.durable
  /-- The header in memory lists the blocks of the open transaction. -/
  listed : s.pc = .idle ∨ s.pc = .finish → ∀ b, b ∈ s.lh ↔ b ∈ h.pending.map Update.block

/-- How a step moves updates from the ones in flight to the saved ones. -/
structure Moves (h h' : History) (e : Event) (o : Obs) : Prop where
  saved : h'.saved =
    match e, o with
    | .logWrite _ _ _, _ => h.saved
    | _, .committed => h.saved ++ h.inflight
    | _, _ => h.saved
  inflight : h'.inflight =
    match e, o with
    | _, .panic _ => []
    | .logWrite op b data, _ => h.inflight ++ [⟨op, b, data⟩]
    | _, .committed => []
    | .crash, _ => []
    | _, _ => h.inflight
  issued : h'.issued =
    match e with
    | .logWrite op b data => h.issued ++ [⟨op, b, data⟩]
    | _ => h.issued

theorem Counted.le {pc : Pc} (counted : Counted h pc) :
    h.durable ≤ h.started.length := by
  cases pc with
  | idle => exact Nat.le_of_eq counted
  | writeLog | writeHead => exact counted.1
  | install | clear | finish | boot | recover | recoverClear | panicked =>
    exact Nat.le_of_eq counted.1

theorem History.inflight_eq (all : h.durable = h.started.length) :
    h.inflight = h.pending := by
  simp [inflight, all]

namespace Moves

variable {h : History}

theorem panic (all : h.durable = h.started.length) (e : Event) (message : String) :
    Moves h (h.after (e, .panic message)) e (.panic message) := by
  cases e <;> exact ⟨by simp [History.saved, History.after],
    by simp [History.inflight, History.after, all], rfl⟩

theorem logWrite (op b : Nat) (data : Block) :
    Moves h (h.after (.logWrite op b data, .silent)) (.logWrite op b data) .silent :=
  ⟨rfl, by simp [History.inflight, History.after], rfl⟩

theorem started (le : h.durable ≤ h.started.length) (op : Nat) :
    Moves h (h.after (.endOp op, .started)) (.endOp op) .started := by
  refine ⟨?_, ?_, rfl⟩
  · simp [History.saved, History.after, List.take_append_of_le_length le]
  · simp [History.inflight, History.after, List.drop_append_of_le_length le]

theorem committed (none_ : h.pending = []) :
    Moves h (h.after (.next, .committed)) .next .committed := by
  refine ⟨?_, by simp [History.inflight, History.after, none_], rfl⟩
  simp [History.saved, History.inflight, History.after, none_, ← List.flatten_append]

theorem crash : Moves h (h.after (.crash, .silent)) .crash .silent := by
  refine ⟨?_, ?_, rfl⟩
  · simp [History.saved, History.after, List.take_take]
  · simp [History.inflight, History.after]

end Moves

theorem Recorded.keep {t : State} (recorded : Recorded h s) (control : Control s)
    (moved : Trans sb s e t o) :
    Moves h (h.after (e, o)) e o ∧ Recorded (h.after (e, o)) t := by
  have counted := recorded.counted
  cases moved with
  | beginOp | endMore | bread | evict =>
    exact ⟨⟨rfl, rfl, rfl⟩, recorded.counted, recorded.returned, recorded.listed⟩
  | full inside | outside inside | endCommitting inside =>
    simp only [control.idle inside, Counted] at counted
    refine ⟨.panic counted _ _, ⟨counted, rfl⟩, recorded.returned, by simp⟩
  | absorb inside _ _ _ member =>
    refine ⟨.logWrite _ _ _, ?_, recorded.returned, fun at_ b => ?_⟩
    · simp only [control.idle inside, Counted] at counted ⊢
      exact counted
    · rw [recorded.listed at_ b]
      simp only [History.after, List.map_append, List.map_cons, List.map_nil, List.mem_append,
        List.mem_singleton]
      constructor
      · exact .inl
      · rintro (old | rfl)
        · exact old
        · exact (recorded.listed at_ _).mp member
  | append inside =>
    refine ⟨.logWrite _ _ _, ?_, recorded.returned, fun at_ b => ?_⟩
    · simp only [control.idle inside, Counted] at counted ⊢
      exact counted
    · simp only [History.after, List.map_append, List.map_cons, List.map_nil, List.mem_append,
        List.mem_singleton, recorded.listed at_ b]
  | endStart inside =>
    simp only [control.idle inside, Counted] at counted
    refine ⟨.started counted.le _, ⟨?_, rfl⟩, recorded.returned, by simp⟩
    simp only [History.after, List.length_append, List.length_singleton]
    omega
  | endEmpty inside _ _ none_ =>
    have at_ := control.idle inside
    simp only [at_, Counted] at counted
    have nothing : h.pending = [] := by
      rw [List.eq_nil_iff_forall_not_mem]
      intro u member
      have listed := (recorded.listed (.inl at_) u.block).mpr (List.mem_map_of_mem member)
      simp [none_] at listed
    exact ⟨⟨rfl, rfl, rfl⟩, ⟨counted, nothing⟩, recorded.returned,
      fun _ => recorded.listed (.inl at_)⟩
  | write at_ | written at_ =>
    simp only [at_, Counted] at counted
    exact ⟨⟨rfl, rfl, rfl⟩, counted, recorded.returned, by simp⟩
  | head at_ =>
    simp only [at_, Counted] at counted
    refine ⟨.committed counted.2, ⟨rfl, counted.2⟩, ?_, by simp⟩
    exact Nat.le_trans recorded.returned counted.1
  | install at_ | installed at_ | boot at_ | recover at_ | recovered at_ =>
    simp only [at_, Counted] at counted
    exact ⟨⟨rfl, rfl, rfl⟩, counted, recorded.returned, by simp⟩
  | clear at_ =>
    simp only [at_, Counted] at counted
    refine ⟨⟨rfl, rfl, rfl⟩, counted, Nat.le_of_eq counted.1.symm, fun _ b => ?_⟩
    simp [History.after, counted.2]
  | finish at_ =>
    simp only [at_, Counted] at counted
    exact ⟨⟨rfl, rfl, rfl⟩, counted.1, recorded.returned, fun _ => recorded.listed (.inr at_)⟩
  | recoverClear at_ =>
    simp only [at_, Counted] at counted
    refine ⟨⟨rfl, rfl, rfl⟩, counted.1, recorded.returned, fun _ b => ?_⟩
    simp [History.after, counted.2]
  | crash =>
    refine ⟨.crash, ⟨?_, rfl⟩, recorded.returned, by simp [powerOn]⟩
    simp [History.after, counted.le]

/-- The two disks, from the steps of the run. -/
def History.view (h : History) (base : Disk) : View where
  committed := applyUpdates h.saved base
  newest := applyUpdates (h.saved ++ h.inflight) base

theorem applyUpdates_snoc (us : List Update) (u : Update) (d : Disk) :
    applyUpdates (us ++ [u]) d = update (applyUpdates us d) u.block u.data := by
  rw [applyUpdates, List.map_append]
  exact replay_snoc _ _ _

theorem Moves.view {h' : History} (moves : Moves h h' e o) (base : Disk) :
    h'.view base = (h.view base).after (e, o) := by
  have saved := moves.saved
  have inflight := moves.inflight
  cases e with
  | logWrite op b data =>
    cases o <;> simp_all [History.view, View.after, ← List.append_assoc, applyUpdates_snoc]
  | crash => cases o <;> simp_all [History.view, View.after]
  | beginOp | endOp | next | bread | evict => cases o <;> simp_all [History.view, View.after]

/-! ## All or nothing -/

/-- The updates of operation `i`. -/
def byOp (i : Nat) (us : List Update) : List Update := us.filter fun u => u.op = i

@[simp] theorem byOp_nil (i : Nat) : byOp i [] = [] := rfl

theorem byOp_append (i : Nat) (us vs : List Update) : byOp i (us ++ vs) = byOp i us ++ byOp i vs :=
  List.filter_append ..

theorem byOp_eq_nil {i : Nat} {us : List Update} (other : ∀ u ∈ us, u.op ≠ i) : byOp i us = [] := by
  simpa [byOp, List.filter_eq_nil_iff] using other

/-- What became of the updates of an operation: saved, still to be saved, or gone.
    Only an operation whose updates are still to be saved may issue more. -/
inductive Fate (h : History) (ops : List Nat) (i : Nat) : Prop where
  | saved : byOp i h.saved = byOp i h.issued → byOp i h.inflight = [] → i ∉ ops → Fate h ops i
  | inflight : byOp i h.saved = [] → byOp i h.inflight = byOp i h.issued → Fate h ops i
  | lost : byOp i h.saved = [] → byOp i h.inflight = [] → i ∉ ops → Fate h ops i

namespace Fate

variable {h h' : History} {ops ops' : List Nat} {i : Nat}

/-- An operation that issues nothing, while no update moves. -/
theorem same (fate : Fate h ops i) (saved : byOp i h'.saved = byOp i h.saved)
    (inflight : byOp i h'.inflight = byOp i h.inflight)
    (issued : byOp i h'.issued = byOp i h.issued) (fewer : i ∈ ops' → i ∈ ops) :
    Fate h' ops' i := by
  cases fate with
  | saved all none_ ended =>
    exact .saved (by rw [saved, issued, all]) (by rw [inflight, none_])
      (fun live => ended (fewer live))
  | inflight none_ all => exact .inflight (by rw [saved, none_]) (by rw [inflight, issued, all])
  | lost none_ nothing ended =>
    exact .lost (by rw [saved, none_]) (by rw [inflight, nothing]) (fun live => ended (fewer live))

theorem commit (fate : Fate h ops i) (saved : h'.saved = h.saved ++ h.inflight)
    (inflight : h'.inflight = []) (issued : h'.issued = h.issued) (ended : i ∉ ops') :
    Fate h' ops' i := by
  cases fate with
  | saved all none_ _ =>
    exact .saved (by rw [saved, byOp_append, none_, List.append_nil, issued, all])
      (by simp [inflight]) ended
  | inflight none_ all =>
    exact .saved (by rw [saved, byOp_append, none_, List.nil_append, issued, all])
      (by simp [inflight]) ended
  | lost none_ nothing _ =>
    exact .lost (by rw [saved, byOp_append, none_, nothing, List.nil_append]) (by simp [inflight])
      ended

theorem lose (fate : Fate h ops i) (saved : h'.saved = h.saved) (inflight : h'.inflight = [])
    (issued : byOp i h'.issued = byOp i h.issued ∨ i ∈ ops) (ended : i ∉ ops') :
    Fate h' ops' i := by
  cases fate with
  | saved all none_ gone =>
    have same := issued.resolve_right gone
    exact .saved (by rw [saved, same, all]) (by simp [inflight]) ended
  | inflight none_ _ => exact .lost (by rw [saved, none_]) (by simp [inflight]) ended
  | lost none_ _ _ => exact .lost (by rw [saved, none_]) (by simp [inflight]) ended

end Fate

structure Traced (h : History) (s : State) : Prop where
  fate : ∀ i, Fate h s.ops i
  old : ∀ u ∈ h.issued, u.op < s.nextOp

namespace Traced

variable {sb : Superblock} {h h' : History} {s t : State}

/-- A step that issues nothing and loses nothing, with no new operation. -/
theorem quiet (traced : Traced h s) (saved : h'.saved = h.saved)
    (inflight : h'.inflight = h.inflight)
    (issued : h'.issued = h.issued) (fewer : ∀ i ∈ t.ops, i ∈ s.ops) (next : t.nextOp = s.nextOp) :
    Traced h' t where
  fate i := (traced.fate i).same (by rw [saved]) (by rw [inflight]) (by rw [issued]) (fewer i)
  old := by rw [issued, next]; exact traced.old

theorem logWrite (traced : Traced h s) (control : Control s) {op b : Nat} {data : Block}
    (moves : Moves h h' (.logWrite op b data) .silent) (inside : op ∈ s.ops) (ops : t.ops = s.ops)
    (next : t.nextOp = s.nextOp) : Traced h' t := by
  constructor
  case fate =>
    intro i
    rw [ops]
    by_cases mine : i = op
    · subst mine
      cases traced.fate i with
      | saved _ _ ended => exact absurd inside ended
      | inflight none_ all =>
        refine .inflight (by rw [moves.saved, none_]) ?_
        rw [moves.inflight, moves.issued, byOp_append, byOp_append, all]
      | lost _ _ ended => exact absurd inside ended
    · have foreign : byOp i [⟨op, b, data⟩] = [] :=
        byOp_eq_nil fun u member => by simpa [List.mem_singleton.mp member] using Ne.symm mine
      refine (traced.fate i).same (by rw [moves.saved]) ?_ ?_ id
      · rw [moves.inflight, byOp_append, foreign, List.append_nil]
      · rw [moves.issued, byOp_append, foreign, List.append_nil]
  case old =>
    rw [moves.issued, next]
    intro u member
    rcases List.mem_append.mp member with before | new
    · exact traced.old u before
    · rw [List.mem_singleton.mp new]
      exact control.fresh op inside

theorem panic (traced : Traced h s) (control : Control s) {e : Event} {message : String}
    (moves : Moves h h' e (.panic message)) (ops : t.ops = []) (next : t.nextOp = s.nextOp)
    (author : ∀ op b data, e = .logWrite op b data → op ∈ s.ops) : Traced h' t := by
  have saved : h'.saved = h.saved := by
    rw [moves.saved]
    cases e <;> rfl
  have inflight : h'.inflight = [] := by rw [moves.inflight]
  cases e with
  | logWrite op b data =>
    have inside := author op b data rfl
    constructor
    case fate =>
      intro i
      refine (traced.fate i).lose saved inflight ?_ (by simp [ops])
      by_cases mine : i = op
      · exact .inr (mine ▸ inside)
      · have foreign : byOp i [⟨op, b, data⟩] = [] :=
          byOp_eq_nil fun u member => by simpa [List.mem_singleton.mp member] using Ne.symm mine
        exact .inl (by rw [moves.issued, byOp_append, foreign, List.append_nil])
    case old =>
      rw [moves.issued, next]
      intro u member
      rcases List.mem_append.mp member with before | new
      · exact traced.old u before
      · rw [List.mem_singleton.mp new]
        exact control.fresh op inside
  | beginOp | endOp | next | bread | evict | crash =>
    have issued : h'.issued = h.issued := by rw [moves.issued]
    refine ⟨fun i => (traced.fate i).lose saved inflight (.inl (by rw [issued])) (by simp [ops]),
      ?_⟩
    rw [issued, next]
    exact traced.old

theorem keep {e : Event} {o : Obs} (traced : Traced h s) (control : Control s)
    (moves : Moves h h' e o) (moved : Trans sb s e t o) : Traced h' t := by
  cases moved with
  | beginOp =>
    constructor
    case fate =>
      intro i
      by_cases new : i = s.nextOp
      · have nothing : byOp i h.issued = [] :=
          byOp_eq_nil fun u member => by
            have := traced.old u member
            omega
        have none_ : byOp i h.saved = [] ∧ byOp i h.inflight = [] := by
          cases traced.fate i with
          | saved all none_ _ => exact ⟨all.trans nothing, none_⟩
          | inflight none_ all => exact ⟨none_, all.trans nothing⟩
          | lost none_ nothing' _ => exact ⟨none_, nothing'⟩
        refine .inflight (by rw [moves.saved, none_.1]) ?_
        rw [moves.inflight, moves.issued, none_.2, nothing]
      · refine (traced.fate i).same (by rw [moves.saved]) (by rw [moves.inflight])
          (by rw [moves.issued]) fun live => ?_
        simpa [new] using live
    case old =>
      rw [moves.issued]
      exact fun u member => Nat.lt_succ_of_lt (traced.old u member)
  | full inside =>
    exact traced.panic control moves rfl rfl fun _ _ _ same => by cases same; exact inside
  | outside inside =>
    exact traced.panic control moves rfl rfl fun _ _ _ same => by cases same; exact inside
  | endCommitting => exact traced.panic control moves rfl rfl fun _ _ _ same => by cases same
  | absorb inside => exact traced.logWrite control moves inside rfl rfl
  | append inside => exact traced.logWrite control moves inside rfl rfl
  | endStart | endEmpty | endMore =>
    exact traced.quiet moves.saved moves.inflight moves.issued
      (fun i => List.mem_of_mem_erase) rfl
  | head at_ =>
    have none_ := control.ops_of_ne_idle (by simp [at_])
    refine ⟨fun i => ?_, ?_⟩
    · exact (traced.fate i).commit moves.saved moves.inflight moves.issued
        (by simp [State.bwrite, none_])
    · rw [moves.issued]
      exact traced.old
  | crash =>
    refine ⟨fun i => ?_, ?_⟩
    · exact (traced.fate i).lose moves.saved moves.inflight (.inl (by rw [moves.issued]))
        (by simp [powerOn])
    · rw [moves.issued]
      exact traced.old
  | write | written | install | installed | clear | finish | boot | recover | recovered
  | recoverClear | bread | evict =>
    exact traced.quiet moves.saved moves.inflight moves.issued (fun i => id) rfl

end Traced

/-! ## Runs -/

structure Invariant (sb : Superblock) (base : Disk) (h : History) (s : State) : Prop where
  control : Control s
  recorded : Recorded h s
  traced : Traced h s
  recoverable : Recoverable sb s.disk (h.view base).committed
  live : s.pc ≠ .panicked → Live sb s (h.view base)

namespace Invariant

variable {sb : Superblock} {base : Disk} {h : History} {s t : State}

theorem panicked {e : Event} {o : Obs} (inv : Invariant sb base h s) (stop : s.pc = .panicked)
    (moved : Trans sb s e t o) :
    Recoverable sb t.disk ((h.view base).after (e, o)).committed ∧
      (t.pc ≠ .panicked → Live sb t ((h.view base).after (e, o))) := by
  have none_ (op : Nat) : op ∉ s.ops := fun inside => by
    have idle := inv.control.idle inside
    simp [stop] at idle
  cases moved with
  | beginOp up => simp [stop, Pc.up] at up
  | full inside | outside inside | absorb inside | append inside | endCommitting inside
  | endStart inside | endEmpty inside | endMore inside => exact absurd inside (none_ _)
  | write at_ | written at_ | head at_ | install at_ | installed at_ | clear at_ | finish at_
  | boot at_ | recover at_ | recovered at_ | recoverClear at_ => simp [stop] at at_
  | bread go => exact absurd stop go
  | evict => exact ⟨inv.recoverable, fun go => absurd stop go⟩
  | crash => exact ⟨inv.recoverable, fun _ => Live.powerOn inv.recoverable _⟩

theorem keep {e : Event} {o : Obs} (inv : Invariant sb base h s) (moved : Trans sb s e t o) :
    Invariant sb base (h.after (e, o)) t := by
  obtain ⟨moves, recorded⟩ := inv.recorded.keep inv.control moved
  have disks : Recoverable sb t.disk ((h.view base).after (e, o)).committed ∧
      (t.pc ≠ .panicked → Live sb t ((h.view base).after (e, o))) := by
    by_cases stop : s.pc = .panicked
    · exact inv.panicked stop moved
    · exact (inv.live stop).keep inv.control moved
  rw [← moves.view base] at disks
  exact ⟨inv.control.keep moved, recorded, inv.traced.keep inv.control moves moved, disks.1,
    disks.2⟩

theorem start (img : Image sb) : Invariant sb img.disk .empty (start img) := by
  have good : Recoverable sb img.disk img.disk := by
    refine ⟨?_, ?_, .inl img.empty, ?_, fun _ _ _ => rfl⟩ <;> simp [img.empty]
  refine ⟨Control.powerOn _ _, ⟨⟨rfl, rfl⟩, Nat.le_refl 0, ?_⟩, ⟨fun i => ?_, ?_⟩, good,
    fun _ => ?_⟩
  · simp [Log.start, powerOn]
  · exact .inflight rfl rfl
  · simp [History.empty]
  · exact Live.powerOn good 0

theorem run {img : Image sb} {tr : List (Event × Obs)}
    (run : (machine sb).Run (Log.start img) tr s) : Invariant sb img.disk (history tr) s := by
  refine run.always_invariant (fun tr s => Invariant sb img.disk (history tr) s) (.start img) ?_
  intro pre u e o v _ inv taken
  rw [history_snoc]
  exact inv.keep (step_trans taken)

end Invariant

/-- Crash atomicity: wherever a run stands, recovery from its disk leads to the home
    blocks after the first `k` group transactions. These include every transaction
    whose `commit` returned, and of each operation all updates or none. -/
theorem recoverFromLog_atomic {sb : Superblock} {img : Image sb} {tr : List (Event × Obs)}
    {s : State} (run : (machine sb).Run (start img) tr s) :
    ∃ k, (history tr).returned ≤ k ∧ k ≤ (history tr).started.length ∧
      (∀ b, Home sb b → recoverFromLog sb s.disk b =
        applyUpdates ((history tr).started.take k).flatten img.disk b) ∧
      ∀ op, byOp op ((history tr).started.take k).flatten = byOp op (history tr).issued ∨
        byOp op ((history tr).started.take k).flatten = [] := by
  have inv := Invariant.run run
  refine ⟨(history tr).durable, inv.recorded.returned, inv.recorded.counted.le, ?_, ?_⟩
  · exact fun b home => recoverFromLog_eq inv.recoverable home
  · intro op
    cases inv.traced.fate op with
    | saved all => exact .inl all
    | inflight none_ => exact .inr none_
    | lost none_ => exact .inr none_

/-! ## What recovery finds -/

/-- Some call of `log_write` has named block `b`. -/
def Named (tr : List (Event × Obs)) (b : Nat) : Prop := ∃ op data o, (.logWrite op b data, o) ∈ tr

/-- The headers in memory and on the disk list blocks with `P` only. -/
structure Heads (P : Nat → Prop) (sb : Superblock) (s : State) : Prop where
  memory : ∀ b ∈ s.lh, P b
  disk : ∀ b ∈ readHead (s.disk sb.logstart), P b

/-- A block joins the header in memory when it is named; the header on the disk is written from
    that one, and no other write reaches it. -/
theorem Heads.keep {P : Nat → Prop} {base : Disk} {t : State} (heads : Heads P sb s)
    (inv : Invariant sb base h s) (moved : Trans sb s e t o)
    (named : ∀ op b data, e = .logWrite op b data → P b) :
    Heads P sb t := by
  have home {b : Nat} (running : s.pc ≠ .panicked) (member : b ∈ s.lh) : sb.logstart ≠ b :=
    ((inv.live running).home b member).ne_logstart.symm
  have empty (data : Block) : ∀ b ∈ readHead (update s.disk sb.logstart (writeHead data [])
      sb.logstart), P b := by
    rw [update_self, readHead_writeHead (Nat.zero_le _) (by simp)]
    nofun
  cases moved with
  | append _ _ _ _ _ =>
    refine ⟨fun c member => ?_, heads.disk⟩
    rcases List.mem_append.mp member with old | new
    · exact heads.memory c old
    · rw [List.mem_singleton.mp new]
      exact named _ _ _ rfl
  | write =>
    refine ⟨heads.memory, ?_⟩
    simp only [State.bwrite_disk, State.fill_disk]
    rw [update_of_ne (by omega)]
    exact heads.disk
  | head at_ =>
    have live := inv.live (by simp [at_])
    refine ⟨heads.memory, ?_⟩
    simp only [State.bwrite_disk]
    rw [update_self, readHead_writeHead live.short fun b member => (live.home b member).1]
    exact heads.memory
  | install at_ found | recover at_ found =>
    refine ⟨heads.memory, ?_⟩
    simp only [State.bwrite_disk, State.fill_disk, State.bunpin_disk]
    rw [update_of_ne (home (by simp [at_]) (List.mem_of_getElem? found))]
    exact heads.disk
  | clear | recoverClear => exact ⟨nofun, empty _⟩
  | boot at_ =>
    have live := inv.live (by simp [at_])
    refine ⟨?_, heads.disk⟩
    simp only
    rw [live.bread_clean live.logstart_clean]
    exact heads.disk
  | crash => exact ⟨nofun, heads.disk⟩
  | _ => exact ⟨heads.memory, heads.disk⟩

theorem heads_run {img : Image sb} {tr : List (Event × Obs)}
    (run : (machine sb).Run (start img) tr s) : Heads (Named tr) sb s := by
  refine run.always_invariant (fun tr s => Heads (Named tr) sb s) ⟨nofun, ?_⟩ ?_
  · rw [start, powerOn, img.empty]
    nofun
  · intro pre u e o v before heads taken
    have grown : Heads (Named (pre ++ [(e, o)])) sb u := by
      have more {b : Nat} (named : Named pre b) : Named (pre ++ [(e, o)]) b := by
        obtain ⟨op, data, o', member⟩ := named
        exact ⟨op, data, o', List.mem_append_left _ member⟩
      exact ⟨fun b member => more (heads.memory b member),
        fun b member => more (heads.disk b member)⟩
    refine grown.keep (Invariant.run before) (step_trans taken) ?_
    rintro op b data rfl
    exact ⟨op, data, o, List.mem_append_right _ (List.mem_singleton_self _)⟩

/-- Wherever a run stands, the header on its disk has room in `lh.block` and in the log, and lists
    blocks outside the log that `log_write` was called for; and a boot that no crash interrupts
    does to that disk what `recoverFromLog` says. -/
theorem recovers_of_run {sb : Superblock} {img : Image sb} {tr : List (Event × Obs)} {s : State}
    (run : (machine sb).Run (start img) tr s) :
    (readHead (s.disk sb.logstart)).length ≤ LOGSIZE ∧
      (readHead (s.disk sb.logstart)).length < sb.nlog ∧
      (∀ b ∈ readHead (s.disk sb.logstart), Home sb b ∧ Named tr b) ∧
      ∃ boot t, (machine sb).Run (powerOn s.disk s.nextOp) boot t ∧
        (∀ x ∈ boot, x = (.next, .silent)) ∧ t.pc = .idle ∧ t.disk = recoverFromLog sb s.disk := by
  have found := (Invariant.run run).recoverable
  refine ⟨found.short, ?_, fun b member => ⟨found.home b member, (heads_run run).disk b member⟩,
    run_recoverFromLog sb s.disk s.nextOp⟩
  rcases found.room with none_ | room
  · rw [none_]
    exact sb.header
  · exact room

/-- The log as `mkfs` lays it out: `LOGSIZE` blocks, the header included, behind the
    boot block and the superblock. -/
def mkfsLog : Superblock := ⟨LOGSIZE, 2, by decide⟩

def blankImage : Image mkfsLog := ⟨fun _ => .zero, by decide⟩

/-- An operation writes block 50 and ends; the machine crashes after the header write,
    boots, and crashes again before recovery has cleared the log. -/
def crashedEvents : List Event :=
  [.next, .next, .next, .beginOp, .logWrite 0 50 (fun _ => 1), .endOp 0, .next, .next, .next,
    .crash, .next, .next, .crash]

def crashedRun : List (Event × Obs) := crashedEvents.zip
  [.silent, .silent, .silent, .silent, .silent, .started, .silent, .silent, .committed,
    .silent, .silent, .silent, .silent]

theorem recoverFromLog_crashedRun :
    ∃ s, (machine mkfsLog).Run (start blankImage) crashedRun s ∧
      ∃ k, (history crashedRun).returned ≤ k ∧ k ≤ (history crashedRun).started.length ∧
        (∀ b, Home mkfsLog b → recoverFromLog mkfsLog s.disk b =
          applyUpdates ((history crashedRun).started.take k).flatten blankImage.disk b) ∧
        ∀ op, byOp op ((history crashedRun).started.take k).flatten =
            byOp op (history crashedRun).issued ∨
          byOp op ((history crashedRun).started.take k).flatten = [] := by
  have ran : ((machine mkfsLog).exec (start blankImage) crashedEvents).map
      (fun r => (r.1.map Prod.snd, ())) =
      some ([.silent, .silent, .silent, .silent, .silent, .started, .silent, .silent, .committed,
        .silent, .silent, .silent, .silent], ()) := by decide
  obtain ⟨s, run, -⟩ := Machine.run_of_obs (fun _ => ()) ran
  exact ⟨s, run, recoverFromLog_atomic run⟩

/-- The header that the crash left lists block 50, and the boot brings it home. -/
theorem recovers_crashedRun : ∃ s boot t, (machine mkfsLog).Run (start blankImage) crashedRun s ∧
    readHead (s.disk 2) = [50] ∧ (machine mkfsLog).Run (powerOn s.disk s.nextOp) boot t ∧
    t.pc = .idle ∧ t.disk = recoverFromLog mkfsLog s.disk := by
  have ran : ((machine mkfsLog).exec (start blankImage) crashedEvents).map
      (fun r => (r.1.map Prod.snd, readHead (r.2.disk 2))) =
      some ([.silent, .silent, .silent, .silent, .silent, .started, .silent, .silent, .committed,
        .silent, .silent, .silent, .silent], [50]) := by decide +kernel
  obtain ⟨s, run, head⟩ := Machine.run_of_obs (fun s : State => readHead (s.disk 2)) ran
  obtain ⟨-, -, -, boot, t, booted, -, idle, disk⟩ := recovers_of_run run
  exact ⟨s, boot, t, run, head, booted, idle, disk⟩

end Xv6.Kernel.Log
