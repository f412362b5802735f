import Xv6.Kernel.LogCrash

/-! # Whether the log has room

`begin_op` reserves `MAXOPBLOCKS` blocks for each operation out of `LOGSIZE`;
`log_write` panics once `log.size - 1` blocks are in the transaction, before it
looks whether the block is one of them. With the log that `mkfs` makes the second
bound is one less than the first.
-/

namespace Xv6.Kernel.Log

open Lib

/-- No step of the run is a panic. -/
def NoPanic (tr : List (Event × Obs)) : Prop := ∀ x ∈ tr, ∀ message, x.2 ≠ .panic message

/-- The block numbers that a list of updates names. -/
def blocks (us : List Update) : Finset Nat := (us.map Update.block).toFinset

/-- Whenever `log_write` is called, the operations since the last commit have named
    fewer than `LOGSIZE - 1` different blocks. -/
def Fits (tr : List (Event × Obs)) : Prop :=
  ∀ pre op b data o, pre ++ [(.logWrite op b data, o)] <+: tr →
    (blocks (history pre).pending).card < LOGSIZE - 1

/-- Every operation of the run names at most `limit` different blocks. -/
def Disciplined (limit : Nat) (tr : List (Event × Obs)) : Prop :=
  ∀ op, (blocks (byOp op (history tr).issued)).card ≤ limit

variable {sb : Superblock} {img : Image sb} {tr : List (Event × Obs)} {s : State}

/-- While nobody commits, `log.lh.n` counts the blocks of the open transaction. -/
theorem length_eq_card {h : History} (inv : Invariant sb img.disk h s) (at_ : s.pc = .idle) :
    s.lh.length = (blocks h.pending).card := by
  have nodup := (inv.live (by simp [at_])).nodup
  simp only [at_, Pc.dirty] at nodup
  rw [← List.toFinset_card_of_nodup nodup]
  congr 1
  ext b
  rw [List.mem_toFinset, inv.recorded.listed (.inl at_) b, blocks, List.mem_toFinset]

/-- `log_write` panics exactly when the log is full, `end_op` never. -/
theorem panics_iff {h : History} {t : State} {e : Event} {o : Obs} (size : sb.nlog = LOGSIZE)
    (inv : Invariant sb img.disk h s) (moved : Trans sb s e t o) :
    (∃ message, o = .panic message) ↔
      ∃ op b data, e = .logWrite op b data ∧ LOGSIZE - 1 ≤ (blocks h.pending).card := by
  cases moved with
  | full inside _ full =>
    have full' : LOGSIZE - 1 ≤ s.lh.length := by omega
    rw [length_eq_card inv (inv.control.idle inside)] at full'
    simpa using full'
  | outside inside _ low =>
    have := inv.control.outstanding_pos inside
    omega
  | absorb inside _ _ room | append inside _ _ room =>
    have room' : s.lh.length < LOGSIZE - 1 := by omega
    rw [length_eq_card inv (inv.control.idle inside)] at room'
    refine iff_of_false (by simp) ?_
    rintro ⟨_, _, _, _, full⟩
    omega
  | endCommitting inside busy => simp [inv.control.quiet inside] at busy
  | _ => simp

/-- With the log of `mkfs`, no panic of `log_write` or `end_op` is reached in exactly
    the runs in which no transaction grows to `LOGSIZE - 1` blocks before its last
    `log_write`. -/
theorem noPanic_iff {img : Image mkfsLog} (run : (machine mkfsLog).Run (start img) tr s) :
    NoPanic tr ↔ Fits tr := by
  constructor
  · intro calm pre op b data o inside
    obtain ⟨more, whole⟩ := inside
    obtain ⟨u, after⟩ := (whole ▸ run).of_append
    obtain ⟨t, before, taken⟩ := after.last
    replace taken : step mkfsLog t (.logWrite op b data) = some (u, o) := taken
    by_contra full
    have panics := (panics_iff rfl (Invariant.run before) (step_trans taken)).mpr
      ⟨op, b, data, rfl, Nat.le_of_not_lt full⟩
    obtain ⟨message, rfl⟩ := panics
    exact calm (.logWrite op b data, .panic message) (by rw [← whole]; simp) message rfl
  · intro fits x member message panics
    obtain ⟨pre, more, whole⟩ := List.append_of_mem member
    have inside : pre ++ [x] <+: tr := ⟨more, by simp [whole]⟩
    obtain ⟨u, after⟩ := ((show pre ++ [x] ++ more = tr by simp [whole]) ▸ run).of_append
    obtain ⟨t, before, taken⟩ := after.last
    replace taken : step mkfsLog t x.1 = some (u, x.2) := taken
    obtain ⟨op, b, data, same, full⟩ := (panics_iff rfl (Invariant.run before)
      (step_trans taken)).mp ⟨message, panics⟩
    have room := fits pre op b data x.2 (by rw [← same]; exact inside)
    omega

/-! ## One block less per operation -/

/-- What operation `op` may still log if its limit is `limit`. -/
def allowance (limit : Nat) (h : History) (op : Nat) : Nat :=
  limit - (blocks (byOp op h.issued)).card

/-- The blocks in the transaction and those still allowed to it. -/
def claimed (limit : Nat) (h : History) (s : State) : Nat :=
  s.lh.length + (s.ops.map (allowance limit h)).sum

/-- With a limit one below `MAXOPBLOCKS`, what is claimed stays below `LOGSIZE - 1`. -/
structure Reserved (h : History) (s : State) : Prop where
  claimed : s.pc = .idle → claimed (MAXOPBLOCKS - 1) h s ≤ LOGSIZE - 2
  fresh : s.pc = .idle → s.ops = [] → s.lh = []

theorem issued_snoc (tr : List (Event × Obs)) (x : Event × Obs) :
    (history tr).issued <+: (history (tr ++ [x])).issued := by
  rw [history_snoc]
  obtain ⟨e, o⟩ := x
  cases e <;> cases o <;> simp [History.after]

theorem blocks_mono {us vs : List Update} (op : Nat) (grown : us <+: vs) :
    blocks (byOp op us) ⊆ blocks (byOp op vs) := by
  intro b
  obtain ⟨more, rfl⟩ := grown
  simp only [blocks, byOp_append, List.map_append, List.toFinset_append, Finset.mem_union]
  exact .inl

theorem Disciplined.init {limit : Nat} {x : Event × Obs}
    (disciplined : Disciplined limit (tr ++ [x])) : Disciplined limit tr :=
  fun op => (Finset.card_le_card (blocks_mono op (issued_snoc tr x))).trans (disciplined op)

theorem allowance_le (limit : Nat) (h : History) (op : Nat) : allowance limit h op ≤ limit :=
  Nat.sub_le _ _

theorem sum_allowance_le (limit : Nat) (h : History) (ops : List Nat) :
    (ops.map (allowance limit h)).sum ≤ ops.length * limit := by
  have bound := List.sum_le_card_nsmul (ops.map (allowance limit h)) limit (by
    intro n member
    obtain ⟨op, -, rfl⟩ := List.mem_map.mp member
    exact allowance_le limit h op)
  simpa using bound

/-- An operation that names a block it has not named before uses up its allowance. -/
theorem allowance_append {limit op b : Nat} {data : Block} {h h' : History}
    (issued : h'.issued = h.issued ++ [⟨op, b, data⟩]) (new : b ∉ blocks (byOp op h.issued))
    (disciplined : (blocks (byOp op h'.issued)).card ≤ limit) :
    allowance limit h' op < allowance limit h op := by
  have grown : blocks (byOp op h'.issued) = insert b (blocks (byOp op h.issued)) := by
    ext c
    simp [blocks, issued, byOp]
  have card := Finset.card_insert_of_notMem new
  rw [← grown] at card
  unfold allowance
  omega

namespace Reserved

variable {h h' : History} {t : State}

theorem busy (at_ : t.pc ≠ .idle) : Reserved h t :=
  ⟨fun idle => absurd idle at_, fun idle => absurd idle at_⟩

theorem keep {e : Event} {o : Obs} (reserved : Reserved h s) (inv : Invariant sb img.disk h s)
    (moves : Moves h h' e o) (moved : Trans sb s e t o)
    (disciplined : ∀ op, (blocks (byOp op h'.issued)).card ≤ MAXOPBLOCKS - 1) :
    Reserved h' t := by
  -- what the operations may still log never grows
  have shrinks (op : Nat) :
      allowance (MAXOPBLOCKS - 1) h' op ≤ allowance (MAXOPBLOCKS - 1) h op := by
    refine Nat.sub_le_sub_left (Finset.card_le_card (blocks_mono op ?_)) _
    rw [moves.issued]
    split
    · exact List.prefix_append _ _
    · exact List.prefix_rfl
  have sums (ops : List Nat) : (ops.map (allowance (MAXOPBLOCKS - 1) h')).sum ≤
      (ops.map (allowance (MAXOPBLOCKS - 1) h)).sum :=
    List.sum_le_sum fun op _ => shrinks op
  cases moved with
  | beginOp up quiet room =>
    constructor
    case claimed =>
      intro idle
      replace idle : s.pc = .idle := idle
      have old := sum_allowance_le (MAXOPBLOCKS - 1) h s.ops
      have now := sums (s.ops ++ [s.nextOp])
      have new := allowance_le (MAXOPBLOCKS - 1) h s.nextOp
      have count := inv.control.count (by simp [idle])
      simp only [List.map_append, List.map_cons, List.map_nil, List.sum_append, List.sum_cons,
        List.sum_nil] at now
      simp only [Log.claimed, List.map_append, List.map_cons, List.map_nil, List.sum_append,
        List.sum_cons, List.sum_nil]
      simp only [MAXOPBLOCKS, LOGSIZE] at *
      by_cases first : s.ops = []
      · have nothing := reserved.fresh idle first
        simp only [first, nothing, List.map_nil, List.sum_nil, List.length_nil] at *
        omega
      · have some_ := List.length_pos_iff.mpr first
        omega
    case fresh => simp
  | full | outside | endCommitting | endStart | endEmpty | write | written | head | install
  | installed | clear | boot | recover | recovered | crash => exact busy (by simp [powerOn])
  | absorb inside =>
    refine ⟨fun idle => Nat.le_trans ?_ (reserved.claimed idle), ?_⟩
    · exact Nat.add_le_add_left (sums _) _
    · exact fun _ none_ => absurd none_ (List.ne_nil_of_mem inside)
  | @append op b data inside home short room absent =>
    have idle := inv.control.idle inside
    refine ⟨fun _ => Nat.le_trans ?_ (reserved.claimed idle), ?_⟩
    · have new : b ∉ blocks (byOp op h.issued) := by
        -- an operation that may still log has all its blocks in the open transaction
        intro named
        apply absent
        rw [inv.recorded.listed (.inl idle)]
        cases inv.traced.fate op with
        | saved _ _ ended => exact absurd inside ended
        | lost _ _ ended => exact absurd inside ended
        | inflight _ all =>
          have counted := inv.recorded.counted
          simp only [idle, Counted] at counted
          rw [← all, History.inflight_eq counted, blocks, List.mem_toFinset] at named
          obtain ⟨u, member, rfl⟩ := List.mem_map.mp named
          exact List.mem_map_of_mem (List.mem_of_mem_filter member)
      have less := List.sum_lt_sum (allowance (MAXOPBLOCKS - 1) h') (allowance (MAXOPBLOCKS - 1) h)
        (fun op _ => shrinks op)
        ⟨op, inside, allowance_append moves.issued new (disciplined op)⟩
      simp only [Log.claimed, List.length_append, List.length_singleton]
      omega
    · exact fun _ none_ => absurd none_ (List.ne_nil_of_mem inside)
  | @endMore op inside _ more =>
    have idle := inv.control.idle inside
    refine ⟨fun _ => Nat.le_trans ?_ (reserved.claimed idle), fun _ none_ => ?_⟩
    · have split := List.sum_map_erase (allowance (MAXOPBLOCKS - 1) h) inside
      have now := sums (s.ops.erase op)
      simp only [Log.claimed]
      omega
    · have length := List.length_erase_of_mem inside
      have count := inv.control.count_of_mem inside
      have some_ := List.length_pos_of_mem inside
      rw [show s.ops.erase op = [] from none_, List.length_nil] at length
      omega
  | finish at_ =>
    have progress := (inv.live (by simp [at_])).progress
    simp only [Progress, at_] at progress
    have none_ := inv.control.ops_of_ne_idle (by simp [at_])
    exact ⟨fun _ => by simp [Log.claimed, none_, progress.2], fun _ _ => progress.2⟩
  | recoverClear at_ =>
    have none_ := inv.control.ops_of_ne_idle (by simp [at_])
    exact ⟨fun _ => by simp [Log.claimed, State.bwrite, none_], fun _ _ => rfl⟩
  | bread | evict =>
    refine ⟨fun idle => Nat.le_trans ?_ (reserved.claimed idle), reserved.fresh⟩
    exact Nat.add_le_add_left (sums _) _

theorem run (run : (machine sb).Run (start img) tr s)
    (disciplined : Disciplined (MAXOPBLOCKS - 1) tr) : Reserved (history tr) s := by
  refine run.always_invariant
    (fun tr s => Disciplined (MAXOPBLOCKS - 1) tr → Reserved (history tr) s) ?_ ?_ disciplined
  · exact fun _ => busy (by simp [start, powerOn])
  · intro pre u e o v before reserved taken disciplined
    replace taken : step sb u e = some (v, o) := taken
    have inv := Invariant.run before
    have moves := (inv.recorded.keep inv.control (step_trans taken)).1
    have limit : ∀ op, (blocks (byOp op ((history pre).after (e, o)).issued)).card ≤
        MAXOPBLOCKS - 1 := by
      rw [← history_snoc]
      exact disciplined
    rw [history_snoc]
    exact (reserved disciplined.init).keep inv moves (step_trans taken) limit

end Reserved

/-- Operations that name at most `MAXOPBLOCKS - 1` different blocks always fit. -/
theorem fits_of_disciplined (run : (machine sb).Run (start img) tr s)
    (disciplined : Disciplined (MAXOPBLOCKS - 1) tr) : Fits tr := by
  intro pre op b data o inside
  obtain ⟨more, whole⟩ := inside
  obtain ⟨u, after⟩ := (whole ▸ run).of_append
  obtain ⟨t, before, taken⟩ := after.last
  replace taken : step sb t (.logWrite op b data) = some (u, o) := taken
  have idle : t.pc = .idle := by
    have control := Control.run before
    simp only [step] at taken
    split at taken
    · exact control.idle ‹op ∈ t.ops ∧ _›.1
    · cases taken
  have earlier : Disciplined (MAXOPBLOCKS - 1) pre := by
    have all : ∀ more, Disciplined (MAXOPBLOCKS - 1) (pre ++ more) →
        Disciplined (MAXOPBLOCKS - 1) pre := by
      intro more
      induction more using List.reverseRecOn with
      | nil => simp
      | append_singleton more x ih =>
        rw [← List.append_assoc]
        exact fun disciplined => ih disciplined.init
    apply all ([(.logWrite op b data, o)] ++ more)
    rw [← List.append_assoc, whole]
    exact disciplined
  have small := (Reserved.run before earlier).claimed idle
  rw [← length_eq_card (Invariant.run before) idle]
  simp only [claimed, MAXOPBLOCKS, LOGSIZE] at small ⊢
  omega

/-- Operations that name one block less than `begin_op` reserves for them make neither
    `log_write` nor `end_op` panic. -/
theorem noPanic_of_disciplined {img : Image mkfsLog} (run : (machine mkfsLog).Run (start img) tr s)
    (disciplined : Disciplined (MAXOPBLOCKS - 1) tr) : NoPanic tr := by
  intro x member message panics
  obtain ⟨pre, more, rfl⟩ := List.append_of_mem member
  have inside : pre ++ [x] <+: pre ++ x :: more := ⟨more, by simp⟩
  obtain ⟨t, before⟩ := run.of_append
  obtain ⟨u, taken, -⟩ := run.step_of_prefix before inside
  obtain ⟨op, b, data, same, full⟩ := (panics_iff rfl (Invariant.run before)
    (step_trans taken)).mp ⟨message, panics⟩
  have room := fits_of_disciplined run disciplined pre op b data x.2 (same ▸ inside)
  omega

theorem disciplined_of_lt {limit n : Nat} (few : ∀ u ∈ (history tr).issued, u.op < n)
    (each : ∀ op < n, (blocks (byOp op (history tr).issued)).card ≤ limit) :
    Disciplined limit tr := by
  intro op
  by_cases known : op < n
  · exact each op known
  · have none_ : byOp op (history tr).issued = [] :=
      byOp_eq_nil fun u member same => known (same ▸ few u member)
    simp [none_, blocks]

/-- Two operations overlap; both log block 60. -/
def sharedEvents : List Event :=
  [.next, .next, .next, .beginOp, .beginOp, .logWrite 0 60 .zero, .logWrite 1 60 .zero,
    .logWrite 1 61 .zero, .endOp 0, .endOp 1]

def sharedRun : List (Event × Obs) :=
  sharedEvents.zip (List.replicate 9 .silent ++ [.started])

theorem disciplined_sharedRun : (∃ s, (machine mkfsLog).Run (start blankImage) sharedRun s) ∧
    Disciplined (MAXOPBLOCKS - 1) sharedRun := by
  have ran : ((machine mkfsLog).exec (start blankImage) sharedEvents).map
      (fun r => (r.1.map Prod.snd, ())) =
      some (List.replicate 9 .silent ++ [.started], ()) := by decide
  obtain ⟨s, run, -⟩ := Machine.run_of_obs (fun _ => ()) ran
  exact ⟨⟨s, run⟩, disciplined_of_lt (n := 2) (by decide) (by decide)⟩

theorem noPanic_sharedRun :
    (∃ s, (machine mkfsLog).Run (start blankImage) sharedRun s) ∧ NoPanic sharedRun := by
  obtain ⟨⟨s, run⟩, few⟩ := disciplined_sharedRun
  exact ⟨⟨s, run⟩, (noPanic_iff run).mpr (fits_of_disciplined run few)⟩

theorem noPanic_of_disciplined_sharedRun :
    Disciplined (MAXOPBLOCKS - 1) sharedRun ∧ NoPanic sharedRun := by
  obtain ⟨⟨s, run⟩, few⟩ := disciplined_sharedRun
  exact ⟨few, noPanic_of_disciplined run few⟩

/-- Three operations overlap, as `begin_op` allows, and log ten blocks each. -/
def fullEvents : List Event :=
  List.replicate 3 .next ++ List.replicate 3 .beginOp ++
    (List.range 30).map fun i => .logWrite (i / 10) (100 + i) .zero

def fullRun : List (Event × Obs) :=
  fullEvents.zip (List.replicate 35 .silent ++ [.panic "too big a transaction"])

theorem not_noPanic_fullRun :
    (∃ s, (machine mkfsLog).Run (start blankImage) fullRun s) ∧
      Disciplined MAXOPBLOCKS fullRun ∧ ¬ NoPanic fullRun := by
  have ran : ((machine mkfsLog).exec (start blankImage) fullEvents).map
      (fun r => (r.1.map Prod.snd, ())) =
      some (List.replicate 35 .silent ++ [.panic "too big a transaction"], ()) := by decide
  obtain ⟨s, run, -⟩ := Machine.run_of_obs (fun _ => ()) ran
  refine ⟨⟨s, run⟩, disciplined_of_lt (n := 3) (by decide) (by decide), fun calm => ?_⟩
  exact calm (.logWrite 2 129 .zero, .panic "too big a transaction")
    (List.mem_of_getElem? (i := 35) rfl) _ rfl

end Xv6.Kernel.Log
