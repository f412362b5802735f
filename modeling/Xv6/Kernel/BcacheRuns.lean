import Xv6.Kernel.BcacheHome

/-! # Runs of the buffer cache

What `bread` returns, which buffers `bget` recycles and how the log pins its blocks, in
terms of what has happened so far in a run.
-/

namespace Xv6.Kernel.Bcache

open Log (Superblock)

/-- What was last stored in each block. -/
def contents (disk : Disk) (tr : List (Event × Obs)) : Disk :=
  tr.foldl (fun c x => x.2.change c) disk

/-- The blocks that were changed and not written since. -/
def pending (tr : List (Event × Obs)) : Id → Bool :=
  tr.foldl (fun p x => x.2.mark p) fun _ => false

def Obs.clears : Obs → Bool
  | .cleared => true
  | _ => false

def Obs.logs (b : Nat) : Obs → Bool
  | .logged b' _ => b' == b
  | _ => false

def Obs.pins (b : Nat) : Obs → Bool
  | .logged b' true => b' == b
  | _ => false

def Obs.unpins (b : Nat) : Obs → Bool
  | .unpinned id => id == (ROOTDEV, b)
  | _ => false

/-- The steps since `log.lh.n` was last set to 0. -/
def since (tr : List (Event × Obs)) : List (Event × Obs) :=
  tr.foldl (fun l x => if x.2.clears then [] else l ++ [x]) []

/-- How often the log has pinned block `b`, and how often it has unpinned it. -/
def pinsOf (b : Nat) (tr : List (Event × Obs)) : Nat := tr.countP (·.2.pins b)

def unpinsOf (b : Nat) (tr : List (Event × Obs)) : Nat := tr.countP (·.2.unpins b)

/-- Whether `log_write` was called for block `b`. -/
def logged (b : Nat) (tr : List (Event × Obs)) : Bool := tr.any (·.2.logs b)

/-- The cache is coherent with the disk and with the log. -/
structure Coherent (sb : Superblock) (disk : Disk) (tr : List (Event × Obs)) : Prop where
  /-- No block is in two buffers. -/
  unique : (machine sb).Always (start disk) tr fun _ s => ∀ i j,
    (s.cache.bufs i).dev ≠ 0 → (s.cache.bufs i).id = (s.cache.bufs j).id → i = j
  /-- A buffer that was changed is written before it is recycled. -/
  recycled : ∀ pre e id data mid e' i,
    pre ++ (e, .stored id data) :: (mid ++ [(e', .recycled i id)]) <+: tr →
    ∃ e'' data', (e'', .written id data') ∈ mid
  /-- What is written home is what was last stored, if only `commit` uses the log's blocks. -/
  home : ∀ pre e b data, pre ++ [(e, .written (ROOTDEV, b) data)] <+: tr → 0 < sb.nlog →
    (∀ x ∈ pre, x.2.Outside sb) → Outside sb b → data = contents disk pre (ROOTDEV, b)
  /-- Until the log is cleared, each logged block is pinned once and unpinned once. -/
  pinned : ∀ pre e, pre ++ [(e, .cleared)] <+: tr → ∀ b,
    pinsOf b (since pre) = (if logged b (since pre) then 1 else 0) ∧
      unpinsOf b (since pre) = if logged b (since pre) then 1 else 0
  /-- Otherwise `refcnt` counts the users of the buffer. -/
  refcnt : (machine sb).Always (start disk) tr fun pre s => ∀ i,
    (s.cache.bufs i).refcnt.toNat = s.cache.users i +
      if (s.cache.bufs i).dev = ROOTDEV then
        pinsOf (s.cache.bufs i).blockno (since pre) - unpinsOf (s.cache.bufs i).blockno (since pre)
      else 0
  /-- `bread` returns what was last stored. -/
  fresh : ∀ pre e p id data, pre ++ [(e, .bread p id data)] <+: tr → data = contents disk pre id

section

variable {sb : Superblock} {disk : Disk} {tr : List (Event × Obs)} {s s' : State} {e : Event}
  {o : Obs}

@[simp] theorem contents_append (x : Event × Obs) :
    contents disk (tr ++ [x]) = x.2.change (contents disk tr) := by
  simp [contents]

@[simp] theorem pending_append (x : Event × Obs) : pending (tr ++ [x]) = x.2.mark (pending tr) := by
  simp [pending]

@[simp] theorem since_append (x : Event × Obs) :
    since (tr ++ [x]) = if x.2.clears then [] else since tr ++ [x] := by
  simp [since]

theorem logged_append (b : Nat) (x : Event × Obs) :
    logged b (tr ++ [x]) = (logged b tr || x.2.logs b) := by
  simp [logged]

theorem pinsOf_append (b : Nat) (x : Event × Obs) :
    pinsOf b (tr ++ [x]) = pinsOf b tr + if x.2.pins b then 1 else 0 := by
  simp [pinsOf, List.countP_cons]

theorem unpinsOf_append (b : Nat) (x : Event × Obs) :
    unpinsOf b (tr ++ [x]) = unpinsOf b tr + if x.2.unpins b then 1 else 0 := by
  simp [unpinsOf, List.countP_cons]

theorem inv_start (sb : Superblock) (disk : Disk) : Inv sb disk (fun _ => false) (start disk) := by
  have users : ∀ i, (start disk).cache.users i = 0 := fun i =>
    Finset.sum_eq_zero fun _ _ => by simp [start, Proc.uses]
  refine .of_idle rfl ?_ ?_ .nil
  · refine ⟨?_, ?_, ?_, ?_, ?_, ?_⟩
    · simp [start]
    · simp [start]
    · simp [start]
    · simp [start]
    · intro i
      rw [users]
      simp [start, Buf.pins]
    · simp [start]
  · refine ⟨?_, ?_, ?_, ?_, ?_⟩ <;> simp [start]

theorem inv_run (run : (machine sb).Run (start disk) tr s) :
    Inv sb (contents disk tr) (pending tr) s := by
  refine run.always_invariant (fun tr s => Inv sb (contents disk tr) (pending tr) s)
    (inv_start sb disk) ?_
  intro pre u e o v earlier inv taken
  simpa using (inv.step taken).2

/-- What the log has done since it was last cleared. -/
structure Counted (tr : List (Event × Obs)) (s : State) : Prop where
  logged : ∀ b, logged b (since tr) = decide (b ∈ s.lh)
  pins : ∀ b, pinsOf b (since tr) = if b ∈ s.lh then 1 else 0
  unpins : ∀ b, unpinsOf b (since tr) = if b ∈ s.lh ∧ b ∉ s.pinned then 1 else 0

theorem State.pinned_subset (s : State) : s.pinned ⊆ s.lh := by
  unfold State.pinned
  split
  · exact fun _ inside => inside
  · exact List.drop_subset _ _

theorem counted_step (inv : Inv sb (contents disk tr) (pending tr) s) (counted : Counted tr s)
    (taken : step sb s e = some (s', o)) : Counted (tr ++ [(e, o)]) s' := by
  obtain ⟨⟨p, act⟩, inv'⟩ := inv.step taken
  obtain ⟨lh, -⟩ := step_log taken
  have nodup := inv'.nodup
  have subset := s.pinned_subset
  have loud : o.clears = false → (∀ b, (decide (b ∈ s.lh) || o.logs b) = decide (b ∈ s'.lh)) →
      (∀ b, (if b ∈ s.lh then 1 else 0) + (if o.pins b then 1 else 0) =
        if b ∈ s'.lh then 1 else 0) →
      (∀ b, (if b ∈ s.lh ∧ b ∉ s.pinned then 1 else 0) + (if o.unpins b then 1 else 0) =
        if b ∈ s'.lh ∧ b ∉ s'.pinned then 1 else 0) → Counted (tr ++ [(e, o)]) s' := by
    intro clears logs pins unpins
    have longer : since (tr ++ [(e, o)]) = since tr ++ [(e, o)] := by simp [clears]
    refine ⟨fun b => ?_, fun b => ?_, fun b => ?_⟩
    · rw [longer, logged_append, counted.logged, logs]
    · rw [longer, pinsOf_append, counted.pins, pins]
    · rw [longer, unpinsOf_append, counted.unpins, unpins]
  -- a step that the log takes no part in
  have same : o.log s.lh = s.lh → s'.pinned = s.pinned → o.clears = false →
      (∀ b, o.logs b = false ∧ o.pins b = false ∧ o.unpins b = false) →
      Counted (tr ++ [(e, o)]) s' := by
    intro log pinned clears plain
    rw [log] at lh
    refine loud clears ?_ ?_ ?_ <;> intro b <;> simp [plain b, lh, pinned]
  generalize after : s'.pinned = pinned' at act
  generalize s'.cache = c' at act
  cases act with
  | hit | recycle | read | release | put | store | copy | mark =>
    exact same rfl after rfl fun b => ⟨rfl, rfl, rfl⟩
  | other quiet =>
    rcases quiet with rfl | rfl
    · exact same rfl after rfl fun b => ⟨rfl, rfl, rfl⟩
    · have none : s'.lh = [] := lh
      refine ⟨fun b => ?_, fun b => ?_, fun b => ?_⟩ <;>
        simp [Bcache.logged, pinsOf, unpinsOf, Obs.clears, none]
  | @pin i mine root fresh =>
    have lh : s'.lh = s.lh ++ [(s.cache.bufs i).blockno] := lh
    have new : (s.cache.bufs i).blockno ∉ s.lh := fun inside => by
      rw [lh] at nodup
      exact (List.nodup_append.mp nodup).2.2 _ inside _ (by simp) rfl
    refine loud rfl ?_ ?_ ?_
    · grind [Obs.logs]
    · grind [Obs.pins]
    · grind [Obs.unpins]
  | @absorb i mine root known =>
    have lh : s'.lh = s.lh := lh
    have known := subset known
    refine loud rfl ?_ ?_ ?_
    · grind [Obs.logs]
    · grind [Obs.pins]
    · grind [Obs.unpins]
  | @unpin i b rest block first once =>
    have lh : s'.lh = s.lh := lh
    have known : b ∈ s.lh := subset (by simp [first])
    rw [block] at loud ⊢
    refine loud rfl ?_ ?_ ?_
    · grind [Obs.logs]
    · grind [Obs.pins]
    · grind [Obs.unpins]

theorem counted_run (run : (machine sb).Run (start disk) tr s) : Counted tr s := by
  refine run.always_invariant (fun tr s => Counted tr s) ?_ ?_
  · refine ⟨?_, ?_, ?_⟩ <;> simp [Bcache.logged, pinsOf, unpinsOf, since, start]
  · exact fun _ _ _ _ _ earlier counted taken => counted_step (inv_run earlier) counted taken

/-! ## Coherence -/

/-- A block that is changed is pending until it is written. -/
theorem pending_of_stored {id : Id} {data : Block} (pre mid : List (Event × Obs))
    (unwritten : ∀ e data, (e, .written id data) ∉ mid) :
    pending (pre ++ (e, .stored id data) :: mid) id = true := by
  induction mid using List.reverseRecOn with
  | nil => simp [Obs.mark]
  | append_singleton mid last ih =>
    obtain ⟨e', o'⟩ := last
    have earlier := ih fun e data inside => unwritten e data (List.mem_append_left _ inside)
    rw [← List.cons_append, ← List.append_assoc, pending_append]
    cases o' with
    | stored id' data' =>
      by_cases same : id = id'
      · simp [Obs.mark, same]
      · simpa [Obs.mark, Function.update_of_ne same] using earlier
    | written id' data' =>
      have apart : id ≠ id' := by
        rintro rfl
        exact unwritten e' data' (by simp)
      simpa [Obs.mark, Function.update_of_ne apart] using earlier
    | _ => exact earlier

theorem not_pending_of_recycled (inv : Inv sb (contents disk tr) (pending tr) s) {i : Fin NBUF}
    {id : Id} (taken : step sb s e = some (s', .recycled i id)) : pending tr id = false := by
  obtain ⟨⟨p, act⟩, -⟩ := inv.step taken
  generalize s'.pinned = pinned' at act
  generalize s'.cache = c' at act
  cases act with
  | recycle idle missing unused => exact inv.holds.not_pending inv.pool unused
  | other quiet => simp at quiet

theorem fresh_of_bread (inv : Inv sb (contents disk tr) (pending tr) s) {p : Fin NPROC} {id : Id}
    {data : Block} (taken : step sb s e = some (s', .bread p id data)) :
    data = contents disk tr id := by
  obtain ⟨⟨p, act⟩, -⟩ := inv.step taken
  have holds := act.data inv.pool inv.holds
  generalize s'.pinned = pinned' at act
  generalize s'.cache = c' at act holds
  cases act with
  | @read i call free => simpa [Obs.change] using holds i
  | other quiet => simp at quiet

theorem copied_run (run : (machine sb).Run (start disk) tr s) (log : 0 < sb.nlog)
    (leaves : ∀ x ∈ tr, x.2.Outside sb) : Copied sb (contents disk tr) s := by
  refine run.always_invariant
    (fun tr s => (∀ x ∈ tr, x.2.Outside sb) → Copied sb (contents disk tr) s) ?_ ?_ leaves
  · exact fun _ => ⟨by simp [start], log, by simp [start]⟩
  · intro pre u e o v earlier copied taken leaves
    rw [contents_append]
    exact (copied fun x inside => leaves x (List.mem_append_left _ inside)).step (inv_run earlier)
      taken (leaves (e, o) (by simp))

theorem coherent_of_run (run : (machine sb).Run (start disk) tr s) : Coherent sb disk tr where
  unique := fun _ _ _ reached => (inv_run reached).pool.unique
  recycled := by
    intro pre e id data mid e' i inside
    by_contra unwritten
    push Not at unwritten
    have shape : pre ++ (e, .stored id data) :: (mid ++ [(e', .recycled i id)]) =
        (pre ++ (e, .stored id data) :: mid) ++ [(e', .recycled i id)] := by simp
    rw [shape] at inside
    obtain ⟨more, rfl⟩ := inside
    obtain ⟨v, after⟩ := run.of_append
    obtain ⟨u, before, taken⟩ := after.last
    have changed : pending (pre ++ (e, .stored id data) :: mid) id = true :=
      pending_of_stored pre mid unwritten
    rw [not_pending_of_recycled (inv_run before) taken] at changed
    cases changed
  home := by
    intro pre e b data inside log leaves outside
    obtain ⟨more, rfl⟩ := inside
    obtain ⟨v, after⟩ := run.of_append
    obtain ⟨u, before, taken⟩ := after.last
    exact (copied_run before log leaves).written (inv_run before) taken outside
  pinned := by
    intro pre e inside b
    obtain ⟨more, rfl⟩ := inside
    obtain ⟨v, after⟩ := run.of_append
    obtain ⟨u, before, taken⟩ := after.last
    have counted := counted_run before
    have none : u.pinned = [] := (step_log taken).2 rfl
    simp [counted.logged, counted.pins, counted.unpins, none]
  refcnt := by
    intro pre u inside before i
    have counted := counted_run before
    rw [(inv_run before).pool.refcnt_toNat, counted.pins, counted.unpins, Buf.pins]
    have subset := @u.pinned_subset (u.cache.bufs i).blockno
    congr 1
    split <;> split <;> grind
  fresh := by
    intro pre e p id data inside
    obtain ⟨more, rfl⟩ := inside
    obtain ⟨v, after⟩ := run.of_append
    obtain ⟨u, before, taken⟩ := after.last
    exact fresh_of_bread (inv_run before) taken

end

/-- One process changes a block, logs it and commits. -/
def commitRun : List Event :=
  let p : Fin NPROC := ⟨0, NPROC_pos⟩
  let i : Fin NBUF := ⟨0, NBUF_pos⟩
  [.beginOp p, .bread p ROOTDEV 45, .go p, .store p i Block.zero, .logWrite p i, .brelse p i, .go p,
    .endOp p] ++ List.replicate 32 (.go p)

theorem coherent_commitRun : ∃ tr s,
    (machine ⟨30, 2, by decide⟩).Run (start fun _ => Block.zero) tr s ∧
    tr.map Prod.fst = commitRun ∧ s.lh = [] ∧
    Coherent ⟨30, 2, by decide⟩ (fun _ => Block.zero) tr := by
  have ran : ((machine ⟨30, 2, by decide⟩).exec (start fun _ => Block.zero) commitRun).any
      (fun r => r.2.lh = []) = true := by decide +kernel
  obtain ⟨⟨tr, s⟩, done, empty⟩ := (Option.any_eq_true ..).mp ran
  have run := Lib.Machine.exec_run done
  exact ⟨tr, s, run, Lib.Machine.exec_events done, by simpa using empty, coherent_of_run run⟩

end Xv6.Kernel.Bcache
