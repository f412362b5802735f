import Xv6.Kernel.BcacheRuns

/-! # The supply of buffers

`bget` panics ("bget: no buffers") when the block is not cached and every buffer is in
use. There are `NBUF` buffers for `NPROC` processes and the log, and only the log has an
admission test: `begin_op` keeps the pinned blocks below `LOGSIZE`, and nothing limits
the processes that read. So the panic is met exactly where `NBUF` buffers are in use.
-/

namespace Xv6.Kernel.Bcache

open Log (Superblock)

/-- The block that `commit` asks `bget` for at `pc`. -/
def Pc.wants (sb : Superblock) (lh : List Nat) : Pc → Option Nat
  | .writeLog tail | .installTrans tail =>
      if tail < lh.length then some (sb.logstart + tail + 1) else none
  | .writeLogFrom tail | .installDst tail => lh[tail]?
  | .writeHead _ => some sb.logstart
  | _ => none

/-- The process that calls `bget` in the step `e`, and the block it asks for. -/
def State.wants (sb : Superblock) (s : State) : Event → Option (Fin NPROC × Id)
  | .bread p dev blockno => if s.Free p then some (p, dev, blockno) else none
  | .go p =>
      match (s.cache.procs p).call, s.commit with
      | none, some (q, pc) =>
          if q = p then (pc.wants sb s.lh).map fun b => (p, ROOTDEV, b) else none
      | _, _ => none
  | _ => none

/-- The step `e` is a call of `bget` that panics. -/
def NoBuffers (sb : Superblock) (s : State) (e : Event) : Prop :=
  ∃ p id, s.wants sb e = some (p, id) ∧ s.cache.bget p id.1 id.2 = none

/-- A process waits for the buffer, holds it or is giving it back, or the log has
    pinned it. -/
def State.InUse (s : State) (i : Fin NBUF) : Prop :=
  (∃ p, i ∈ (s.cache.procs p).held ∨ (s.cache.procs p).call = some (.wait i) ∨
    (s.cache.procs p).call = some (.put i)) ∨
  ((s.cache.bufs i).dev = ROOTDEV ∧ (s.cache.bufs i).blockno ∈ s.pinned)

instance (s : State) : DecidablePred s.InUse := fun _ => inferInstanceAs (Decidable (_ ∨ _))

/-- A call of `bget` in the step `e` finds the block in a buffer, or fewer than `NBUF`
    buffers in use. -/
def Supplied (sb : Superblock) (s : State) (e : Event) : Prop :=
  ∀ p id, s.wants sb e = some (p, id) →
    (∃ i, (s.cache.bufs i).id = id) ∨ (Finset.univ.filter s.InUse).card < NBUF

/-- The process that calls `bget` in the step `e` holds at most one other buffer. -/
def TwoLocks (sb : Superblock) (s : State) (e : Event) : Prop :=
  ∀ x ∈ s.wants sb e, (s.cache.procs x.1).held.length ≤ 1

instance (sb : Superblock) (s : State) (e : Event) : Decidable (TwoLocks sb s e) :=
  inferInstanceAs (Decidable (∀ _ ∈ _, _))

section

variable {sb : Superblock} {disk : Disk} {tr : List (Event × Obs)} {s : State} {e : Event}

theorem Cache.bget_eq_none_iff {pinned : List Nat} {c : Cache} (pool : Pool pinned c)
    (p : Fin NPROC) (dev blockno : Nat) : c.bget p dev blockno = none ↔
      (∀ i, (c.bufs i).id ≠ (dev, blockno)) ∧ ∀ i, (c.bufs i).refcnt ≠ 0 := by
  have every : ∀ i, i ∈ c.lru := pool.all
  unfold Cache.bget
  split
  · rename_i i found
    have same := List.find?_some found
    simp only [decide_eq_true_eq] at same
    simp only [reduceCtorEq, false_iff, not_and]
    intro missing
    exact absurd (Prod.ext same.1 same.2) (missing i)
  · rename_i missing
    simp only [List.find?_eq_none, decide_eq_true_eq] at missing
    have away : ∀ i, (c.bufs i).id ≠ (dev, blockno) := by
      intro i same
      exact missing i (every i) (Prod.mk.inj same)
    split
    · rename_i i found
      have unused := List.find?_some found
      simp only [decide_eq_true_eq] at unused
      simp only [reduceCtorEq, false_iff, not_and, not_forall, not_not]
      exact fun _ => ⟨i, unused⟩
    · rename_i busy
      simp only [List.find?_eq_none, List.mem_reverse, decide_eq_true_eq] at busy
      simp only [true_iff]
      exact ⟨away, fun i => busy i (every i)⟩

theorem Proc.uses_eq_zero_iff (x : Proc) (i : Fin NBUF) :
    x.uses i = 0 ↔ ¬ (i ∈ x.held ∨ x.call = some (.wait i) ∨ x.call = some (.put i)) := by
  unfold Proc.uses
  split <;> simp_all [List.count_eq_zero]

theorem refcnt_eq_zero_iff (pool : Pool s.pinned s.cache) (i : Fin NBUF) :
    (s.cache.bufs i).refcnt = 0 ↔ ¬ s.InUse i := by
  have count := pool.refcnt_toNat i
  have users : s.cache.users i = 0 ↔ ∀ p, (s.cache.procs p).uses i = 0 := by
    simp [Cache.users, Finset.sum_eq_zero_iff]
  have zero : (s.cache.bufs i).refcnt = 0 ↔ (s.cache.bufs i).refcnt.toNat = 0 := by
    rw [← BitVec.toNat_inj]
    rfl
  rw [zero, count, Nat.add_eq_zero_iff, users, State.InUse, not_or, not_exists]
  refine and_congr (forall_congr' fun p => Proc.uses_eq_zero_iff _ i) ?_
  simp [Buf.pins]

theorem all_inUse_iff : (∀ i, s.InUse i) ↔ ¬ (Finset.univ.filter s.InUse).card < NBUF := by
  have most : (Finset.univ.filter s.InUse).card ≤ NBUF := by
    simpa using Finset.card_filter_le (Finset.univ : Finset (Fin NBUF)) s.InUse
  have full : (Finset.univ.filter s.InUse).card = NBUF ↔ ∀ i, s.InUse i := by
    have whole := @Finset.card_filter_eq_iff _ (Finset.univ : Finset (Fin NBUF)) s.InUse _
    simpa using whole
  rw [← full]
  omega

theorem not_noBuffers_iff (run : (machine sb).Run (start disk) tr s) :
    ¬ NoBuffers sb s e ↔ Supplied sb s e := by
  have pool : Pool s.pinned s.cache := (inv_run run).pool
  simp only [NoBuffers, not_exists, not_and, Supplied]
  refine forall_congr' fun p => forall_congr' fun id => imp_congr_right fun _ => ?_
  rw [Cache.bget_eq_none_iff pool, not_and_or]
  simp only [ne_eq, refcnt_eq_zero_iff pool, not_not, all_inUse_iff, not_forall]

end

/-- `n` processes outside transactions each read a block of their own. -/
def readers (n : Nat) : List Event :=
  ((List.finRange NPROC).take n).map fun p => .bread p ROOTDEV (100 + p)

/-- With one buffer left, one more reader is served. -/
theorem not_noBuffers_readers : ∃ tr s, tr.map Prod.fst = readers 29 ∧
    (machine ⟨30, 2, by decide⟩).Run (start fun _ => Block.zero) tr s ∧
    ¬ NoBuffers ⟨30, 2, by decide⟩ s (.bread ⟨29, by decide⟩ ROOTDEV 129) := by
  have ran : ((machine ⟨30, 2, by decide⟩).exec (start fun _ => Block.zero) (readers 29)).any
      (fun r => (Finset.univ.filter r.2.InUse).card < NBUF) = true := by decide +kernel
  obtain ⟨⟨tr, s⟩, done, left⟩ := (Option.any_eq_true ..).mp ran
  have run := Lib.Machine.exec_run done
  refine ⟨tr, s, Lib.Machine.exec_events done, run, ?_⟩
  exact (not_noBuffers_iff run).mpr fun p id wants => .inr (by simpa using left)

/-- Thirty processes hold a buffer each, none is pinned, and the next reader panics. -/
theorem noBuffers_readers : ∃ tr s, tr.map Prod.fst = readers 30 ∧
    (machine ⟨30, 2, by decide⟩).Run (start fun _ => Block.zero) tr s ∧
    (machine ⟨30, 2, by decide⟩).Throughout (start fun _ => Block.zero) tr
      (TwoLocks ⟨30, 2, by decide⟩) ∧
    s.lh = [] ∧ TwoLocks ⟨30, 2, by decide⟩ s (.bread ⟨30, by decide⟩ ROOTDEV 130) ∧
    NoBuffers ⟨30, 2, by decide⟩ s (.bread ⟨30, by decide⟩ ROOTDEV 130) := by
  have ran : ((machine ⟨30, 2, by decide⟩).exec (start fun _ => Block.zero) (readers 30)).any
      (fun r => r.2.lh = [] ∧ (r.2.cache.bget ⟨30, by decide⟩ ROOTDEV 130).isNone ∧
        r.2.Free ⟨30, by decide⟩ ∧
        TwoLocks ⟨30, 2, by decide⟩ r.2 (.bread ⟨30, by decide⟩ ROOTDEV 130)) = true := by
    decide +kernel
  have locks : (machine ⟨30, 2, by decide⟩).allows
      (fun s e => decide (TwoLocks ⟨30, 2, by decide⟩ s e)) (start fun _ => Block.zero)
      (readers 30) = true := by decide +kernel
  obtain ⟨⟨tr, s⟩, done, seen⟩ := (Option.any_eq_true ..).mp ran
  simp only [Option.isNone_iff_eq_none, decide_eq_true_eq] at seen
  obtain ⟨empty, nothing, free, two⟩ := seen
  have events := Lib.Machine.exec_events done
  refine ⟨tr, s, events, Lib.Machine.exec_run done, ?_, empty, two, ?_⟩
  · have all := Lib.Machine.throughout_of_allows (events ▸ locks)
    simpa only [decide_eq_true_eq] using all
  · exact ⟨_, (ROOTDEV, 130), by simp [State.wants, free], nothing⟩

end Xv6.Kernel.Bcache
