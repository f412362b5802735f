import Xv6.Kernel.BcachePool

/-! # What the buffers hold

The contents of a block are what was last stored in a buffer of it. A valid buffer holds
the contents of its block, and so does the disk, unless the block was changed after it
was last written: then a process still has its buffer locked, or the log has pinned it.
-/

namespace Xv6.Kernel.Bcache

open Function

/-- The contents after the step. -/
def Obs.change (contents : Disk) : Obs → Disk
  | .stored id data | .written id data => update contents id data
  | _ => contents

/-- The blocks that were changed and not written since. -/
def Obs.mark (pending : Id → Bool) : Obs → Id → Bool
  | .stored id _ => update pending id true
  | .written id _ => update pending id false
  | _ => pending

/-- The buffers and the disk, for the contents of all blocks and the blocks pending. -/
structure Holds (contents : Disk) (pending : Id → Bool) (pinned : List Nat) (c : Cache) :
    Prop where
  data : ∀ i, (c.bufs i).valid = true → (c.bufs i).data = contents (c.bufs i).id
  disk : ∀ id, pending id = false → c.disk id = contents id
  dirty : ∀ id, pending id = true → id.1 = ROOTDEV ∧ ∃ i, (c.bufs i).id = id ∧
    (c.bufs i).valid = true ∧ (id.2 ∈ pinned ∨ ∃ p, i ∈ (c.procs p).unlogged)
  unlogged : ∀ p i, i ∈ (c.procs p).unlogged → i ∈ (c.procs p).held
  valid : ∀ p i, i ∈ (c.procs p).held → (c.bufs i).valid = true

section

variable {contents : Disk} {pending : Id → Bool} {pinned pinned' : List Nat} {c c' : Cache}
  {p : Fin NPROC} {o : Obs}

theorem Buf.read_data (b : Buf) (disk : Disk) :
    (b.read p disk).data = if b.valid then b.data else disk b.id := by
  unfold Buf.read
  split <;> rfl

/-- What the proofs below need of a buffer. -/
def Buf.view (b : Buf) : Id × Bool × Block := (b.id, b.valid, b.data)

/-- Only a buffer of the block itself makes the block pending. -/
theorem Holds.pending_buf (holds : Holds contents pending pinned c) (pool : Pool pinned c)
    {i : Fin NBUF} (changed : pending (c.bufs i).id = true) : (c.bufs i).valid = true ∧
      ((c.bufs i).pins pinned = 1 ∨ ∃ p, i ∈ (c.procs p).unlogged) := by
  obtain ⟨root, j, block, valid, why⟩ := holds.dirty _ changed
  obtain rfl : i = j := by
    refine pool.unique i j ?_ block.symm
    rw [show (c.bufs i).dev = ROOTDEV from root]
    decide
  refine ⟨valid, why.imp (fun known => ?_) fun unlogged => unlogged⟩
  exact if_pos ⟨root, known⟩

theorem Pool.uses_pos {i : Fin NBUF} (held : i ∈ (c.procs p).held) : 0 < (c.procs p).uses i :=
  Nat.add_pos_left (List.count_pos_iff.mpr held) _

/-- A buffer that `bget` may take has nothing that is not on the disk. -/
theorem Holds.not_pending (holds : Holds contents pending pinned c) (pool : Pool pinned c)
    {i : Fin NBUF} (unused : (c.bufs i).refcnt = 0) : pending (c.bufs i).id = false := by
  by_contra changed
  obtain ⟨uses, pins⟩ := pool.unused unused
  obtain ⟨-, pinned | ⟨p, unlogged⟩⟩ := holds.pending_buf pool (eq_true_of_ne_false changed)
  · rw [pins] at pinned
    cases pinned
  · have := Pool.uses_pos (holds.unlogged p i unlogged)
    have := uses p
    omega

section

variable (act : Act p c pinned c' pinned' o)
include act

theorem Act.data (pool : Pool pinned c) (holds : Holds contents pending pinned c) (j : Fin NBUF)
    (valid : (c'.bufs j).valid = true) :
    (c'.bufs j).data = o.change contents (c'.bufs j).id := by
  have before := holds.data j
  have same : (c'.bufs j).view = (c.bufs j).view → (c'.bufs j).data = contents (c'.bufs j).id := by
    intro view
    simp only [Buf.view, Prod.mk.injEq] at view
    obtain ⟨id, valid', data⟩ := view
    rw [data, id]
    exact before (valid' ▸ valid)
  have apart : ∀ {i}, (c.bufs i).dev = ROOTDEV → j ≠ i → (c.bufs j).id ≠ (c.bufs i).id := by
    intro i root other block
    exact other (pool.unique i j (by rw [root]; decide) block.symm).symm
  cases act with
  | hit | release | pin | unpin => exact same (Cache.setBuf_congr Buf.view (by rfl) j)
  | absorb | mark => exact same rfl
  | other quiet =>
    rcases quiet with rfl | rfl <;> exact same rfl
  | put =>
    refine same ?_
    rw [Cache.brelse_bufs]
    exact Cache.setBuf_congr Buf.view (by rfl) j
  | @recycle i dev blockno idle missing unused =>
    simp only [Cache.setCall, Cache.setProc_bufs, Cache.setBuf_bufs] at valid ⊢
    split at valid
    · cases valid
    · rename_i other
      rw [if_neg other]
      exact before valid
  | @read i call free =>
    by_cases here : j = i
    · subst here
      simp only [Cache.setProc_bufs, Cache.setBuf_bufs, if_pos, Buf.read_data, Buf.read_id,
        Obs.change]
      split
      · rename_i valid'
        exact before valid'
      · rename_i invalid
        -- what is not in the buffer is on the disk
        refine holds.disk _ ?_
        by_contra changed
        exact invalid (holds.pending_buf pool (eq_true_of_ne_false changed)).1
    · refine same ?_
      rw [Cache.setProc_bufs, Cache.setBuf_bufs, if_neg here]
  | @store i data mine root | @copy i data mine root =>
    by_cases here : j = i
    · subst here
      simp [Cache.store, Obs.change, Buf.id]
    · simp only [Cache.store, Cache.setProc_bufs, Cache.setBuf_bufs, if_neg here, Obs.change]
        at valid ⊢
      rw [update_of_ne (apart root here)]
      exact before valid

theorem Act.disk (holds : Holds contents pending pinned c) (id : Id)
    (written : o.mark pending id = false) :
    c'.disk id = o.change contents id := by
  cases act with
  | hit | recycle | read | release | pin | absorb | mark | unpin => exact holds.disk id written
  | put =>
    rw [Cache.brelse_disk]
    exact holds.disk id written
  | other quiet =>
    rcases quiet with rfl | rfl <;> exact holds.disk id written
  | @store i data mine root =>
    by_cases here : id = (c.bufs i).id
    · rw [here, Obs.mark, update_self] at written
      cases written
    · rw [Obs.mark, update_of_ne here] at written
      rw [Obs.change, update_of_ne here]
      exact holds.disk id written
  | @copy i data mine root =>
    by_cases here : id = (c.bufs i).id
    · simp [here, Obs.change]
    · rw [Obs.mark, update_of_ne here] at written
      rw [Obs.change, update_of_ne here]
      simp only [update_of_ne here]
      exact holds.disk id written

theorem Act.unlogged (holds : Holds contents pending pinned c) (q : Fin NPROC) (i : Fin NBUF)
    (unlogged : i ∈ (c'.procs q).unlogged) : i ∈ (c'.procs q).held := by
  have before := holds.unlogged q i
  by_cases self : q = p
  · subst self
    cases act with
    | hit | recycle | mark =>
      simp only [Cache.setCall, Cache.setProc_procs, if_pos] at unlogged ⊢
      exact before unlogged
    | put =>
      simp only [Cache.brelse_procs, Cache.setCall, Cache.setProc_procs, if_pos] at unlogged ⊢
      exact before unlogged
    | read =>
      simp only [Cache.setProc_procs, if_pos] at unlogged ⊢
      exact List.mem_cons_of_mem _ (before unlogged)
    | release _ _ logged =>
      simp only [Cache.setProc_procs, if_pos] at unlogged ⊢
      refine (List.mem_erase_of_ne ?_).mpr (before unlogged)
      rintro rfl
      exact logged unlogged
    | store mine =>
      simp only [Cache.store, Cache.setProc_procs, if_pos, List.mem_cons] at unlogged ⊢
      rcases unlogged with rfl | unlogged
      · exact mine
      · exact before unlogged
    | pin | absorb =>
      simp only [Cache.bpin, Cache.setBuf_procs, Cache.setProc_procs, if_pos, List.mem_filter]
        at unlogged ⊢
      exact before unlogged.1
    | copy | unpin | other => exact before unlogged
  · rw [act.procs self] at unlogged ⊢
    exact before unlogged

/-- A valid buffer that is in use stays valid, and the buffer of its block. -/
theorem Act.keeps {j : Fin NBUF} (used : (c.bufs j).refcnt ≠ 0) (valid : (c.bufs j).valid = true) :
    (c'.bufs j).id = (c.bufs j).id ∧ (c'.bufs j).valid = true := by
  have same : (c'.bufs j).id = (c.bufs j).id → (c'.bufs j).valid = (c.bufs j).valid →
      (c'.bufs j).id = (c.bufs j).id ∧ (c'.bufs j).valid = true :=
    fun id valid' => ⟨id, valid'.trans valid⟩
  cases act with
  | hit | release | pin | unpin | store | copy =>
    exact same (Cache.setBuf_congr Buf.id (by rfl) j) (Cache.setBuf_congr Buf.valid (by rfl) j)
  | absorb | mark | other => exact same rfl rfl
  | put =>
    rw [Cache.brelse_bufs] at same ⊢
    exact same (Cache.setBuf_congr Buf.id (by rfl) j) (Cache.setBuf_congr Buf.valid (by rfl) j)
  | @recycle i dev blockno idle missing unused =>
    have other : j ≠ i := by
      rintro rfl
      exact used unused
    simp only [Cache.setCall, Cache.setProc_bufs, Cache.setBuf_bufs, if_neg other]
    exact ⟨trivial, valid⟩
  | read =>
    simp only [Cache.setProc_bufs, Cache.setBuf_bufs]
    split
    · rename_i here
      subst here
      simp
    · exact ⟨rfl, valid⟩

end

theorem Pool.used_of_held (pool : Pool pinned c) {i : Fin NBUF} (held : i ∈ (c.procs p).held) :
    (c.bufs i).refcnt ≠ 0 := by
  intro unused
  have pos := uses_pos held
  rw [(pool.unused unused).1 p] at pos
  exact absurd pos (by simp)

section

variable (act : Act p c pinned c' pinned' o)
include act

theorem Act.valid (pool : Pool pinned c) (holds : Holds contents pending pinned c)
    (q : Fin NPROC) (i : Fin NBUF) (held : i ∈ (c'.procs q).held) : (c'.bufs i).valid = true := by
  have old : i ∈ (c.procs q).held → (c'.bufs i).valid = true := fun held =>
    (act.keeps (pool.used_of_held held) (holds.valid q i held)).2
  by_cases self : q = p
  · subst self
    cases act with
    | hit | recycle | store | pin | absorb | mark =>
      simp only [Cache.setCall, Cache.bpin, Cache.setBuf_procs, Cache.setProc_procs, if_pos]
        at held
      exact old held
    | put =>
      simp only [Cache.brelse_procs, Cache.setCall, Cache.setProc_procs, if_pos] at held
      exact old held
    | copy | unpin | other => exact old held
    | @read k call free =>
      rw [Cache.setProc_procs, if_pos rfl] at held
      rcases List.mem_cons.mp held with rfl | held
      · simp
      · exact old held
    | release =>
      rw [Cache.setProc_procs, if_pos rfl] at held
      exact old (List.mem_of_mem_erase held)
  · rw [act.procs self] at held
    exact old held

/-- A change is unlogged until `log_write` pins its block. -/
theorem Act.logs {q : Fin NPROC} {i : Fin NBUF} (unlogged : i ∈ (c.procs q).unlogged) :
    i ∈ (c'.procs q).unlogged ∨
      (c.bufs i).blockno ∈ pinned' ∧ ∃ pin, o = .logged (c.bufs i).blockno pin := by
  by_cases self : q = p
  · subst self
    cases act with
    | hit | recycle | read | release | mark =>
      refine .inl ?_
      simp only [Cache.setCall, Cache.setProc_procs, if_pos]
      exact unlogged
    | put =>
      refine .inl ?_
      simp only [Cache.brelse_procs, Cache.setCall, Cache.setProc_procs, if_pos]
      exact unlogged
    | copy | unpin | other => exact .inl unlogged
    | store =>
      refine .inl ?_
      simp only [Cache.setProc_procs, if_pos]
      exact List.mem_cons_of_mem _ unlogged
    | @pin k =>
      by_cases here : i = k
      · subst here
        exact .inr ⟨by simp, _, rfl⟩
      · refine .inl ?_
        simp only [Cache.bpin, Cache.setBuf_procs, Cache.setProc_procs, if_pos]
        simpa using ⟨unlogged, here⟩
    | @absorb k _ _ known =>
      by_cases here : i = k
      · subst here
        exact .inr ⟨known, _, rfl⟩
      · refine .inl ?_
        simp only [Cache.setProc_procs, if_pos]
        simpa using ⟨unlogged, here⟩
  · rw [act.procs self]
    exact .inl unlogged

theorem Act.pinned_or {b : Nat} (known : b ∈ pinned) :
    b ∈ pinned' ∨ pinned = b :: pinned' := by
  cases act with
  | pin => exact .inl (List.mem_append_left _ known)
  | unpin _ first =>
    rw [first] at known
    rcases List.mem_cons.mp known with rfl | known
    · exact .inr first
    · exact .inl known
  | _ => exact .inl known

theorem Act.dirty (pool : Pool pinned c)
    (clean : ∀ b, pinned = b :: pinned' → pending (ROOTDEV, b) = false)
    (holds : Holds contents pending pinned c) (id : Id) (changed : o.mark pending id = true) :
    id.1 = ROOTDEV ∧ ∃ i, (c'.bufs i).id = id ∧ (c'.bufs i).valid = true ∧
      (id.2 ∈ pinned' ∨ ∃ p, i ∈ (c'.procs p).unlogged) := by
  have old : pending id = true → id.1 = ROOTDEV ∧ ∃ i, (c'.bufs i).id = id ∧
      (c'.bufs i).valid = true ∧ (id.2 ∈ pinned' ∨ ∃ p, i ∈ (c'.procs p).unlogged) := by
    intro changed
    obtain ⟨root, i, rfl, valid, why⟩ := holds.dirty id changed
    have used : (c.bufs i).refcnt ≠ 0 := by
      intro unused
      rw [holds.not_pending pool unused] at changed
      cases changed
    obtain ⟨same, valid'⟩ := act.keeps used valid
    refine ⟨root, i, same, valid', ?_⟩
    rcases why with known | ⟨q, unlogged⟩
    · rcases act.pinned_or known with known' | first
      · exact .inl known'
      · have written := clean _ first
        rw [show (ROOTDEV, (c.bufs i).id.2) = (c.bufs i).id from Prod.ext root.symm rfl,
          changed] at written
        cases written
    · exact (act.logs unlogged).symm.imp (fun logged => logged.1) fun unlogged => ⟨q, unlogged⟩
  cases act with
  | @store i data mine root =>
    by_cases here : id = (c.bufs i).id
    · subst here
      refine ⟨root, i, Cache.setBuf_congr Buf.id (by rfl) i, ?_, .inr ⟨p, ?_⟩⟩
      · exact (Cache.setBuf_congr Buf.valid (by rfl) i).trans (holds.valid p i mine)
      · simp
    · rw [Obs.mark, update_of_ne here] at changed
      exact old changed
  | @copy i data mine root =>
    by_cases here : id = (c.bufs i).id
    · rw [here, Obs.mark, update_self] at changed
      cases changed
    · rw [Obs.mark, update_of_ne here] at changed
      exact old changed
  | other quiet =>
    rcases quiet with rfl | rfl <;> exact old changed
  | _ => exact old changed

theorem Act.holds (pool : Pool pinned c)
    (clean : ∀ b, pinned = b :: pinned' → pending (ROOTDEV, b) = false)
    (holds : Holds contents pending pinned c) :
    Holds (o.change contents) (o.mark pending) pinned' c' where
  data := act.data pool holds
  disk := act.disk holds
  dirty := act.dirty pool clean holds
  unlogged := act.unlogged holds
  valid := act.valid pool holds

end

end

end Xv6.Kernel.Bcache
