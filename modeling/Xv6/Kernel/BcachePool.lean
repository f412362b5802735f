import Xv6.Kernel.Bcache
import Xv6.Lib.Tally

/-! # Who uses a buffer

The `refcnt` of a buffer counts the processes between `bget` and the end of `brelse`, and
one more while the log has pinned the buffer. `bget` takes a buffer for another block
only where it is 0, so the block of a buffer that is in use does not change.
-/

namespace Xv6.Kernel.Bcache

open Function

/-- How often a process is counted in the `refcnt` of `i`. -/
def Proc.uses (x : Proc) (i : Fin NBUF) : Nat :=
  x.held.count i + if x.call = some (.wait i) ∨ x.call = some (.put i) then 1 else 0

def Cache.users (c : Cache) (i : Fin NBUF) : Nat := ∑ p, (c.procs p).uses i

/-- How often the log is counted, when it has pinned the blocks `pinned`. -/
def Buf.pins (pinned : List Nat) (b : Buf) : Nat :=
  if b.dev = ROOTDEV ∧ b.blockno ∈ pinned then 1 else 0

/-- The cache while the log has pinned the blocks `pinned`. -/
structure Pool (pinned : List Nat) (c : Cache) : Prop where
  all : ∀ i, i ∈ c.lru
  unique : ∀ i j, (c.bufs i).dev ≠ 0 → (c.bufs i).id = (c.bufs j).id → i = j
  locked : ∀ i p, (c.bufs i).lock = some p ↔ i ∈ (c.procs p).held
  nodup : ∀ p, (c.procs p).held.Nodup
  count : ∀ i, (c.bufs i).refcnt = (c.users i + (c.bufs i).pins pinned : Nat)
  cached : ∀ b ∈ pinned, ∃ i, (c.bufs i).id = (ROOTDEV, b)

/-- What process `p` can do to the cache and to the pinned blocks. -/
inductive Act (p : Fin NPROC) (c : Cache) (pinned : List Nat) : Cache → List Nat → Obs → Prop where
  | hit {i} (idle : (c.procs p).call = none) : Act p c pinned
      ((c.setBuf i { c.bufs i with refcnt := (c.bufs i).refcnt + 1 }).setCall p (some (.wait i)))
      pinned .silent
  | recycle {i dev blockno} (idle : (c.procs p).call = none)
      (missing : ∀ j, (c.bufs j).id ≠ (dev, blockno)) (unused : (c.bufs i).refcnt = 0) :
      Act p c pinned ((c.setBuf i { c.bufs i with
        dev, blockno, valid := false, refcnt := 1 }).setCall p (some (.wait i))) pinned
        (.recycled i (c.bufs i).id)
  | read {i} (call : (c.procs p).call = some (.wait i)) (free : (c.bufs i).lock = none) :
      Act p c pinned ((c.setBuf i ((c.bufs i).read p c.disk)).setProc p
        { c.procs p with call := none, held := i :: (c.procs p).held }) pinned
        (.bread p ((c.bufs i).read p c.disk).id ((c.bufs i).read p c.disk).data)
  | release {i} (idle : (c.procs p).call = none) (mine : (c.bufs i).lock = some p)
      (logged : i ∉ (c.procs p).unlogged) :
      Act p c pinned ((c.setBuf i { c.bufs i with lock := none }).setProc p
        { c.procs p with call := some (.put i), held := (c.procs p).held.erase i }) pinned .silent
  | put {i} (call : (c.procs p).call = some (.put i)) : Act p c pinned (c.brelse p i) pinned .silent
  | store {i data} (mine : i ∈ (c.procs p).held) (root : (c.bufs i).dev = ROOTDEV) :
      Act p c pinned ((c.store i data).setProc p
        { c.procs p with unlogged := i :: (c.procs p).unlogged }) pinned
        (.stored (c.bufs i).id data)
  | copy {i data} (mine : i ∈ (c.procs p).held) (root : (c.bufs i).dev = ROOTDEV) :
      Act p c pinned { c.store i data with disk := update c.disk (c.bufs i).id data }
        pinned (.written (c.bufs i).id data)
  | pin {i} (mine : i ∈ (c.procs p).held) (root : (c.bufs i).dev = ROOTDEV)
      (fresh : (c.bufs i).blockno ∉ pinned) :
      Act p c pinned ((c.setProc p
        { c.procs p with unlogged := (c.procs p).unlogged.filter (· ≠ i) }).bpin i)
        (pinned ++ [(c.bufs i).blockno]) (.logged (c.bufs i).blockno true)
  | absorb {i} (mine : i ∈ (c.procs p).held) (root : (c.bufs i).dev = ROOTDEV)
      (known : (c.bufs i).blockno ∈ pinned) :
      Act p c pinned (c.setProc p
        { c.procs p with unlogged := (c.procs p).unlogged.filter (· ≠ i) })
        pinned (.logged (c.bufs i).blockno false)
  | unpin {i b rest} (block : (c.bufs i).id = (ROOTDEV, b)) (first : pinned = b :: rest)
      (once : b ∉ rest) : Act p c pinned (c.bunpin i) rest (.unpinned (c.bufs i).id)
  | mark {inOp} : Act p c pinned (c.setProc p { c.procs p with inOp }) pinned .silent
  | other {o} (quiet : o = .silent ∨ o = .cleared) : Act p c pinned c pinned o

section

variable {pinned pinned' : List Nat} {c c' : Cache} {p : Fin NPROC} {o : Obs}

@[simp] theorem Buf.read_lock (b : Buf) (disk : Disk) : (b.read p disk).lock = some p := by
  unfold Buf.read
  split <;> rfl

@[simp] theorem Buf.read_dev (b : Buf) (disk : Disk) : (b.read p disk).dev = b.dev := by
  unfold Buf.read
  split <;> rfl

@[simp] theorem Buf.read_blockno (b : Buf) (disk : Disk) : (b.read p disk).blockno = b.blockno := by
  unfold Buf.read
  split <;> rfl

@[simp] theorem Buf.read_id (b : Buf) (disk : Disk) : (b.read p disk).id = b.id := by
  simp [Buf.id]

@[simp] theorem Buf.read_refcnt (b : Buf) (disk : Disk) : (b.read p disk).refcnt = b.refcnt := by
  unfold Buf.read
  split <;> rfl

@[simp] theorem Buf.read_valid (b : Buf) (disk : Disk) : (b.read p disk).valid = true := by
  unfold Buf.read
  split <;> simp_all

namespace Cache

@[simp] theorem setBuf_bufs (c : Cache) (i j : Fin NBUF) (b : Buf) :
    (c.setBuf i b).bufs j = if j = i then b else c.bufs j := update_apply ..

@[simp] theorem setBuf_procs (c : Cache) (i : Fin NBUF) (b : Buf) :
    (c.setBuf i b).procs = c.procs := rfl

@[simp] theorem setBuf_lru (c : Cache) (i : Fin NBUF) (b : Buf) : (c.setBuf i b).lru = c.lru := rfl

@[simp] theorem setBuf_disk (c : Cache) (i : Fin NBUF) (b : Buf) :
    (c.setBuf i b).disk = c.disk := rfl

@[simp] theorem setProc_procs (c : Cache) (p q : Fin NPROC) (x : Proc) :
    (c.setProc p x).procs q = if q = p then x else c.procs q := update_apply ..

@[simp] theorem setProc_bufs (c : Cache) (p : Fin NPROC) (x : Proc) :
    (c.setProc p x).bufs = c.bufs := rfl

@[simp] theorem setProc_lru (c : Cache) (p : Fin NPROC) (x : Proc) :
    (c.setProc p x).lru = c.lru := rfl

@[simp] theorem setProc_disk (c : Cache) (p : Fin NPROC) (x : Proc) :
    (c.setProc p x).disk = c.disk := rfl

@[simp] theorem brelse_bufs (c : Cache) (p : Fin NPROC) (i : Fin NBUF) : (c.brelse p i).bufs =
      (c.setBuf i { c.bufs i with refcnt := (c.bufs i).refcnt - 1 }).bufs := by
  unfold brelse
  dsimp only
  split <;> rfl

@[simp] theorem brelse_procs (c : Cache) (p : Fin NPROC) (i : Fin NBUF) :
    (c.brelse p i).procs = (c.setCall p none).procs := by
  unfold brelse
  dsimp only
  split <;> rfl

@[simp] theorem brelse_disk (c : Cache) (p : Fin NPROC) (i : Fin NBUF) :
    (c.brelse p i).disk = c.disk := by
  unfold brelse
  dsimp only
  split <;> rfl

theorem mem_brelse_lru {c : Cache} {p : Fin NPROC} {i j : Fin NBUF} (inside : j ∈ c.lru) :
    j ∈ (c.brelse p i).lru := by
  unfold brelse
  dsimp only
  split
  · by_cases same : j = i
    · simp [same]
    · exact List.mem_cons_of_mem _ ((List.mem_erase_of_ne same).mpr inside)
  · exact inside

theorem setBuf_congr {α : Type} (f : Buf → α) {c : Cache} {i : Fin NBUF} {b : Buf}
    (same : f b = f (c.bufs i)) (j : Fin NBUF) : f ((c.setBuf i b).bufs j) = f (c.bufs j) := by
  rw [setBuf_bufs]
  split
  · rename_i here
    rw [here, same]
  · rfl

theorem setProc_congr {α : Type} (f : Proc → α) {c : Cache} {p : Fin NPROC} {x : Proc}
    (same : f x = f (c.procs p)) (q : Fin NPROC) :
    f ((c.setProc p x).procs q) = f (c.procs q) := by
  rw [setProc_procs]
  split
  · rename_i here
    rw [here, same]
  · rfl

end Cache

theorem Cache.users_setProc (c : Cache) (p : Fin NPROC) (x : Proc) (i : Fin NBUF) :
    (c.setProc p x).users i + (c.procs p).uses i = c.users i + x.uses i := by
  have moved := Lib.sum_update_add (fun (_ : Fin NPROC) (x : Proc) => x.uses i) c.procs p x
  exact moved

theorem Proc.uses_le_users (c : Cache) (p : Fin NPROC) (i : Fin NBUF) :
    (c.procs p).uses i ≤ c.users i := by
  have one := Finset.single_le_sum (f := fun p : Fin NPROC => (c.procs p).uses i)
    (fun _ _ => Nat.zero_le _) (Finset.mem_univ p)
  exact one

theorem Pool.users_le (pool : Pool pinned c) (i : Fin NBUF) : c.users i ≤ NPROC * 2 := by
  have each : ∀ p ∈ Finset.univ, (c.procs p).uses i ≤ 2 := by
    intro p _
    have := List.nodup_iff_count_le_one.mp (pool.nodup p) i
    unfold Proc.uses
    split <;> omega
  simpa [Cache.users] using Finset.sum_le_card_nsmul Finset.univ _ 2 each

theorem Pool.refcnt_toNat (pool : Pool pinned c) (i : Fin NBUF) :
    (c.bufs i).refcnt.toNat = c.users i + (c.bufs i).pins pinned := by
  have users := pool.users_le i
  have pins : (c.bufs i).pins pinned ≤ 1 := by
    unfold Buf.pins
    split <;> simp
  rw [pool.count, BitVec.natCast_eq_ofNat, BitVec.toNat_ofNat]
  simp only [NPROC] at users
  omega

theorem Pool.unused (pool : Pool pinned c) {i : Fin NBUF} (unused : (c.bufs i).refcnt = 0) :
    (∀ p, (c.procs p).uses i = 0) ∧ (c.bufs i).pins pinned = 0 := by
  have count := pool.refcnt_toNat i
  rw [unused] at count
  have zero : c.users i + (c.bufs i).pins pinned = 0 := count.symm
  refine ⟨fun p => ?_, by omega⟩
  have := Proc.uses_le_users c p i
  omega

section

variable (act : Act p c pinned c' pinned' o)
include act

/-- The block of a buffer changes only when the buffer is recycled. -/
theorem Act.id : (∀ j, (c'.bufs j).id = (c.bufs j).id) ∨
    ∃ i, (c.bufs i).refcnt = 0 ∧ (∀ j, (c.bufs j).id ≠ (c'.bufs i).id) ∧ pinned' = pinned ∧
      ∀ j, j ≠ i → c'.bufs j = c.bufs j := by
  cases act with
  | @recycle i dev blockno idle missing unused =>
    refine .inr ⟨i, unused, ?_, rfl, ?_⟩
    · simpa [Cache.setCall, Buf.id] using missing
    · intro j other
      simp [Cache.setCall, other]
  | hit | release | store | copy | pin | unpin => exact .inl (Cache.setBuf_congr Buf.id rfl)
  | read => exact .inl (Cache.setBuf_congr Buf.id (Buf.read_id ..))
  | put =>
    rw [Cache.brelse_bufs]
    exact .inl (Cache.setBuf_congr Buf.id rfl)
  | absorb | mark | other => exact .inl fun _ => rfl

theorem Act.unique (pool : Pool pinned c) (i j : Fin NBUF) (dev : (c'.bufs i).dev ≠ 0)
    (equal : (c'.bufs i).id = (c'.bufs j).id) : i = j := by
  rcases act.id with same | ⟨k, -, missing, -, others⟩
  · have dev' : (c.bufs i).id.1 ≠ 0 := same i ▸ dev
    rw [same, same] at equal
    exact pool.unique i j dev' equal
  · -- the new block of `k` is the block of no other buffer
    by_cases here : i = k <;> by_cases there : j = k
    · exact here.trans there.symm
    · rw [here, others j there] at equal
      exact absurd equal.symm (missing j)
    · rw [there, others i here] at equal
      exact absurd equal (missing i)
    · rw [others i here] at dev equal
      rw [others j there] at equal
      exact pool.unique i j dev equal

theorem Act.locked (pool : Pool pinned c) (i : Fin NBUF) (q : Fin NPROC) :
    (c'.bufs i).lock = some q ↔ i ∈ (c'.procs q).held := by
  have before := pool.locked i q
  have keeps : (c'.bufs i).lock = (c.bufs i).lock → (c'.procs q).held = (c.procs q).held →
      ((c'.bufs i).lock = some q ↔ i ∈ (c'.procs q).held) := by
    intro lock held
    rw [lock, held, before]
  cases act with
  | hit | recycle =>
    exact keeps (Cache.setBuf_congr Buf.lock (by rfl) i) (Cache.setProc_congr Proc.held (by rfl) q)
  | put =>
    refine keeps ?_ ?_
    · rw [Cache.brelse_bufs]
      exact Cache.setBuf_congr Buf.lock (by rfl) i
    · rw [Cache.brelse_procs]
      exact Cache.setProc_congr Proc.held (by rfl) q
  | store =>
    exact keeps (Cache.setBuf_congr Buf.lock (by rfl) i) (Cache.setProc_congr Proc.held (by rfl) q)
  | copy | unpin => exact keeps (Cache.setBuf_congr Buf.lock (by rfl) i) rfl
  | pin =>
    exact keeps (Cache.setBuf_congr Buf.lock (by rfl) i) (Cache.setProc_congr Proc.held (by rfl) q)
  | absorb | mark => exact keeps rfl (Cache.setProc_congr Proc.held (by rfl) q)
  | other => exact before
  | @read k call free =>
    have unlocked : ∀ q, k ∉ (c.procs q).held := by
      intro q inside
      rw [← pool.locked, free] at inside
      cases inside
    rw [Cache.setProc_bufs, Cache.setBuf_bufs, Cache.setProc_procs]
    by_cases here : i = k <;> by_cases self : q = p
    · simp [here, self]
    · rw [if_pos here, if_neg self, Buf.read_lock, here, Option.some.injEq]
      exact iff_of_false (Ne.symm self) (unlocked q)
    · rw [if_neg here, if_pos self, List.mem_cons, or_iff_right here, ← self, before]
    · rw [if_neg here, if_neg self]
      exact before
  | @release k idle mine =>
    have only : ∀ q, q ≠ p → k ∉ (c.procs q).held := by
      intro q other inside
      rw [← pool.locked, mine] at inside
      cases inside
      exact other rfl
    rw [Cache.setProc_bufs, Cache.setBuf_bufs, Cache.setProc_procs]
    by_cases here : i = k <;> by_cases self : q = p
    · simp [here, self, (pool.nodup p).mem_erase_iff]
    · simp [here, self, only q self]
    · simp [here, self, (pool.nodup p).mem_erase_iff, ← pool.locked]
    · rw [if_neg here, if_neg self]
      exact before

theorem Act.nodup (pool : Pool pinned c) (q : Fin NPROC) :
    (c'.procs q).held.Nodup := by
  have before := pool.nodup q
  have keeps : (c'.procs q).held = (c.procs q).held → (c'.procs q).held.Nodup := by
    intro held
    rwa [held]
  cases act with
  | hit | recycle | store | pin | absorb | mark =>
    exact keeps (Cache.setProc_congr Proc.held (by rfl) q)
  | put =>
    refine keeps ?_
    rw [Cache.brelse_procs]
    exact Cache.setProc_congr Proc.held (by rfl) q
  | copy | unpin | other => exact before
  | @read k call free =>
    have new : k ∉ (c.procs p).held := by
      rw [← pool.locked, free]
      simp
    rw [Cache.setProc_procs]
    split
    · exact List.nodup_cons.mpr ⟨new, pool.nodup p⟩
    · exact before
  | release =>
    rw [Cache.setProc_procs]
    split
    · exact (pool.nodup p).erase _
    · exact before

theorem Act.procs {q : Fin NPROC} (other : q ≠ p) :
    c'.procs q = c.procs q := by
  cases act with
  | put =>
    rw [Cache.brelse_procs]
    exact update_of_ne other ..
  | copy | unpin | other => rfl
  | _ => exact update_of_ne other ..

end

namespace Proc

variable {x : Proc} {i : Fin NBUF}

theorem uses_wait (idle : x.call = none) (j : Fin NBUF) :
    { x with call := some (.wait i) }.uses j = x.uses j + if j = i then 1 else 0 := by
  simp [uses, idle, eq_comm]

theorem uses_read (call : x.call = some (.wait i)) (j : Fin NBUF) :
    { x with call := none, held := i :: x.held }.uses j = x.uses j := by
  simp [uses, call, List.count_cons]

theorem uses_release (idle : x.call = none) (held : i ∈ x.held) (j : Fin NBUF) :
    { x with call := some (.put i), held := x.held.erase i }.uses j = x.uses j := by
  have pos := List.count_pos_iff.mpr held
  by_cases here : j = i
  · subst here
    simp [uses, idle, List.count_erase_self]
    omega
  · simp [uses, idle, List.count_erase_of_ne here, Ne.symm here]

theorem uses_put (call : x.call = some (.put i)) (j : Fin NBUF) :
    x.uses j = { x with call := none }.uses j + if j = i then 1 else 0 := by
  simp [uses, call, eq_comm]

end Proc

/-- The counters are right if the process, the log and the counters change alike. -/
theorem Pool.count_of_balance (pool : Pool pinned c)
    (others : ∀ q, q ≠ p → c'.procs q = c.procs q) (j : Fin NBUF)
    (balance : (c'.bufs j).refcnt + ((c.procs p).uses j + (c.bufs j).pins pinned : Nat) =
        (c.bufs j).refcnt + ((c'.procs p).uses j + (c'.bufs j).pins pinned' : Nat)) :
    (c'.bufs j).refcnt = (c'.users j + (c'.bufs j).pins pinned' : Nat) := by
  have procs : c'.procs = (c.setProc p (c'.procs p)).procs := by
    funext q
    rw [Cache.setProc_procs]
    split
    · rename_i self
      rw [self]
    · rename_i other
      exact others q other
  have moved : c'.users j + (c.procs p).uses j = c.users j + (c'.procs p).uses j := by
    rw [← c.users_setProc p (c'.procs p) j, Cache.users, Cache.users, ← procs]
  have moved := congrArg (Nat.cast (R := BitVec 32)) moved
  have count := pool.count j
  push_cast at moved balance count ⊢
  linear_combination balance + count - moved

theorem Pool.apart (pool : Pool pinned c) {i j : Fin NBUF} (other : j ≠ i)
    (root : (c.bufs i).dev = ROOTDEV) :
    ¬ ((c.bufs j).dev = ROOTDEV ∧ (c.bufs j).blockno = (c.bufs i).blockno) := by
  rintro ⟨dev, number⟩
  refine other (pool.unique j i ?_ ?_)
  · rw [dev]
    decide
  · rw [Buf.id, Buf.id, dev, root, number]

section

variable (act : Act p c pinned c' pinned' o) (pool : Pool pinned c)
include act pool

theorem Act.count (j : Fin NBUF) :
    (c'.bufs j).refcnt = (c'.users j + (c'.bufs j).pins pinned' : Nat) := by
  refine pool.count_of_balance (p := p) (fun q other => act.procs other) j ?_
  have same : (c'.bufs j).refcnt = (c.bufs j).refcnt →
      (c'.bufs j).pins pinned' = (c.bufs j).pins pinned →
      (c'.procs p).uses j = (c.procs p).uses j → (c'.bufs j).refcnt +
        ((c.procs p).uses j + (c.bufs j).pins pinned : Nat) =
          (c.bufs j).refcnt + ((c'.procs p).uses j + (c'.bufs j).pins pinned' : Nat) := by
    intro refcnt pins uses
    rw [refcnt, pins, uses]
  cases act with
  | @hit i idle =>
    simp only [Cache.setCall, Cache.setProc_procs, if_pos, Cache.setProc_bufs,
      Cache.setBuf_bufs, Cache.setBuf_procs, Proc.uses_wait idle]
    split
    · rename_i here
      subst here
      push_cast
      simp only [Buf.pins]
      ring
    · rfl
  | @recycle i dev blockno idle missing unused =>
    simp only [Cache.setCall, Cache.setProc_procs, if_pos, Cache.setProc_bufs,
      Cache.setBuf_bufs, Cache.setBuf_procs, Proc.uses_wait idle]
    split
    · rename_i here
      subst here
      -- the log pins no block that is not cached
      have new : ¬ (dev = ROOTDEV ∧ blockno ∈ pinned) := by
        rintro ⟨rfl, known⟩
        obtain ⟨k, block⟩ := pool.cached blockno known
        exact missing k block
      obtain ⟨uses, pins⟩ := pool.unused unused
      rw [pins, uses p, unused, Buf.pins, if_neg new]
      rfl
    · rfl
  | @put i call =>
    simp only [Cache.brelse_procs, Cache.brelse_bufs, Cache.setCall, Cache.setProc_procs, if_pos,
      Cache.setBuf_bufs, Proc.uses_put call j]
    split
    · rename_i here
      subst here
      push_cast
      simp only [Buf.pins]
      ring
    · rfl
  | read call =>
    refine same (Cache.setBuf_congr Buf.refcnt (Buf.read_refcnt ..) j)
      (Cache.setBuf_congr (Buf.pins pinned) (by simp [Buf.pins]) j) ?_
    rw [Cache.setProc_procs, if_pos rfl, Proc.uses_read call]
  | release idle mine =>
    refine same (Cache.setBuf_congr Buf.refcnt (by rfl) j)
      (Cache.setBuf_congr (Buf.pins pinned) (by rfl) j) ?_
    rw [Cache.setProc_procs, if_pos rfl, Proc.uses_release idle ((pool.locked _ p).mp mine)]
  | store =>
    exact same (Cache.setBuf_congr Buf.refcnt (by rfl) j)
      (Cache.setBuf_congr (Buf.pins pinned) (by rfl) j)
      (Cache.setProc_congr (Proc.uses · j) (by rfl) p)
  | copy =>
    exact same (Cache.setBuf_congr Buf.refcnt (by rfl) j)
      (Cache.setBuf_congr (Buf.pins pinned) (by rfl) j) rfl
  | absorb | mark => exact same rfl rfl (Cache.setProc_congr (Proc.uses · j) (by rfl) p)
  | other => exact same rfl rfl rfl
  | @pin i mine root fresh =>
    simp only [Cache.bpin, Cache.setProc_procs, if_pos, Cache.setProc_bufs, Cache.setBuf_bufs,
      Cache.setBuf_procs]
    split
    · rename_i here
      subst here
      have pins : (c.bufs j).pins pinned = 0 := if_neg fun known => fresh known.2
      have pins' : Buf.pins (pinned ++ [(c.bufs j).blockno]) { c.bufs j with
          refcnt := (c.bufs j).refcnt + 1 } = 1 := if_pos ⟨root, by simp⟩
      have moves : ∀ (r : BitVec 32) (n : Nat), r + 1 + (n + 0 : Nat) = r + (n + 1 : Nat) := by
        intro r n
        rw [Nat.add_zero, Nat.cast_succ]
        ring
      rw [pins, pins']
      exact moves _ _
    · rename_i other
      have pins : (c.bufs j).pins (pinned ++ [(c.bufs i).blockno]) = (c.bufs j).pins pinned := by
        have apart := pool.apart other root
        simp only [Buf.pins, List.mem_append, List.mem_singleton]
        grind
      rw [pins]
      rfl
  | @unpin i b rest block first once =>
    have root : (c.bufs i).dev = ROOTDEV := congrArg Prod.fst block
    have number : (c.bufs i).blockno = b := congrArg Prod.snd block
    simp only [Cache.bunpin, Cache.setBuf_bufs, Cache.setBuf_procs]
    split
    · rename_i here
      subst here
      have pins : (c.bufs j).pins pinned = 1 := if_pos ⟨root, by simp [first, number]⟩
      have pins' : Buf.pins pinned' { c.bufs j with refcnt := (c.bufs j).refcnt - 1 } = 0 :=
        if_neg fun known => once (number ▸ known.2)
      rw [pins, pins', Nat.cast_succ, add_comm (Nat.cast _), ← add_assoc, sub_add_cancel]
      rfl
    · rename_i other
      have pins : (c.bufs j).pins pinned = (c.bufs j).pins pinned' := by
        have apart := pool.apart other root
        rw [number] at apart
        simp only [Buf.pins, first, List.mem_cons]
        grind
      rw [pins]

theorem Act.cached {b : Nat} (known : b ∈ pinned') : ∃ i, (c'.bufs i).id = (ROOTDEV, b) := by
  have old : b ∈ pinned → ∃ i, (c'.bufs i).id = (ROOTDEV, b) := by
    intro known
    obtain ⟨i, block⟩ := pool.cached b known
    rcases act.id with same | ⟨k, unused, -, -, others⟩
    · exact ⟨i, (same i).trans block⟩
    · refine ⟨i, ?_⟩
      rw [others i, block]
      rintro rfl
      have root : (c.bufs i).dev = ROOTDEV := congrArg Prod.fst block
      have number : (c.bufs i).blockno = b := congrArg Prod.snd block
      obtain ⟨-, pins⟩ := pool.unused unused
      rw [Buf.pins, if_pos ⟨root, number.symm ▸ known⟩] at pins
      cases pins
  cases act with
  | @pin i mine root =>
    rcases List.mem_append.mp known with known | new
    · exact old known
    · refine ⟨i, ?_⟩
      rw [List.mem_singleton.mp new, ← root]
      exact Cache.setBuf_congr Buf.id (by rfl) i
  | unpin _ first => exact old (first ▸ List.mem_cons_of_mem _ known)
  | _ => exact old known

end

theorem Act.pool (act : Act p c pinned c' pinned' o) (pool : Pool pinned c) : Pool pinned' c' where
  all := by
    intro i
    have inside := pool.all i
    cases act with
    | put => exact Cache.mem_brelse_lru inside
    | _ => exact inside
  unique := act.unique pool
  locked := act.locked pool
  nodup := act.nodup pool
  count := act.count pool
  cached := fun _ known => act.cached pool known

end

end Xv6.Kernel.Bcache
