import Xv6.Kernel.Virtio

/-! # Descriptors

What `alloc3_desc`, `free_desc` and `free_chain` do to the descriptors of the disk, and
what a posted request looks like in memory.
-/

namespace Xv6.Kernel.Virtio

open Function

variable {idx : List Nat} {i : Nat}

/-- The descriptors `idx` are marked in use. -/
def claim (d : Disk) (idx : List Nat) : Disk :=
  { d with free := fun i => d.free i && decide (i ∉ idx) }

/-- `free_desc`, once its checks have passed. -/
def freed (d : Disk) (i : Nat) : Disk :=
  { d with desc := update d.desc i .zero, free := update d.free i true }

/-- The descriptors `idx` are zeroed and marked free. -/
def release (d : Disk) (idx : List Nat) : Disk :=
  { d with
    desc := fun i => if i ∈ idx then .zero else d.desc i
    free := fun i => d.free i || decide (i ∈ idx) }

theorem claim_nil (d : Disk) : claim d [] = d := by simp [claim]

theorem claim_append (d : Disk) (idx : List Nat) (i : Nat) :
    claim d (idx ++ [i]) = { claim d idx with free := update (claim d idx).free i false } := by
  simp only [claim, Disk.mk.injEq, true_and, and_true]
  funext j
  by_cases same : j = i
  · simp [same]
  · simp [same]

theorem release_nil (d : Disk) : release d [] = d := by simp [release]

theorem release_cons (d : Disk) (i : Nat) (idx : List Nat) :
    release (freed d i) idx = release d (i :: idx) := by
  simp only [release, freed, Disk.mk.injEq, true_and, and_true]
  constructor
  · funext j
    by_cases same : j = i
    · subst same
      simp
    · simp [same]
  · funext j
    by_cases same : j = i
    · subst same
      simp
    · simp [same]

/-- Taking descriptors and giving them back leaves at most other free ones. -/
theorem free_release_claim (free : ∀ i ∈ idx, d.free i = true) :
    (release (claim d idx) idx).free = d.free := by
  funext i
  by_cases inside : i ∈ idx
  · simp [release, inside, free i inside]
  · simp [release, claim, inside]

theorem allocDesc_some {d' : Disk} (got : allocDesc d = some (i, d')) :
    i < NUM ∧ d.free i = true ∧ d' = { d with free := update d.free i false } := by
  obtain ⟨j, found, same⟩ := Option.map_eq_some_iff.mp got
  obtain ⟨rfl, rfl⟩ := Prod.mk.inj same
  exact ⟨List.mem_range.mp (List.mem_of_find?_eq_some found), List.find?_some found, rfl⟩

theorem freeDesc_ok (inside : i < NUM) (taken : d.free i = false) :
    freeDesc d i = .ok (freed d i) := by
  rw [freeDesc, if_neg (by omega), if_neg (by simp [taken])]
  rfl

theorem foldlM_freeDesc (nodup : idx.Nodup) (inside : ∀ i ∈ idx, i < NUM)
    (taken : ∀ i ∈ idx, d.free i = false) :
    idx.foldlM freeDesc d = .ok (release d idx) := by
  induction idx generalizing d with
  | nil => rw [release_nil]; rfl
  | cons i idx ih =>
    obtain ⟨new, nodup⟩ := List.nodup_cons.mp nodup
    rw [List.foldlM_cons, freeDesc_ok (inside i (by simp)) (taken i (by simp)), ← release_cons]
    apply ih nodup (fun j among => inside j (by simp [among]))
    intro j among
    have other : j ≠ i := by
      rintro rfl
      exact new among
    simpa [freed, other] using taken j (by simp [among])

/-- What `alloc3_desc` does, seen from `d` before it has taken anything. -/
theorem allocLoop_spec (n : Nat) (d : Disk) (nodup : idx.Nodup) (inside : ∀ i ∈ idx, i < NUM)
    (free : ∀ i ∈ idx, d.free i = true) :
    ∃ idx', idx'.Nodup ∧ (∀ i ∈ idx', i < NUM) ∧ (∀ i ∈ idx', d.free i = true) ∧
      (allocLoop n idx (claim d idx) = .ok (none, release (claim d idx') idx') ∨
       allocLoop n idx (claim d idx) = .ok (some idx', claim d idx') ∧
        idx'.length = idx.length + n) := by
  induction n generalizing idx with
  | zero => exact ⟨idx, nodup, inside, free, .inr ⟨rfl, rfl⟩⟩
  | succ n ih =>
    rw [allocLoop]
    rcases got : allocDesc (claim d idx) with _ | ⟨i, d'⟩
    · refine ⟨idx, nodup, inside, free, .inl ?_⟩
      have taken : ∀ i ∈ idx, (claim d idx).free i = false := by
        intro i among
        simp [claim, among]
      simp only [foldlM_freeDesc nodup inside taken]
      rfl
    · obtain ⟨small, unused, rfl⟩ := allocDesc_some got
      simp only [claim, Bool.and_eq_true, decide_eq_true_eq] at unused
      have each {p : Nat → Prop} (old : ∀ j ∈ idx, p j) (new : p i) : ∀ j ∈ idx ++ [i], p j := by
        intro j among
        rcases List.mem_append.mp among with before | here
        · exact old j before
        · exact List.mem_singleton.mp here ▸ new
      have longer : (idx ++ [i]).Nodup := by
        rw [List.nodup_append_comm]
        exact List.nodup_cons.mpr ⟨unused.2, nodup⟩
      obtain ⟨idx', nodup', inside', free', outcome⟩ :=
        ih longer (each inside small) (each free unused.1)
      refine ⟨idx', nodup', inside', free', ?_⟩
      rw [claim_append, List.length_append, List.length_singleton, Nat.add_assoc,
        Nat.add_comm 1] at outcome
      exact outcome

theorem alloc3Desc_spec (d : Disk) :
    ∃ idx, idx.Nodup ∧ (∀ i ∈ idx, i < NUM) ∧ (∀ i ∈ idx, d.free i = true) ∧
      (alloc3Desc d = .ok (none, release (claim d idx) idx) ∨
       alloc3Desc d = .ok (some idx, claim d idx) ∧ idx.length = 3) := by
  obtain ⟨idx, nodup, inside, free, outcome⟩ := allocLoop_spec 3 d List.nodup_nil
    (by simp) (by simp)
  rw [claim_nil] at outcome
  exact ⟨idx, nodup, inside, free, outcome⟩

/-- A request of the call in memory. -/
structure Formed (d : Disk) (b : Buf) (req : Req) (c : Chain) : Prop where
  nodup : c.list.Nodup
  inside : ∀ i ∈ c.list, i < NUM
  taken : ∀ i ∈ c.list, d.free i = false
  first : d.desc c.i0 = ⟨.op c.i0, 16, VRING_DESC_F_NEXT, c.i1⟩
  second : (d.desc c.i1).addr = .data b ∧ (d.desc c.i1).flags &&& VRING_DESC_F_NEXT ≠ 0 ∧
    (d.desc c.i1).next = c.i2
  third : (d.desc c.i2).addr = .status c.i0 ∧ (d.desc c.i2).flags &&& VRING_DESC_F_NEXT = 0
  op : d.ops c.i0 = req
  info : (d.info c.i0).b = some b

variable {d d' : Disk} {b : Buf} {req : Req} {c : Chain}

theorem Formed.head_lt (formed : Formed d b req c) : c.i0 < NUM :=
  formed.inside c.i0 (by simp [Chain.list])

theorem Formed.congr (formed : Formed d b req c) (desc : ∀ i ∈ c.list, d'.desc i = d.desc i)
    (taken : ∀ i ∈ c.list, d'.free i = false) (op : d'.ops c.i0 = d.ops c.i0)
    (info : (d'.info c.i0).b = (d.info c.i0).b) : Formed d' b req c where
  nodup := formed.nodup
  inside := formed.inside
  taken := taken
  first := by rw [desc c.i0 (by simp [Chain.list]), formed.first]
  second := by rw [desc c.i1 (by simp [Chain.list])]; exact formed.second
  third := by rw [desc c.i2 (by simp [Chain.list])]; exact formed.third
  op := by rw [op, formed.op]
  info := by rw [info, formed.info]

theorem Chain.nodup_iff (c : Chain) : c.list.Nodup ↔ c.i0 ≠ c.i1 ∧ c.i0 ≠ c.i2 ∧ c.i1 ≠ c.i2 := by
  simp [Chain.list, and_assoc]

theorem formed_post (nodup : c.list.Nodup) (inside : ∀ i ∈ c.list, i < NUM)
    (taken : ∀ i ∈ c.list, d.free i = false) : Formed (post d b req c) b req c := by
  obtain ⟨ne01, ne02, ne12⟩ := c.nodup_iff.mp nodup
  refine ⟨nodup, inside, taken, ?_, ?_, ?_, ?_, ?_⟩
  · simp [post, ne01, ne02]
  · have next : ((if req.write then 0 else VRING_DESC_F_WRITE) ||| VRING_DESC_F_NEXT) &&&
        VRING_DESC_F_NEXT ≠ 0 := by
      split <;> decide
    simp only [post, update_of_ne ne12, update_self]
    exact ⟨trivial, next, trivial⟩
  · simp only [post, update_self]
    exact ⟨trivial, by decide⟩
  · simp [post]
  · simp [post]

theorem Formed.post (formed : Formed d b req c) {b' : Buf} {req' : Req} {c' : Chain}
    (apart : ∀ i ∈ c.list, i ∉ c'.list) : Formed (post d b' req' c') b req c := by
  have other {i j : Nat} (mine : i ∈ c.list) (theirs : j ∈ c'.list) : i ≠ j := by
    rintro rfl
    exact apart i mine theirs
  have head : c.i0 ≠ c'.i0 := other (by simp [Chain.list]) (by simp [Chain.list])
  refine formed.congr (fun i mine => ?_) formed.taken ?_ ?_
  · have ne0 := other mine (show c'.i0 ∈ c'.list by simp [Chain.list])
    have ne1 := other mine (show c'.i1 ∈ c'.list by simp [Chain.list])
    have ne2 := other mine (show c'.i2 ∈ c'.list by simp [Chain.list])
    simp [Virtio.post, ne0, ne1, ne2]
  · simp [Virtio.post, head]
  · simp [Virtio.post, head]

theorem freeChain_next (n : Nat) (inside : i < NUM) (taken : d.free i = false)
    (more : (d.desc i).flags &&& VRING_DESC_F_NEXT ≠ 0) :
    freeChain (n + 1) d i = freeChain n (freed d i) (d.desc i).next := by
  rw [freeChain, freeDesc_ok inside taken]
  exact if_pos more

theorem freeChain_last (n : Nat) (inside : i < NUM) (taken : d.free i = false)
    (last : (d.desc i).flags &&& VRING_DESC_F_NEXT = 0) :
    freeChain (n + 1) d i = .ok (freed d i) := by
  rw [freeChain, freeDesc_ok inside taken]
  exact if_neg (not_not.mpr last)

/-- `free_chain` gives back the three descriptors of a request. -/
theorem Formed.freeChain (formed : Formed d b req c) (desc : d'.desc = d.desc)
    (free : d'.free = d.free) (n : Nat) :
    freeChain (n + 3) d' c.i0 = .ok (release d' c.list) := by
  obtain ⟨ne01, ne02, ne12⟩ := c.nodup_iff.mp formed.nodup
  obtain ⟨-, inside, taken, first, second, third, -, -⟩ := formed
  rw [← desc] at first second third
  rw [← free] at taken
  simp only [Chain.list, List.mem_cons, List.not_mem_nil, or_false, forall_eq_or_imp,
    forall_eq] at inside taken
  have link0 : (d'.desc c.i0).flags &&& VRING_DESC_F_NEXT ≠ 0 := by
    rw [first]
    exact (by decide : VRING_DESC_F_NEXT &&& VRING_DESC_F_NEXT ≠ 0)
  have same1 : (freed d' c.i0).desc c.i1 = d'.desc c.i1 := by simp [freed, ne01.symm]
  have same2 : (freed (freed d' c.i0) c.i1).desc c.i2 = d'.desc c.i2 := by
    simp [freed, ne02.symm, ne12.symm]
  rw [freeChain_next _ inside.1 taken.1 link0, first]
  rw [freeChain_next _ inside.2.1 (by simp [freed, ne01.symm, taken.2.1])
    (same1 ▸ second.2.1), same1, second.2.2]
  rw [freeChain_last _ inside.2.2 (by simp [freed, ne02.symm, ne12.symm, taken.2.2])
    (same2 ▸ third.2)]
  rw [Chain.list, ← release_cons, ← release_cons, ← release_cons, release_nil]

theorem Formed.readChain (formed : Formed d b req c) :
    readChain d c.i0 = some ⟨c.i0, req, .data b, .status c.i0⟩ := by
  simp only [Virtio.readChain, formed.first, formed.second.1, formed.second.2.2, formed.third.1,
    formed.op]

end Xv6.Kernel.Virtio
