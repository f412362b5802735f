import Xv6.Kernel.PageOwners

/-! # What copyout may write

`copyout` finds a page with `walkaddr`, which asks for `PTE_V` and `PTE_U` but not for
`PTE_W`. So the kernel writes for a process to pages that the process itself may only
read, such as its text.
-/

namespace Xv6.Kernel

open Lib

/-- User code reaches `va`, through the entry `pte`. -/
def UserMapped (mem : Bytes) (root va pte : Nat) : Prop :=
  va < MAXVA ∧ translate mem va 2 root = some pte ∧ pte &&& PTE_U ≠ 0

/-- Address `a` of physical memory lies in a page that user code can write. -/
def UserWritable (mem : Bytes) (root a : Nat) : Prop :=
  ∃ va pte, UserMapped mem root va pte ∧ pte &&& PTE_W ≠ 0 ∧
    pte2pa pte ≤ a ∧ a < pte2pa pte + PGSIZE

/-- `copyout` changes only what user code can write. -/
def CopyoutConfined (k : KState) (root dstva : Nat) (src : Bytes) (len : Nat) : Prop :=
  ∃ r k', copyout root dstva src len k = .ok (r, k') ∧
    ∀ a, k'.mem a ≠ k.mem a → UserWritable k.mem root a

/-- Of the bytes up to the first that user code does not reach, those in pages it cannot
    write have the value already that they are to get. -/
def SparesReadOnly (k : KState) (root dstva : Nat) (src : Bytes) (len : Nat) : Prop :=
  ∀ i pte, i < len → (∀ j ≤ i, ∃ pte, UserMapped k.mem root (dstva + j) pte) →
    UserMapped k.mem root (dstva + i) pte →
    pte &&& PTE_W ≠ 0 ∨ k.mem (pte2pa pte + (dstva + i) % PGSIZE) = src i

section

variable {L : Layout} {k k' : KState} {free : List Nat} {t : Tree} {root va pte : Nat}

section

variable (ok : Holds L k free (treePages t)) (table : Table k.mem root t)
include ok table

theorem userMapped_iff :
    UserMapped k.mem root va pte ↔
      va < MAXVA ∧ leafAt t (vpn va) = some ⟨pte, true⟩ ∧ pte &&& PTE_U ≠ 0 := by
  obtain ⟨⟨c, rfl⟩, stored⟩ := table
  have found := translate_eq va stored.2 fun m mem => ok.held_page mem
  rw [UserMapped, found, Option.map_eq_some_iff]
  constructor
  · rintro ⟨low, ⟨x, some_, rfl⟩, user⟩
    have mine := isUser_of_flag ⟨⟨c, rfl⟩, stored⟩ some_ user
    exact ⟨low, by rw [leafAt, some_, ← mine], user⟩
  · rintro ⟨low, some_, user⟩
    exact ⟨low, ⟨_, some_, rfl⟩, user⟩

theorem reach_of_userMapped (mapped : UserMapped k.mem root va pte) :
    reach t va = pte2pa pte ∧ reach t va ≠ 0 := by
  obtain ⟨low, some_, user⟩ := (userMapped_iff ok table).mp mapped
  have same := reach_mapped low some_ user
  exact ⟨same, same ▸ (leaf_page ok some_ rfl).ne_zero⟩

theorem userMapped_of_reach (nonzero : reach t va ≠ 0) : ∃ pte, UserMapped k.mem root va pte := by
  rw [reach] at nonzero
  cases some_ : leafAt t (vpn va) with
  | none => simp [some_] at nonzero
  | some x =>
    simp only [some_, ne_eq, ite_eq_left_iff, not_or, Classical.not_imp] at nonzero
    obtain ⟨⟨low, user⟩, -⟩ := nonzero
    have mine := isUser_of_flag table some_ user
    refine ⟨x.pte, (userMapped_iff ok table).mpr ⟨Nat.not_le.mp low, ?_, user⟩⟩
    rw [some_, ← mine]

theorem reached_iff {dstva i : Nat} :
    Reached (reach t) dstva i ↔ ∀ j ≤ i, ∃ pte, UserMapped k.mem root (dstva + j) pte := by
  constructor
  · exact fun reached j small => userMapped_of_reach ok table (reached j small)
  · intro mapped j small
    obtain ⟨pte, mapped⟩ := mapped j small
    exact (reach_of_userMapped ok table mapped).2

/-- A page that is mapped at one address is writable there, if it is writable at all. -/
theorem writable_of_physical (mapped : UserMapped k.mem root va pte)
    (writable : UserWritable k.mem root (pte2pa pte + va % PGSIZE)) : pte &&& PTE_W ≠ 0 := by
  obtain ⟨va', pte', mapped', write, low, high⟩ := writable
  obtain ⟨low_, some_, -⟩ := (userMapped_iff ok table).mp mapped
  obtain ⟨low', some', -⟩ := (userMapped_iff ok table).mp mapped'
  have aligned : pte2pa pte % PGSIZE = 0 := (leaf_page ok some_ rfl).aligned
  have aligned' : pte2pa pte' % PGSIZE = 0 := (leaf_page ok some' rfl).aligned
  have pages : pte2pa pte = pte2pa pte' := by
    unfold PGSIZE at *
    omega
  have keys := Radix.key_unique (m := pte2pa pte) (by decide) ok.held_nodup some_ some'
    (by simp [Leaf.pages]) (by simp [Leaf.pages, pages])
  have same : vpn va = vpn va' := by
    unfold vpn PGSIZE MAXVA at *
    omega
  rw [same, some'] at some_
  cases some_
  exact write

theorem place_of_userMapped (mapped : UserMapped k.mem root va pte) :
    place (reach t) va = pte2pa pte + va % PGSIZE := by
  rw [place, (reach_of_userMapped ok table mapped).1]

end

section

variable (ok : Holds L k free (treePages t)) (table : Table k.mem root t) {dstva : Nat}
  {src : Bytes} {len : Nat}
include ok table

theorem sparesReadOnly_of_confined (confined : CopyoutConfined k root dstva src len) :
    SparesReadOnly k root dstva src len := by
  obtain ⟨r, k', ran, -, copied⟩ := (reach_frames ok table).copyoutLoop ⟨table, .refl ok.chain⟩
    dstva (Nat.le_refl len) src
  obtain ⟨r', k'', ran', confined⟩ := confined
  obtain ⟨-, rfl⟩ : r' = r ∧ k'' = k' := by simpa using ran'.symm.trans ran
  intro i pte inside mapped here
  by_contra spares
  push Not at spares
  have stored := copied.stored i inside ((reached_iff ok table).mpr mapped)
  rw [place_of_userMapped ok table here] at stored
  have changed := confined _ (by rw [stored]; exact spares.2.symm)
  exact writable_of_physical ok table here changed spares.1

theorem copyoutConfined_of_spares (spares : SparesReadOnly k root dstva src len) :
    CopyoutConfined k root dstva src len := by
  obtain ⟨r, k', ran, -, copied⟩ := (reach_frames ok table).copyoutLoop ⟨table, .refl ok.chain⟩
    dstva (Nat.le_refl len) src
  refine ⟨r, k', ran, fun a changed => ?_⟩
  by_contra forbidden
  refine changed (copied.other a fun i inside reached same => ?_)
  have mapped := (reached_iff ok table).mp reached
  obtain ⟨pte, here⟩ := mapped i le_rfl
  have stored := copied.stored i inside reached
  rw [place_of_userMapped ok table here] at same stored
  have small := Nat.mod_lt (dstva + i) (show 0 < PGSIZE by decide)
  rcases spares i pte inside mapped here with writable | already
  · exact forbidden ⟨_, pte, here, writable, by omega, by omega⟩
  · rw [same, stored, already] at changed
    exact changed rfl

end

/-- `copyout` stays within what user code can write exactly if what it reaches beyond that
    has the right value already. -/
theorem copyoutConfined_iff (ok : Holds L k free (treePages t)) (table : Table k.mem root t)
    (dstva : Nat) (src : Bytes) (len : Nat) :
    CopyoutConfined k root dstva src len ↔ SparesReadOnly k root dstva src len :=
  ⟨sparesReadOnly_of_confined ok table, copyoutConfined_of_spares ok table⟩

end

/-! ## A text page -/

/-- The entry of a page of text does not have `PTE_W`. -/
theorem textPte_readOnly (pa : Nat) :
    (pa2pte pa ||| (PTE_R ||| PTE_U ||| flags2perm 1) ||| PTE_V) &&& PTE_W = 0 := by
  have reduced : (pa / PGSIZE * 1024 + (PTE_R ||| PTE_U ||| flags2perm 1 ||| PTE_V)) % 2 ^ 3 =
      (PTE_R ||| PTE_U ||| flags2perm 1 ||| PTE_V) % 2 ^ 3 := by omega
  rw [mapped_eq (by decide), and_eq_mod_and (n := 3) (by decide), reduced]
  decide

/-- What `exec` does for a segment of one page that is executable and not writable. -/
theorem exists_textPage : ∃ (b : Boot smallKernel) (k₁ k : KState) (root pte : Nat),
    uvmcreate b.k = .ok (root, k₁) ∧
      uvmalloc smallKernel root 0 PGSIZE (flags2perm 1) k₁ = .ok (PGSIZE, k) ∧
      (∃ free t, Holds smallKernel k free (treePages t) ∧ Table k.mem root t) ∧
      UserMapped k.mem root 0 pte ∧ pte &&& PTE_W = 0 := by
  obtain ⟨b, -⟩ := kinit_boots smallKernel (fun _ => 0) (by decide)
  have ok : Holds smallKernel b.k b.free 0 := b.settled.inv.holds.mono (Multiset.zero_le _)
  have room := b.room
  rcases uvmcreate_spec ok with ⟨none_, -⟩ | ⟨root, free₁, k₁, free_, -, created, table₁, moved₁⟩
  · simp [none_] at room
  have ok₁ := ok.exchange moved₁
  rcases kalloc_spec (ok₁.mono (Multiset.zero_le _)) with
    ⟨none_, -⟩ | ⟨m, rest, k₂, free_', got, taken⟩
  · simp [free_, none_] at room
  subst free_'
  have page := ok₁.free_page (m := m) List.mem_cons_self
  have perm := flags2perm_ok 1
  rcases mapFresh_spec (v := 0) ok₁ table₁ taken (within_page k₂.mem (fun _ => 0) m) (by decide)
    (get_emptyNode root 2 0) perm.low perm.readable with
    ⟨_, _, _, _, -, -, -, -, -, -, few⟩ | ⟨k, free, t, stored, table, moved, -, -, -, leaves⟩
  · simp [free_] at room
    omega
  have holds := ok₁.exchange moved
  refine ⟨b, k₁, k, root, _, created, uvmallocLoop_mapped got page.ne_zero stored,
    ⟨free, t, holds, table⟩, (userMapped_iff holds table).mpr ⟨by decide, ?_, perm.user m⟩,
    textPte_readOnly m⟩
  exact leaves 0 (by decide)

/-- `copyout` of one byte to the text of a process: a value that is not there yet is
    stored, and user code could not have stored it. -/
theorem not_copyoutConfined_textPage : ∃ (b : Boot smallKernel) (k₁ k : KState) (root : Nat)
    (src : Bytes), uvmcreate b.k = .ok (root, k₁) ∧
      uvmalloc smallKernel root 0 PGSIZE (flags2perm 1) k₁ = .ok (PGSIZE, k) ∧
      ¬ CopyoutConfined k root 0 src 1 := by
  obtain ⟨b, k₁, k, root, pte, created, grown, ⟨free, t, holds, table⟩, mapped, readOnly⟩ :=
    exists_textPage
  refine ⟨b, k₁, k, root, fun _ => k.mem (pte2pa pte) + 1, created, grown, fun confined => ?_⟩
  have spares := sparesReadOnly_of_confined holds table confined 0 pte (by decide)
    (fun j small => ⟨pte, by rwa [Nat.le_zero.mp small]⟩) mapped
  rcases spares with writable | already
  · exact writable readOnly
  · simp at already

/-- Storing what is there already. -/
theorem copyoutConfined_textPage : ∃ (k : KState) (root : Nat) (src : Bytes),
    SparesReadOnly k root 0 src 1 ∧ CopyoutConfined k root 0 src 1 := by
  obtain ⟨b, k₁, k, root, pte, created, grown, ⟨free, t, holds, table⟩, mapped, readOnly⟩ :=
    exists_textPage
  have spares : SparesReadOnly k root 0 (fun _ => k.mem (pte2pa pte)) 1 := by
    intro i pte' inside _ mapped'
    obtain rfl : i = 0 := by omega
    have same := (reach_of_userMapped holds table mapped).1.symm.trans
      (reach_of_userMapped holds table mapped').1
    exact .inr (by simp [same])
  exact ⟨k, root, _, spares, (copyoutConfined_iff holds table _ _ _).mpr spares⟩

end Xv6.Kernel
