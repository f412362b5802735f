import Xv6.Kernel.PageMap

/-! # Copying byte by byte

What `copyin`, `copyout` and `copyinstr` do is said in terms of the map of the page table,
for every address and every length, and for every table through which user code reaches
frames of its own.
-/

namespace Xv6.Kernel.PageMap

open Lib

/-- `va` lies below `MAXVA`, in a page that is mapped for user code. -/
def UserByte (mem : Bytes) (root va : Nat) : Prop :=
  va < MAXVA ∧ ∃ w, pteAt mem root (vpn va) = some w ∧ w &&& PTE_U ≠ 0

/-- Where user code finds `va`. -/
def physical (mem : Bytes) (root va : Nat) : Nat := userFrame mem root va + va % PGSIZE

/-- A page table through which user code reaches frames of its own: none is frame 0, a
    node of the table, or reached twice. -/
structure UserTable (mem : Bytes) (root : Nat) : Prop where
  node : ∀ q, IsNode mem root q → q % PGSIZE = 0 ∧ q ≠ 0
  nonzero : ∀ v w, v < vpn MAXVA → pteAt mem root v = some w → w &&& PTE_U ≠ 0 → pte2pa w ≠ 0
  apart : ∀ v w, v < vpn MAXVA → pteAt mem root v = some w → w &&& PTE_U ≠ 0 →
    ¬ IsNode mem root (pte2pa w)
  once : ∀ v v' w w', v < vpn MAXVA → v' < vpn MAXVA → pteAt mem root v = some w →
    pteAt mem root v' = some w' → w &&& PTE_U ≠ 0 → w' &&& PTE_U ≠ 0 → pte2pa w = pte2pa w' →
    v = v'

section Pages

variable {mem mem' : Bytes} {k : KState} {root va va' i : Nat}

theorem userFrame_of_userByte (mapped : UserByte mem root va) :
    ∃ w, pteAt mem root (vpn va) = some w ∧ w &&& PTE_U ≠ 0 ∧ userFrame mem root va = pte2pa w := by
  obtain ⟨low, w, found, user⟩ := mapped
  refine ⟨w, found, user, ?_⟩
  rw [userFrame, if_pos low, found, Option.elim_some, if_neg user]

/-- `walkaddr` finds the bytes that are mapped for user code. -/
theorem UserTable.userFrame_ne_zero (table : UserTable mem root) :
    userFrame mem root va ≠ 0 ↔ UserByte mem root va := by
  constructor
  · intro nonzero
    rw [userFrame] at nonzero
    split at nonzero
    · rename_i low
      cases found : pteAt mem root (vpn va) with
      | none =>
        rw [found] at nonzero
        exact absurd rfl nonzero
      | some w =>
        rw [found, Option.elim_some] at nonzero
        exact ⟨low, w, found, fun zero => nonzero (if_pos zero)⟩
    · exact absurd rfl nonzero
  · intro mapped
    obtain ⟨w, found, user, same⟩ := userFrame_of_userByte mapped
    rw [same]
    exact table.nonzero _ w (vpn_lt mapped.1) found user

theorem pte2pa_aligned (w : Nat) : pte2pa w % PGSIZE = 0 := by
  rw [pte2pa, Nat.shiftLeft_eq, u64]
  unfold PGSIZE
  omega

variable (mem root) in
theorem userByte_page (page : vpn va = vpn va') : (UserByte mem root va ↔ UserByte mem root va') ∧
      userFrame mem root va = userFrame mem root va' := by
  have limit : va < MAXVA ↔ va' < MAXVA := by
    unfold vpn PGSIZE at page
    unfold MAXVA
    omega
  simp only [UserByte, userFrame, page, limit, and_self]

theorem UserTable.walkaddr_page (table : UserTable k.mem root) (va : Nat) :
    walkaddr root (pgRoundDown va) k = .ok (userFrame k.mem root va, k) := by
  by_cases low : va < MAXVA
  · rw [walkaddr_lookup, (userByte_page k.mem root (vpn_pgRoundDown va)).2]
    intro p at_
    rw [vpn_pgRoundDown] at at_
    exact (table.node p ⟨vpn va, 2, vpn_lt_pages low, Nat.le_refl 2, at_⟩).2
  · have high : pgRoundDown va ≥ MAXVA := by
      unfold pgRoundDown PGSIZE MAXVA at *
      omega
    rw [walkaddr, userFrame, if_neg low]
    simp only [if_pos high]
    rfl

/-- The string at `va` has `n` bytes before its NUL, all of them mapped. -/
structure EndsAfter (mem : Bytes) (root va n : Nat) : Prop where
  mapped : ∀ i, i ≤ n → UserByte mem root (va + i)
  before : ∀ i, i < n → mem (physical mem root (va + i)) ≠ 0
  nul : mem (physical mem root (va + n)) = 0

/-- The map is the same before and after. -/
def SameMap (mem mem' : Bytes) (root : Nat) : Prop :=
  ∀ v, v < PAGES → pteAt mem' root v = pteAt mem root v

theorem SameMap.user (same : SameMap mem mem' root) (va : Nat) :
    (UserByte mem' root va ↔ UserByte mem root va) ∧
      userFrame mem' root va = userFrame mem root va ∧
      physical mem' root va = physical mem root va := by
  by_cases low : va < MAXVA
  · have entry := same (vpn va) (vpn_lt_pages low)
    simp only [UserByte, physical, userFrame, entry, and_self]
  · simp only [UserByte, physical, userFrame, low, false_and, if_false, and_self]

/-- A write to a page of user code leaves the page table alone. -/
theorem UserTable.write (table : UserTable mem root) (mapped : UserByte mem root va)
    (within : Within (userFrame mem root va) mem mem') :
    SameMap mem mem' root ∧ UserTable mem' root := by
  obtain ⟨w, found, user, frame⟩ := userFrame_of_userByte mapped
  have apart := table.apart _ w (vpn_lt mapped.1) found user
  rw [frame] at within
  have words : ∀ v, v < PAGES → ∀ e q j, e ≤ 2 →
      Trie.node 512 2 child (word mem) root v e = some q → j < 512 →
      word mem' q j = word mem q j := by
    intro v key e q j depth at_ small
    have node : IsNode mem root q := ⟨v, e, key, depth, at_⟩
    exact word_of_samePage (within.samePage (pte2pa_aligned w) (table.node q node).1
      fun same => apart (same ▸ node)) small
  have nodes : ∀ q, IsNode mem' root q ↔ IsNode mem root q := by
    intro q
    have same : ∀ v d, v < PAGES → d ≤ 2 → tableAt mem' root v d = tableAt mem root v d :=
      fun v d key depth => Trie.node_congr (words v key) (by decide) (by omega)
    constructor
    · rintro ⟨v, d, key, depth, at_⟩
      exact ⟨v, d, key, depth, (same v d key depth).symm.trans at_⟩
    · rintro ⟨v, d, key, depth, at_⟩
      exact ⟨v, d, key, depth, (same v d key depth).trans at_⟩
  have same : SameMap mem mem' root := fun v key => Trie.get_congr (words v key) (by decide)
  have low : ∀ v, v < vpn MAXVA → pteAt mem' root v = pteAt mem root v := fun v key =>
    same v (Nat.lt_trans key vpn_maxva)
  refine ⟨same, fun q node => table.node q ((nodes q).mp node), fun v w key entry user => ?_,
    fun v w key entry user node => ?_, fun v v' w w' key key' entry entry' => ?_⟩
  · rw [low v key] at entry
    exact table.nonzero v w key entry user
  · rw [low v key] at entry
    exact table.apart v w key entry user ((nodes _).mp node)
  · rw [low v key] at entry
    rw [low v' key'] at entry'
    exact table.once v v' w w' key key' entry entry'

theorem UserTable.physical_inj (table : UserTable mem root) (mapped : UserByte mem root va)
    (mapped' : UserByte mem root va') (same : physical mem root va = physical mem root va') :
    va = va' := by
  obtain ⟨w, found, user, frame⟩ := userFrame_of_userByte mapped
  obtain ⟨w', found', user', frame'⟩ := userFrame_of_userByte mapped'
  have aligned := pte2pa_aligned w
  have aligned' := pte2pa_aligned w'
  rw [physical, physical, frame, frame'] at same
  have split : pte2pa w = pte2pa w' ∧ va % PGSIZE = va' % PGSIZE := by
    unfold PGSIZE at *
    omega
  have page := table.once _ _ w w' (vpn_lt mapped.1) (vpn_lt mapped'.1) found found' user user'
    split.1
  unfold vpn PGSIZE at *
  omega

/-- The copy loops go through the frames that the table had when they began. -/
theorem UserTable.frames (table : UserTable mem root) : Frames root (userFrame mem root) fun k =>
    UserTable k.mem root ∧ SameMap mem k.mem root where
  walk good va := by
    rw [good.1.walkaddr_page va, (good.2.user va).2.1]
  page same := (userByte_page mem root same).2
  low nonzero := (table.userFrame_ne_zero.mp nonzero).1
  once := by
    intro va va' mapped mapped' same
    rw [table.userFrame_ne_zero] at mapped mapped'
    exact table.physical_inj mapped mapped' same
  write := by
    intro k va mem' good mapped within
    obtain ⟨user, frame, -⟩ := good.2.user va
    rw [table.userFrame_ne_zero] at mapped
    rw [← frame] at within
    obtain ⟨same, table'⟩ := good.1.write (user.mpr mapped) within
    exact ⟨table', fun v key => (same v key).trans (good.2 v key)⟩

theorem SameMap.refl (mem : Bytes) (root : Nat) : SameMap mem mem root := fun _ _ => rfl

/-- A string of which `EndsAfter` speaks is one that `copyinstr` finds. -/
theorem UserTable.endsAfter_iff (table : UserTable mem root) :
    EndsAfter mem root va i ↔ StringAt (userFrame mem root) mem va i := by
  constructor
  · rintro ⟨mapped, before, nul⟩
    exact ⟨fun j inside => table.userFrame_ne_zero.mpr (mapped j inside), before, nul⟩
  · rintro ⟨mapped, before, nul⟩
    exact ⟨fun j inside => table.userFrame_ne_zero.mp (mapped j inside), before, nul⟩

end Pages

/-! ## The three functions -/

section

variable {k : KState} {root : Nat}

/-- `copyin`, `copyout` and `copyinstr`, byte by byte. More fuel than bytes to copy makes
    no difference: the loops end. -/
structure CopiesBytes (k : KState) (root : Nat) : Prop where
  copyin : ∀ va len, ∃ bytes ok, Kernel.copyin root va len k = .ok ((bytes, ok), k) ∧
    (∀ fuel, len ≤ fuel → copyinLoop root fuel va len [] k = .ok ((bytes, ok), k)) ∧
    bytes.length ≤ len ∧ (ok = true ↔ ∀ i, i < len → UserByte k.mem root (va + i)) ∧
    (ok = true → bytes.length = len) ∧
    ∀ i, i < bytes.length → bytes[i]? = some (k.mem (physical k.mem root (va + i)))
  copyout : ∀ va src len, ∃ r k', Kernel.copyout root va src len k = .ok (r, k') ∧
    (∀ fuel, len ≤ fuel → copyoutLoop root fuel va src len k = .ok (r, k')) ∧
    (r = 0 ∨ r = -1) ∧ (r = 0 ↔ ∀ i, i < len → UserByte k.mem root (va + i)) ∧
    (r = 0 → ∀ i, i < len → k'.mem (physical k.mem root (va + i)) = src i) ∧
    ∀ a, (∀ i, i < len → UserByte k.mem root (va + i) → a ≠ physical k.mem root (va + i)) →
      k'.mem a = k.mem a
  copyinstr : ∀ va max, ∃ bytes ok, Kernel.copyinstr root va max k = .ok ((bytes, ok), k) ∧
    (∀ fuel, max ≤ fuel → copyinstrLoop root fuel va max [] k = .ok ((bytes, ok), k)) ∧
    bytes.length ≤ max ∧ (ok = true ↔ ∃ n, n < max ∧ EndsAfter k.mem root va n) ∧
    ∀ n, n < max → EndsAfter k.mem root va n →
      bytes = (List.range n).map (fun i => k.mem (physical k.mem root (va + i))) ++ [0]

theorem copiesBytes (table : UserTable k.mem root) : CopiesBytes k root where
  copyin va len := by
    obtain ⟨bytes, ok, ran, copied⟩ := table.frames.copyinLoop ⟨table, .refl _ root⟩ va
      (Nat.le_refl len) []
    refine ⟨bytes, ok, ran, fun fuel enough => ?_, copied.short,
      ⟨fun yes i inside => ?_, fun all => ?_⟩, copied.whole,
      fun i inside => (copied.byte i inside).2⟩
    · rw [copyinLoop_fuel va enough (Nat.le_refl len) []]
      exact ran
    · exact table.userFrame_ne_zero.mp (copied.byte i (copied.whole yes ▸ inside)).1
    · by_contra no
      obtain ⟨less, missing⟩ := copied.stopped (by simpa using no)
      exact table.userFrame_ne_zero.mpr (all _ less) missing
  copyout va src len := by
    obtain ⟨r, k', ran, -, copied⟩ := table.frames.copyoutLoop ⟨table, .refl _ root⟩ va
      (Nat.le_refl len) src
    have mapped : ∀ i, userFrame k.mem root (va + i) ≠ 0 ↔ UserByte k.mem root (va + i) :=
      fun i => table.userFrame_ne_zero
    refine ⟨r, k', ran, fun fuel enough => ?_, copied.value.imp And.left And.left, ?_,
      fun ok i inside => ?_, fun a free => copied.other a fun i inside reached =>
        free i inside ((mapped i).mp (reached i (Nat.le_refl i)))⟩
    · rw [copyoutLoop_fuel va enough (Nat.le_refl len) src]
      exact ran
    · rw [copied.ok_iff]
      exact forall₂_congr fun i _ => mapped i
    · have all := copied.ok_iff.mp ok
      exact copied.stored i inside fun j small => all j (by omega)
  copyinstr va max := by
    obtain ⟨bytes, ok, ran, copied⟩ := table.frames.copyinstrLoop ⟨table, .refl _ root⟩ va
      (Nat.le_refl max) []
    simp only [table.endsAfter_iff]
    refine ⟨bytes, ok, ran, fun fuel enough => ?_, copied.short, ⟨fun yes => ?_, ?_⟩, ?_⟩
    · rw [copyinstrLoop_fuel va enough (Nat.le_refl max) []]
      exact ran
    · obtain ⟨n, less, ends, -⟩ := copied.found yes
      exact ⟨n, less, ends⟩
    · rintro ⟨n, less, ends⟩
      by_contra no
      exact copied.missing (by simpa using no) n less ends
    · intro n less ends
      have yes : ok = true := by
        by_contra no
        exact copied.missing (by simpa using no) n less ends
      obtain ⟨m, -, ends', same⟩ := copied.found yes
      rw [ends.unique ends']
      exact same

/-- The tables that the ledger accounts for are of this kind. -/
theorem userTable_of_table {L : Layout} {free : List Nat} {t : Tree}
    (ok : Holds L k free (treePages t)) (table : Table k.mem root t) : UserTable k.mem root := by
  have wf := wellFormed_of_table ok table
  have user : ∀ v w, pteAt k.mem root v = some w → w &&& PTE_U ≠ 0 →
      leafAt t v = some ⟨w, true⟩ := by
    intro v w entry user
    rw [pteAt_eq ok table, Option.map_eq_some_iff] at entry
    obtain ⟨x, some_, rfl⟩ := entry
    rw [some_, ← isUser_of_flag table some_ user]
  refine ⟨fun q node => ?_, fun v w _ entry flag => ?_, fun v w _ entry flag node => ?_,
    fun v v' w w' key key' entry entry' flag flag' same => ?_⟩
  · have page := (wf.node q node).1
    exact ⟨page.aligned, page.ne_zero⟩
  · exact (leaf_page ok (user v w entry flag) rfl).ne_zero
  · obtain ⟨u, d, key, depth, at_⟩ := node
    rw [tableAt_eq ok table depth] at at_
    exact Radix.value_not_node (by decide) ok.held_nodup (user v w entry flag)
      (Multiset.mem_singleton_self _)
      (Radix.nodeAt_mem_nodes (fun j mem => indices_lt u j (List.mem_of_mem_take mem)) at_)
  · have keys := Radix.key_unique (m := pte2pa w) (by decide) ok.held_nodup
      (user v w entry flag) (user v' w' entry' flag') (Multiset.mem_singleton_self _)
      (by rw [same]; exact Multiset.mem_singleton_self _)
    rw [Nat.mod_eq_of_lt, Nat.mod_eq_of_lt] at keys
    · exact keys
    · exact Nat.lt_trans key' vpn_maxva
    · exact Nat.lt_trans key vpn_maxva

/-- A process with one page of text. -/
theorem copiesBytes_textPage : ∃ (b : Boot smallKernel) (k₁ k : KState) (root : Nat),
    uvmcreate b.k = .ok (root, k₁) ∧
      uvmalloc smallKernel root 0 PGSIZE (flags2perm 1) k₁ = .ok (PGSIZE, k) ∧
      UserTable k.mem root ∧ CopiesBytes k root := by
  obtain ⟨b, k₁, k, root, pte, created, grown, ⟨free, t, holds, table⟩, -⟩ := exists_textPage
  have user := userTable_of_table holds table
  exact ⟨b, k₁, k, root, created, grown, user, copiesBytes user⟩

end

end Xv6.Kernel.PageMap
