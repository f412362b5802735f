import Xv6.Kernel.PageTable

/-! # Address spaces

The functions of `vm.c` that make, grow, shrink, copy and free the memory of a
process, specified on the tree of its page table.
-/

namespace Xv6.Kernel

open Lib Function

section Space

variable {L : Layout} {k k' k₁ : KState} {free free' : List Nat} {held held' : Multiset Nat}
  {t : Tree} {h w q root v n : Nat} {c : Nat → Tree}

/-! ## freewalk -/

section Freewalk

variable {below : Nat → KM Unit}

theorem freewalkLoop_skip (absent : word k.mem q (511 - n) = 0) :
    freewalkLoop below q (n + 1) k = freewalkLoop below q n k := by
  rw [freewalkLoop, run_bind (show load64 (q + 8 * (511 - n)) k = .ok (0, k) by rw [← absent]; rfl)]
  rfl

theorem freewalkLoop_free {m : Nat} (present : word k.mem q (511 - n) = pointer m)
    (page : IsPage L m) (freed : below m k = .ok ((), k₁)) :
    freewalkLoop below q (n + 1) k = freewalkLoop below q n
      { k₁ with mem := k₁.mem.splice (q + 8 * (511 - n)) 8 (Bytes.digits 0) } := by
  rw [freewalkLoop, run_bind (show load64 (q + 8 * (511 - n)) k = .ok (pointer m, k) by
    rw [← present]; rfl)]
  simp only [if_pos (And.intro (pointer_valid m) (pointer_not_leaf m)),
    pte2pa_pointer page.aligned page.small]
  rw [run_bind freed]
  rfl

/-- What `freewalk` does to trees of height `h` without leaves. -/
def Frees (L : Layout) (h : Nat) (below : Nat → KM Unit) : Prop :=
  ∀ (k : KState) (free : List Nat) (q w : Nat) (c : Nat → Tree),
    Holds L k free (treePages (.node q c)) → Spells k.mem h w (.node q c) →
    (∀ u, u < 512 ^ h → Radix.get 512 h u (.node q c) = none) →
    ∃ k' free', below q k = .ok ((), k') ∧ Exchange k k' free (treePages (.node q c)) free' 0

/-- One turn of the loop: the child in slot `511 - n` is gone. -/
theorem freewalkLoop_step (frees : Frees L h below) (ok : Holds L k free (treePages (.node q c)))
    (spells : Spells k.mem (h + 1) w (.node q c))
    (bare : ∀ u, u < 512 ^ h → Radix.get 512 h u (c (511 - n)) = none) :
    ∃ k' free', freewalkLoop below q (n + 1) k = freewalkLoop below q n k' ∧
      Exchange k k' free (treePages (.node q c)) free'
        (treePages (.node q (update c (511 - n) .empty))) ∧
      Spells k'.mem (h + 1) w (.node q (update c (511 - n) .empty)) := by
  have inside : 511 - n < 512 := by omega
  have child := spells.2 _ inside
  cases at_ : c (511 - n) with
  | empty =>
    rw [at_] at child
    have same : update c (511 - n) .empty = c := by rw [← at_, update_eq_self]
    rw [same]
    exact ⟨k, free, freewalkLoop_skip (Radix.stored_empty.mp child), .refl ok.chain, spells⟩
  | leaf a =>
    rw [at_] at child bare
    cases h with
    | zero => cases bare 0 (by decide)
    | succ h => exact child.elim
  | node m d =>
    rw [at_] at child bare
    have split := Radix.pages_around (f := Leaf.pages) q c inside
    rw [at_] at split
    have ok' : Holds L k free
        (treePages (.node m d) + Radix.around 512 Leaf.pages q c (511 - n)) := split ▸ ok
    have page := ok'.left.held_page (Radix.page_mem m d)
    have rooted := ok.held_page (Radix.page_mem q c)
    have present : word k.mem q (511 - n) = pointer m := by
      cases h with
      | zero => exact child.elim
      | succ h => exact child.1
    obtain ⟨k₁, free₁, freed, released⟩ := frees k free m _ d ok'.left child bare
    have after := Radix.pages_update (f := Leaf.pages) q c inside .empty
    rw [Radix.pages_empty, zero_add] at after
    have whole := (released.beside _).congr split.symm ((zero_add _).trans after.symm)
    have mine := Radix.page_mem_around (b := 512) (f := Leaf.pages) q c (511 - n)
    have written := Exchange.write (ok.exchange whole) (Radix.page_mem q _)
      (within_store (w := 0) inside)
    have same : ∀ p ∈ Radix.around 512 Leaf.pages q c (511 - n), SamePage k.mem k₁.mem p :=
      fun p mem => released.samePage ok' mem
    refine ⟨_, free₁, freewalkLoop_free present page freed, whole.trans written,
      spells.update (f := Leaf.pages) (fun j low other => ?_) ?_ fun j low other p mem l small =>
        ?_⟩
    · exact (word_store_of_ne other).trans (word_of_samePage (same q mine) low)
    · exact Radix.stored_empty.mpr (word_store_self (by decide))
    · have other' : p ≠ q := by
        rintro rfl
        exact Radix.page_not_mem_child ok.held_nodup low mem
      exact (word_of_samePage ((within_store inside).samePage rooted.aligned
        (ok.held_page (Radix.mem_pages_child low mem)).aligned other') small).trans
        (word_of_samePage (same p (Radix.mem_around low other mem)) small)

theorem freewalkLoop_spec (frees : Frees L h below) (n : Nat) (bounded : n ≤ 512)
    (ok : Holds L k free (treePages (.node q c))) (spells : Spells k.mem (h + 1) w (.node q c))
    (bare : ∀ j, j < 512 → ∀ u, u < 512 ^ h → Radix.get 512 h u (c j) = none) :
    ∃ k' free' c', freewalkLoop below q n k = .ok ((), k') ∧
      Exchange k k' free (treePages (.node q c)) free' (treePages (.node q c')) ∧
      ∀ j, j < 512 → c' j = if 512 - n ≤ j then .empty else c j := by
  induction n generalizing k free c with
  | zero =>
    refine ⟨k, free, c, rfl, .refl ok.chain, fun j low => ?_⟩
    rw [if_neg (by omega)]
  | succ n ih =>
    obtain ⟨k₁, free₁, ran, first, spelt⟩ :=
      freewalkLoop_step frees ok spells (bare _ (by omega))
    obtain ⟨k', free', c', rest, second, cleared⟩ :=
      ih (by omega) (ok.exchange first) spelt fun j low u small => by
        by_cases same : j = 511 - n
        · rw [same, update_self, Radix.get_empty]
        · rw [update_of_ne same]
          exact bare j low u small
    refine ⟨k', free', c', ran.trans rest, first.trans second, fun j low => ?_⟩
    rw [cleared j low]
    by_cases same : j = 511 - n
    · rw [same, update_self, ite_self, if_pos (by omega)]
    · rw [update_of_ne same]
      exact if_congr (by omega) rfl rfl

theorem freewalk_spec (h : Nat) : Frees L h (freewalk L h) := by
  induction h with
  | zero => exact fun k free q w c _ spells => spells.elim
  | succ h ih =>
    intro k free q w c ok spells bare
    obtain ⟨k₁, free₁, c', ran, first, cleared⟩ :=
      freewalkLoop_spec ih 512 (Nat.le_refl _) ok spells fun j low u small => by
        rw [← Radix.get_child (by decide) q c low small]
        apply bare
        calc j * 512 ^ h + u < j * 512 ^ h + 512 ^ h := by omega
          _ = (j + 1) * 512 ^ h := by rw [Nat.succ_mul]
          _ ≤ 512 * 512 ^ h := Nat.mul_le_mul_right _ low
          _ = 512 ^ (h + 1) := (Nat.pow_succ').symm
    have alone : treePages (.node q c') = {q} := by
      rw [treePages, Radix.pages_node, Finset.sum_eq_zero, Multiset.cons_zero]
      intro j mem
      rw [cleared j (Finset.mem_range.mp mem), if_pos (by omega), Radix.pages_empty]
    rw [alone] at first
    obtain ⟨k', freed, released⟩ := kfree_spec (ok.exchange first)
    exact ⟨k', _, (run_bind ran).trans freed, first.trans released⟩

end Freewalk

/-! ## Sizes -/

/-- How many pages `sz` bytes take. -/
def pageCount (sz : Nat) : Nat := (sz + (PGSIZE - 1)) / PGSIZE

theorem pgRoundUp_eq {sz : Nat} (small : sz < 2 ^ 63) : pgRoundUp sz = PGSIZE * pageCount sz := by
  unfold pgRoundUp pgRoundDown u64 pageCount PGSIZE
  omega

/-- The pages of the process are those below `n`, with entries that a process may have. -/
def Mapped (t : Tree) (n : Nat) : Prop := ∀ v, v < n → ∃ pte, leafAt t v = some ⟨pte, true⟩

theorem Mapped.bounded (mapped : Mapped t n) (ok : Holds L k free (treePages t)) :
    n ≤ PHYSTOP / PGSIZE := by
  by_contra more
  have many : PHYSTOP / PGSIZE + 1 ≤ n := by omega
  have limit : PHYSTOP / PGSIZE + 1 < 2 ^ 27 := by decide
  have found : ∀ v, ∃ pte, v < PHYSTOP / PGSIZE + 1 → leafAt t v = some ⟨pte, true⟩ := by
    intro v
    by_cases low : v < PHYSTOP / PGSIZE + 1
    · obtain ⟨pte, some_⟩ := mapped v (by omega)
      exact ⟨pte, fun _ => some_⟩
    · exact ⟨0, fun yes => absurd yes low⟩
  choose pte some_ using found
  have page : ∀ v, v < PHYSTOP / PGSIZE + 1 → IsPage L (pte2pa (pte v)) := fun v low =>
    ok.held_page (Multiset.mem_of_le (Radix.get_pages_le (by decide) (some_ v low))
      (Multiset.mem_singleton_self _))
  have fewer : (Finset.range (PHYSTOP / PGSIZE)).card <
      (Finset.range (PHYSTOP / PGSIZE + 1)).card := by
    rw [Finset.card_range, Finset.card_range]
    omega
  obtain ⟨u, mem, v, mem', other, same⟩ := Finset.exists_ne_map_eq_of_card_lt_of_maps_to fewer
    (f := fun v => pte2pa (pte v) / PGSIZE) fun v mem => by
      have := (page v (Finset.mem_range.mp mem)).high
      refine Finset.mem_coe.mpr (Finset.mem_range.mpr ?_)
      exact Nat.div_lt_div_of_lt_of_dvd (by decide) this
  rw [Finset.mem_range] at mem mem'
  have equal : pte2pa (pte u) = pte2pa (pte v) := by
    have := (page u mem).aligned
    have := (page v mem').aligned
    unfold PGSIZE at *
    omega
  have key := Radix.key_unique (by decide) ok.held_nodup (some_ u mem) (some_ v mem')
    (Multiset.mem_singleton_self (pte2pa (pte u))) (equal ▸ Multiset.mem_singleton_self _)
  rw [Nat.mod_eq_of_lt (by omega), Nat.mod_eq_of_lt (by omega)] at key
  exact other key

theorem Mapped.size_le {sz : Nat} (mapped : Mapped t (pageCount sz))
    (ok : Holds L k free (treePages t)) : sz ≤ PHYSTOP := by
  have bound := mapped.bounded ok
  unfold pageCount PHYSTOP KERNBASE PGSIZE at *
  omega

theorem PHYSTOP_lt : PHYSTOP < 2 ^ 32 := by decide

theorem pageCount_mul (v : Nat) : pageCount (PGSIZE * v) = v := by
  unfold pageCount PGSIZE
  omega

theorem pageCount_le {a b : Nat} (le : a ≤ b) : pageCount a ≤ pageCount b :=
  Nat.div_le_div_right (Nat.add_le_add_right le _)

/-! ## uvmdealloc -/

theorem uvmdealloc_spec {oldsz newsz : Nat} (ok : Holds L k free (treePages t))
    (table : Table k.mem root t) (less : newsz < oldsz) (low : pageCount oldsz ≤ 2 ^ 26)
    (mapped : ∀ u, pageCount newsz ≤ u → u < pageCount oldsz →
      ∃ pte, leafAt t u = some ⟨pte, true⟩) :
    ∃ k' free' t', uvmdealloc L root oldsz newsz k = .ok (newsz, k') ∧ Table k'.mem root t' ∧
      Exchange k k' free (treePages t) free' (treePages t') ∧ Keeps k.mem k'.mem t t' ∧
      ∀ u, u < 2 ^ 27 →
        leafAt t' u = if pageCount newsz ≤ u ∧ u < pageCount oldsz then none else leafAt t u := by
  have small : oldsz < 2 ^ 63 := by
    unfold pageCount PGSIZE at low
    omega
  have count := pageCount_le (Nat.le_of_lt less)
  rw [uvmdealloc]
  simp only [if_neg (Nat.not_le.mpr less), pgRoundUp_eq small,
    pgRoundUp_eq (Nat.lt_trans less small)]
  by_cases fewer : PGSIZE * pageCount newsz < PGSIZE * pageCount oldsz
  · have number : (PGSIZE * pageCount oldsz - PGSIZE * pageCount newsz) / PGSIZE =
        pageCount oldsz - pageCount newsz := by
      rw [← Nat.mul_sub, Nat.mul_div_cancel_left _ (by decide)]
    have range : pageCount newsz + (pageCount oldsz - pageCount newsz) = pageCount oldsz :=
      Nat.add_sub_cancel' count
    obtain ⟨k', free', t', ran, table', exchange, keeps, leaves⟩ :=
      uvmunmap_spec (v := pageCount newsz) (pageCount oldsz - pageCount newsz) true ok table
        (range.symm ▸ low) (range.symm ▸ mapped)
    rw [range] at leaves
    refine ⟨k', free', t', ?_, table', exchange, keeps, leaves⟩
    rw [if_pos fewer, number, run_bind ran]
    rfl
  · have same : pageCount newsz = pageCount oldsz :=
      Nat.le_antisymm count (Nat.le_of_mul_le_mul_left (Nat.not_lt.mp fewer) (by decide))
    refine ⟨k, free, t, ?_, table, .refl ok.chain, .refl _ _, fun u _ => ?_⟩
    · rw [if_neg fewer]
      rfl
    · rw [if_neg (by omega)]

/-- `uvmdealloc` between page boundaries, as `uvmalloc` calls it when memory runs out. -/
theorem uvmdealloc_pages {from_ : Nat} (ok : Holds L k free (treePages t))
    (table : Table k.mem root t) (le : from_ ≤ v) (low : v ≤ 2 ^ 26)
    (mapped : ∀ u, from_ ≤ u → u < v → ∃ pte, leafAt t u = some ⟨pte, true⟩) :
    ∃ r k' free' t', uvmdealloc L root (PGSIZE * v) (PGSIZE * from_) k = .ok (r, k') ∧
      Table k'.mem root t' ∧ Exchange k k' free (treePages t) free' (treePages t') ∧
      Keeps k.mem k'.mem t t' ∧
      ∀ u, u < 2 ^ 27 → leafAt t' u = if from_ ≤ u ∧ u < v then none else leafAt t u := by
  by_cases same : from_ = v
  · subst same
    refine ⟨PGSIZE * from_, k, free, t, ?_, table, .refl ok.chain, .refl _ _, fun u _ => ?_⟩
    · rw [uvmdealloc]
      simp only [if_pos (Nat.le_refl _)]
      rfl
    · rw [if_neg (by omega)]
  · have less : PGSIZE * from_ < PGSIZE * v := Nat.mul_lt_mul_of_pos_left (by omega) (by decide)
    obtain ⟨k', free', t', ran, table', exchange, keeps, leaves⟩ :=
      uvmdealloc_spec ok table less (by rwa [pageCount_mul])
        (by simpa only [pageCount_mul] using mapped)
    rw [pageCount_mul, pageCount_mul] at leaves
    exact ⟨_, k', free', t', ran, table', exchange, keeps, leaves⟩

/-! ## uvmalloc -/

section Alloc

variable {m r a oldsz newsz xperm : Nat} {k₂ k₃ : KState}

/-- `memset` of a fresh page. -/
def cleared (k : KState) (m : Nat) : KState :=
  { k with mem := k.mem.splice m PGSIZE fun _ => 0 }

theorem uvmallocLoop_exhausted (out : kalloc k = .ok (0, k₁))
    (undone : uvmdealloc L root a oldsz k₁ = .ok (r, k')) :
    uvmallocLoop L root oldsz newsz xperm (n + 1) a k = .ok (0, k') := by
  rw [uvmallocLoop, run_bind out]
  exact run_bind undone

theorem uvmallocLoop_unmapped (got : kalloc k = .ok (m, k₁)) (nonzero : m ≠ 0)
    (failed : mappages root a PGSIZE m (PTE_R ||| PTE_U ||| xperm) (cleared k₁ m) = .ok (-1, k₂))
    (freed : kfree L m k₂ = .ok ((), k₃)) (undone : uvmdealloc L root a oldsz k₃ = .ok (r, k')) :
    uvmallocLoop L root oldsz newsz xperm (n + 1) a k = .ok (0, k') := by
  rw [uvmallocLoop, run_bind got]
  simp only [if_neg nonzero]
  rw [run_bind (show memset m 0 PGSIZE k₁ = .ok ((), cleared k₁ m) from rfl), run_bind failed]
  exact (run_bind freed).trans (run_bind undone)

theorem uvmallocLoop_mapped (got : kalloc k = .ok (m, k₁)) (nonzero : m ≠ 0)
    (mapped : mappages root a PGSIZE m (PTE_R ||| PTE_U ||| xperm) (cleared k₁ m) = .ok (0, k₂)) :
    uvmallocLoop L root oldsz newsz xperm (n + 1) a k =
      uvmallocLoop L root oldsz newsz xperm n (a + PGSIZE) k₂ := by
  rw [uvmallocLoop, run_bind got]
  simp only [if_neg nonzero]
  rw [run_bind (show memset m 0 PGSIZE k₁ = .ok ((), cleared k₁ m) from rfl), run_bind mapped]
  rfl

theorem userLeaf_ok {pa perm : Nat} (page : IsPage L pa) (low : perm < 1024)
    (readable : perm / 2 % 2 = 1) : (Leaf.mk (pa2pte pa ||| perm ||| PTE_V) true).Ok
      (pa2pte pa ||| perm ||| PTE_V) :=
  ⟨rfl, leafPte_mapped low readable page.small, fun not_ => Bool.noConfusion not_⟩

theorem userLeaf_pages {pa perm : Nat} (page : IsPage L pa) (low : perm < 1024) :
    (Leaf.mk (pa2pte pa ||| perm ||| PTE_V) true).pages = {pa} := by
  rw [Leaf.pages, if_pos rfl, pte2pa_mapped page.aligned low page.small]

/-- The permissions that `uvmalloc` adds to those of every page. -/
def AllocPerm (xperm : Nat) : Prop := xperm ∈ [0, PTE_W, PTE_X, PTE_X ||| PTE_W]

theorem allocPerm_W : AllocPerm PTE_W := by
  unfold AllocPerm
  decide

theorem AllocPerm.low (perm : AllocPerm xperm) : PTE_R ||| PTE_U ||| xperm < 1024 := by
  have all : ∀ x ∈ [0, PTE_W, PTE_X, PTE_X ||| PTE_W], PTE_R ||| PTE_U ||| x < 1024 := by decide
  exact all xperm perm

theorem AllocPerm.readable (perm : AllocPerm xperm) : (PTE_R ||| PTE_U ||| xperm) / 2 % 2 = 1 := by
  have all : ∀ x ∈ [0, PTE_W, PTE_X, PTE_X ||| PTE_W], (PTE_R ||| PTE_U ||| x) / 2 % 2 = 1 := by
    decide
  exact all xperm perm

theorem AllocPerm.user (perm : AllocPerm xperm) (pa : Nat) :
    (pa2pte pa ||| (PTE_R ||| PTE_U ||| xperm) ||| PTE_V) &&& PTE_U ≠ 0 := by
  have all : ∀ x ∈ [0, PTE_W, PTE_X, PTE_X ||| PTE_W],
      (PTE_R ||| PTE_U ||| x ||| PTE_V) % 2 ^ 5 &&& PTE_U ≠ 0 := by decide
  have reduced : (pa / PGSIZE * 1024 + (PTE_R ||| PTE_U ||| xperm ||| PTE_V)) % 2 ^ 5 =
      (PTE_R ||| PTE_U ||| xperm ||| PTE_V) % 2 ^ 5 := by omega
  rw [mapped_eq perm.low, and_eq_mod_and (n := 5) (by decide), reduced]
  exact all xperm perm

/-- A fresh page is filled and then mapped at `v`, or handed back when memory runs out. -/
theorem mapFresh_spec {rest : List Nat} {mem' : Bytes} {perm : Nat}
    (ok : Holds L k (m :: rest) (treePages t)) (table : Table k.mem root t)
    (taken : Exchange k k₁ (m :: rest) 0 rest {m}) (filled : Within m k₁.mem mem')
    (low : v < 2 ^ 26) (none_ : leafAt t v = none) (small : perm < 1024)
    (readable : perm / 2 % 2 = 1) :
    (∃ k₂ k₃ free₃ t₃, mappages root (PGSIZE * v) PGSIZE m perm { k₁ with mem := mem' } =
          .ok (-1, k₂) ∧ kfree L m k₂ = .ok ((), k₃) ∧ Table k₃.mem root t₃ ∧
        Exchange k k₃ (m :: rest) (treePages t) free₃ (treePages t₃) ∧ Keeps k.mem k₃.mem t t₃ ∧
        (∀ u, leafAt t₃ u = leafAt t u) ∧ rest.length ≤ 2) ∨
      ∃ k₂ free₂ t₂, mappages root (PGSIZE * v) PGSIZE m perm { k₁ with mem := mem' } =
          .ok (0, k₂) ∧ Table k₂.mem root t₂ ∧
        Exchange k k₂ (m :: rest) (treePages t) free₂ (treePages t₂) ∧ Keeps k.mem k₂.mem t t₂ ∧
        SamePage mem' k₂.mem m ∧ rest.length ≤ free₂.length + 2 ∧
        ∀ u, u < 2 ^ 27 → leafAt t₂ u =
          if u = v then some ⟨pa2pte m ||| perm ||| PTE_V, true⟩ else leafAt t u := by
  have page := ok.free_page (m := m) List.mem_cons_self
  have fresh : Exchange k { k₁ with mem := mem' } (m :: rest) 0 rest {m} :=
    taken.trans (.write ((ok.mono (Multiset.zero_le _)).exchange taken)
      (Multiset.mem_singleton_self m) filled)
  have ok₀ : Holds L k (m :: rest) (0 + treePages t) := (zero_add (treePages t)).symm ▸ ok
  have ok₁ := ok₀.exchange (fresh.beside (treePages t))
  have got := (fresh.beside (treePages t)).congr (zero_add _) rfl
  have keeps₁ : Keeps k.mem mem' t t := fun u x _ some_ user _ =>
    fresh.samePage ok₀ (leaf_owned some_ user).2
  rcases mappages_spec ⟨_, true⟩ ok₁.right (table.exchange fresh ok₀) low none_ rfl
    (userLeaf_ok page small readable) with
    ⟨k₂, free₂, t₂, table₂, spares,
      ⟨failed, few, exchange₂, leaves₂⟩ | ⟨stored, exchange₂, leaves₂, cost⟩⟩
  · have kept := (exchange₂.beside {m}).congr (add_comm _ _) (add_comm _ _)
    have ok₂ := ok₁.exchange kept
    obtain ⟨k₃, freed, released⟩ := kfree_spec ok₂.left
    have returned := (released.beside (treePages t₂)).congr rfl (zero_add _)
    have keeps₃ : Keeps k₂.mem k₃.mem t₂ t₂ := fun u x _ some_ user _ =>
      released.samePage ok₂ (leaf_owned some_ user).2
    refine .inl ⟨k₂, k₃, _, t₂, failed, freed, table₂.exchange released ok₂,
      (got.trans kept).trans returned, ?_, leaves₂, few⟩
    exact (keeps₁.trans (spares.keeps ok₁.right) fun u x _ before _ => before).trans keeps₃
      fun u x _ _ after => after
  · rw [userLeaf_pages page small] at exchange₂
    -- the fresh page is no longer free and not yet in the table
    have mine : m ∈ ({m} : Multiset Nat) := Multiset.mem_singleton_self m
    have same : SamePage mem' k₂.mem m := spares m page.aligned (ok₁.left.not_free mine)
      fun node => ok₁.disjoint (Multiset.mem_of_le (Radix.nodes_le_pages t) node) mine
    exact .inr ⟨k₂, free₂, t₂, stored, table₂, (got.congr rfl (add_comm _ _)).trans exchange₂,
      keeps₁.trans (spares.keeps ok₁.right) fun u x _ before _ => before, same, cost, leaves₂⟩

/-- `uvmalloc` has mapped the pages from `v` on, `n` of them. -/
def Grown (t t' : Tree) (v n : Nat) : Prop :=
  (∀ u, u < 2 ^ 27 → ¬(v ≤ u ∧ u < v + n) → leafAt t' u = leafAt t u) ∧
    ∀ u, v ≤ u → u < v + n → ∃ pte, leafAt t' u = some ⟨pte, true⟩ ∧ pte &&& PTE_U ≠ 0

/-- The pages from `v` on, `n` of them, are filled with zeros. -/
def Zeroed (mem : Bytes) (t : Tree) (v n : Nat) : Prop :=
  ∀ u x, v ≤ u → u < v + n → leafAt t u = some x → ∀ i, i < PGSIZE → mem (pte2pa x.pte + i) = 0

/-- Page `v` is mapped, the first one that was not. -/
structure Put (t t' : Tree) (v pte : Nat) : Prop where
  low : v < 2 ^ 26 - 2
  above : ∀ u, v ≤ u → u < 2 ^ 26 - 2 → leafAt t u = none
  leaves : ∀ u, u < 2 ^ 27 → leafAt t' u = if u = v then some ⟨pte, true⟩ else leafAt t u

namespace Put

variable {pte u : Nat} (put : Put t t' v pte)
include put

theorem here : leafAt t' v = some ⟨pte, true⟩ := by
  rw [put.leaves v (Nat.lt_trans put.low (by decide)), if_pos rfl]

theorem other (small : u < 2 ^ 27) (ne : u ≠ v) : leafAt t' u = leafAt t u := by
  rw [put.leaves u small, if_neg ne]

theorem mapped (mapped : Mapped t v) : Mapped t' (v + 1) := by
  intro u below
  have low := put.low
  by_cases same : u = v
  · exact ⟨pte, same ▸ put.here⟩
  · rw [put.other (by omega) same]
    exact mapped u (by omega)

theorem none_above (from_ : v + 1 ≤ u) (to_ : u < 2 ^ 26 - 2) : leafAt t' u = none := by
  rw [put.other (by omega) (by omega)]
  exact put.above u (by omega) to_

theorem kept (small : u < 2 ^ 27) (before : leafAt t u = some x) : leafAt t' u = some x := by
  rw [put.other small, before]
  rintro rfl
  rw [put.above u (Nat.le_refl u) put.low] at before
  cases before

/-- What unmaps this page too leaves it as it was. -/
theorem undone {a b : Prop} [Decidable a] [Decidable b] (small : u < 2 ^ 27)
    (gone : u = v → a ∧ ¬b) (same : u ≠ v → (a ↔ b)) :
    (if a then none else leafAt t' u) = if b then none else leafAt t u := by
  by_cases first : u = v
  · obtain ⟨yes, no⟩ := gone first
    rw [if_pos yes, if_neg no, first, put.above v (Nat.le_refl v) put.low]
  · rw [put.other small first]
    exact if_congr (same first) rfl rfl

end Put

theorem uvmallocLoop_spec (perm : AllocPerm xperm) (n : Nat) {from_ : Nat}
    (ok : Holds L k free (treePages t)) (table : Table k.mem root t) (le : from_ ≤ v)
    (mapped : Mapped t v) (above : ∀ u, v ≤ u → u < 2 ^ 26 - 2 → leafAt t u = none) :
    ∃ r k' free' t', uvmallocLoop L root (PGSIZE * from_) newsz xperm n (PGSIZE * v) k =
        .ok (r, k') ∧ Table k'.mem root t' ∧
      Exchange k k' free (treePages t) free' (treePages t') ∧ Keeps k.mem k'.mem t t' ∧
      ((r = newsz ∧ v + n ≤ PHYSTOP / PGSIZE ∧ Grown t t' v n ∧ Zeroed k'.mem t' v n) ∨
        (r = 0 ∧ ∀ u, u < 2 ^ 27 →
          leafAt t' u = if from_ ≤ u ∧ u < v then none else leafAt t u)) := by
  induction n generalizing k free t v with
  | zero =>
    exact ⟨newsz, k, free, t, rfl, table, .refl ok.chain, .refl _ _, .inl ⟨rfl, mapped.bounded ok,
      ⟨fun u _ _ => rfl, fun u from_ to_ => absurd to_ (by omega)⟩,
      fun u x from_ to_ => absurd to_ (by omega)⟩⟩
  | succ n ih =>
    have bound := mapped.bounded ok
    have limit : PHYSTOP / PGSIZE < 2 ^ 26 - 2 := by decide
    rcases kalloc_spec (ok.mono (Multiset.zero_le _)) with
      ⟨rfl, out⟩ | ⟨m, rest, k₁, rfl, got, taken⟩
    · obtain ⟨r, k', free', t', undone, table', exchange, keeps, leaves⟩ :=
        uvmdealloc_pages ok table le (by omega) fun u _ below => mapped u below
      exact ⟨0, k', free', t', uvmallocLoop_exhausted out undone, table', exchange, keeps,
        .inr ⟨rfl, leaves⟩⟩
    · have page := ok.free_page (m := m) List.mem_cons_self
      rcases mapFresh_spec ok table taken (within_page k₁.mem (fun _ => 0) m) (by omega)
        (above v (Nat.le_refl v) (by omega)) perm.low perm.readable with
        ⟨k₂, k₃, free₃, t₃, failed, freed, table₃, exchange₃, keeps₃, leaves₃, _⟩ |
          ⟨k₂, free₂, t₂, stored, table₂, whole, keeps₂, zero, _, leaves₂⟩
      · obtain ⟨r, k', free', t', undone, table', exchange, keeps, leaves⟩ :=
          uvmdealloc_pages (ok.exchange exchange₃) table₃ le (by omega) fun u _ below => by
            rw [leaves₃]
            exact mapped u below
        exact ⟨0, k', free', t', uvmallocLoop_unmapped got page.ne_zero failed freed undone,
          table', exchange₃.trans exchange, keeps₃.trans keeps fun u x _ before _ =>
            leaves₃ u ▸ before,
          .inr ⟨rfl, fun u small => by rw [leaves u small, leaves₃]⟩⟩
      · have put : Put t t₂ v _ := ⟨by omega, above, leaves₂⟩
        obtain ⟨r, k', free', t', ran, table', exchange, keeps, outcome⟩ :=
          ih (v := v + 1) (ok.exchange whole) table₂ (by omega) (put.mapped mapped)
            fun u => put.none_above
        refine ⟨r, k', free', t', (uvmallocLoop_mapped got page.ne_zero stored).trans ran, table',
          whole.trans exchange, keeps₂.trans keeps fun u x small before _ => put.kept small before,
          ?_⟩
        rcases outcome with ⟨done, bounded, ⟨same, fresh'⟩, zeros⟩ | ⟨failed, leaves⟩
        · have first : leafAt t' v = leafAt t₂ v := same v (by omega) (by omega)
          refine .inl ⟨done, by omega, ⟨fun u small outside => ?_, fun u from_ to_ => ?_⟩,
            fun u x from_ to_ some_ => ?_⟩
          · rw [same u small (by omega), put.other small (by omega)]
          · by_cases here' : u = v
            · subst here'
              exact ⟨_, first.trans put.here, perm.user m⟩
            · exact fresh' u (by omega) (by omega)
          · by_cases here' : u = v
            · subst here'
              rw [first, put.here] at some_
              cases some_
              intro i inside
              rw [pte2pa_mapped page.aligned perm.low page.small]
              have kept := keeps u _ (by omega) put.here rfl (first.trans put.here)
              rw [pte2pa_mapped page.aligned perm.low page.small] at kept
              rw [kept i inside, zero i inside]
              exact splice_const_inside 0 inside
            · exact zeros u x (by omega) (by omega) some_
        · refine .inr ⟨failed, fun u small => ?_⟩
          rw [leaves u small]
          exact put.undone small (by omega) (by omega)

/-- `uvmalloc` from `oldsz` on, all of it mapped: 0 and nothing has changed, or the pages
    up to the new size are there. -/
theorem uvmalloc_spec (perm : AllocPerm xperm) (ok : Holds L k free (treePages t))
    (table : Table k.mem root t) (le : oldsz ≤ newsz) (mapped : Mapped t (pageCount oldsz))
    (above : ∀ u, pageCount oldsz ≤ u → u < 2 ^ 26 - 2 → leafAt t u = none) :
    ∃ r k' free' t', uvmalloc L root oldsz newsz xperm k = .ok (r, k') ∧ Table k'.mem root t' ∧
      Exchange k k' free (treePages t) free' (treePages t') ∧ Keeps k.mem k'.mem t t' ∧
      ((r = newsz ∧ pageCount newsz ≤ PHYSTOP / PGSIZE ∧
          Grown t t' (pageCount oldsz) (pageCount newsz - pageCount oldsz) ∧
          Zeroed k'.mem t' (pageCount oldsz) (pageCount newsz - pageCount oldsz)) ∨
        (r = 0 ∧ ∀ u, u < 2 ^ 27 → leafAt t' u = leafAt t u)) := by
  have small : oldsz < 2 ^ 63 :=
    Nat.lt_of_le_of_lt (mapped.size_le ok) (Nat.lt_trans PHYSTOP_lt (by decide))
  have number : pagesBetween (PGSIZE * pageCount oldsz) newsz =
      pageCount newsz - pageCount oldsz := by
    unfold pagesBetween pageCount PGSIZE
    omega
  obtain ⟨r, k', free', t', ran, table', exchange, keeps, outcome⟩ :=
    uvmallocLoop_spec perm (pageCount newsz - pageCount oldsz) ok table (Nat.le_refl _) mapped above
  refine ⟨r, k', free', t', ?_, table', exchange, keeps, ?_⟩
  · rw [uvmalloc]
    simp only [if_neg (Nat.not_lt.mpr le), pgRoundUp_eq small, number]
    exact ran
  · have count := pageCount_le le
    rcases outcome with ⟨done, bounded, grown⟩ | ⟨failed, leaves⟩
    · exact .inl ⟨done, by omega, grown⟩
    · refine .inr ⟨failed, fun u low => ?_⟩
      rw [leaves u low, if_neg (by omega)]

end Alloc

/-! ## uvmcopy -/

section Copy

variable {m pte old new a : Nat} {x : Leaf} {s : Tree} {k₂ k₃ : KState}

/-- `memmove` of the page `source` to a fresh page. -/
def copied (k : KState) (m source : Nat) : KState :=
  { k with mem := k.mem.splice m PGSIZE fun i => k.mem (source + i) }

section

variable (walked : walk old a false k = .ok (pte, k)) (nonzero : pte ≠ 0)
  (good : x.Ok (k.mem.getLE pte 8))
include walked nonzero good

theorem uvmcopyLoop_found (got : kalloc k = .ok (m, k₁)) :
    uvmcopyLoop L old new (n + 1) a k =
      (if m = 0 then do
        uvmunmap L new 0 (a / PGSIZE) true
        return -1
      else do
        memmove m (pte2pa x.pte) PGSIZE
        let mapped ← mappages new a PGSIZE m (pteFlags x.pte)
        if mapped ≠ 0 then
          kfree L m
          uvmunmap L new 0 (a / PGSIZE) true
          return -1
        uvmcopyLoop L old new n (a + PGSIZE) : KM Int) k₁ := by
  have leaf : LeafPte x.pte := good.leaf
  rw [uvmcopyLoop, run_bind walked]
  simp only [if_neg nonzero]
  rw [run_bind (show load64 pte k = .ok (x.pte, k) by rw [← good.word]; rfl)]
  simp only [if_neg leaf.valid]
  rw [run_bind got]

theorem uvmcopyLoop_exhausted (out : kalloc k = .ok (0, k₁))
    (undone : uvmunmap L new 0 (a / PGSIZE) true k₁ = .ok ((), k')) :
    uvmcopyLoop L old new (n + 1) a k = .ok (-1, k') := by
  rw [uvmcopyLoop_found walked nonzero good out]
  simp only [if_true]
  exact run_bind undone

theorem uvmcopyLoop_unmapped (got : kalloc k = .ok (m, k₁)) (fresh : m ≠ 0)
    (failed : mappages new a PGSIZE m (pteFlags x.pte) (copied k₁ m (pte2pa x.pte)) = .ok (-1, k₂))
    (freed : kfree L m k₂ = .ok ((), k₃))
    (undone : uvmunmap L new 0 (a / PGSIZE) true k₃ = .ok ((), k')) :
    uvmcopyLoop L old new (n + 1) a k = .ok (-1, k') := by
  rw [uvmcopyLoop_found walked nonzero good got]
  simp only [if_neg fresh]
  rw [run_bind (show memmove m (pte2pa x.pte) PGSIZE k₁ = .ok ((), copied k₁ m (pte2pa x.pte))
    from rfl), run_bind failed]
  exact (run_bind freed).trans (run_bind undone)

theorem uvmcopyLoop_mapped (got : kalloc k = .ok (m, k₁)) (fresh : m ≠ 0)
    (mapped : mappages new a PGSIZE m (pteFlags x.pte) (copied k₁ m (pte2pa x.pte)) = .ok (0, k₂)) :
    uvmcopyLoop L old new (n + 1) a k = uvmcopyLoop L old new n (a + PGSIZE) k₂ := by
  rw [uvmcopyLoop_found walked nonzero good got]
  simp only [if_neg fresh]
  rw [run_bind (show memmove m (pte2pa x.pte) PGSIZE k₁ = .ok ((), copied k₁ m (pte2pa x.pte))
    from rfl), run_bind mapped]
  rfl

end

theorem uvmunmap_below (ok : Holds L k free (treePages t)) (table : Table k.mem root t)
    (low : v ≤ 2 ^ 26) (mapped : Mapped t v) :
    ∃ k' free' t', uvmunmap L root 0 (PGSIZE * v / PGSIZE) true k = .ok ((), k') ∧
      Table k'.mem root t' ∧ Exchange k k' free (treePages t) free' (treePages t') ∧
      Keeps k.mem k'.mem t t' ∧
      ∀ u, u < 2 ^ 27 → leafAt t' u = if u < v then none else leafAt t u := by
  rw [Nat.mul_div_cancel_left v (by decide)]
  obtain ⟨k', free', t', ran, table', exchange, keeps, leaves⟩ :=
    uvmunmap_spec (v := 0) v true ok table (by omega) fun u _ below => mapped u (by omega)
  refine ⟨k', free', t', ran, table', exchange, keeps, fun u small => ?_⟩
  rw [leaves u small]
  exact if_congr (by omega) rfl rfl

/-- Page `u` of `t` has the flags and the contents of page `u` of `s`, whose contents are
    those in `mem`. -/
def CopyOf (mem mem' : Bytes) (s t : Tree) (u : Nat) : Prop :=
  ∃ pte pte', leafAt s u = some ⟨pte, true⟩ ∧ leafAt t u = some ⟨pte', true⟩ ∧
    pteFlags pte' = pteFlags pte ∧ ∀ i, i < PGSIZE → mem' (pte2pa pte' + i) = mem (pte2pa pte + i)

theorem pteFlags_mapped {w pa : Nat} (leaf : LeafPte w) :
    pteFlags (pa2pte pa ||| pteFlags w ||| PTE_V) = pteFlags w := by
  have low := leaf.low
  have small : pteFlags w < 1024 := by
    rw [pteFlags_eq]
    exact Nat.mod_lt _ (by decide)
  have valid : pteFlags w ||| PTE_V = pteFlags w := by
    have one : pteFlags w &&& PTE_V = PTE_V := by
      rw [and_one_eq, pteFlags_eq]
      unfold PTE_V
      omega
    refine Nat.eq_of_testBit_eq fun i => ?_
    have bit := congrArg (Nat.testBit · i) one
    simp only [Nat.testBit_and, Nat.testBit_or] at bit ⊢
    cases set : PTE_V.testBit i with
    | false => rw [Bool.or_false]
    | true =>
      rw [set, Bool.and_true] at bit
      rw [bit, Bool.or_true]
  rw [mapped_eq small, valid, pteFlags_eq]
  omega

theorem uvmcopyLoop_spec (n : Nat) (ok : Holds L k free (treePages t + treePages s))
    (table : Table k.mem new t) (source : Table k.mem old s)
    (there : ∀ u, v ≤ u → u < v + n → ∃ pte, leafAt s u = some ⟨pte, true⟩)
    (mapped : Mapped t v) (limit : v + n ≤ 2 ^ 26 - 2)
    (above : ∀ u, v ≤ u → u < 2 ^ 26 - 2 → leafAt t u = none) :
    ∃ r k' free' t', uvmcopyLoop L old new n (PGSIZE * v) k = .ok (r, k') ∧
      Table k'.mem new t' ∧ Exchange k k' free (treePages t) free' (treePages t') ∧
      Keeps k.mem k'.mem t t' ∧
      ((r = 0 ∧ Mapped t' (v + n) ∧
          (∀ u, u < 2 ^ 27 → ¬(v ≤ u ∧ u < v + n) → leafAt t' u = leafAt t u) ∧
          ∀ u, v ≤ u → u < v + n → CopyOf k.mem k'.mem s t' u) ∨
        (r = -1 ∧ free.length ≤ 3 * n ∧
          ∀ u, u < 2 ^ 27 → leafAt t' u = if u < v then none else leafAt t u)) := by
  induction n generalizing k free t v with
  | zero =>
    exact ⟨0, k, free, t, rfl, table, .refl ok.chain, .refl _ _, .inl ⟨rfl, mapped,
      fun u _ _ => rfl, fun u from_ to_ => absurd to_ (by omega)⟩⟩
  | succ n ih =>
    obtain ⟨pte, some_⟩ := there v (Nat.le_refl v) (by omega)
    obtain ⟨q, -, -, walked, nonzero, good⟩ := walk_leaf ok.right source (by omega) some_
    rcases kalloc_spec (ok.mono (Multiset.zero_le _)) with
      ⟨rfl, out⟩ | ⟨m, rest, k₁, rfl, got, taken⟩
    · obtain ⟨k', free', t', undone, table', exchange, keeps, leaves⟩ :=
        uvmunmap_below ok.left table (by omega) mapped
      exact ⟨-1, k', free', t', uvmcopyLoop_exhausted walked nonzero good out undone, table',
        exchange, keeps, .inr ⟨rfl, Nat.zero_le _, leaves⟩⟩
    · have page := ok.free_page (m := m) List.mem_cons_self
      have flags : pteFlags pte < 1024 := by
        rw [pteFlags_eq]
        exact Nat.mod_lt _ (by decide)
      have readable : pteFlags pte / 2 % 2 = 1 := by
        have low : pte % 4 = 3 := good.leaf.low
        rw [pteFlags_eq]
        omega
      rcases mapFresh_spec ok.left table taken (within_page k₁.mem _ m) (by omega)
        (above v (Nat.le_refl v) (by omega)) flags readable with
        ⟨k₂, k₃, free₃, t₃, failed, freed, table₃, exchange₃, keeps₃, leaves₃, few⟩ |
          ⟨k₂, free₂, t₂, stored, table₂, whole, keeps₂, filled, cost, leaves₂⟩
      · obtain ⟨k', free', t', undone, table', exchange, keeps, leaves⟩ :=
          uvmunmap_below (v := v) (ok.left.exchange exchange₃) table₃ (by omega) fun u below => by
            rw [leaves₃]
            exact mapped u below
        exact ⟨-1, k', free', t',
          uvmcopyLoop_unmapped walked nonzero good got page.ne_zero failed freed undone, table',
          exchange₃.trans exchange, keeps₃.trans keeps fun u x _ before _ => leaves₃ u ▸ before,
          .inr
          ⟨rfl, by rw [List.length_cons]; omega, fun u small => by rw [leaves u small, leaves₃]⟩⟩
      · have put : Put t t₂ v _ := ⟨by omega, above, leaves₂⟩
        obtain ⟨r, k', free', t', ran, table', exchange, keeps, outcome⟩ :=
          ih (v := v + 1) (ok.exchange (whole.beside (treePages s))) table₂
            (source.exchange whole ok) (fun u from_ to_ => there u (by omega) (by omega))
            (put.mapped mapped) (by omega) fun u => put.none_above
        refine ⟨r, k', free', t', (uvmcopyLoop_mapped walked nonzero good got page.ne_zero
          stored).trans ran, table', whole.trans exchange,
            keeps₂.trans keeps fun u x small before _ => put.kept small before, ?_⟩
        rcases outcome with ⟨done, mapped', same, copies⟩ | ⟨failed, short, leaves⟩
        · have first : leafAt t' v = leafAt t₂ v := same v (by omega) (by omega)
          refine .inl
            ⟨done, (by omega : v + 1 + n = v + (n + 1)) ▸ mapped', fun u small outside => ?_,
            fun u from_ to_ => ?_⟩
          · rw [same u small (by omega), put.other small (by omega)]
          · by_cases here' : u = v
            · subst here'
              refine ⟨pte, _, some_, first.trans put.here, pteFlags_mapped good.leaf,
                fun i inside => ?_⟩
              have kept := keeps u _ (by omega) put.here rfl (first.trans put.here)
              rw [pte2pa_mapped page.aligned flags page.small] at kept ⊢
              have held : Holds L k (m :: rest) (0 + treePages s) := by
                rw [zero_add]
                exact ok.right
              have read : k₁.mem (pte2pa pte + i) = k.mem (pte2pa pte + i) :=
                taken.samePage held (leaf_owned some_ rfl).2 i inside
              rw [kept i inside, filled i inside, ← read]
              exact Bytes.splice_inside inside
            · obtain ⟨pte₁, pte₂, from_, to_, equal, bytes⟩ := copies u (by omega) (by omega)
              refine ⟨pte₁, pte₂, from_, to_, equal, fun i inside => ?_⟩
              rw [bytes i inside]
              exact whole.samePage ok (leaf_owned from_ rfl).2 i inside
        · refine .inr ⟨failed, by rw [List.length_cons]; omega, fun u small => ?_⟩
          rw [leaves u small]
          exact put.undone small (by omega) (by omega)

end Copy

end Space

end Xv6.Kernel
