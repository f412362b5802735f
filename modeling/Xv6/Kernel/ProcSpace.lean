import Xv6.Kernel.UserMemory
import Xv6.Kernel.Proc

/-! # The page table of a process

What every page table of a process looks like, and that `proc.c` and `exec.c` make
and free whole tables of that shape.
-/

namespace Xv6.Kernel

open Lib

/-- The page numbers of `TRAPFRAME` and `TRAMPOLINE`. -/
def trapframeVpn : Nat := 2 ^ 26 - 2

def trampolineVpn : Nat := 2 ^ 26 - 1

def trapframeLeaf (tf : Nat) : Leaf := ⟨pa2pte tf ||| (PTE_R ||| PTE_W) ||| PTE_V, false⟩

def trampolineLeaf (L : Layout) : Leaf :=
  ⟨pa2pte L.trampoline ||| (PTE_R ||| PTE_X) ||| PTE_V, false⟩

/-- A table maps the first `n` pages, the trapframe at `tf` and the trampoline, and
    nothing else. -/
structure Shape (L : Layout) (t : Tree) (n tf : Nat) : Prop where
  mapped : Mapped t n
  above : ∀ v, n ≤ v → v < trapframeVpn → leafAt t v = none
  trapframe : leafAt t trapframeVpn = some (trapframeLeaf tf)
  trampoline : leafAt t trampolineVpn = some (trampolineLeaf L)
  beyond : ∀ v, trampolineVpn < v → v < 2 ^ 27 → leafAt t v = none

theorem kernelLeaf_ok {pa perm : Nat} (small : pa < 2 ^ 56)
    (kind : perm = PTE_R ||| PTE_W ∨ perm = PTE_R ||| PTE_X) :
    (Leaf.mk (pa2pte pa ||| perm ||| PTE_V) false).Ok (pa2pte pa ||| perm ||| PTE_V) := by
  have low : perm < 1024 := by rcases kind with rfl | rfl <;> decide
  have readable : perm / 2 % 2 = 1 := by rcases kind with rfl | rfl <;> decide
  have hidden : (perm ||| PTE_V) % 2 ^ 5 &&& PTE_U = 0 := by rcases kind with rfl | rfl <;> decide
  have reduced : (pa / PGSIZE * 1024 + (perm ||| PTE_V)) % 2 ^ 5 = (perm ||| PTE_V) % 2 ^ 5 := by
    omega
  refine ⟨rfl, leafPte_mapped low readable small, fun _ => ?_⟩
  change (pa2pte pa ||| perm ||| PTE_V) &&& PTE_U = 0
  rw [mapped_eq low, and_eq_mod_and (n := 5) (by decide), reduced]
  exact hidden

section Tables

variable {L : Layout} {k k' k₁ : KState} {free free' : List Nat} {t : Tree} {root n sz : Nat}

/-! ## uvmfree -/

theorem uvmfree_eq (small : sz < 2 ^ 63) (k : KState) : uvmfree L root sz k =
      (uvmunmap L root 0 (pageCount sz) true >>= fun _ => freewalk L 3 root) k := by
  rw [uvmfree]
  by_cases pos : sz > 0
  · simp only [if_pos pos, pgRoundUp_eq small,
      Nat.mul_div_cancel_left _ (show 0 < PGSIZE by decide)]
  · have zero : sz = 0 := by omega
    subst zero
    rfl

variable (sz) in
/-- A table with the pages of the process and nothing else is freed whole. -/
theorem uvmfree_spec (ok : Holds L k free (treePages t)) (table : Table k.mem root t)
    (mapped : Mapped t (pageCount sz))
    (others : ∀ v, pageCount sz ≤ v → v < 2 ^ 27 → leafAt t v = none) :
    ∃ k' free', uvmfree L root sz k = .ok ((), k') ∧ Exchange k k' free (treePages t) free' 0 := by
  have bound := mapped.bounded ok
  have limit : PHYSTOP / PGSIZE < 2 ^ 26 := by decide
  have small : sz < 2 ^ 63 :=
    Nat.lt_of_le_of_lt (mapped.size_le ok) (Nat.lt_trans PHYSTOP_lt (by decide))
  obtain ⟨k₁, free₁, t₁, unmapped, table₁, first, _, leaves₁⟩ :=
    uvmunmap_spec (v := 0) (pageCount sz) true ok table (by omega) fun u _ below =>
      mapped u (by omega)
  have bare : ∀ u, u < 2 ^ 27 → leafAt t₁ u = none := fun u low => by
    rw [leaves₁ u low]
    split
    · rfl
    · exact others u (by omega) low
  obtain ⟨⟨c, rfl⟩, spells⟩ := table₁
  obtain ⟨k', free', freed, second⟩ :=
    freewalk_spec 3 k₁ free₁ root _ c (ok.exchange first) spells fun u low => bare u (by omega)
  refine ⟨k', free', ?_, first.trans second⟩
  rw [Nat.mul_zero] at unmapped
  rw [uvmfree_eq small, run_bind unmapped, freed]

/-! ## Tables of processes -/

theorem TRAMPOLINE_eq : TRAMPOLINE = PGSIZE * trampolineVpn := by decide

theorem TRAPFRAME_eq : TRAPFRAME = PGSIZE * trapframeVpn := by decide

theorem procFreepagetable_spec {tf : Nat} (ok : Holds L k free (treePages t))
    (table : Table k.mem root t) (shape : Shape L t (pageCount sz) tf) :
    ∃ k' free', procFreepagetable L root sz k = .ok ((), k') ∧
      Exchange k k' free (treePages t) free' 0 := by
  have bound := shape.mapped.bounded ok
  have limit : PHYSTOP / PGSIZE < trapframeVpn := by decide
  have vpns : trapframeVpn < trampolineVpn ∧ trampolineVpn < 2 ^ 26 := by decide
  have next : trapframeVpn + 1 = trampolineVpn := by decide
  obtain ⟨k₁, free₁, t₁, first, table₁, exchange₁, _, leaves₁⟩ :=
    uvmunmap_spec (v := trampolineVpn) 1 false ok table (by omega) fun u low high => by
      have : u = trampolineVpn := by omega
      exact ⟨_, this ▸ shape.trampoline⟩
  obtain ⟨k₂, free₂, t₂, second, table₂, exchange₂, _, leaves₂⟩ :=
    uvmunmap_spec (v := trapframeVpn) 1 false (ok.exchange exchange₁) table₁ (by omega)
      fun u low high => by
        have : u = trapframeVpn := by omega
        rw [leaves₁ u (by omega), if_neg (by omega), this]
        exact ⟨_, shape.trapframe⟩
  have exchange := exchange₁.trans exchange₂
  obtain ⟨k', free', third, exchange₃⟩ :=
    uvmfree_spec sz (ok.exchange exchange) table₂
      (fun v low => by
        rw [leaves₂ v (by omega), if_neg (by omega), leaves₁ v (by omega), if_neg (by omega)]
        exact shape.mapped v low)
      fun v low high => by
        rw [leaves₂ v high, leaves₁ v high]
        split
        · rfl
        · split
          · rfl
          · rcases Nat.lt_or_ge v trapframeVpn with below | from_
            · exact shape.above v low below
            · exact shape.beyond v (by omega) high
  refine ⟨k', free', ?_, exchange.trans exchange₃⟩
  rw [procFreepagetable, TRAMPOLINE_eq, TRAPFRAME_eq, run_bind first, run_bind second, third]

theorem uvmcreate_spec (ok : Holds L k free 0) : (free = [] ∧ uvmcreate k = .ok (0, k)) ∨
      ∃ m rest k', free = m :: rest ∧ m ≠ 0 ∧ uvmcreate k = .ok (m, k') ∧
        Table k'.mem m (emptyNode m) ∧ Exchange k k' free 0 rest (treePages (emptyNode m)) := by
  rcases kalloc_spec ok with ⟨rfl, out⟩ | ⟨m, rest, k₁, rfl, got, taken⟩
  · refine .inl ⟨rfl, ?_⟩
    rw [uvmcreate, run_bind out]
    rfl
  · have page := ok.free_page (m := m) List.mem_cons_self
    have written := taken.trans (.write (ok.exchange taken) (Multiset.mem_singleton_self m)
      (within_page k₁.mem (fun _ => 0) m))
    refine .inr ⟨m, rest, _, rfl, page.ne_zero, ?_, ⟨⟨_, rfl⟩, rfl, fun j low => ?_⟩,
      written.congr rfl (treePages_emptyNode m).symm⟩
    · rw [uvmcreate, run_bind got]
      simp only [if_neg page.ne_zero]
      rfl
    · exact Radix.stored_empty.mpr (word_zero (fun i below => splice_const_inside 0 below) low)

theorem procPagetable_spec {p : Fin NPROC} {tf : Nat} (ok : Holds L k free 0)
    (frame : (k.procs p).trapframe = tf) (small : tf < 2 ^ 56) :
    (∃ k' free', procPagetable L p k = .ok (0, k') ∧ Exchange k k' free 0 free' 0 ∧
        free.length ≤ 5) ∨
      ∃ root k' free' t, procPagetable L p k = .ok (root, k') ∧ root ≠ 0 ∧
        Table k'.mem root t ∧ Exchange k k' free 0 free' (treePages t) ∧ Shape L t 0 tf ∧
        free.length ≤ free'.length + 5 := by
  have inText : L.trampoline < 2 ^ 56 := by
    have := L.inText
    have := L.inRam
    unfold PHYSTOP KERNBASE at *
    omega
  have bare : ∀ m u, leafAt (emptyNode m) u = none := fun m u => get_emptyNode m 2 u
  have vpns : trapframeVpn < trampolineVpn ∧ trampolineVpn < 2 ^ 26 := by decide
  have next : trapframeVpn + 1 = trampolineVpn := by decide
  rw [procPagetable]
  rcases uvmcreate_spec ok with ⟨rfl, out⟩ | ⟨root, rest, k₁, rfl, nonzero, got, table₁, created⟩
  · refine .inl ⟨k, [], ?_, .refl ok.chain, by decide⟩
    rw [run_bind out]
    rfl
  rw [run_bind got, TRAMPOLINE_eq, TRAPFRAME_eq]
  simp only [if_neg nonzero]
  have ok₁ := ok.exchange created
  rcases mappages_spec (trampolineLeaf L) ok₁ table₁ vpns.2 (bare _ _) rfl
    (kernelLeaf_ok inText (.inr rfl)) with
    ⟨k₂, free₂, t₂, table₂, _,
      ⟨failed, few, exchange₂, leaves₂⟩ | ⟨stored, exchange₂, leaves₂, cost₂⟩⟩
  · obtain ⟨k', free', freed, released⟩ := uvmfree_spec 0 (ok₁.exchange exchange₂) table₂
      (fun v low => absurd low (Nat.not_lt_zero v)) fun v _ _ => (leaves₂ v).trans (bare root v)
    refine .inl ⟨k', free', ?_, (created.trans exchange₂).trans released, ?_⟩
    · rw [run_bind failed]
      exact run_bind freed
    · rw [List.length_cons]
      omega
  rw [show (trampolineLeaf L).pages = 0 from rfl, add_zero] at exchange₂
  have frame₂ : (k₂.procs p).trapframe = tf := by rw [exchange₂.procs, created.procs, frame]
  rw [run_bind stored, if_neg (by decide),
    run_bind (show getProc p k₂ = .ok (k₂.procs p, k₂) from rfl), frame₂]
  have ok₂ := ok₁.exchange exchange₂
  rcases mappages_spec (trapframeLeaf tf) ok₂ table₂ (Nat.lt_trans vpns.1 vpns.2)
    (by rw [leaves₂ _ (by omega), if_neg (by omega), bare]) rfl
      (kernelLeaf_ok small (.inl rfl)) with
    ⟨k₃, free₃, t₃, table₃, _, ⟨failed, few, exchange₃, leaves₃⟩ |
      ⟨stored₃, exchange₃, leaves₃, cost₃⟩⟩
  · have ok₃ := ok₂.exchange exchange₃
    obtain ⟨k₄, free₄, t₄, unmapped, table₄, exchange₄, _, leaves₄⟩ :=
      uvmunmap_spec (v := trampolineVpn) 1 false ok₃ table₃ (by omega) fun u low high => by
        have : u = trampolineVpn := by omega
        rw [leaves₃, leaves₂ u (by omega), if_pos this]
        exact ⟨_, rfl⟩
    obtain ⟨k', free', freed, released⟩ := uvmfree_spec 0 (ok₃.exchange exchange₄) table₄
      (fun v low => absurd low (Nat.not_lt_zero v)) fun v _ small => by
        rw [leaves₄ v small]
        split
        · rfl
        · rw [leaves₃, leaves₂ v small, if_neg (by omega), bare]
    refine .inl ⟨k', free', ?_, (((created.trans exchange₂).trans exchange₃).trans exchange₄).trans
      released, ?_⟩
    · rw [run_bind failed, if_pos (by decide), run_bind unmapped]
      exact run_bind freed
    · rw [List.length_cons]
      omega
  · rw [show (trapframeLeaf tf).pages = 0 from rfl, add_zero] at exchange₃
    refine .inr
      ⟨root, k₃, free₃, t₃, ?_, nonzero, table₃, (created.trans exchange₂).trans exchange₃,
      ⟨fun v low => absurd low (Nat.not_lt_zero v), fun v _ high => ?_, ?_, ?_,
      fun v low high => ?_⟩, ?_⟩
    · rw [run_bind stored₃]
      rfl
    · rw [leaves₃ v (by omega), if_neg (by omega), leaves₂ v (by omega), if_neg (by omega), bare]
    · rw [leaves₃ _ (by omega), if_pos rfl]
    · rw [leaves₃ _ (by omega), if_neg (by omega), leaves₂ _ (by omega), if_pos rfl]
    · rw [leaves₃ v high, if_neg (by omega), leaves₂ v high, if_neg (by omega), bare]
    · rw [List.length_cons]
      omega

/-! ## Growing and shrinking -/

section Resize

variable {tf oldsz newsz xperm : Nat} {t' : Tree}

theorem Shape.congr (shape : Shape L t n tf) (same : ∀ u, u < 2 ^ 27 → leafAt t' u = leafAt t u)
    (bounded : n ≤ trapframeVpn) : Shape L t' n tf := by
  have vpns : trapframeVpn < 2 ^ 27 ∧ trampolineVpn < 2 ^ 27 := by decide
  refine ⟨fun v low => ?_, fun v low high => ?_, ?_, ?_, fun v low high => ?_⟩
  · rw [same v (by omega)]
    exact shape.mapped v low
  · rw [same v (by omega)]
    exact shape.above v low high
  · rw [same _ vpns.1, shape.trapframe]
  · rw [same _ vpns.2, shape.trampoline]
  · rw [same v high]
    exact shape.beyond v low high

theorem Shape.bounded (shape : Shape L t n tf) (ok : Holds L k free (treePages t)) :
    n ≤ PHYSTOP / PGSIZE ∧ PHYSTOP / PGSIZE < trapframeVpn :=
  ⟨shape.mapped.bounded ok, by decide⟩

/-- Every page of the process can be reached by user code. -/
def Reachable (t : Tree) (n : Nat) : Prop :=
  ∀ v, v < n → ∃ pte, leafAt t v = some ⟨pte, true⟩ ∧ pte &&& PTE_U ≠ 0

theorem Shape.grown {more : Nat} (shape : Shape L t n tf) (grown : Grown t t' n more)
    (bounded : n + more ≤ PHYSTOP / PGSIZE) : Shape L t' (n + more) tf := by
  have vpns : PHYSTOP / PGSIZE < trapframeVpn ∧ trapframeVpn < trampolineVpn ∧
      trampolineVpn < 2 ^ 27 := by decide
  obtain ⟨same, fresh⟩ := grown
  refine ⟨fun v low => ?_, fun v low high => ?_, ?_, ?_, fun v low high => ?_⟩
  · rcases Nat.lt_or_ge v n with below | from_
    · rw [same v (by omega) (by omega)]
      exact shape.mapped v below
    · obtain ⟨pte, some_, _⟩ := fresh v from_ low
      exact ⟨pte, some_⟩
  · rw [same v (by omega) (by omega)]
    exact shape.above v (by omega) high
  · rw [same _ (by omega) (by omega), shape.trapframe]
  · rw [same _ (by omega) (by omega), shape.trampoline]
  · rw [same v high (by omega)]
    exact shape.beyond v low high

theorem Reachable.grown {more : Nat} (reachable : Reachable t n) (grown : Grown t t' n more)
    (bounded : n ≤ PHYSTOP / PGSIZE) : Reachable t' (n + more) := by
  have limit : PHYSTOP / PGSIZE < 2 ^ 27 := by decide
  intro v low
  rcases Nat.lt_or_ge v n with below | from_
  · rw [grown.1 v (by omega) (by omega)]
    exact reachable v below
  · exact grown.2 v from_ low

/-- What user code sees when its memory goes from `old` pages to `new`: the pages that are
    in both keep their frames and contents, and the new ones are zero. -/
structure Resized (mem mem' : Bytes) (t t' : Tree) (old new : Nat) : Prop where
  same : ∀ u, u < old → u < new → leafAt t' u = leafAt t u
  keeps : Keeps mem mem' t t'
  fresh : ∀ u, old ≤ u → u < new → ∃ pte, leafAt t' u = some ⟨pte, true⟩ ∧ pte &&& PTE_U ≠ 0 ∧
    ∀ i, i < PGSIZE → mem' (pte2pa pte + i) = 0

theorem Resized.refl (mem : Bytes) (t : Tree) (n : Nat) : Resized mem mem t t n n :=
  ⟨fun _ _ _ => rfl, .refl mem t, fun _ from_ to_ => absurd to_ (Nat.not_lt.mpr from_)⟩

theorem uvmalloc_shape (newsz : Nat) (perm : AllocPerm xperm) (ok : Holds L k free (treePages t))
    (table : Table k.mem root t) (shape : Shape L t (pageCount oldsz) tf) :
    ∃ r k' free' t', uvmalloc L root oldsz newsz xperm k = .ok (r, k') ∧ Table k'.mem root t' ∧
      Exchange k k' free (treePages t) free' (treePages t') ∧ Keeps k.mem k'.mem t t' ∧
      ((r = max oldsz newsz ∧ Shape L t' (pageCount r) tf ∧
          (Reachable t (pageCount oldsz) → Reachable t' (pageCount r)) ∧
          Resized k.mem k'.mem t t' (pageCount oldsz) (pageCount r)) ∨
        (r = 0 ∧ Shape L t' (pageCount oldsz) tf ∧ ∀ u, u < 2 ^ 27 →
          leafAt t' u = leafAt t u)) := by
  obtain ⟨bound, limit⟩ := shape.bounded ok
  rcases Nat.lt_or_ge newsz oldsz with less | le
  · refine ⟨oldsz, k, free, t, ?_, table, .refl ok.chain, .refl _ _,
      .inl ⟨?_, shape, id, .refl _ _ _⟩⟩
    · rw [uvmalloc]
      simp only [if_pos less]
      rfl
    · rw [Nat.max_eq_left (Nat.le_of_lt less)]
  · obtain ⟨r, k', free', t', ran, table', exchange, keeps, outcome⟩ :=
      uvmalloc_spec perm ok table le shape.mapped shape.above
    have sum := Nat.add_sub_cancel' (pageCount_le le)
    have below : PHYSTOP / PGSIZE < 2 ^ 27 := by decide
    refine ⟨r, k', free', t', ran, table', exchange, keeps, ?_⟩
    rcases outcome with ⟨rfl, bounded, grown, zeroed⟩ | ⟨rfl, same⟩
    · have resized : Resized k.mem k'.mem t t' (pageCount oldsz) (pageCount r) := by
        refine ⟨fun u old _ => grown.1 u (by omega) (by omega), keeps, fun u from_ to_ => ?_⟩
        obtain ⟨pte, some_, user⟩ := grown.2 u from_ (by omega)
        exact ⟨pte, some_, user, zeroed u ⟨pte, true⟩ from_ (by omega) some_⟩
      refine .inl ⟨(Nat.max_eq_right le).symm, ?_, fun reachable => ?_, resized⟩
      · rw [← sum]
        exact shape.grown grown (by omega)
      · rw [← sum]
        exact reachable.grown grown bound
    · exact .inr ⟨rfl, shape.congr same (by omega), same⟩

theorem uvmdealloc_shape (newsz : Nat) (ok : Holds L k free (treePages t))
    (table : Table k.mem root t) (shape : Shape L t (pageCount oldsz) tf) :
    ∃ k' free' t', uvmdealloc L root oldsz newsz k = .ok (min oldsz newsz, k') ∧
      Table k'.mem root t' ∧ Exchange k k' free (treePages t) free' (treePages t') ∧
      Shape L t' (pageCount (min oldsz newsz)) tf ∧
      Resized k.mem k'.mem t t' (pageCount oldsz) (pageCount (min oldsz newsz)) := by
  obtain ⟨bound, limit⟩ := shape.bounded ok
  have vpns : trapframeVpn < trampolineVpn ∧ trampolineVpn < 2 ^ 26 := by decide
  rcases Nat.lt_or_ge newsz oldsz with less | le
  · have count := pageCount_le (Nat.le_of_lt less)
    obtain ⟨k', free', t', ran, table', exchange, keeps, leaves⟩ :=
      uvmdealloc_spec ok table less (by omega) fun u _ below => shape.mapped u below
    rw [Nat.min_eq_right (Nat.le_of_lt less)]
    refine ⟨k', free', t', ran, table', exchange,
      ⟨fun v low => ?_, fun v low high => ?_, ?_, ?_, fun v low high => ?_⟩,
      fun u _ new => ?_, keeps, fun u from_ to_ => absurd to_ (by omega)⟩
    · rw [leaves v (by omega), if_neg (by omega)]
      exact shape.mapped v (by omega)
    · rw [leaves v (by omega)]
      split
      · rfl
      · exact shape.above v (by omega) high
    · rw [leaves _ (by omega), if_neg (by omega), shape.trapframe]
    · rw [leaves _ (by omega), if_neg (by omega), shape.trampoline]
    · rw [leaves v high, if_neg (by omega)]
      exact shape.beyond v low high
    · rw [leaves u (by omega), if_neg (by omega)]
  · rw [Nat.min_eq_left le]
    refine ⟨k, free, t, ?_, table, .refl ok.chain, shape, .refl _ _ _⟩
    rw [uvmdealloc]
    simp only [if_pos le]
    rfl

end Resize

end Tables

end Xv6.Kernel
