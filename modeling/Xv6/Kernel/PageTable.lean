import Xv6.Kernel.PageLedger
import Xv6.Lib.Radix

/-! # Page tables as trees

A user page table is a radix tree of three levels in base 512, kept in pages that the
ledger holds. The functions of `vm.c` that walk, map and unmap act on the tree: their
specifications say which tree the memory spells out afterwards, and which pages they
exchanged with the free list.
-/

namespace Xv6.Kernel

open Lib Function

/-- A mapped page. The table owns the pages of the process itself (`user`); the
    trampoline and the trapframe are mapped but belong to others. -/
structure Leaf where
  pte : Nat
  user : Bool

def Leaf.pages (x : Leaf) : Multiset Nat := if x.user then {pte2pa x.pte} else 0

/-- The entry `w` maps `x`; user code reaches only pages of the process. -/
structure Leaf.Ok (x : Leaf) (w : Nat) : Prop where
  word : w = x.pte
  leaf : LeafPte x.pte
  kernel : x.user = false → x.pte &&& PTE_U = 0

abbrev Tree := Radix Leaf

abbrev treePages (t : Tree) : Multiset Nat := Radix.pages 512 Leaf.pages t

abbrev leafAt (t : Tree) (v : Nat) : Option Leaf := Radix.get 512 3 v t

/-- The entry `w` and the words in memory spell out `t`, of height `h`. -/
abbrev Spells (mem : Bytes) (h w : Nat) (t : Tree) : Prop :=
  Radix.Stored 512 pointer Leaf.Ok (word mem) h w t

/-- The page table at `root` is `t`. -/
def Table (mem : Bytes) (root : Nat) (t : Tree) : Prop :=
  (∃ c, t = .node root c) ∧ Spells mem 3 (pointer root) t

section Trees

variable {L : Layout} {k k' : KState} {free free' : List Nat} {held held' : Multiset Nat}
  {t : Tree} {h w q va : Nat} {c : Nat → Tree} {alloc : Bool}

/-- A table keeps its tree while others move their pages. -/
theorem Table.moved {root : Nat} (table : Table k.mem root t)
    (moved : Moved k k' free held free' held') (ok : Holds L k free (held + treePages t)) :
    Table k'.mem root t :=
  ⟨table.1, table.2.frame (f := Leaf.pages) fun _ mem _ inside =>
    word_of_samePage (moved.samePage ok mem) inside⟩

theorem Table.exchange {root : Nat} (table : Table k.mem root t)
    (exchange : Exchange k k' free held free' held') (ok : Holds L k free (held + treePages t)) :
    Table k'.mem root t :=
  table.moved exchange.toMoved ok

theorem px_eq_digit (level va : Nat) : px level va = Radix.digit 512 level (vpn va) :=
  px_eq level va

/-! ## walk -/

/-- The address of the entry for `va`, or 0. -/
def entryAddr (h va : Nat) (t : Tree) : Nat :=
  (Radix.slot 512 h (vpn va) t).elim 0 fun p => p + 8 * px 0 va

theorem walkLevel_valid (valid : word k.mem q (px (h + 1) va) &&& PTE_V ≠ 0) :
    walkLevel va alloc (h + 1) q k =
      walkLevel va alloc h (pte2pa (word k.mem q (px (h + 1) va))) k :=
  congrFun (if_pos valid) k

theorem walkLevel_absent (absent : word k.mem q (px (h + 1) va) &&& PTE_V = 0) :
    walkLevel va false (h + 1) q k = .ok (0, k) :=
  congrFun (if_neg (not_not_intro absent)) k

theorem walkLevel_eq (pages : ∀ m ∈ treePages (.node q c), IsPage L m)
    (spells : Spells k.mem (h + 1) w (.node q c)) :
    walkLevel va false h q k = .ok (entryAddr (h + 1) va (.node q c), k) := by
  induction h generalizing q c w with
  | zero => rfl
  | succ h ih =>
    have inside := px_lt (h + 1) va
    have below := spells.2 _ inside
    rcases below.cases with ⟨none_, absent⟩ | ⟨q', c', some_, present, deeper⟩
    · rw [walkLevel_absent (by rw [absent]; rfl), entryAddr, Radix.slot, ← px_eq_digit, none_,
        Radix.slot_empty, Option.elim_none]
    · have pages' : ∀ m ∈ treePages (.node q' c'), IsPage L m := by
        intro m mem
        rw [← some_] at mem
        exact pages m (Radix.mem_pages_child inside mem)
      have page := pages' q' (Radix.page_mem q' c')
      rw [walkLevel_valid (present ▸ pointer_valid q'), present,
        pte2pa_pointer page.aligned page.small, ih pages' (some_ ▸ below), entryAddr, entryAddr,
        Radix.slot, ← px_eq_digit, some_]

/-- The memory after a new node at page `m` is linked into entry `i` of page `q`. -/
def linkMem (mem : Bytes) (q i m : Nat) : Bytes :=
  (mem.splice m PGSIZE fun _ => 0).splice (q + 8 * i) 8 (Bytes.digits (pointer m))

theorem walkLevel_exhausted (absent : word k.mem q (px (h + 1) va) &&& PTE_V = 0)
    (none_ : kalloc k = .ok (0, k')) : walkLevel va true (h + 1) q k = .ok (0, k') :=
  (congrFun (if_neg (not_not_intro absent)) k).trans (run_bind none_)

theorem walkLevel_link {m : Nat} (absent : word k.mem q (px (h + 1) va) &&& PTE_V = 0)
    (fresh : kalloc k = .ok (m, k')) (nonzero : m ≠ 0) :
    walkLevel va true (h + 1) q k =
      walkLevel va true h m { k' with mem := linkMem k'.mem q (px (h + 1) va) m } :=
  ((congrFun (if_neg (not_not_intro absent)) k).trans (run_bind fresh)).trans
    (congrFun (if_neg nonzero) k')

/-- A node without entries. -/
def emptyNode (m : Nat) : Tree := .node m fun _ => .empty

theorem pages_emptyNode (f : Leaf → Multiset Nat) (m : Nat) :
    Radix.pages 512 f (emptyNode m) = {m} := by
  rw [emptyNode, Radix.pages_node]
  simp only [Radix.pages_empty, Finset.sum_const_zero, Multiset.cons_zero]

theorem treePages_emptyNode (m : Nat) : treePages (emptyNode m) = {m} := pages_emptyNode _ m

theorem get_emptyNode (m h u : Nat) : Radix.get 512 (h + 1) u (emptyNode m) = none := by
  rw [emptyNode, Radix.get_node, Radix.get_empty]

/-! How an allocating walk moves pages does not depend on which pages the leaves stand
for: `f` counts the pages of a process in, or counts the nodes alone. -/

variable {f : Leaf → Multiset Nat}

theorem link_spec {m i : Nat} {rest : List Nat} {k₁ : KState}
    (ok : Holds L k (m :: rest) (Radix.pages 512 f (.node q c)))
    (spells : Spells k.mem (h + 2) w (.node q c)) (inside : i < 512) (absent : c i = .empty)
    (taken : Exchange k k₁ (m :: rest) 0 rest {m}) :
    Exchange k { k₁ with mem := linkMem k₁.mem q i m } (m :: rest) (Radix.pages 512 f (.node q c))
        rest (Radix.pages 512 f (.node q (update c i (emptyNode m)))) ∧
      Spells (linkMem k₁.mem q i m) (h + 2) w (.node q (update c i (emptyNode m))) := by
  have page := ok.free_page (m := m) List.mem_cons_self
  have rooted := ok.held_page (Radix.page_mem q c)
  have apart : ∀ p ∈ Radix.pages 512 f (.node q c), p ≠ m := fun p mem same =>
    ok.not_free mem (same ▸ List.mem_cons_self)
  have after : Radix.pages 512 f (.node q (update c i (emptyNode m))) =
      {m} + Radix.pages 512 f (.node q c) := by
    rw [Radix.pages_update q c inside, Radix.pages_around q c inside, absent, Radix.pages_empty,
      zero_add, pages_emptyNode]
  rw [after]
  have allocated := (taken.beside (Radix.pages 512 f (.node q c))).congr (zero_add _) rfl
  have ok₁ := ok.exchange allocated
  have cleared := Exchange.write ok₁ (Multiset.mem_add.mpr (.inl (Multiset.mem_singleton_self m)))
    (within_page k₁.mem (fun _ => 0) m)
  have linked := Exchange.write (ok₁.exchange cleared)
    (Multiset.mem_add.mpr (.inr (Radix.page_mem q c)))
    (within_store (w := pointer m) inside)
  refine ⟨(allocated.trans cleared).trans linked, ?_⟩
  -- what the pages of the old tree see of the allocation and of the `memset`
  have same : ∀ p ∈ Radix.pages 512 f (.node q c),
      SamePage k.mem (k₁.mem.splice m PGSIZE fun _ => 0) p := fun p mem =>
    (taken.samePage (by rwa [zero_add]) mem).trans
      ((within_page k₁.mem (fun _ => 0) m).samePage page.aligned (ok.held_page mem).aligned
        (apart p mem))
  refine spells.update (f := f) (fun j low other => ?_) ⟨?_, fun j low => ?_⟩
    fun j low other p mem l small => ?_
  · rw [linkMem, word_store_of_ne other, word_of_samePage (same q (Radix.page_mem q c)) low]
  · rw [linkMem, word_store_self (pointer_lt page.small)]
  · have untouched : SamePage (k₁.mem.splice m PGSIZE fun _ => 0) (linkMem k₁.mem q i m) m :=
      (within_store inside).samePage rooted.aligned page.aligned (apart q (Radix.page_mem q c)).symm
    rw [Radix.stored_empty, word_of_samePage untouched low]
    exact word_zero (fun x below => splice_const_inside 0 below) low
  · have mem' := Radix.mem_pages_child (q := q) low mem
    have other' : p ≠ q := by
      rintro rfl
      exact Radix.page_not_mem_child ok.held_nodup low mem
    rw [linkMem, word_of_samePage ((within_store inside).samePage rooted.aligned
      (ok.held_page mem').aligned other') small, word_of_samePage (same p mem') small]

/-- What happens below child `i`, seen from its parent. -/
theorem descend_spec {i : Nat} {x : Tree} (ok : Holds L k free (Radix.pages 512 f (.node q c)))
    (spells : Spells k.mem (h + 1) w (.node q c)) (inside : i < 512)
    (exchange : Exchange k k' free (Radix.pages 512 f (c i)) free' (Radix.pages 512 f x))
    (below : Spells k'.mem h (word k.mem q i) x) :
    Exchange k k' free (Radix.pages 512 f (.node q c)) free'
        (Radix.pages 512 f (.node q (update c i x))) ∧
      Spells k'.mem (h + 1) w (.node q (update c i x)) := by
  have split := Radix.pages_around (f := f) q c inside
  have ok' : Holds L k free (Radix.pages 512 f (c i) + Radix.around 512 f q c i) := split ▸ ok
  have same : ∀ j, j < 512 → word k'.mem q j = word k.mem q j := fun j low =>
    word_of_samePage (exchange.samePage ok' (Radix.page_mem_around q c i)) low
  constructor
  · exact (exchange.beside _).congr split.symm (Radix.pages_update q c inside x).symm
  · refine spells.update (f := f) (fun j low _ => same j low) ?_
      fun j low other p mem l small =>
        word_of_samePage (exchange.samePage ok' (Radix.mem_around low other mem)) small
    rw [same i inside]
    exact below

/-- An allocating walk from `t` to `t'`, of height `h + 1`: the leaves are the same, new
    nodes come from the free list, and without a way to `va` there are no free pages. -/
structure Walked (L : Layout) (va h w : Nat) (k k' : KState) (free free' : List Nat) (t t' : Tree) :
    Prop where
  exchange : ∀ {f}, Holds L k free (Radix.pages 512 f t) →
    Exchange k k' free (Radix.pages 512 f t) free' (Radix.pages 512 f t')
  spells : Spells k'.mem (h + 1) w t'
  leaves : ∀ u, Radix.get 512 (h + 1) u t' = Radix.get 512 (h + 1) u t
  exhausted : Radix.slot 512 (h + 1) (vpn va) t' = none → free' = []
  bounded : free.length ≤ free'.length + h

theorem Walked.below {x y : Tree} (ok : Holds L k free (Radix.pages 512 f (.node q c)))
    (spells : Spells k.mem (h + 2) w (.node q c)) (child : c (px (h + 1) va) = y)
    (inner : Walked L va h (word k.mem q (px (h + 1) va)) k k' free free' y x) :
    Walked L va (h + 1) w k k' free free' (.node q c)
      (.node q (update c (px (h + 1) va) x)) := by
  subst child
  have inside := px_lt (h + 1) va
  have childHolds : ∀ {f}, Holds L k free (Radix.pages 512 f (.node q c)) →
      Holds L k free (Radix.pages 512 f (c (px (h + 1) va))) := fun ok =>
    ok.mono (Radix.pages_child_le q c inside)
  refine ⟨fun ok => (descend_spec ok spells inside (inner.exchange (childHolds ok)) inner.spells).1,
    (descend_spec ok spells inside (inner.exchange (childHolds ok)) inner.spells).2,
    fun u => ?_, fun none_ => inner.exhausted ?_, ?_⟩
  · rw [Radix.get_node, Radix.get_node]
    by_cases same : Radix.digit 512 (h + 1) u = px (h + 1) va
    · rw [same, update_self, inner.leaves]
    · rw [update_of_ne same]
  · rw [Radix.slot, ← px_eq_digit, update_self] at none_
    exact none_
  · have := inner.bounded
    omega

variable (va) in
theorem walkLevel_alloc (ok : Holds L k free (Radix.pages 512 f (.node q c)))
    (spells : Spells k.mem (h + 1) w (.node q c)) :
    ∃ k' free' c', walkLevel va true h q k = .ok (entryAddr (h + 1) va (.node q c'), k') ∧
      Walked L va h w k k' free free' (.node q c) (.node q c') := by
  induction h generalizing k free q c w with
  | zero =>
    refine ⟨k, free, c, rfl, fun ok => .refl ok.chain, spells, fun _ => rfl, ?_, Nat.le_refl _⟩
    intro none_
    cases none_
  | succ h ih =>
    have inside := px_lt (h + 1) va
    have below := spells.2 _ inside
    rcases below.cases with ⟨none_, absent⟩ | ⟨q', c', some_, present, deeper⟩
    · rcases kalloc_spec (ok.mono (Multiset.zero_le _)) with
        ⟨rfl, out⟩ | ⟨m, rest, k₁, rfl, got, taken⟩
      · have nowhere : Radix.slot 512 (h + 2) (vpn va) (.node q c) = none := by
          rw [Radix.slot, ← px_eq_digit, none_, Radix.slot_empty]
        refine ⟨k, [], c, ?_, fun ok => .refl ok.chain, spells, fun _ => rfl, fun _ => rfl,
          Nat.zero_le _⟩
        rw [walkLevel_exhausted (by rw [absent]; rfl) out, entryAddr, nowhere, Option.elim_none]
      · have page := ok.free_page (m := m) List.mem_cons_self
        obtain ⟨linked, spelt⟩ := link_spec ok spells inside none_ taken
        have ok₂ := ok.exchange linked
        have child := spelt.2 _ inside
        rw [update_self] at child
        have childOk : Holds L _ rest (Radix.pages 512 f (emptyNode m)) := ok₂.mono (by
          rw [Radix.pages_update q c inside]
          exact Multiset.le_add_right _ _)
        obtain ⟨k', free', c', ran, walked⟩ := ih childOk child
        have whole := walked.below ok₂ spelt (update_self _ _ _)
        rw [update_idem] at whole
        refine ⟨k', free', _, ?_, fun ok => ?_, whole.spells, fun u => ?_, whole.exhausted, ?_⟩
        · rw [walkLevel_link (by rw [absent]; rfl) got page.ne_zero, ran, entryAddr, entryAddr,
            Radix.slot, ← px_eq_digit, update_self]
        · have linked := (link_spec ok spells inside none_ taken).1
          exact linked.trans (whole.exchange (ok.exchange linked))
        · rw [whole.leaves, Radix.get_node, Radix.get_node]
          by_cases same : Radix.digit 512 (h + 1) u = px (h + 1) va
          · rw [same, update_self, none_, get_emptyNode, Radix.get_empty]
          · rw [update_of_ne same]
        · have := walked.bounded
          rw [List.length_cons]
          omega
    · rw [some_] at below
      have childOk : Holds L k free (Radix.pages 512 f (.node q' c')) := ok.mono (by
        rw [← some_]
        exact Radix.pages_child_le q c inside)
      have page := childOk.held_page (Radix.page_mem q' c')
      obtain ⟨k', free', c'', ran, walked⟩ := ih childOk below
      refine ⟨k', free', _, ?_, walked.below ok spells some_⟩
      rw [walkLevel_valid (present ▸ pointer_valid q'), present,
        pte2pa_pointer page.aligned page.small, ran, entryAddr, entryAddr, Radix.slot,
        ← px_eq_digit, update_self]

theorem Table.of_walked {root : Nat} {t' : Tree} (rooted : ∃ c, t' = .node root c)
    (walked : Walked L va 2 (pointer root) k k' free free' t t') : Table k'.mem root t' :=
  ⟨rooted, walked.spells⟩

theorem walk_eq {root : Nat} (ok : Holds L k free (treePages t)) (table : Table k.mem root t)
    (low : va < MAXVA) : walk root va false k = .ok (entryAddr 3 va t, k) := by
  obtain ⟨⟨c, rfl⟩, spells⟩ := table
  rw [walk]
  simp only [if_neg (Nat.not_le.mpr low)]
  exact walkLevel_eq (fun m mem => ok.held_page mem) spells

theorem walk_alloc {root : Nat} (ok : Holds L k free (treePages t)) (table : Table k.mem root t)
    (low : va < MAXVA) :
    ∃ k' free' t', walk root va true k = .ok (entryAddr 3 va t', k') ∧ Table k'.mem root t' ∧
      Walked L va 2 (pointer root) k k' free free' t t' := by
  obtain ⟨⟨c, rfl⟩, spells⟩ := table
  obtain ⟨k', free', c', ran, walked⟩ := walkLevel_alloc va ok spells
  refine ⟨k', free', _, ?_, .of_walked ⟨c', rfl⟩ walked, walked⟩
  rw [walk]
  simp only [if_neg (Nat.not_le.mpr low)]
  exact ran

/-! ## Reading and writing an entry -/

section Entries

variable {root v p : Nat} {x : Leaf}

section

variable (table : Table k.mem root t) (at_ : Radix.slot 512 3 v t = some p)
include table at_

theorem word_of_none (none_ : leafAt t v = none) : word k.mem p (Radix.digit 512 0 v) = 0 := by
  rcases (table.2.entry (by decide) at_).cases_zero with ⟨_, zero⟩ | ⟨x, some_, _⟩
  · exact zero
  · rw [leafAt, Radix.get, some_] at none_
    cases none_

theorem ok_of_some (some_ : leafAt t v = some x) : x.Ok (word k.mem p (Radix.digit 512 0 v)) := by
  rcases (table.2.entry (by decide) at_).cases_zero with ⟨none_, _⟩ | ⟨y, isLeaf, good⟩
  · rw [leafAt, Radix.get, none_] at some_
    cases some_
  · rw [leafAt, Radix.get, isLeaf] at some_
    cases some_
    exact good

theorem pages_set_entry (y : Tree) :
    treePages (Radix.set 512 y 3 v t) + ((leafAt t v).map Leaf.pages).getD 0 =
      treePages t + treePages y := by
  rw [← Radix.pages_set (f := Leaf.pages) (by decide) y at_]
  congr 1
  rcases (table.2.entry (by decide) at_).cases_zero with ⟨none_, _⟩ | ⟨x, isLeaf, _⟩
  · rw [leafAt, Radix.get, none_, Radix.pages_empty]
    rfl
  · rw [leafAt, Radix.get, isLeaf, Radix.pages_leaf]
    rfl

end

theorem Table.set {mem : Bytes} {y : Tree} (table : Table mem root t)
    (nodup : (Radix.nodes 512 t).Nodup) (aligned : ∀ q ∈ Radix.nodes 512 t, q % PGSIZE = 0)
    (at_ : Radix.slot 512 3 v t = some p) (small : w < 2 ^ 64)
    (good : Spells (mem.splice (p + 8 * Radix.digit 512 0 v) 8 (Bytes.digits w)) 0 w y) :
    Table (mem.splice (p + 8 * Radix.digit 512 0 v) 8 (Bytes.digits w)) root
      (Radix.set 512 y 3 v t) := by
  obtain ⟨⟨c, rfl⟩, spells⟩ := table
  have inside : Radix.digit 512 0 v < 512 := Radix.digit_lt (by decide) 0 v
  refine ⟨⟨_, rfl⟩, spells.set (f := fun _ => 0) (by decide) nodup at_ ?_ ?_ ?_⟩
  · intro q mem other j low
    exact word_of_samePage ((within_store inside).samePage
      (aligned p (Radix.slot_mem (by decide) at_)) (aligned q mem) other) low
  · exact fun j low other => word_store_of_ne other
  · rw [word_store_self small]
    exact good

theorem leafAt_set (y : Tree) (low : v < 2 ^ 27) (at_ : Radix.slot 512 3 v t = some p) (u : Nat)
    (small : u < 2 ^ 27) :
    leafAt (Radix.set 512 y 3 v t) u = if u = v then y.value else leafAt t u := by
  have reduced : ∀ i, i < 2 ^ 27 → i % 512 ^ (2 + 1) = i := fun i below =>
    Nat.mod_eq_of_lt (Nat.lt_of_lt_of_eq below (by decide))
  rw [leafAt, Radix.get_set (by decide) at_, reduced u small, reduced v low]

end Entries

/-! ## Mapping a page -/

theorem mappages_one (root v pa perm : Nat) (low : v < 2 ^ 26) :
    mappages root (PGSIZE * v) PGSIZE pa perm = mappagesLoop root perm 0 (PGSIZE * v) pa := by
  have rounded : pgRoundDown (PGSIZE * v) = PGSIZE * v := by
    rw [pgRoundDown, Nat.mul_div_cancel_left v (by decide), Nat.mul_comm]
  have last : pgRoundDown (u64 (PGSIZE * v + PGSIZE - 1)) = PGSIZE * v := by
    unfold pgRoundDown u64 PGSIZE
    omega
  have same : sub64 (PGSIZE * v) (PGSIZE * v) = 0 := by
    unfold sub64 u64
    omega
  rw [mappages]
  simp only [rounded, last, same, Nat.zero_div]
  exact if_neg (by decide)

section Map

variable {root v pa perm p : Nat} {k₁ : KState}

theorem mappagesLoop_failed (walked : walk root (PGSIZE * v) true k = .ok (0, k₁)) :
    mappagesLoop root perm 0 (PGSIZE * v) pa k = .ok (-1, k₁) := by
  rw [mappagesLoop, run_bind walked]
  rfl

variable (pa perm) in
theorem mappagesLoop_stored {pte : Nat} (walked : walk root (PGSIZE * v) true k = .ok (pte, k₁))
    (nonzero : pte ≠ 0) (absent : k₁.mem.getLE pte 8 = 0) :
    mappagesLoop root perm 0 (PGSIZE * v) pa k =
      .ok (0, { k₁ with
        mem := k₁.mem.splice pte 8 (Bytes.digits (pa2pte pa ||| perm ||| PTE_V)) }) := by
  rw [mappagesLoop, run_bind walked]
  simp only [if_neg nonzero]
  rw [run_bind (show load64 pte k₁ = .ok (0, k₁) by rw [← absent]; rfl)]
  rfl

theorem entryAddr_mul (h v : Nat) (t : Tree) : entryAddr h (PGSIZE * v) t =
    (Radix.slot 512 h v t).elim 0 fun p => p + 8 * Radix.digit 512 0 v := by
  rw [entryAddr, px_eq_digit, vpn_mul]

theorem mul_lt_MAXVA (low : v < 2 ^ 26) : PGSIZE * v < MAXVA := by
  unfold PGSIZE MAXVA
  omega

/-- Nothing but free pages and nodes of `t` has changed. -/
def Spares (free : List Nat) (t : Tree) (mem mem' : Bytes) : Prop :=
  ∀ m, m % PGSIZE = 0 → m ∉ free → m ∉ Radix.nodes 512 t → SamePage mem mem' m

/-- `mappages` for one page: it runs out of memory, or the page is mapped. -/
theorem mappages_spec (x : Leaf) (ok : Holds L k free (treePages t)) (table : Table k.mem root t)
    (low : v < 2 ^ 26) (none_ : leafAt t v = none)
    (entry : x.pte = pa2pte pa ||| perm ||| PTE_V) (good : x.Ok x.pte) :
    ∃ k' free' t', Table k'.mem root t' ∧ Spares free t k.mem k'.mem ∧
      ((mappages root (PGSIZE * v) PGSIZE pa perm k = .ok (-1, k') ∧ free.length ≤ 2 ∧
          Exchange k k' free (treePages t) free' (treePages t') ∧
          ∀ u, leafAt t' u = leafAt t u) ∨
        (mappages root (PGSIZE * v) PGSIZE pa perm k = .ok (0, k') ∧
          Exchange k k' free (treePages t + x.pages) free' (treePages t') ∧
          (∀ u, u < 2 ^ 27 → leafAt t' u = if u = v then some x else leafAt t u) ∧
          free.length ≤ free'.length + 2)) := by
  rw [mappages_one root v pa perm low]
  obtain ⟨k₁, free₁, t₁, ran, table₁, walked⟩ := walk_alloc ok table (mul_lt_MAXVA low)
  rw [entryAddr_mul] at ran
  have exchange := walked.exchange ok
  have nodesMove := walked.exchange (ok.mono (Radix.nodes_le_pages t))
  have nodesOk := (ok.mono (Radix.nodes_le_pages t)).exchange nodesMove
  have ok₁ := ok.exchange exchange
  cases at_ : Radix.slot 512 3 v t₁ with
  | none =>
    rw [at_] at ran
    have none_ : free₁ = [] := walked.exhausted (by rw [vpn_mul]; exact at_)
    have few := walked.bounded
    rw [none_, List.length_nil, Nat.zero_add] at few
    exact ⟨k₁, free₁, t₁, table₁, nodesMove.frame, .inl ⟨mappagesLoop_failed ran, few, exchange,
      walked.leaves⟩⟩
  | some p =>
    rw [at_] at ran
    have mine : p ∈ treePages t₁ := Radix.slot_mem (by decide) at_
    have page := ok₁.held_page mine
    have inside : Radix.digit 512 0 v < 512 := Radix.digit_lt (by decide) 0 v
    have none₁ : leafAt t₁ v = none := (walked.leaves v).trans none_
    have stored := mappagesLoop_stored pa perm ran
      (Nat.ne_of_gt (Nat.add_pos_left (Nat.pos_of_ne_zero page.ne_zero) _))
      (word_of_none table₁ at_ none₁)
    rw [← entry] at stored
    have written := Exchange.write ok₁ mine (within_store (w := x.pte) inside)
    have nodesWritten := Exchange.write nodesOk (Radix.slot_mem (by decide) at_)
      (within_store (w := x.pte) inside)
    have nodes := Radix.nodes_le_pages (b := 512) (f := Leaf.pages) t₁
    have accounts : treePages (Radix.set 512 (.leaf x) 3 v t₁) = treePages t₁ + x.pages := by
      have sum := pages_set_entry table₁ at_ (.leaf x)
      rw [none₁, Option.map_none, Option.getD_none, add_zero] at sum
      rw [sum, treePages, treePages, Radix.pages_leaf]
    refine ⟨_, free₁, Radix.set 512 (.leaf x) 3 v t₁, ?_, (nodesMove.trans nodesWritten).frame,
      .inr ⟨stored, ?_, ?_, walked.bounded⟩⟩
    · exact table₁.set (Multiset.nodup_of_le nodes ok₁.held_nodup)
        (fun q mem => (ok₁.held_page (Multiset.mem_of_le nodes mem)).aligned) at_
        good.leaf.small good
    · rw [accounts]
      exact (exchange.trans written).beside x.pages
    · intro u small
      rw [leafAt_set _ (Nat.lt_trans low (by decide)) at_ u small]
      exact congrArg (ite _ _) (walked.leaves u)

end Map

/-! ## What user code sees of a change of its table -/

/-- Pages of the process that stay mapped keep their contents. -/
def Keeps (mem mem' : Bytes) (t t' : Tree) : Prop :=
  ∀ u x, u < 2 ^ 27 → leafAt t u = some x → x.user = true → leafAt t' u = some x →
    SamePage mem mem' (pte2pa x.pte)

theorem Keeps.refl (mem : Bytes) (t : Tree) : Keeps mem mem t t :=
  fun _ _ _ _ _ _ => SamePage.refl _ _

theorem Keeps.trans {mem mem' mem'' : Bytes} {t' t'' : Tree} (first : Keeps mem mem' t t')
    (second : Keeps mem' mem'' t' t'')
    (between : ∀ u x, u < 2 ^ 27 → leafAt t u = some x → leafAt t'' u = some x →
      leafAt t' u = some x) : Keeps mem mem'' t t'' := by
  intro u x small before user after
  have here := between u x small before after
  exact (first u x small before user here).trans (second u x small here user after)

theorem leaf_owned {v : Nat} {x : Leaf} (some_ : leafAt t v = some x) (user : x.user = true) :
    pte2pa x.pte ∈ x.pages ∧ pte2pa x.pte ∈ treePages t := by
  have owned : pte2pa x.pte ∈ x.pages := by
    rw [Leaf.pages, if_pos user]
    exact Multiset.mem_singleton_self _
  exact ⟨owned, Multiset.mem_of_le (Radix.get_pages_le (by decide) some_) owned⟩

theorem Spares.keeps {mem' : Bytes} {t' : Tree} (spares : Spares free t k.mem mem')
    (ok : Holds L k free (treePages t)) : Keeps k.mem mem' t t' := by
  intro u x _ some_ user _
  obtain ⟨owned, mine⟩ := leaf_owned some_ user
  exact spares _ (ok.held_page mine).aligned (ok.not_free mine)
    (Radix.value_not_node (by decide) ok.held_nodup some_ owned)

/-! ## Unmapping pages -/

section Unmap

variable {root v pte p n : Nat} {x : Leaf} {k₁ : KState}

theorem uvmunmapLoop_keep (walked : walk root (PGSIZE * v) false k = .ok (pte, k))
    (nonzero : pte ≠ 0) (good : x.Ok (k.mem.getLE pte 8)) :
    uvmunmapLoop L root false (n + 1) (PGSIZE * v) k =
      uvmunmapLoop L root false n (PGSIZE * (v + 1))
        { k with mem := k.mem.splice pte 8 (Bytes.digits 0) } := by
  have leaf : LeafPte (k.mem.getLE pte 8) := good.word ▸ good.leaf
  rw [uvmunmapLoop, run_bind walked]
  simp only [if_neg nonzero]
  rw [run_bind (show load64 pte k = .ok (k.mem.getLE pte 8, k) from rfl)]
  simp only [if_neg leaf.valid, if_neg leaf.flags_ne]
  rfl

theorem uvmunmapLoop_free (walked : walk root (PGSIZE * v) false k = .ok (pte, k))
    (nonzero : pte ≠ 0) (good : x.Ok (k.mem.getLE pte 8))
    (freed : kfree L (pte2pa x.pte) k = .ok ((), k₁)) :
    uvmunmapLoop L root true (n + 1) (PGSIZE * v) k =
      uvmunmapLoop L root true n (PGSIZE * (v + 1))
        { k₁ with mem := k₁.mem.splice pte 8 (Bytes.digits 0) } := by
  have leaf : LeafPte (k.mem.getLE pte 8) := good.word ▸ good.leaf
  rw [uvmunmapLoop, run_bind walked]
  simp only [if_neg nonzero]
  rw [run_bind (show load64 pte k = .ok (k.mem.getLE pte 8, k) from rfl)]
  simp only [if_neg leaf.valid, if_neg leaf.flags_ne, if_true]
  rw [← good.word] at freed
  rw [run_bind freed]
  rfl

/-- A walk to a page that is mapped finds its entry. -/
theorem walk_leaf (ok : Holds L k free (treePages t)) (table : Table k.mem root t)
    (low : v < 2 ^ 26) (some_ : leafAt t v = some x) :
    ∃ p, Radix.slot 512 3 v t = some p ∧ p ∈ treePages t ∧
      walk root (PGSIZE * v) false k = .ok (p + 8 * Radix.digit 512 0 v, k) ∧
      p + 8 * Radix.digit 512 0 v ≠ 0 ∧ x.Ok (word k.mem p (Radix.digit 512 0 v)) := by
  obtain ⟨p, at_⟩ := Radix.slot_of_get some_
  have mine : p ∈ treePages t := Radix.slot_mem (by decide) at_
  have walked := walk_eq ok table (mul_lt_MAXVA low)
  rw [entryAddr_mul, at_, Option.elim_some] at walked
  exact ⟨p, at_, mine, walked,
    Nat.ne_of_gt (Nat.add_pos_left (Nat.pos_of_ne_zero (ok.held_page mine).ne_zero) _),
    ok_of_some table at_ some_⟩

theorem uvmunmapLoop_step (ok : Holds L k free (treePages t)) (table : Table k.mem root t)
    (low : v < 2 ^ 26) (some_ : leafAt t v = some x) :
    ∃ k' free' t', (∀ n, uvmunmapLoop L root x.user (n + 1) (PGSIZE * v) k =
        uvmunmapLoop L root x.user n (PGSIZE * (v + 1)) k') ∧ Table k'.mem root t' ∧
      Exchange k k' free (treePages t) free' (treePages t') ∧ Keeps k.mem k'.mem t t' ∧
      ∀ u, u < 2 ^ 27 → leafAt t' u = if u = v then none else leafAt t u := by
  obtain ⟨p, at_, mine, walked, nonzero, good⟩ := walk_leaf ok table low some_
  have page := ok.held_page mine
  have inside : Radix.digit 512 0 v < 512 := Radix.digit_lt (by decide) 0 v
  have nodes := Radix.nodes_le_pages (b := 512) (f := Leaf.pages) t
  have nodup := Multiset.nodup_of_le nodes ok.held_nodup
  have aligned : ∀ q ∈ Radix.nodes 512 t, q % PGSIZE = 0 := fun q mem =>
    (ok.held_page (Multiset.mem_of_le nodes mem)).aligned
  have accounts := pages_set_entry table at_ .empty
  rw [some_, Option.map_some, Option.getD_some, treePages, treePages, treePages,
    Radix.pages_empty, add_zero] at accounts
  have leaves : ∀ u, u < 2 ^ 27 → leafAt (Radix.set 512 .empty 3 v t) u =
      if u = v then none else leafAt t u :=
    leafAt_set .empty (Nat.lt_trans low (by decide)) at_
  have apart : ∀ {u y}, leafAt t u = some y → y.user = true → pte2pa y.pte ≠ p := by
    rintro u y some_ user rfl
    exact Radix.value_not_node (by decide) ok.held_nodup some_ (leaf_owned some_ user).1
      (Radix.slot_mem (by decide) at_)
  cases user : x.user with
  | false =>
    rw [show x.pages = 0 by rw [Leaf.pages, user]; rfl, add_zero] at accounts
    refine ⟨_, free, Radix.set 512 .empty 3 v t, fun n => uvmunmapLoop_keep walked nonzero good,
      table.set nodup aligned at_ (by decide) rfl, ?_, fun u y _ some' user' _ => ?_, leaves⟩
    · rw [treePages, treePages, accounts]
      exact Exchange.write ok mine (within_store inside)
    · exact (within_store inside).samePage page.aligned
        (ok.held_page (leaf_owned some' user').2).aligned (apart some' user')
  | true =>
    have owned : x.pages = {pte2pa x.pte} := by rw [Leaf.pages, user]; rfl
    rw [owned] at accounts
    have ok' : Holds L k free
        ({pte2pa x.pte} + Radix.pages 512 Leaf.pages (Radix.set 512 .empty 3 v t)) := by
      rw [add_comm, accounts]
      exact ok
    obtain ⟨k₁, freed, released⟩ := kfree_spec ok'.left
    have whole := (released.beside _).congr rfl (zero_add
      (Radix.pages 512 Leaf.pages (Radix.set 512 .empty 3 v t)))
    have leafPage : pte2pa x.pte ∉ Radix.nodes 512 t :=
      Radix.value_not_node (by decide) ok.held_nodup some_
        (owned ▸ Multiset.mem_singleton_self _)
    have same : ∀ q ∈ Radix.nodes 512 t, SamePage k.mem k₁.mem q := fun q mem =>
      released.frame q (aligned q mem) (ok.not_free (Multiset.mem_of_le nodes mem)) fun isLeaf =>
        leafPage (Multiset.mem_singleton.mp isLeaf ▸ mem)
    have table₁ : Table k₁.mem root t := ⟨table.1, table.2.frame (f := fun _ => 0)
      fun q mem j low => word_of_samePage (same q mem) low⟩
    have still : p ∈ Radix.pages 512 Leaf.pages (Radix.set 512 .empty 3 v t) := by
      have mem : p ∈ Radix.pages 512 Leaf.pages t := mine
      rw [← accounts, Multiset.mem_add] at mem
      rcases mem with mem | mem
      · exact mem
      · rw [Multiset.mem_singleton.mp mem] at at_
        exact absurd (Radix.slot_mem (by decide) at_) leafPage
    refine ⟨_, pte2pa x.pte :: free, Radix.set 512 .empty 3 v t,
      fun n => uvmunmapLoop_free walked nonzero good freed,
      table₁.set nodup aligned at_ (by decide) rfl, ?_, fun u y small some' user' after => ?_,
      leaves⟩
    · exact (whole.congr ((add_comm _ _).trans accounts) rfl).trans
        (Exchange.write (ok'.exchange whole) still (within_store inside))
    · obtain ⟨owned', mine'⟩ := leaf_owned some' user'
      have page' := (ok.held_page mine').aligned
      have other : pte2pa y.pte ≠ pte2pa x.pte := by
        intro same
        have key := Radix.key_unique (by decide) ok.held_nodup some' some_ owned'
          (same ▸ owned ▸ Multiset.mem_singleton_self _)
        rw [Nat.mod_eq_of_lt (by omega), Nat.mod_eq_of_lt (by omega)] at key
        rw [leaves u small, if_pos key] at after
        cases after
      exact (released.frame _ page' (ok.not_free mine') fun isLeaf =>
        other (Multiset.mem_singleton.mp isLeaf)).trans
        ((within_store inside).samePage page.aligned page' (apart some' user'))

theorem uvmunmapLoop_spec (n : Nat) (user : Bool) (ok : Holds L k free (treePages t))
    (table : Table k.mem root t) (low : v + n ≤ 2 ^ 26)
    (mapped : ∀ u, v ≤ u → u < v + n → ∃ pte, leafAt t u = some ⟨pte, user⟩) :
    ∃ k' free' t', uvmunmapLoop L root user n (PGSIZE * v) k = .ok ((), k') ∧
      Table k'.mem root t' ∧ Exchange k k' free (treePages t) free' (treePages t') ∧
      Keeps k.mem k'.mem t t' ∧
      ∀ u, u < 2 ^ 27 → leafAt t' u = if v ≤ u ∧ u < v + n then none else leafAt t u := by
  induction n generalizing k free t v with
  | zero =>
    refine ⟨k, free, t, rfl, table, .refl ok.chain, .refl _ _, fun u _ => ?_⟩
    rw [if_neg (by omega)]
  | succ n ih =>
    obtain ⟨pte, some_⟩ := mapped v (Nat.le_refl v) (by omega)
    obtain ⟨k₁, free₁, t₁, ran, table₁, first, keeps₁, leaves₁⟩ :=
      uvmunmapLoop_step ok table (by omega) some_
    obtain ⟨k', free', t', rest, table', second, keeps', leaves'⟩ :=
      ih (v := v + 1) (ok.exchange first) table₁ (by omega) fun u from_ to_ => by
        obtain ⟨pte', some'⟩ := mapped u (by omega) (by omega)
        exact ⟨pte', by rw [leaves₁ u (by omega), if_neg (by omega), some']⟩
    have leaves : ∀ u, u < 2 ^ 27 → leafAt t' u =
        if v ≤ u ∧ u < v + (n + 1) then none else leafAt t u := fun u small => by
      rw [leaves' u small, leaves₁ u small]
      split
      · rw [if_pos (by omega)]
      · by_cases same : u = v
        · rw [if_pos same, if_pos (by omega)]
        · rw [if_neg same, if_neg (by omega)]
    refine ⟨k', free', t', (ran n).trans rest, table', first.trans second,
      keeps₁.trans keeps' fun u x small before after => ?_, leaves⟩
    rw [leaves₁ u small, if_neg, before]
    rintro rfl
    rw [leaves u small, if_pos (by omega)] at after
    cases after

theorem uvmunmap_spec (n : Nat) (user : Bool) (ok : Holds L k free (treePages t))
    (table : Table k.mem root t) (low : v + n ≤ 2 ^ 26)
    (mapped : ∀ u, v ≤ u → u < v + n → ∃ pte, leafAt t u = some ⟨pte, user⟩) :
    ∃ k' free' t', uvmunmap L root (PGSIZE * v) n user k = .ok ((), k') ∧
      Table k'.mem root t' ∧ Exchange k k' free (treePages t) free' (treePages t') ∧
      Keeps k.mem k'.mem t t' ∧
      ∀ u, u < 2 ^ 27 → leafAt t' u = if v ≤ u ∧ u < v + n then none else leafAt t u := by
  have aligned : ¬PGSIZE * v % PGSIZE ≠ 0 := fun bad => bad (Nat.mul_mod_right PGSIZE v)
  have unfolded :
      uvmunmap L root (PGSIZE * v) n user = uvmunmapLoop L root user n (PGSIZE * v) := by
    rw [uvmunmap]
    exact if_neg aligned
  rw [unfolded]
  exact uvmunmapLoop_spec n user ok table low mapped

end Unmap

end Trees

end Xv6.Kernel
