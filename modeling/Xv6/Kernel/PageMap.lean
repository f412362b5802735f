import Xv6.Kernel.ReadOnly
import Xv6.Lib.Trie

/-! # Page tables as finite maps

What a page table means: the partial map from page numbers to frames and flags that
a walk through memory reads off. Entries of interior nodes need only be valid or not,
and leaves may carry any flags and map any frame, so the tables of the kernel and of
the processes are covered alike. What is asked of the tree is that its nodes are pages
from `kalloc` and that no two of its paths lead to the same node.
-/

namespace Xv6.Kernel.PageMap

open Lib

/-- The node that an entry leads to. -/
def child (w : Nat) : Option Nat := if w &&& PTE_V = 0 then none else some (pte2pa w)

def valid (w : Nat) : Option Nat := if w &&& PTE_V = 0 then none else some w

/-- How many pages the three levels of a table can map; user code can name the lower
    half of them. -/
abbrev PAGES : Nat := 512 ^ (2 + 1)

/-- The node on the way to page `v` below which `2 - d` levels are left. -/
def tableAt (mem : Bytes) (root v d : Nat) : Option Nat :=
  Trie.node 512 2 child (word mem) root v d

/-- The valid entry for page `v`. -/
def pteAt (mem : Bytes) (root v : Nat) : Option Nat :=
  Trie.get 512 2 child valid (word mem) root v

/-- The frame and the flags of page `v`. -/
def translate (mem : Bytes) (root v : Nat) : Option (Nat × Nat) :=
  (pteAt mem root v).map fun w => (pte2pa w, pteFlags w)

def IsNode (mem : Bytes) (root m : Nat) : Prop :=
  ∃ v d, v < PAGES ∧ d ≤ 2 ∧ tableAt mem root v d = some m

/-- The table at `root` is a tree, next to a free list without its nodes. -/
structure WellFormed (L : Layout) (k : KState) (free : List Nat) (root : Nat) : Prop where
  chain : Chain k.mem k.freelist free
  nodup : free.Nodup
  page : ∀ m ∈ free, IsPage L m
  node : ∀ q, IsNode k.mem root q → IsPage L q ∧ q ∉ free
  unshared : Trie.Unshared 512 2 child (word k.mem) root

section Walk

variable {L : Layout} {k k' : KState} {free free' : List Nat} {root v d q va m : Nat}

theorem WellFormed.holds (wf : WellFormed L k free root) : Holds L k free 0 where
  chain := wf.chain
  nodup := by
    rw [add_zero, Multiset.coe_nodup]
    exact wf.nodup
  page m mem := wf.page m (by simpa using mem)

theorem vpn_lt_pages (low : va < MAXVA) : vpn va < PAGES :=
  Nat.lt_trans (vpn_lt low) (by decide)

theorem tableAt_succ (at_ : tableAt k.mem root v d = some q) :
    tableAt k.mem root v (d + 1) = child (word k.mem q (Radix.digit 512 (2 - d) v)) := by
  rw [tableAt, Trie.node, show Trie.node 512 2 child (word k.mem) root v d = some q from at_]
  rfl

/-! ## walk -/

/-- The address of the entry for `va`, if its node is there, or 0. -/
def pteAddr (mem : Bytes) (root va : Nat) : Nat :=
  (tableAt mem root (vpn va) 2).elim 0 fun p => p + 8 * px 0 va

theorem walkLevel_lookup {l : Nat} (top : l ≤ 2)
    (at_ : tableAt k.mem root (vpn va) (2 - l) = some q) :
    walkLevel va false l q k = .ok (pteAddr k.mem root va, k) := by
  induction l generalizing q with
  | zero =>
    rw [pteAddr, at_]
    rfl
  | succ l ih =>
    have below := tableAt_succ at_
    rw [show 2 - (l + 1) + 1 = 2 - l by omega, show 2 - (2 - (l + 1)) = l + 1 by omega,
      ← px_eq_digit, child] at below
    by_cases absent : word k.mem q (px (l + 1) va) &&& PTE_V = 0
    · rw [if_pos absent] at below
      have nowhere : tableAt k.mem root (vpn va) 2 = none :=
        Trie.node_none_of_le below (by omega)
      rw [walkLevel_absent absent, pteAddr, nowhere, Option.elim_none]
    · rw [if_neg absent] at below
      rw [walkLevel_valid absent]
      exact ih (by omega) below

theorem walk_lookup (low : va < MAXVA) : walk root va false k = .ok (pteAddr k.mem root va, k) := by
  rw [walk]
  simp only [if_neg (Nat.not_le.mpr low)]
  exact walkLevel_lookup (Nat.le_refl 2) rfl

/-- What the nodes see when page `m` is taken from the free list and becomes a node. -/
theorem WellFormed.linked {rest : List Nat} {k₁ : KState} (wf : WellFormed L k (m :: rest) root)
    (low : v < PAGES) (inner : d < 2) (at_ : tableAt k.mem root v d = some q)
    (absent : word k.mem q (Radix.digit 512 (2 - d) v) &&& PTE_V = 0)
    (taken : Exchange k k₁ (m :: rest) 0 rest {m}) :
    Trie.Linked 512 2 child (word k.mem)
      (word (linkMem k₁.mem q (Radix.digit 512 (2 - d) v) m)) root v d q m ∧
    ∀ j, j < 512 → word (linkMem k₁.mem q (Radix.digit 512 (2 - d) v) m) m j = 0 := by
  have page := wf.page m List.mem_cons_self
  have inside : Radix.digit 512 (2 - d) v < 512 := Radix.digit_lt (by decide) _ _
  obtain ⟨pageQ, apartQ⟩ := wf.node q ⟨v, d, low, Nat.le_of_lt inner, at_⟩
  have different : m ≠ q := fun same => apartQ (same ▸ List.mem_cons_self)
  have zero : ∀ j, j < 512 → word (linkMem k₁.mem q (Radix.digit 512 (2 - d) v) m) m j = 0 := by
    intro j small
    have untouched : SamePage (k₁.mem.splice m PGSIZE fun _ => 0)
        (linkMem k₁.mem q (Radix.digit 512 (2 - d) v) m) m :=
      (within_store inside).samePage pageQ.aligned page.aligned different
    rw [word_of_samePage untouched small]
    exact word_zero (fun x below => splice_const_inside 0 below) small
  refine ⟨⟨⟨low, Nat.le_of_lt inner, at_, ?_⟩, inner, ?_, ?_, ?_, ?_⟩, zero⟩
  · -- the other words of the nodes
    intro u e p j key depth node small other
    obtain ⟨pageP, apartP⟩ := wf.node p ⟨u, e, key, depth, node⟩
    have same : SamePage k.mem (k₁.mem.splice m PGSIZE fun _ => 0) p :=
      (taken.frame p pageP.aligned apartP (Multiset.notMem_zero p)).trans
        ((within_page k₁.mem (fun _ => 0) m).samePage page.aligned pageP.aligned
          fun same => apartP (same ▸ List.mem_cons_self))
    by_cases here : p = q
    · subst here
      have index : j ≠ Radix.digit 512 (2 - d) v := fun same => other ⟨rfl, same⟩
      rw [linkMem, word_store_of_ne index, word_of_samePage same small]
    · rw [linkMem, word_of_samePage ((within_store inside).samePage pageQ.aligned
        pageP.aligned here) small, word_of_samePage same small]
  · rw [child, if_pos absent]
  · rw [linkMem, word_store_self (pointer_lt page.small), child, if_neg (pointer_valid m),
      pte2pa_pointer page.aligned page.small]
  · exact fun u e key depth node => (wf.node m ⟨u, e, key, depth, node⟩).2 List.mem_cons_self
  · intro j small
    rw [zero j small]
    rfl

/-- Afterwards the table is a tree again, and every page is mapped as it was. -/
theorem WellFormed.link {rest : List Nat} {k₁ : KState} (wf : WellFormed L k (m :: rest) root)
    (low : v < PAGES) (inner : d < 2) (at_ : tableAt k.mem root v d = some q)
    (absent : word k.mem q (Radix.digit 512 (2 - d) v) &&& PTE_V = 0)
    (taken : Exchange k k₁ (m :: rest) 0 rest {m}) :
    WellFormed L { k₁ with mem := linkMem k₁.mem q (Radix.digit 512 (2 - d) v) m } rest root ∧
      tableAt (linkMem k₁.mem q (Radix.digit 512 (2 - d) v) m) root v (d + 1) = some m ∧
      ∀ u, u < PAGES → pteAt (linkMem k₁.mem q (Radix.digit 512 (2 - d) v) m) root u =
        pteAt k.mem root u := by
  obtain ⟨linked, zero⟩ := wf.linked low inner at_ absent taken
  have page := wf.page m List.mem_cons_self
  have inside : Radix.digit 512 (2 - d) v < 512 := Radix.digit_lt (by decide) _ _
  obtain ⟨pageQ, apartQ⟩ := wf.node q ⟨v, d, low, Nat.le_of_lt inner, at_⟩
  obtain ⟨fresh, nodup⟩ := List.nodup_cons.mp wf.nodup
  refine ⟨⟨?_, nodup, fun p mem => wf.page p (List.mem_cons_of_mem m mem), ?_,
    linked.unshared wf.unshared (by decide)⟩,
    (linked.node_below wf.unshared (by decide) low rfl).2,
    fun u key => linked.get_eq wf.unshared (by decide) (fun j small => ?_) key⟩
  · refine taken.chain.frame fun p mem => ?_
    have pageP := wf.page p (List.mem_cons_of_mem m mem)
    exact ((within_page k₁.mem (fun _ => 0) m).samePage page.aligned pageP.aligned
      fun same => fresh (same ▸ mem)).trans ((within_store inside).samePage pageQ.aligned
        pageP.aligned fun same => apartQ (List.mem_cons_of_mem m (same ▸ mem)))
  · rintro p ⟨u, e, key, depth, node⟩
    rcases linked.node_cases wf.unshared (by decide) key depth node with old | ⟨rfl, -, -⟩
    · obtain ⟨pageP, apartP⟩ := wf.node p ⟨u, e, key, depth, old⟩
      exact ⟨pageP, fun mem => apartP (List.mem_cons_of_mem m mem)⟩
    · exact ⟨page, fresh⟩
  · rw [zero j small]
    rfl

/-- An allocating walk: it changes no translation, and fails only when it has used up
    the free list. -/
structure WalkedTo (L : Layout) (k k' : KState) (free free' : List Nat) (root va l : Nat) :
    Prop where
  wf : WellFormed L k' free' root
  same : ∀ u, u < PAGES → pteAt k'.mem root u = pteAt k.mem root u
  bounded : free.length ≤ free'.length + l
  exhausted : tableAt k'.mem root (vpn va) 2 = none → free' = []

theorem WellFormed.walkLevel_alloc {l : Nat} (wf : WellFormed L k free root)
    (low : vpn va < PAGES) (top : l ≤ 2) (at_ : tableAt k.mem root (vpn va) (2 - l) = some q) :
    ∃ k' free', walkLevel va true l q k = .ok (pteAddr k'.mem root va, k') ∧
      WalkedTo L k k' free free' root va l := by
  induction l generalizing k free q with
  | zero =>
    refine ⟨k, free, ?_, wf, fun _ _ => rfl, Nat.le_refl _, fun nowhere => ?_⟩
    · rw [pteAddr, at_]
      rfl
    · rw [at_] at nowhere
      cases nowhere
  | succ l ih =>
    have below := tableAt_succ at_
    rw [show 2 - (l + 1) + 1 = 2 - l by omega, show 2 - (2 - (l + 1)) = l + 1 by omega,
      ← px_eq_digit, child] at below
    by_cases absent : word k.mem q (px (l + 1) va) &&& PTE_V = 0
    · rw [if_pos absent] at below
      have nowhere : tableAt k.mem root (vpn va) 2 = none :=
        Trie.node_none_of_le below (by omega)
      rcases kalloc_spec wf.holds with ⟨rfl, out⟩ | ⟨m, rest, k₁, rfl, got, taken⟩
      · refine ⟨k, [], ?_, wf, fun _ _ => rfl, Nat.zero_le _, fun _ => rfl⟩
        rw [walkLevel_exhausted absent out, pteAddr, nowhere, Option.elim_none]
      · have index : px (l + 1) va = Radix.digit 512 (2 - (2 - (l + 1))) (vpn va) := by
          rw [px_eq_digit, show 2 - (2 - (l + 1)) = l + 1 by omega]
        have page := wf.page m List.mem_cons_self
        rw [index] at absent
        obtain ⟨wf₁, new, same₁⟩ := wf.link low (by omega) at_ absent taken
        rw [show 2 - (l + 1) + 1 = 2 - l by omega] at new
        obtain ⟨k', free', ran, walked⟩ := ih wf₁ (by omega) new
        refine ⟨k', free', ?_, walked.wf,
          fun u key => (walked.same u key).trans (same₁ u key), ?_, walked.exhausted⟩
        · rw [walkLevel_link (index ▸ absent) got page.ne_zero, index]
          exact ran
        · have := walked.bounded
          rw [List.length_cons]
          omega
    · rw [if_neg absent] at below
      obtain ⟨k', free', ran, walked⟩ := ih wf (by omega) below
      refine ⟨k', free', ?_, walked.wf, walked.same, ?_, walked.exhausted⟩
      · rw [walkLevel_valid absent]
        exact ran
      · have := walked.bounded
        omega

theorem WellFormed.walk_alloc (wf : WellFormed L k free root) (low : va < MAXVA) :
    ∃ k' free', walk root va true k = .ok (pteAddr k'.mem root va, k') ∧
      WalkedTo L k k' free free' root va 2 := by
  obtain ⟨k', free', ran, walked⟩ :=
    wf.walkLevel_alloc (vpn_lt_pages low) (Nat.le_refl 2) rfl
  refine ⟨k', free', ?_, walked⟩
  rw [walk]
  simp only [if_neg (Nat.not_le.mpr low)]
  exact ran

end Walk

/-! ## Entries -/

section Entries

variable {L : Layout} {k k' : KState} {free free' : List Nat} {root v p va : Nat}

theorem pteAddr_mul (mem : Bytes) (root v : Nat) : pteAddr mem root (PGSIZE * v) =
    (tableAt mem root v 2).elim 0 fun p => p + 8 * Radix.digit 512 0 v := by
  rw [pteAddr, px_eq_digit, vpn_mul]

theorem pteAt_of_node (at_ : tableAt k.mem root v 2 = some p) :
    pteAt k.mem root v = valid (word k.mem p (Radix.digit 512 0 v)) := by
  rw [pteAt, Trie.get, show Trie.node 512 2 child (word k.mem) root v 2 = some p from at_]
  rfl

theorem pteAt_of_none (nowhere : tableAt k.mem root v 2 = none) : pteAt k.mem root v = none := by
  rw [pteAt, Trie.get, show Trie.node 512 2 child (word k.mem) root v 2 = none from nowhere]
  rfl

theorem valid_eq_none {w : Nat} : valid w = none ↔ w &&& PTE_V = 0 := by
  rw [valid]
  split <;> simp_all

theorem valid_eq_some {w x : Nat} : valid w = some x ↔ w &&& PTE_V ≠ 0 ∧ w = x := by
  rw [valid]
  split <;> simp_all

theorem WellFormed.node_ne_zero (wf : WellFormed L k free root) (low : v < PAGES)
    (at_ : tableAt k.mem root v 2 = some p) (j : Nat) : p + 8 * j ≠ 0 := by
  have page := (wf.node p ⟨v, 2, low, Nat.le_refl 2, at_⟩).1
  have positive := Nat.pos_of_ne_zero page.ne_zero
  omega

/-- A store to the entry of page `v`. -/
def storePte (k : KState) (p v w : Nat) : KState :=
  { k with mem := k.mem.splice (p + 8 * Radix.digit 512 0 v) 8 (Bytes.digits w) }

theorem WellFormed.store {w : Nat} (wf : WellFormed L k free root) (low : v < PAGES)
    (at_ : tableAt k.mem root v 2 = some p) (small : w < 2 ^ 64) :
    WellFormed L (storePte k p v w) free root ∧
      (∀ u d, u < PAGES → d ≤ 2 →
        tableAt (storePte k p v w).mem root u d = tableAt k.mem root u d) ∧
      ∀ u, u < PAGES → pteAt (storePte k p v w).mem root u =
        if u = v then valid w else pteAt k.mem root u := by
  have inside : Radix.digit 512 0 v < 512 := Radix.digit_lt (by decide) _ _
  obtain ⟨pageP, apartP⟩ := wf.node p ⟨v, 2, low, Nat.le_refl 2, at_⟩
  have wrote : Trie.Wrote 512 2 child (word k.mem) (word (storePte k p v w).mem) root v 2 p := by
    refine ⟨low, Nat.le_refl 2, at_, fun u e q j key depth node small other => ?_⟩
    obtain ⟨pageQ, -⟩ := wf.node q ⟨u, e, key, depth, node⟩
    by_cases here : q = p
    · subst here
      exact word_store_of_ne fun same => other ⟨rfl, same⟩
    · exact word_of_samePage ((within_store inside).samePage pageP.aligned pageQ.aligned here) small
  have nodes : ∀ u d, u < PAGES → d ≤ 2 →
      tableAt (storePte k p v w).mem root u d = tableAt k.mem root u d := fun u d key depth =>
    wrote.node_eq wf.unshared (by decide) key (by omega) (.inl depth)
  refine ⟨⟨?_, wf.nodup, wf.page, ?_, wrote.unshared wf.unshared (by decide)⟩, nodes, ?_⟩
  · exact wf.chain.frame fun m mem => (within_store inside).samePage pageP.aligned
      (wf.page m mem).aligned fun same => apartP (same ▸ mem)
  · rintro q ⟨u, d, key, depth, node⟩
    exact wf.node q ⟨u, d, key, depth, (nodes u d key depth).symm.trans node⟩
  · intro u key
    have read : word (storePte k p v w).mem p (Radix.digit 512 0 v) = w := word_store_self small
    rw [pteAt, wrote.get_eq wf.unshared (by decide) key, read]
    rfl

/-- The frame in which user code finds `va`, or 0. -/
def userFrame (mem : Bytes) (root va : Nat) : Nat :=
  if va < MAXVA then
    (pteAt mem root (vpn va)).elim 0 fun w => if w &&& PTE_U = 0 then 0 else pte2pa w
  else 0

/-- `walkaddr` returns what the map says, if no node is at address 0. -/
theorem walkaddr_lookup (nodes : ∀ p, tableAt k.mem root (vpn va) 2 = some p → p ≠ 0) :
    walkaddr root va k = .ok (userFrame k.mem root va, k) := by
  rw [walkaddr, userFrame]
  by_cases low : va < MAXVA
  · rw [if_pos low]
    simp only [if_neg (Nat.not_le.mpr low)]
    rw [run_bind (walk_lookup low)]
    cases at_ : tableAt k.mem root (vpn va) 2 with
    | none =>
      rw [pteAt_of_none at_, pteAddr, at_]
      rfl
    | some p =>
      have positive := Nat.pos_of_ne_zero (nodes p at_)
      have nonzero : p + 8 * Radix.digit 512 0 (vpn va) ≠ 0 := by omega
      rw [pteAt_of_node at_, pteAddr, at_, Option.elim_some, px_eq_digit]
      simp only [if_neg nonzero]
      rw [run_bind (show load64 _ k = .ok (word k.mem p (Radix.digit 512 0 (vpn va)), k) from rfl)]
      by_cases absent : word k.mem p (Radix.digit 512 0 (vpn va)) &&& PTE_V = 0
      · rw [valid_eq_none.mpr absent]
        simp only [if_pos absent]
        rfl
      · rw [valid_eq_some.mpr ⟨absent, rfl⟩]
        simp only [if_neg absent, Option.elim_some]
        split <;> rfl
  · rw [if_neg low]
    simp only [if_pos (Nat.not_lt.mp low)]
    rfl

end Entries

/-! ## mappages -/

section Map

variable {L : Layout} {k k' k₁ : KState} {free free' : List Nat} {root v p pa perm n : Nat}

/-- From `k` to `k'` the pages `v`, ..., `v + n - 1` are mapped to the frames from `pa` on. -/
structure MapsRange (k k' : KState) (root v n pa perm : Nat) : Prop where
  before : ∀ u, v ≤ u → u < v + n → pteAt k.mem root u = none
  after : ∀ u, u < PAGES → pteAt k'.mem root u =
    if v ≤ u ∧ u < v + n then some (pa2pte (u64 (pa + PGSIZE * (u - v))) ||| perm ||| PTE_V)
    else pteAt k.mem root u

theorem MapsRange.none (same : ∀ u, u < PAGES → pteAt k'.mem root u = pteAt k.mem root u) :
    MapsRange k k' root v 0 pa perm := by
  refine ⟨fun u from_ to_ => by omega, fun u key => ?_⟩
  rw [if_neg (by omega), same u key]

theorem entry_valid (pa perm : Nat) : valid (pa2pte pa ||| perm ||| PTE_V) =
    some (pa2pte pa ||| perm ||| PTE_V) := by
  refine valid_eq_some.mpr ⟨?_, rfl⟩
  rw [Nat.and_or_distrib_right]
  exact fun zero => absurd (Nat.or_eq_zero_iff.mp zero).2 (by decide)

theorem entry_small (small : pa < 2 ^ 64) (low : perm < 1024) :
    pa2pte pa ||| perm ||| PTE_V < 2 ^ 64 := by
  have flags : perm ||| PTE_V < 1024 := Nat.or_lt_two_pow (n := 10) low (by decide)
  rw [mapped_eq low]
  unfold PGSIZE
  omega

/-- One turn of the loop: it runs out of memory, finds the page mapped, or maps it. -/
theorem WellFormed.mappagesLoop_turn (wf : WellFormed L k free root) (low : v < 2 ^ 26)
    (small : pa < 2 ^ 64) (flags : perm < 1024) :
    (∃ k₁, (∀ n, mappagesLoop root perm n (PGSIZE * v) pa k = .ok (-1, k₁)) ∧
      WalkedTo L k k₁ free [] root (PGSIZE * v) 2) ∨
    (pteAt k.mem root v ≠ none ∧
      ∀ n, mappagesLoop root perm n (PGSIZE * v) pa k = .error "mappages: remap") ∨
    (pteAt k.mem root v = none ∧ ∃ k₁ free₁, WellFormed L k₁ free₁ root ∧
      free.length ≤ free₁.length + 2 ∧
      (∀ u, u < PAGES → pteAt k₁.mem root u =
        if u = v then some (pa2pte pa ||| perm ||| PTE_V) else pteAt k.mem root u) ∧
      mappagesLoop root perm 0 (PGSIZE * v) pa k = .ok (0, k₁) ∧
      ∀ n, mappagesLoop root perm (n + 1) (PGSIZE * v) pa k =
        mappagesLoop root perm n (PGSIZE * (v + 1)) (u64 (pa + PGSIZE)) k₁) := by
  have key : v < PAGES := Nat.lt_trans low (by decide)
  obtain ⟨k₁, free₁, ran, walked⟩ := wf.walk_alloc (mul_lt_MAXVA low)
  rw [pteAddr_mul] at ran
  cases at_ : tableAt k₁.mem root v 2 with
  | none =>
    rw [at_] at ran
    obtain rfl : free₁ = [] := walked.exhausted (by rw [vpn_mul]; exact at_)
    refine .inl ⟨k₁, fun n => ?_, walked⟩
    cases n <;> rw [mappagesLoop, run_bind ran] <;> rfl
  | some p =>
    rw [at_, Option.elim_some] at ran
    have nonzero := walked.wf.node_ne_zero key at_ (Radix.digit 512 0 v)
    have loaded : load64 (p + 8 * Radix.digit 512 0 v) k₁ =
        .ok (word k₁.mem p (Radix.digit 512 0 v), k₁) := rfl
    have was : pteAt k.mem root v = valid (word k₁.mem p (Radix.digit 512 0 v)) :=
      (walked.same v key).symm.trans (pteAt_of_node at_)
    by_cases absent : word k₁.mem p (Radix.digit 512 0 v) &&& PTE_V = 0
    · rw [valid_eq_none.mpr absent] at was
      obtain ⟨wf', -, stored⟩ := walked.wf.store key at_ (entry_small small flags)
      refine .inr (.inr ⟨was, storePte k₁ p v (pa2pte pa ||| perm ||| PTE_V), free₁, wf',
        walked.bounded, fun u below => ?_, ?_, fun n => ?_⟩)
      · rw [stored u below, entry_valid, walked.same u below]
      · rw [mappagesLoop, run_bind ran]
        simp only [if_neg nonzero]
        rw [run_bind loaded]
        simp only [if_neg (not_not_intro absent)]
        rfl
      · have next : u64 (PGSIZE * v + PGSIZE) = PGSIZE * (v + 1) := by
          unfold u64 PGSIZE
          omega
        rw [mappagesLoop, run_bind ran]
        simp only [if_neg nonzero]
        rw [run_bind loaded]
        simp only [if_neg (not_not_intro absent), next]
        rfl
    · rw [valid_eq_some.mpr ⟨absent, rfl⟩] at was
      refine .inr (.inl ⟨by simp [was], fun n => ?_⟩)
      cases n <;> rw [mappagesLoop, run_bind ran] <;> simp only [if_neg nonzero] <;>
        rw [run_bind loaded] <;> simp only [if_pos absent] <;> rfl

/-- The ways `mappages` ends when it is asked for the `n + 1` pages from `v` on. -/
inductive MapsOutcome (L : Layout) (k : KState) (free : List Nat) (root v n pa perm : Nat) :
    Except String (Int × KState) → Prop where
  | mapped {t : KState} {left : List Nat} (wf : WellFormed L t left root)
      (maps : MapsRange k t root v (n + 1) pa perm)
      (bounded : free.length ≤ left.length + 2 * (n + 1)) :
      MapsOutcome L k free root v n pa perm (.ok (0, t))
  | exhausted {t : KState} {i : Nat} (wf : WellFormed L t [] root) (short : i ≤ n)
      (maps : MapsRange k t root v i pa perm) (bounded : free.length ≤ 2 * (n + 1)) :
      MapsOutcome L k free root v n pa perm (.ok (-1, t))
  | remap {i : Nat} (inside : i ≤ n) (already : pteAt k.mem root (v + i) ≠ none) :
      MapsOutcome L k free root v n pa perm (.error "mappages: remap")

theorem MapsRange.cons (first : pteAt k.mem root v = .none)
    (mapped : ∀ u, u < PAGES → pteAt k₁.mem root u =
      if u = v then some (pa2pte pa ||| perm ||| PTE_V) else pteAt k.mem root u)
    (small : pa < 2 ^ 64) (low : v + n < PAGES)
    (rest : MapsRange k₁ k' root (v + 1) n (u64 (pa + PGSIZE)) perm) :
    MapsRange k k' root v (n + 1) pa perm := by
  refine ⟨fun u from_ to_ => ?_, fun u key => ?_⟩
  · by_cases here : u = v
    · rw [here, first]
    · have := rest.before u (by omega) (by omega)
      rwa [mapped u (by omega), if_neg here] at this
  · rw [rest.after u key]
    by_cases here : u = v
    · have frame : u64 (pa + PGSIZE * 0) = pa := Nat.mod_eq_of_lt (by omega)
      rw [if_neg (by omega), if_pos (by omega), mapped u key, if_pos here, here, Nat.sub_self,
        frame]
    · have frame : v + 1 ≤ u → u64 (u64 (pa + PGSIZE) + PGSIZE * (u - (v + 1))) =
          u64 (pa + PGSIZE * (u - v)) := by
        intro above
        unfold u64 PGSIZE
        omega
      by_cases inside : v + 1 ≤ u ∧ u < v + 1 + n
      · rw [if_pos inside, if_pos (by omega), frame inside.1]
      · rw [if_neg inside, if_neg (by omega), mapped u key, if_neg here]

theorem WellFormed.mappagesLoop_outcome (n : Nat) (wf : WellFormed L k free root)
    (low : v + n < 2 ^ 26) (small : pa < 2 ^ 64) (flags : perm < 1024) :
    MapsOutcome L k free root v n pa perm (mappagesLoop root perm n (PGSIZE * v) pa k) := by
  have key : v + n < PAGES := Nat.lt_trans low (by decide)
  induction n generalizing k free v pa with
  | zero =>
    rcases wf.mappagesLoop_turn (v := v) (by omega) small flags with ⟨k₁, ran, walked⟩ |
      ⟨already, ran⟩ | ⟨was, k₁, free₁, wf₁, bounded, mapped, ran, -⟩
    · rw [ran 0]
      exact .exhausted walked.wf (Nat.le_refl 0) (.none walked.same) walked.bounded
    · rw [ran 0]
      exact .remap (Nat.le_refl 0) already
    · rw [ran]
      have rest : MapsRange k₁ k₁ root (v + 1) 0 (u64 (pa + PGSIZE)) perm := .none fun _ _ => rfl
      exact .mapped wf₁ (.cons was mapped small (by omega) rest) bounded
  | succ n ih =>
    rcases wf.mappagesLoop_turn (v := v) (by omega) small flags with ⟨k₁, ran, walked⟩ |
      ⟨already, ran⟩ | ⟨was, k₁, free₁, wf₁, bounded, mapped, -, ran⟩
    · rw [ran (n + 1)]
      refine .exhausted walked.wf (Nat.zero_le _) (.none walked.same) ?_
      exact walked.bounded.trans (by rw [List.length_nil]; omega)
    · rw [ran (n + 1)]
      exact .remap (Nat.zero_le _) already
    · rw [ran n]
      have wrapped : u64 (pa + PGSIZE) < 2 ^ 64 := Nat.mod_lt _ (by decide)
      have outcome := ih wf₁ (v := v + 1) (by omega) wrapped (by omega)
      generalize mappagesLoop root perm n (PGSIZE * (v + 1)) (u64 (pa + PGSIZE)) k₁ = r at outcome
      cases outcome with
      | mapped wf' maps bounded' =>
        exact .mapped wf' (.cons was mapped small (by omega) maps) (by omega)
      | @exhausted k' i wf' short maps bounded' =>
        exact .exhausted wf' (Nat.succ_le_succ short)
          (.cons was mapped small (by omega) maps) (by omega)
      | @remap i inside already =>
        refine .remap (Nat.succ_le_succ inside) ?_
        rw [mapped _ (by omega), if_neg (by omega)] at already
        rwa [show v + (i + 1) = v + 1 + i by omega]

/-- The number of pages from `PGROUNDDOWN(va)` to `PGROUNDDOWN(va + size - 1)`, less one. -/
def lastPage (va size : Nat) : Nat := vpn (va + size - 1) - vpn va

theorem WellFormed.mappages_outcome {va size : Nat} (wf : WellFormed L k free root)
    (positive : 0 < size) (inside : va + size ≤ MAXVA) (small : pa < 2 ^ 64)
    (flags : perm < 1024) :
    MapsOutcome L k free root (vpn va) (lastPage va size) pa perm
      (mappages root va size pa perm k) := by
  have last : vpn (va + size - 1) < 2 ^ 26 := vpn_lt (by omega)
  have order : vpn va ≤ vpn (va + size - 1) := Nat.div_le_div_right (by omega)
  have turns : sub64 (pgRoundDown (u64 (va + size - 1))) (pgRoundDown va) / PGSIZE =
      lastPage va size := by
    have whole : u64 (va + size - 1) = va + size - 1 := Nat.mod_eq_of_lt (by
      unfold MAXVA at inside
      omega)
    rw [whole, lastPage]
    unfold vpn at last order ⊢
    unfold sub64 u64 pgRoundDown PGSIZE at *
    omega
  have start : pgRoundDown va = PGSIZE * vpn va := Nat.mul_comm _ _
  have unfolded : mappages root va size pa perm k =
      mappagesLoop root perm (lastPage va size) (PGSIZE * vpn va) pa k := by
    rw [mappages]
    simp only [if_neg (Nat.ne_of_gt positive)]
    rw [turns, start]
  rw [unfolded]
  exact wf.mappagesLoop_outcome _ (by unfold lastPage; omega) small flags

end Map

/-! ## uvmunmap -/

section Unmap

variable {L : Layout} {k k' k₁ : KState} {free free' : List Nat} {root v p n w m : Nat}

/-- The frames of the pages `v`, ..., `v + n - 1` are pages of their own: not free, not
    nodes of the table, and each of them mapped once in the range. -/
structure OwnFrames (L : Layout) (k : KState) (free : List Nat) (root v n : Nat) : Prop where
  page : ∀ u w, v ≤ u → u < v + n → pteAt k.mem root u = some w → IsPage L (pte2pa w) ∧
    pte2pa w ∉ free ∧ ¬ IsNode k.mem root (pte2pa w)
  once : ∀ u u' w w', v ≤ u → u < v + n → v ≤ u' → u' < v + n → pteAt k.mem root u = some w →
    pteAt k.mem root u' = some w' → pte2pa w = pte2pa w' → u = u'

theorem WellFormed.kfree (wf : WellFormed L k free root) (page : IsPage L m) (used : m ∉ free)
    (other : ¬ IsNode k.mem root m) :
    ∃ k', Kernel.kfree L m k = .ok ((), k') ∧ WellFormed L k' (m :: free) root ∧
      (∀ u d, u < PAGES → d ≤ 2 → tableAt k'.mem root u d = tableAt k.mem root u d) ∧
      ∀ u, u < PAGES → pteAt k'.mem root u = pteAt k.mem root u := by
  have holds : Holds L k free {m} := by
    refine ⟨wf.chain, ?_, fun q mem => ?_⟩
    · rw [add_comm, Multiset.singleton_add, Multiset.cons_coe, Multiset.coe_nodup]
      exact List.nodup_cons.mpr ⟨used, wf.nodup⟩
    · rcases Multiset.mem_add.mp mem with mem | mem
      · exact wf.page q (Multiset.mem_coe.mp mem)
      · rwa [Multiset.mem_singleton.mp mem]
  obtain ⟨k', ran, released⟩ := kfree_spec holds
  have same : ∀ q, IsNode k.mem root q → SamePage k.mem k'.mem q := by
    intro q node
    obtain ⟨pageQ, apart⟩ := wf.node q node
    exact released.frame q pageQ.aligned apart fun mem =>
      other (Multiset.mem_singleton.mp mem ▸ node)
  have words : ∀ u, u < PAGES → ∀ e q j, e ≤ 2 →
      Trie.node 512 2 child (word k.mem) root u e = some q → j < 512 →
      word k'.mem q j = word k.mem q j := fun u key e q j depth node small =>
    word_of_samePage (same q ⟨u, e, key, depth, node⟩) small
  have nodes : ∀ u d, u < PAGES → d ≤ 2 →
      tableAt k'.mem root u d = tableAt k.mem root u d := fun u d key depth =>
    Trie.node_congr (words u key) (by decide) (by omega)
  refine ⟨k', ran, ⟨released.chain, List.nodup_cons.mpr ⟨used, wf.nodup⟩, fun q mem => ?_, ?_, ?_⟩,
    nodes, fun u key => Trie.get_congr (words u key) (by decide)⟩
  · rcases List.mem_cons.mp mem with rfl | mem
    · exact page
    · exact wf.page q mem
  · rintro q ⟨u, d, key, depth, node⟩
    rw [nodes u d key depth] at node
    have isNode : IsNode k.mem root q := ⟨u, d, key, depth, node⟩
    obtain ⟨pageQ, apart⟩ := wf.node q isNode
    refine ⟨pageQ, fun mem => ?_⟩
    rcases List.mem_cons.mp mem with rfl | mem
    · exact other isNode
    · exact apart mem
  · intro d d' u v q depth depth' key key' node node'
    exact wf.unshared d d' u v q depth depth' key key' ((nodes u d key depth).symm.trans node)
      ((nodes v d' key' depth').symm.trans node')

theorem WellFormed.uvmunmapLoop_turn (doFree : Bool) (wf : WellFormed L k free root)
    (low : v < 2 ^ 26) (some_ : pteAt k.mem root v = some w) (leaf : pteFlags w ≠ PTE_V)
    (own : doFree = true → OwnFrames L k free root v (n + 1)) :
    ∃ k₁ free₁, uvmunmapLoop L root doFree (n + 1) (PGSIZE * v) k =
        uvmunmapLoop L root doFree n (PGSIZE * (v + 1)) k₁ ∧ WellFormed L k₁ free₁ root ∧
      (∀ u, u < PAGES → pteAt k₁.mem root u = if u = v then none else pteAt k.mem root u) ∧
      (doFree = true → v + n < PAGES → OwnFrames L k₁ free₁ root (v + 1) n) := by
  have key : v < PAGES := Nat.lt_trans low (by decide)
  cases at_ : tableAt k.mem root v 2 with
  | none =>
    rw [pteAt_of_none at_] at some_
    cases some_
  | some p =>
    have walked : walk root (PGSIZE * v) false k = _ := walk_lookup (mul_lt_MAXVA low)
    rw [pteAddr_mul, at_, Option.elim_some] at walked
    have nonzero := wf.node_ne_zero key at_ (Radix.digit 512 0 v)
    have read := some_
    rw [pteAt_of_node at_, valid_eq_some] at read
    obtain ⟨present, rfl⟩ := read
    have loaded : load64 (p + 8 * Radix.digit 512 0 v) k =
        .ok (word k.mem p (Radix.digit 512 0 v), k) := rfl
    have cleared : valid 0 = none := rfl
    cases doFree with
    | false =>
      obtain ⟨wf', -, stored⟩ := wf.store key at_ (w := 0) (by decide)
      refine ⟨storePte k p v 0, free, ?_, wf', stored, fun not_ => Bool.noConfusion not_⟩
      rw [uvmunmapLoop, run_bind walked]
      simp only [if_neg nonzero]
      rw [run_bind loaded]
      simp only [if_neg present, if_neg leaf]
      rfl
    | true =>
      have own := own rfl
      obtain ⟨page, used, other⟩ := own.page v _ (Nat.le_refl v) (by omega) some_
      obtain ⟨k₂, freed, wf₂, nodes₂, same₂⟩ := wf.kfree page used other
      obtain ⟨wf', nodes', stored⟩ := wf₂.store key ((nodes₂ v 2 key (Nat.le_refl 2)).trans at_)
        (w := 0) (by decide)
      have after : ∀ u, u < PAGES → pteAt (storePte k₂ p v 0).mem root u =
          if u = v then none else pteAt k.mem root u := by
        intro u below
        rw [stored u below, cleared, same₂ u below]
      refine ⟨storePte k₂ p v 0, _, ?_, wf', after, fun _ inside => ?_⟩
      · rw [uvmunmapLoop, run_bind walked]
        simp only [if_neg nonzero]
        rw [run_bind loaded]
        simp only [if_neg present, if_neg leaf, if_true]
        rw [run_bind freed]
        rfl
      · -- the frames that are left are not the one that was freed
        have before : ∀ u x, v + 1 ≤ u → u < v + 1 + n →
            pteAt (storePte k₂ p v 0).mem root u = some x → pteAt k.mem root u = some x := by
          intro u x from_ to_ found
          rwa [after u (by omega), if_neg (by omega)] at found
        refine ⟨fun u x from_ to_ found => ?_, fun u u' x x' from_ to_ from' to' found found' =>
          own.once u u' x x' (by omega) (by omega) (by omega) (by omega)
            (before u x from_ to_ found) (before u' x' from' to' found')⟩
        obtain ⟨page', used', other'⟩ :=
          own.page u x (by omega) (by omega) (before u x from_ to_ found)
        refine ⟨page', fun mem => ?_, ?_⟩
        · rcases List.mem_cons.mp mem with same | mem
          · have := own.once u v x _ (by omega) (by omega) (Nat.le_refl v) (by omega)
              (before u x from_ to_ found) some_ same
            omega
          · exact used' mem
        · rintro ⟨u', d, below, depth, node⟩
          rw [nodes' u' d below depth, nodes₂ u' d below depth] at node
          exact other' ⟨u', d, below, depth, node⟩

theorem WellFormed.uvmunmapLoop_eq (n : Nat) (doFree : Bool) (wf : WellFormed L k free root)
    (low : v + n ≤ 2 ^ 26)
    (mapped : ∀ u, v ≤ u → u < v + n → ∃ w, pteAt k.mem root u = some w ∧ pteFlags w ≠ PTE_V)
    (own : doFree = true → OwnFrames L k free root v n) :
    ∃ k' free', uvmunmapLoop L root doFree n (PGSIZE * v) k = .ok ((), k') ∧
      WellFormed L k' free' root ∧
      ∀ u, u < PAGES → pteAt k'.mem root u =
        if v ≤ u ∧ u < v + n then none else pteAt k.mem root u := by
  have bound : 2 ^ 26 < PAGES := by decide
  induction n generalizing k free v with
  | zero =>
    refine ⟨k, free, rfl, wf, fun u _ => ?_⟩
    rw [if_neg (by omega)]
  | succ n ih =>
    obtain ⟨w, some_, leaf⟩ := mapped v (Nat.le_refl v) (by omega)
    obtain ⟨k₁, free₁, ran, wf₁, after₁, own₁⟩ :=
      wf.uvmunmapLoop_turn doFree (by omega) some_ leaf own
    obtain ⟨k', free', rest, wf', after'⟩ := ih wf₁ (v := v + 1) (by omega)
      (fun u from_ to_ => by
        rw [after₁ u (by omega), if_neg (by omega)]
        exact mapped u (by omega) (by omega))
      fun yes => own₁ yes (by omega)
    refine ⟨k', free', ran.trans rest, wf', fun u key => ?_⟩
    rw [after' u key, after₁ u key]
    by_cases here : u = v
    · rw [if_neg (by omega), if_pos here, if_pos (by omega)]
    · rw [if_neg here]
      by_cases inside : v + 1 ≤ u ∧ u < v + 1 + n
      · rw [if_pos inside, if_pos (by omega)]
      · rw [if_neg inside, if_neg (by omega)]

theorem WellFormed.uvmunmap_eq {va : Nat} (n : Nat) (doFree : Bool)
    (wf : WellFormed L k free root) (aligned : va % PGSIZE = 0) (low : va + n * PGSIZE ≤ MAXVA)
    (mapped : ∀ u, vpn va ≤ u → u < vpn va + n →
      ∃ w, pteAt k.mem root u = some w ∧ pteFlags w ≠ PTE_V)
    (own : doFree = true → OwnFrames L k free root (vpn va) n) :
    ∃ k' free', uvmunmap L root va n doFree k = .ok ((), k') ∧ WellFormed L k' free' root ∧
      ∀ u, u < PAGES → pteAt k'.mem root u =
        if vpn va ≤ u ∧ u < vpn va + n then none else pteAt k.mem root u := by
  have start : va = PGSIZE * vpn va := by
    unfold vpn PGSIZE at *
    omega
  have unfolded : uvmunmap L root va n doFree k =
      uvmunmapLoop L root doFree n (PGSIZE * vpn va) k := by
    rw [uvmunmap, ← start]
    simp only [if_neg (not_not_intro aligned)]
  rw [unfolded]
  refine wf.uvmunmapLoop_eq n doFree ?_ mapped own
  unfold vpn PGSIZE at *
  unfold MAXVA at low
  omega

end Unmap

/-! ## The map -/

section Map

variable {L : Layout} {k k' : KState} {free : List Nat} {root pa perm : Nat}

/-- What an entry says. -/
def decode (w : Nat) : Option (Nat × Nat) :=
  if w &&& PTE_V = 0 then none else some (pte2pa w, pteFlags w)

theorem decode_eq (w : Nat) : (valid w).map (fun x => (pte2pa x, pteFlags x)) = decode w := by
  rw [valid, decode]
  split <;> rfl

theorem translate_entry (aligned : pa % PGSIZE = 0) (small : pa < 2 ^ 64) (flags : perm < 1024) :
    decode (pa2pte pa ||| perm ||| PTE_V) = some (pa, perm ||| PTE_V) := by
  have low : perm ||| PTE_V < 1024 := Nat.or_lt_two_pow (n := 10) flags (by decide)
  rw [← decode_eq, entry_valid, Option.map_some, pteFlags_eq, mapped_eq flags,
    pte2pa_of_flags aligned low small, Nat.mul_comm, Nat.mul_add_mod, Nat.mod_eq_of_lt low]

theorem MapsRange.translate {v n : Nat} (maps : MapsRange k k' root v n pa perm)
    (aligned : pa % PGSIZE = 0) (flags : perm < 1024) {u : Nat} (key : u < PAGES) :
    PageMap.translate k'.mem root u = if v ≤ u ∧ u < v + n then
      some (u64 (pa + PGSIZE * (u - v)), perm ||| PTE_V) else PageMap.translate k.mem root u := by
  rw [PageMap.translate, maps.after u key]
  split
  · have frame : u64 (pa + PGSIZE * (u - v)) % PGSIZE = 0 := by
      unfold u64 PGSIZE at *
      omega
    have entry := translate_entry frame (Nat.mod_lt _ (by decide)) flags
    rwa [← decode_eq, entry_valid] at entry
  · rfl

theorem WellFormed.walk_translates {va : Nat} (wf : WellFormed L k free root)
    (low : va < MAXVA) : translate k.mem root (vpn va) =
      if pteAddr k.mem root va = 0 then none
      else decode (k.mem.getLE (pteAddr k.mem root va) 8) := by
  rw [pteAddr, px_eq_digit]
  cases at_ : tableAt k.mem root (vpn va) 2 with
  | none =>
    rw [Option.elim_none, if_pos rfl, translate, pteAt_of_none at_]
    rfl
  | some p =>
    have nonzero := wf.node_ne_zero (vpn_lt_pages low) at_ (Radix.digit 512 0 (vpn va))
    rw [Option.elim_some, if_neg nonzero, translate, pteAt_of_node at_, decode_eq]
    rfl

/-- The functions of `vm.c` on the table at `root` are those of a finite map from the
    page numbers below `MAXVA` to frames and flags. -/
structure ActsAsMap (L : Layout) (k : KState) (free : List Nat) (root : Nat) : Prop where
  /-- A mapping that succeeds adds the pages of its range and nothing else. -/
  maps : ∀ va size pa perm k', 0 < size → va + size ≤ MAXVA → pa % PGSIZE = 0 → pa < 2 ^ 64 →
    perm < 1024 → mappages root va size pa perm k = .ok (0, k') →
    (∃ free', WellFormed L k' free' root) ∧
      (∀ u, vpn va ≤ u → u ≤ vpn (va + size - 1) → translate k.mem root u = none) ∧
      ∀ u, u < vpn MAXVA → translate k'.mem root u =
        if vpn va ≤ u ∧ u ≤ vpn (va + size - 1) then
          some (u64 (pa + PGSIZE * (u - vpn va)), perm ||| PTE_V)
        else translate k.mem root u
  /-- It succeeds where nothing is mapped, if there are pages for the nodes. -/
  succeeds : ∀ va size pa perm, 0 < size → va + size ≤ MAXVA → pa < 2 ^ 64 → perm < 1024 →
    (∀ u, vpn va ≤ u → u ≤ vpn (va + size - 1) → translate k.mem root u = none) →
    2 * (vpn (va + size - 1) - vpn va + 1) < free.length →
    ∃ k', mappages root va size pa perm k = .ok (0, k')
  unmaps : ∀ va npages doFree, va % PGSIZE = 0 → va + npages * PGSIZE ≤ MAXVA →
    (∀ u, vpn va ≤ u → u < vpn va + npages →
      ∃ frame flags, translate k.mem root u = some (frame, flags) ∧ flags ≠ PTE_V) →
    (doFree = true → OwnFrames L k free root (vpn va) npages) →
    ∃ k' free', uvmunmap L root va npages doFree k = .ok ((), k') ∧ WellFormed L k' free' root ∧
      ∀ u, u < vpn MAXVA → translate k'.mem root u =
        if vpn va ≤ u ∧ u < vpn va + npages then none else translate k.mem root u
  /-- A walk, allocating or not, returns the address of the entry, or 0 where there is
      none; it changes no translation. -/
  walks : ∀ va alloc, va < MAXVA → ∃ r k' free', walk root va alloc k = .ok (r, k') ∧
    WellFormed L k' free' root ∧
    (∀ u, u < vpn MAXVA → translate k'.mem root u = translate k.mem root u) ∧
    translate k.mem root (vpn va) = if r = 0 then none else decode (k'.mem.getLE r 8)
  walkaddrs : ∀ va, walkaddr root va k = .ok (if va < MAXVA then
    (translate k.mem root (vpn va)).elim 0 fun x => if x.2 &&& PTE_U = 0 then 0 else x.1
    else 0, k)

theorem vpn_maxva : vpn MAXVA < PAGES := by decide

theorem lt_lastPage {va size u : Nat} (positive : 0 < size) :
    u < vpn va + (lastPage va size + 1) ↔ u ≤ vpn (va + size - 1) := by
  have order : vpn va ≤ vpn (va + size - 1) := Nat.div_le_div_right (by omega)
  unfold lastPage
  omega

theorem pageTable_actsAsMap (wf : WellFormed L k free root) : ActsAsMap L k free root where
  maps va size pa perm k' positive inside aligned small flags ran := by
    have outcome := wf.mappages_outcome positive inside small flags
    rw [ran] at outcome
    cases outcome with
    | @mapped t left wf' maps _ =>
      refine ⟨⟨left, wf'⟩, fun u from_ to_ => ?_, fun u key => ?_⟩
      · rw [translate, maps.before u from_ ((lt_lastPage positive).mpr to_)]
        rfl
      · rw [maps.translate aligned flags (Nat.lt_trans key vpn_maxva)]
        simp only [lt_lastPage positive]
  succeeds va size pa perm positive inside small flags unmapped enough := by
    have outcome := wf.mappages_outcome positive inside small flags
    generalize mappages root va size pa perm k = r at outcome
    cases outcome with
    | @mapped t left wf' maps _ => exact ⟨t, rfl⟩
    | exhausted wf' short maps bounded =>
      unfold lastPage at bounded
      omega
    | @remap i within already =>
      have none_ := unmapped (vpn va + i) (by omega) ((lt_lastPage positive).mp (by omega))
      rw [translate, Option.map_eq_none_iff] at none_
      exact absurd none_ already
  unmaps va npages doFree aligned inside mapped own := by
    have entries : ∀ u, vpn va ≤ u → u < vpn va + npages →
        ∃ w, pteAt k.mem root u = some w ∧ pteFlags w ≠ PTE_V := by
      intro u from_ to_
      obtain ⟨frame, flags, found, leaf⟩ := mapped u from_ to_
      obtain ⟨w, entry, same⟩ := Option.map_eq_some_iff.mp found
      exact ⟨w, entry, fun bad => leaf ((Prod.mk.inj same).2 ▸ bad)⟩
    obtain ⟨k', free', ran, wf', after⟩ := wf.uvmunmap_eq npages doFree aligned inside entries own
    refine ⟨k', free', ran, wf', fun u key => ?_⟩
    rw [translate, after u (Nat.lt_trans key vpn_maxva)]
    split <;> rfl
  walks va alloc low := by
    cases alloc with
    | false => exact ⟨_, k, free, walk_lookup low, wf, fun _ _ => rfl, wf.walk_translates low⟩
    | true =>
      obtain ⟨k', free', ran, walked⟩ := wf.walk_alloc low
      have same : ∀ u, u < vpn MAXVA → translate k'.mem root u = translate k.mem root u := by
        intro u key
        rw [translate, walked.same u (Nat.lt_trans key vpn_maxva)]
        rfl
      refine ⟨_, k', free', ran, walked.wf, same, ?_⟩
      rw [← same (vpn va) (vpn_lt low)]
      exact walked.wf.walk_translates low
  walkaddrs va := by
    have user : ∀ w, pteFlags w &&& PTE_U = w &&& PTE_U := by
      intro w
      rw [pteFlags_eq, and_eq_mod_and (n := 10) (by decide) w]
      rfl
    by_cases low : va < MAXVA
    · rw [walkaddr_lookup fun p at_ =>
        (wf.node p ⟨vpn va, 2, vpn_lt_pages low, Nat.le_refl 2, at_⟩).1.ne_zero, userFrame,
        if_pos low, if_pos low, translate]
      cases pteAt k.mem root (vpn va) with
      | none => rfl
      | some w => simp only [Option.map_some, Option.elim_some, user]
    · rw [walkaddr, if_neg low]
      simp only [if_pos (Nat.not_lt.mp low)]
      rfl

end Map

/-! ## The tables of processes -/

section Tables

variable {L : Layout} {k : KState} {free : List Nat} {t : Tree} {root v d : Nat}

/-- The indices on the way to page `v`. -/
def indices (v : Nat) : List Nat := [Radix.digit 512 2 v, Radix.digit 512 1 v]

theorem indices_lt (v : Nat) : ∀ j ∈ indices v, j < 512 := by
  intro j mem
  simp only [indices, List.mem_cons, List.not_mem_nil, or_false] at mem
  rcases mem with rfl | rfl <;> exact Radix.digit_lt (by decide) _ _

theorem child_eq {h w : Nat} {x : Tree} (spells : Spells k.mem (h + 1) w x)
    (pages : ∀ m ∈ treePages x, IsPage L m) : child w = Radix.nodeAt [] x := by
  rcases spells.cases with ⟨rfl, rfl⟩ | ⟨q, c, rfl, rfl, -⟩
  · rfl
  · have page := pages q (Radix.page_mem q c)
    rw [child, if_neg (pointer_valid q), pte2pa_pointer page.aligned page.small]
    rfl

theorem tableAt_eq (ok : Holds L k free (treePages t)) (table : Table k.mem root t)
    (depth : d ≤ 2) : tableAt k.mem root v d = Radix.nodeAt ((indices v).take d) t := by
  obtain ⟨⟨c, rfl⟩, spells⟩ := table
  have inside (h : Nat) : Radix.digit 512 h v < 512 := Radix.digit_lt (by decide) h v
  have below := spells.2 _ (inside 2)
  have pages : ∀ m ∈ treePages (c (Radix.digit 512 2 v)), IsPage L m := fun m mem =>
    ok.held_page (Radix.mem_pages_child (inside 2) mem)
  have first := child_eq below pages
  match d with
  | 0 => rfl
  | 1 => exact first
  | 2 =>
    change (child (word k.mem root (Radix.digit 512 2 v))).bind
      (fun q => child (word k.mem q (Radix.digit 512 1 v))) =
        Radix.nodeAt [Radix.digit 512 1 v] (c (Radix.digit 512 2 v))
    rw [first]
    rcases below.cases with ⟨none_, -⟩ | ⟨q, c', some_, -, deeper⟩
    · rw [none_]
      rfl
    · rw [some_] at pages ⊢
      exact child_eq (deeper _ (inside 1)) fun m mem =>
        pages m (Radix.mem_pages_child (inside 1) mem)

theorem wellFormed_of_table (ok : Holds L k free (treePages t)) (table : Table k.mem root t) :
    WellFormed L k free root where
  chain := ok.chain
  nodup := Multiset.coe_nodup.mp (Multiset.nodup_add.mp ok.nodup).1
  page m mem := ok.free_page mem
  node := by
    rintro q ⟨v, d, -, depth, at_⟩
    rw [tableAt_eq ok table depth] at at_
    have mine : q ∈ treePages t :=
      Radix.nodeAt_mem (fun j mem => indices_lt v j (List.mem_of_mem_take mem)) at_
    exact ⟨ok.held_page mine, ok.not_free mine⟩
  unshared := by
    intro d d' u v q depth depth' key key' at_ at'
    have at_ := (tableAt_eq ok table depth).symm.trans at_
    have at' := (tableAt_eq ok table depth').symm.trans at'
    have same := Radix.nodeAt_unique ok.held_nodup
      (fun j mem => indices_lt u j (List.mem_of_mem_take mem))
      (fun j mem => indices_lt v j (List.mem_of_mem_take mem)) at_ at'
    have lengths := congrArg List.length same
    simp only [List.length_take, indices, List.length_cons, List.length_nil] at lengths
    obtain rfl : d = d' := by omega
    refine ⟨rfl, ?_⟩
    have top : u / 512 ^ 3 = v / 512 ^ 3 := by
      rw [Nat.div_eq_of_lt key, Nat.div_eq_of_lt key']
    match d with
    | 0 => exact top
    | 1 => exact Trie.div_pow_eq_iff.mpr ⟨top, by simpa [indices] using same⟩
    | 2 =>
      simp only [indices, List.take_succ_cons, List.take_zero, List.cons.injEq, and_true] at same
      exact Trie.div_pow_eq_iff.mpr ⟨Trie.div_pow_eq_iff.mpr ⟨top, same.1⟩, same.2⟩

theorem nodeAt_indices (x : Tree) : Radix.nodeAt (indices v) x = Radix.slot 512 3 v x := by
  cases x with
  | empty | leaf => rfl
  | node q c =>
    change Radix.nodeAt [Radix.digit 512 1 v] (c (Radix.digit 512 2 v)) =
      Radix.slot 512 2 v (c (Radix.digit 512 2 v))
    cases c (Radix.digit 512 2 v) with
    | empty | leaf => rfl
    | node q' c' =>
      change Radix.nodeAt [] (c' (Radix.digit 512 1 v)) =
        Radix.slot 512 1 v (c' (Radix.digit 512 1 v))
      cases c' (Radix.digit 512 1 v) <;> rfl

theorem pteAt_eq (ok : Holds L k free (treePages t)) (table : Table k.mem root t) :
    pteAt k.mem root v = (leafAt t v).map Leaf.pte := by
  have node : tableAt k.mem root v 2 = Radix.slot 512 3 v t :=
    (tableAt_eq ok table (Nat.le_refl 2)).trans (nodeAt_indices t)
  cases at_ : Radix.slot 512 3 v t with
  | none =>
    rw [pteAt_of_none (node.trans at_)]
    cases some_ : leafAt t v with
    | none => rfl
    | some x =>
      obtain ⟨p, found⟩ := Radix.slot_of_get some_
      rw [at_] at found
      cases found
  | some p =>
    rw [pteAt_of_node (node.trans at_)]
    cases some_ : leafAt t v with
    | none =>
      rw [word_of_none table at_ some_]
      rfl
    | some x =>
      have good := ok_of_some table at_ some_
      rw [good.word]
      exact valid_eq_some.mpr ⟨good.leaf.valid, rfl⟩

/-- The table of a process with one page of text is such a tree. -/
theorem actsAsMap_textPage : ∃ (b : Boot smallKernel) (k₁ k : KState) (root : Nat),
    uvmcreate b.k = .ok (root, k₁) ∧
      uvmalloc smallKernel root 0 PGSIZE (flags2perm 1) k₁ = .ok (PGSIZE, k) ∧
      ∃ free, WellFormed smallKernel k free root ∧ ActsAsMap smallKernel k free root := by
  obtain ⟨b, k₁, k, root, pte, created, grown, ⟨free, t, holds, table⟩, -⟩ := exists_textPage
  have wf := wellFormed_of_table holds table
  exact ⟨b, k₁, k, root, created, grown, free, wf, pageTable_actsAsMap wf⟩

end Tables

end Xv6.Kernel.PageMap
