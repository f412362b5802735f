import Xv6.Kernel.Pages
import Xv6.Lib.Exec

/-! # Who holds which page

A ledger of physical pages: the ones on the free list, and a multiset of pages that
a caller holds. Code that allocates and frees pages makes an exchange between the
two, and leaves every other page alone.
-/

namespace Xv6.Kernel

open Lib

/-- A page that `kfree` accepts. -/
structure IsPage (L : Layout) (m : Nat) : Prop where
  aligned : m % PGSIZE = 0
  low : L.end_ ≤ m
  high : m < PHYSTOP

namespace IsPage

variable {L : Layout} {m : Nat}

theorem ne_zero (page : IsPage L m) : m ≠ 0 := by
  have low := page.low
  have inText := L.inText
  unfold KERNBASE PGSIZE at *
  omega

theorem small (page : IsPage L m) : m < 2 ^ 56 := by
  have high := page.high
  unfold PHYSTOP KERNBASE at high
  omega

end IsPage

/-- The free list from `head` on, linked through the first words of the pages. -/
def Chain (mem : Bytes) : Nat → List Nat → Prop
  | head, [] => head = 0
  | head, m :: rest => head = m ∧ Chain mem (word mem m 0) rest

theorem Chain.frame {mem mem' : Bytes} {head : Nat} {free : List Nat}
    (chain : Chain mem head free) (same : ∀ m ∈ free, SamePage mem mem' m) :
    Chain mem' head free := by
  induction free generalizing head with
  | nil => exact chain
  | cons m rest ih =>
    refine ⟨chain.1, ?_⟩
    rw [word_of_samePage (same m List.mem_cons_self) (by decide)]
    exact ih chain.2 fun q mem => same q (List.mem_cons_of_mem m mem)

theorem Chain.head_eq {mem : Bytes} {head : Nat} {free : List Nat} (chain : Chain mem head free) :
    head = free.headD 0 := by
  cases free with
  | nil => exact chain
  | cons m rest => exact chain.1

/-- The free list, and pages `held` that are not on it, all of them different. -/
structure Holds (L : Layout) (k : KState) (free : List Nat) (held : Multiset Nat) : Prop where
  chain : Chain k.mem k.freelist free
  nodup : ((free : Multiset Nat) + held).Nodup
  page : ∀ m ∈ (free : Multiset Nat) + held, IsPage L m

/-- From `k` to `k'` pages move between the free list and `held`, and no other page
    is touched. -/
structure Moved (k k' : KState) (free : List Nat) (held : Multiset Nat) (free' : List Nat)
    (held' : Multiset Nat) : Prop where
  chain : Chain k'.mem k'.freelist free'
  conserved : (free' : Multiset Nat) + held' = free + held
  frame : ∀ m, m % PGSIZE = 0 → m ∉ free → m ∉ held → SamePage k.mem k'.mem m

/-- Pages move, and nothing else in the kernel changes. -/
structure Exchange (k k' : KState) (free : List Nat) (held : Multiset Nat) (free' : List Nat)
    (held' : Multiset Nat) : Prop extends Moved k k' free held free' held' where
  procs : k'.procs = k.procs
  files : k'.files = k.files
  inodes : k'.inodes = k.inodes
  initproc : k'.initproc = k.initproc
  nextpid : k'.nextpid = k.nextpid

section Ledger

variable {L : Layout} {k k' k'' : KState} {free free' free'' : List Nat}
  {held held' held'' rest : Multiset Nat} {m q : Nat}

section

variable (ok : Holds L k free held)
include ok

theorem Holds.free_page (mem : m ∈ free) : IsPage L m :=
  ok.page m (Multiset.mem_add.mpr (.inl (Multiset.mem_coe.mpr mem)))

theorem Holds.held_page (mem : m ∈ held) : IsPage L m :=
  ok.page m (Multiset.mem_add.mpr (.inr mem))

theorem Holds.not_free (mem : m ∈ held) : m ∉ free := fun other =>
  Multiset.disjoint_left.mp (Multiset.nodup_add.mp ok.nodup).2.2 (Multiset.mem_coe.mpr other) mem

theorem Holds.held_nodup : held.Nodup :=
  (Multiset.nodup_add.mp ok.nodup).2.1

theorem Holds.mono (le : held' ≤ held) : Holds L k free held' where
  chain := ok.chain
  nodup := Multiset.nodup_of_le (Multiset.add_le_add_iff_left.mpr le) ok.nodup
  page m mem := ok.page m (Multiset.mem_of_le (Multiset.add_le_add_iff_left.mpr le) mem)

end

theorem Holds.left (ok : Holds L k free (held + rest)) : Holds L k free held :=
  ok.mono (Multiset.le_add_right held rest)

theorem Holds.right (ok : Holds L k free (held + rest)) : Holds L k free rest :=
  ok.mono (Multiset.le_add_left rest held)

theorem Holds.disjoint (ok : Holds L k free (held + rest)) (mem : m ∈ rest) : m ∉ held :=
  fun other => Multiset.disjoint_left.mp (Multiset.nodup_add.mp ok.held_nodup).2.2 other mem

theorem Moved.trans (first : Moved k k' free held free' held')
    (second : Moved k' k'' free' held' free'' held'') : Moved k k'' free held free'' held'' where
  chain := second.chain
  conserved := second.conserved.trans first.conserved
  frame m aligned outside apart := by
    have gone : m ∉ (free' : Multiset Nat) + held' := by
      rw [first.conserved, Multiset.mem_add, Multiset.mem_coe]
      rintro (mem | mem)
      · exact outside mem
      · exact apart mem
    rw [Multiset.mem_add, Multiset.mem_coe] at gone
    exact (first.frame m aligned outside apart).trans
      (second.frame m aligned (fun mem => gone (.inl mem)) fun mem => gone (.inr mem))

theorem Moved.beside (moved : Moved k k' free held free' held') (rest : Multiset Nat) :
    Moved k k' free (held + rest) free' (held' + rest) where
  chain := moved.chain
  conserved := by rw [← add_assoc, moved.conserved, add_assoc]
  frame m aligned outside apart := moved.frame m aligned outside fun mem =>
    apart (Multiset.mem_add.mpr (.inl mem))

theorem Moved.congr (moved : Moved k k' free held free' held') (before : held = rest)
    (after : held' = held'') : Moved k k' free rest free' held'' := by
  subst before after
  exact moved

theorem Holds.moved (ok : Holds L k free held) (moved : Moved k k' free held free' held') :
    Holds L k' free' held' where
  chain := moved.chain
  nodup := moved.conserved ▸ ok.nodup
  page m mem := ok.page m (moved.conserved ▸ mem)

theorem Moved.samePage (moved : Moved k k' free held free' held')
    (ok : Holds L k free (held + rest)) (mem : m ∈ rest) : SamePage k.mem k'.mem m :=
  moved.frame m (ok.right.held_page mem).aligned (ok.right.not_free mem) (ok.disjoint mem)

theorem Exchange.refl (chain : Chain k.mem k.freelist free) : Exchange k k free held free held :=
  ⟨⟨chain, rfl, fun m _ _ _ => SamePage.refl k.mem m⟩, rfl, rfl, rfl, rfl, rfl⟩

theorem Exchange.trans (first : Exchange k k' free held free' held')
    (second : Exchange k' k'' free' held' free'' held'') :
    Exchange k k'' free held free'' held'' where
  toMoved := first.toMoved.trans second.toMoved
  procs := second.procs.trans first.procs
  files := second.files.trans first.files
  inodes := second.inodes.trans first.inodes
  initproc := second.initproc.trans first.initproc
  nextpid := second.nextpid.trans first.nextpid

theorem Exchange.beside (exchange : Exchange k k' free held free' held') (rest : Multiset Nat) :
    Exchange k k' free (held + rest) free' (held' + rest) :=
  { exchange with toMoved := exchange.toMoved.beside rest }

theorem Exchange.congr (exchange : Exchange k k' free held free' held') (before : held = rest)
    (after : held' = held'') : Exchange k k' free rest free' held'' :=
  { exchange with toMoved := exchange.toMoved.congr before after }

theorem Holds.exchange (ok : Holds L k free held) (exchange : Exchange k k' free held free' held') :
    Holds L k' free' held' :=
  ok.moved exchange.toMoved

theorem Holds.apart (ok : Holds L k free held) (mem : q ∈ held) (free_ : m ∈ free) : m ≠ q :=
  fun same => ok.not_free mem (same ▸ free_)

theorem Exchange.write {mem' : Bytes} (ok : Holds L k free held) (mine : q ∈ held)
    (within : Within q k.mem mem') : Exchange k { k with mem := mem' } free held free held where
  chain := ok.chain.frame fun _ mem =>
    within.samePage (ok.held_page mine).aligned (ok.free_page mem).aligned (ok.apart mine mem)
  conserved := rfl
  frame _ aligned _ apart :=
    within.samePage (ok.held_page mine).aligned aligned fun same => apart (same ▸ mine)
  procs := rfl
  files := rfl
  inodes := rfl
  initproc := rfl
  nextpid := rfl

theorem kalloc_spec (ok : Holds L k free 0) : (free = [] ∧ kalloc k = .ok (0, k)) ∨
      ∃ m rest k', free = m :: rest ∧ kalloc k = .ok (m, k') ∧ Exchange k k' free 0 rest {m} := by
  have head := ok.chain.head_eq
  cases free with
  | nil =>
    refine .inl ⟨rfl, ?_⟩
    rw [kalloc, run_get_bind]
    simp only [show k.freelist = 0 from head, if_true, run_pure]
  | cons m rest =>
    have head : k.freelist = m := head
    have page := ok.free_page List.mem_cons_self
    refine .inr ⟨m, rest,
      { k with
        mem := k.mem.splice m PGSIZE fun _ => 5
        freelist := word k.mem m 0 },
      rfl, ?_, ?_⟩
    · rw [kalloc, run_get_bind]
      simp only [head, if_neg page.ne_zero]
      rfl
    · have within := within_page k.mem (fun _ => 5) m
      have fresh : m ∉ rest := fun mem => by
        have nodup := ok.nodup
        rw [add_zero, Multiset.coe_nodup, List.nodup_cons] at nodup
        exact nodup.1 mem
      refine ⟨⟨?_, ?_, ?_⟩, rfl, rfl, rfl, rfl, rfl⟩
      · exact ok.chain.2.frame fun q mem => within.samePage page.aligned
          (ok.free_page (List.mem_cons_of_mem m mem)).aligned fun same => fresh (same ▸ mem)
      · rw [add_zero, add_comm, Multiset.singleton_add, Multiset.cons_coe]
      · exact fun q aligned outside _ => within.samePage page.aligned aligned fun same =>
          outside (same ▸ List.mem_cons_self)

theorem kfree_spec (ok : Holds L k free {m}) :
    ∃ k', kfree L m k = .ok ((), k') ∧ Exchange k k' free {m} (m :: free) 0 := by
  have mine : m ∈ ({m} : Multiset Nat) := Multiset.mem_singleton_self m
  have page := ok.held_page mine
  have headSmall : k.freelist < 2 ^ 64 := by
    rw [ok.chain.head_eq]
    cases free with
    | nil => decide
    | cons q rest =>
      have := (ok.free_page (m := q) List.mem_cons_self).small
      exact Nat.lt_trans this (by decide)
  have accepted : ¬(m % PGSIZE ≠ 0 ∨ m < L.end_ ∨ m ≥ PHYSTOP) := by
    rintro (bad | bad | bad)
    · exact bad page.aligned
    · exact absurd page.low (by omega)
    · exact absurd page.high (by omega)
  let mem' := (k.mem.splice m PGSIZE fun _ => 1).splice (m + 8 * 0) 8 (Bytes.digits k.freelist)
  have within : Within m k.mem mem' :=
    (within_page k.mem (fun _ => 1) m).trans (within_store (by decide))
  refine ⟨{ k with mem := mem', freelist := m }, ?_, ?_⟩
  · rw [kfree]
    simp only [if_neg accepted]
    rfl
  · refine ⟨⟨⟨rfl, ?_⟩, ?_, ?_⟩, rfl, rfl, rfl, rfl, rfl⟩
    · rw [word_store_self headSmall]
      exact ok.chain.frame fun q mem =>
        within.samePage page.aligned (ok.free_page mem).aligned (ok.apart mine mem)
    · rw [add_zero, add_comm, Multiset.singleton_add, Multiset.cons_coe]
    · exact fun q aligned _ apart => within.samePage page.aligned aligned fun same =>
        apart (same ▸ mine)

end Ledger

end Xv6.Kernel
