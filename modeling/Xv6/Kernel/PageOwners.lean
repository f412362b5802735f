import Xv6.Kernel.SysCalls

/-! # Address spaces and owners in every run

From boot on, whatever system calls the processes make, every page table maps exactly
the memory of its process, the trapframe and the trampoline, and every page of physical
memory has exactly one owner. Both are stated about the bytes in memory: what the
hardware finds when it walks a page table, and what the links of the free list lead to.
-/

namespace Xv6.Kernel

open Lib

/-! ## What the memory says -/

/-- The entry that maps `va`, as the hardware finds it from the table at `pagetable`:
    the first valid one on the way down that gives a permission. -/
def translate (mem : Bytes) (va : Nat) : Nat → Nat → Option Nat
  | level, pagetable =>
      let w := word mem pagetable (px level va)
      if w &&& PTE_V = 0 then none
      else if w &&& (PTE_R ||| PTE_W ||| PTE_X) ≠ 0 then some w
      else
        match level with
        | 0 => none
        | level + 1 => translate mem va level (pte2pa w)

/-- The page-table page that a path of indices leads to. -/
def nodeIn (mem : Bytes) : Nat → List Nat → Option Nat
  | q, [] => some q
  | q, j :: path =>
      if word mem q j &&& PTE_V ≠ 0 ∧ word mem q j &&& (PTE_R ||| PTE_W ||| PTE_X) = 0 then
        nodeIn mem (pte2pa (word mem q j)) path
      else none

/-- The page at a position of the free list, 0 behind its end. -/
def freeNth (mem : Bytes) : Nat → Nat → Nat
  | head, 0 => head
  | head, i + 1 => if head = 0 then 0 else freeNth mem (word mem head 0) i

section Reading

variable {L : Layout} {mem : Bytes} {free : List Nat} {head h q w : Nat} {c : Nat → Tree}
  {t : Tree}

theorem freeNth_eq (chain : Chain mem head free) (pages : ∀ m ∈ free, IsPage L m) (i : Nat) :
    freeNth mem head i = free.getD i 0 := by
  induction free generalizing head i with
  | nil =>
    have zero : head = 0 := chain
    subst zero
    cases i with
    | zero => rfl
    | succ i => rfl
  | cons m rest ih =>
    obtain ⟨rfl, chain⟩ := chain
    cases i with
    | zero => rfl
    | succ i =>
      rw [freeNth, if_neg (pages head List.mem_cons_self).ne_zero, List.getD_cons_succ]
      exact ih chain (fun m mem => pages m (List.mem_cons_of_mem head mem)) i

theorem translate_eq (va : Nat) (stored : ∀ j, j < 512 → Spells mem h (word mem q j) (c j))
    (pages : ∀ m ∈ treePages (.node q c), IsPage L m) :
    translate mem va h q = (Radix.get 512 (h + 1) (vpn va) (.node q c)).map Leaf.pte := by
  induction h generalizing q c with
  | zero =>
    have inside := Radix.digit_lt (b := 512) (by decide) 0 (vpn va)
    rw [translate, px_eq_digit, Radix.get_node, Radix.get_zero]
    rcases (stored _ inside).cases_zero with ⟨none_, zero⟩ | ⟨x, some_, good⟩
    · simp only [zero, none_]
      rfl
    · rw [some_, good.word]
      simp only [if_neg good.leaf.valid, if_pos good.leaf.not_pointer]
      rfl
  | succ h ih =>
    have inside := Radix.digit_lt (b := 512) (by decide) (h + 1) (vpn va)
    have below := Radix.pages_child_le (f := Leaf.pages) q c inside
    rw [translate, px_eq_digit, Radix.get_node]
    rcases (stored _ inside).cases with ⟨none_, zero⟩ | ⟨q', c', node, pointer_, stored'⟩
    · simp only [zero, none_]
      rfl
    · rw [node] at below
      have page := pages q' (Multiset.mem_of_le below (Radix.page_mem q' c'))
      rw [node, pointer_]
      simp only [if_neg (pointer_valid q'), if_neg (not_not.mpr (pointer_not_leaf q')),
        pte2pa_pointer page.aligned page.small]
      exact ih stored' fun m mem => pages m (Multiset.mem_of_le below mem)

theorem nodeIn_eq {path : List Nat} (stored : Spells mem h w (.node q c))
    (pages : ∀ m ∈ treePages (.node q c), IsPage L m) (digits : ∀ j ∈ path, j < 512) :
    nodeIn mem q path = Radix.nodeAt path (.node q c) := by
  induction path generalizing h w q c with
  | nil => rfl
  | cons j path ih =>
    have inside := digits j List.mem_cons_self
    have below := Radix.pages_child_le (f := Leaf.pages) q c inside
    rw [nodeIn, Radix.nodeAt]
    have absent : word mem q j = 0 → ¬(word mem q j &&& PTE_V ≠ 0 ∧
        word mem q j &&& (PTE_R ||| PTE_W ||| PTE_X) = 0) := fun zero both => by
      rw [zero] at both
      exact both.1 rfl
    obtain ⟨h, rfl⟩ : ∃ h', h = h' + 1 := by
      cases h with
      | zero => exact stored.elim
      | succ h => exact ⟨h, rfl⟩
    cases child : c j with
    | empty =>
      have zero := stored.2 j inside
      rw [child, Radix.stored_empty] at zero
      rw [if_neg (absent zero)]
      cases path <;> rfl
    | leaf x =>
      have good := stored.2 j inside
      rw [child] at good
      cases h with
      | zero =>
        rw [if_neg fun both => good.leaf.not_pointer (good.word ▸ both.2)]
        cases path <;> rfl
      | succ h => exact good.elim
    | node q' c' =>
      have deeper := stored.2 j inside
      rw [child] at deeper below
      cases h with
      | zero => exact deeper.elim
      | succ h =>
        have page := pages q' (Multiset.mem_of_le below (Radix.page_mem q' c'))
        rw [deeper.1, if_pos ⟨pointer_valid q', pointer_not_leaf q'⟩,
          pte2pa_pointer page.aligned page.small]
        exact ih deeper (fun m mem => pages m (Multiset.mem_of_le below mem))
          fun i mem => digits i (List.mem_cons_of_mem j mem)

/-! ### The tables of processes -/

variable {fixed temp : Multiset Nat} {k : KState} {g : Ghost} {float : Fin NFILE → Nat}
  {p : Fin NPROC}

section

variable (inv : Inv L fixed k g temp float)
include inv

theorem Inv.treePage (p : Fin NPROC) {m : Nat} (mem : m ∈ treePages (g.tree p)) : IsPage L m :=
  (inv.treeHolds p).left.held_page mem

theorem Inv.translate_eq (used : (k.procs p).state ≠ .unused) (v : Nat) :
    translate k.mem (PGSIZE * v) 2 (k.procs p).pagetable = (leafAt (g.tree p) v).map Leaf.pte := by
  obtain ⟨⟨⟨c, node⟩, stored⟩, _⟩ := inv.live used
  have pages : ∀ m ∈ treePages (g.tree p), IsPage L m := fun m mem => inv.treePage p mem
  rw [node] at pages stored ⊢
  have read := Kernel.translate_eq (PGSIZE * v) stored.2 pages
  rwa [vpn_mul] at read

theorem Inv.nodeIn_eq (used : (k.procs p).state ≠ .unused) {path : List Nat}
    (digits : ∀ j ∈ path, j < 512) :
    nodeIn k.mem (k.procs p).pagetable path = Radix.nodeAt path (g.tree p) := by
  obtain ⟨⟨⟨c, node⟩, stored⟩, _⟩ := inv.live used
  have pages : ∀ m ∈ treePages (g.tree p), IsPage L m := fun m mem => inv.treePage p mem
  rw [node] at pages stored ⊢
  exact Kernel.nodeIn_eq stored pages digits

/-- A process has a page table as long as its slot is in use. -/
theorem Inv.pagetable_ne_zero :
    (k.procs p).pagetable ≠ 0 ↔ (k.procs p).state ≠ .unused := by
  constructor
  · intro nonzero unused
    exact nonzero ((inv.procs p).unused unused).1
  · intro used
    obtain ⟨⟨⟨c, node⟩, _⟩, _⟩ := inv.live used
    have mem : (k.procs p).pagetable ∈ treePages (g.tree p) := by
      rw [node]
      exact Radix.page_mem _ c
    exact (inv.treePage p mem).ne_zero

end

end Reading

/-! ## Runs -/

section Runs

variable {L : Layout} {fixed : Multiset Nat} {s s' : State} {e : Event} {o : Obs}

/-- What holds between system calls. Before `userinit` there is no process, and room
    for the first one. -/
structure Settled (L : Layout) (fixed : Multiset Nat) (s : State) (g : Ghost) : Prop where
  inv : Inv L fixed s.k g 0 fun _ => 0
  fresh : s.k.initproc = none → (∀ q, (s.k.procs q).state = .unused) ∧ 10 ≤ g.free.length
  panicked : s.panicked = none ∨ s.panicked = some "init exiting"

theorem Settled.call {α : Type} {g : Ghost} {m : KM α} (show_ : α → Obs)
    (settled : Settled L fixed s g) (started : s.k.initproc ≠ none)
    (returns : Returns L fixed s.k g m) :
    ∃ g', Settled L fixed (s.call m show_).1 g' ∧ Drops g g' := by
  obtain ⟨r, k', g', ran, inv, init, drops⟩ := returns
  refine ⟨g', ?_, drops⟩
  rw [State.call, ran]
  exact ⟨inv, fun none_ => absurd (init.symm.trans none_) started, settled.panicked⟩

/-- A process that runs has been started by `userinit`. -/
theorem Settled.started {g : Ghost} {p : Fin NPROC} (settled : Settled L fixed s g)
    (used : (s.k.procs p).state ≠ .unused) : s.k.initproc ≠ none := fun none_ =>
  used ((settled.fresh none_).1 p)

theorem Settled.perform {g : Ghost} (settled : Settled L fixed s g)
    (caller : ∀ p, e.caller = some p → (s.k.procs p).state = .running)
    (taken : perform L s e = some (s', o)) : ∃ g', Settled L fixed s' g' ∧ Drops g g' := by
  have calls : ∀ {α : Type} {p : Fin NPROC} {m : KM α} {show_ : α → Obs},
      (s.k.procs p).state = .running → Returns L fixed s.k g m →
      some (s.call m show_) = some (s', o) → ∃ g', Settled L fixed s' g' ∧ Drops g g' := by
    intro α p m show_ running returns same
    have after := settled.call show_ (settled.started (running_used running)) returns
    rw [Option.some.inj same] at after
    exact after
  have inv := settled.inv
  cases e with
  | userinit =>
    by_cases none_ : s.k.initproc = none
    · obtain ⟨unused, room⟩ := settled.fresh none_
      obtain ⟨k', g', p, ran, after, pipes, -, first⟩ := inv.userinit_spec unused room
      have init := first.initproc
      simp only [Kernel.perform, if_pos none_, State.call, ran, Option.some.injEq,
        Prod.mk.injEq] at taken
      obtain ⟨rfl, _⟩ := taken
      exact ⟨g', ⟨after, fun other => absurd (init.symm.trans other) (Option.some_ne_none p),
        settled.panicked⟩, .of_eq pipes⟩
    · simp only [Kernel.perform, if_neg none_] at taken
      cases taken
  | fork p => exact calls (caller p rfl) (inv.fork_returns (caller p rfl)) taken
  | exec p upath uargv namei =>
    exact calls (caller p rfl) (inv.sysExec_returns (caller p rfl) upath uargv namei) taken
  | sbrk p n => exact calls (caller p rfl) (inv.sbrk_returns (caller p rfl) n) taken
  | ps p start count stack =>
    rcases inv.ps_returns (caller p rfl) start count stack with large | returns
    · simp [Kernel.perform, State.call, large] at taken
    · rw [Kernel.perform] at taken
      split at taken
      · cases taken
      · exact calls (caller p rfl) returns taken
  | exit p status =>
    by_cases isInit : s.k.initproc = some p
    · simp only [Kernel.perform, State.call, exit_init isInit, Option.some.injEq,
        Prod.mk.injEq] at taken
      obtain ⟨rfl, _⟩ := taken
      exact ⟨g, ⟨inv, settled.fresh, .inr rfl⟩, .of_eq rfl⟩
    · exact calls (caller p rfl) (inv.exit_returns (caller p rfl) status isInit) taken
  | wait p addr => exact calls (caller p rfl) (inv.wait_returns (caller p rfl) addr) taken
  | kill p pid => exact calls (caller p rfl) (inv.kill_returns pid) taken
  | pipe p fdarray => exact calls (caller p rfl) (inv.sysPipe_returns (caller p rfl) fdarray) taken
  | close p fd => exact calls (caller p rfl) (inv.sysClose_returns (caller p rfl) fd) taken
  | dup p fd => exact calls (caller p rfl) (inv.sysDup_returns (caller p rfl) fd) taken
  | open_ p found => exact calls (caller p rfl) (inv.sysOpen_returns (caller p rfl) found) taken
  | store p va byte =>
    exact calls (caller p rfl) (inv.userStore_returns (caller p rfl) va byte) taken
  | schedule p state =>
    rw [Kernel.perform] at taken
    by_cases both : (s.k.procs p).state.live ∧ state.live
    · rw [if_pos both] at taken
      have used : (s.k.procs p).state ≠ .unused := fun unused =>
        ProcState.live_ne both.1 (.inl unused)
      have after := settled.call (fun _ => .silent) (settled.started used)
        (inv.schedule_returns both.1 both.2)
      rw [Option.some.inj taken] at after
      exact after
    · rw [if_neg both] at taken
      cases taken

theorem Settled.step {g : Ghost} (settled : Settled L fixed s g)
    (taken : step L s e = some (s', o)) : ∃ g', Settled L fixed s' g' ∧ Drops g g' := by
  rw [Kernel.step] at taken
  split at taken
  · cases taken
  · split at taken
    · rename_i caller
      refine settled.perform (fun p calls => ?_) taken
      rw [calls] at caller
      simpa using caller
    · cases taken

theorem Settled.run {g : Ghost} {tr : List (Event × Obs)} (settled : Settled L fixed s g)
    (run : (machine L).Run s tr s') : ∃ g', Settled L fixed s' g' :=
  run.always_invariant (fun _ t => ∃ g', Settled L fixed t g') ⟨g, settled⟩
    fun _ _ _ _ _ _ ⟨_, before⟩ taken =>
      let ⟨g', after, _⟩ := before.step taken
      ⟨g', after⟩

end Runs

/-! ## Boot -/

/-- The machine when `main` calls `userinit`: `kinit` has put every page on the free list,
    and the kernel has taken pages from it for the stacks of the processes and for its
    own structures (its page table, the rings of the disk). -/
structure Boot (L : Layout) where
  k : KState
  free : List Nat
  kstack : Fin NPROC → Nat
  kernel : List Nat
  chain : Chain k.mem k.freelist free
  whole : (free : Multiset Nat) + (Finset.univ.val.map kstack + kernel) = allPages L
  room : 10 ≤ free.length
  procs : ∀ p, (k.procs p).state = .unused ∧ (k.procs p).pagetable = 0 ∧
    (k.procs p).trapframe = 0 ∧ (k.procs p).sz = 0 ∧ ∀ fd, (k.procs p).ofile fd = none
  files : ∀ f, (k.files f).ref = 0 ∧ (k.files f).type = .none
  initproc : k.initproc = none

namespace Boot

variable {L : Layout}

/-- Where runs begin. -/
def state (b : Boot L) : State := ⟨b.k, none⟩

/-- The pages that the kernel keeps. -/
def fixed (b : Boot L) : Multiset Nat := Finset.univ.val.map b.kstack + b.kernel

def ghost (b : Boot L) : Ghost := ⟨b.free, fun _ => .empty, 0⟩

theorem settled (b : Boot L) : Settled L b.fixed b.state b.ghost := by
  have noPages : procPages b.k b.ghost = 0 := by
    refine Finset.sum_eq_zero fun p _ => ?_
    obtain ⟨_, _, trapframe, _, _⟩ := b.procs p
    rw [ownPages, framePage, if_pos trapframe, ghost, treePages, Radix.pages_empty, add_zero]
  refine ⟨⟨b.chain, ?_, fun p => ?_, ?_⟩, fun _ => ⟨fun q => (b.procs q).1, b.room⟩, .inl rfl⟩
  · rw [← b.whole, state, noPages]
    simp only [ghost, fixed, zero_add, add_zero]
  · obtain ⟨unused, pagetable, trapframe, size, closed⟩ := b.procs p
    exact ⟨fun _ => ⟨pagetable, trapframe, size, rfl⟩, fun used => absurd unused used,
      fun _ => closed⟩
  · have noSlot : ∀ i f, b.k.slots i ≠ some f := fun i f => by
      rw [KState.slots, (b.procs i.1).2.2.2.2 i.2]
      exact (Option.some_ne_none f).symm
    have noEnd : ∀ f m w, ¬(b.k.files f).IsEnd m w := fun f m w =>
      File.not_isEnd (b.files f).2 m w
    refine ⟨fun f => ?_, fun f _ => (b.files f).2, fun m w f isEnd => absurd isEnd (noEnd f m w),
      fun m mem => absurd mem (Multiset.notMem_zero m),
      fun m w f _ isEnd _ => absurd isEnd (noEnd f m w),
      fun m mem => absurd mem (Multiset.notMem_zero m),
      fun f isPipe => absurd (isPipe.symm.trans (b.files f).2) FileType.noConfusion,
      fun m mem => absurd mem (Multiset.notMem_zero m)⟩
    rw [state, (b.files f).1, tally_eq_zero fun i => noSlot i f]
    rfl

end Boot

/-- The loop of `freerange`, with `n` pages to go. -/
def freerangeLoop (L : Layout) : Nat → Nat → KM Unit
  | 0, _ => return
  | n + 1, p => do
      kfree L p
      freerangeLoop L n (p + PGSIZE)

/-- How many pages there are from `end` on. -/
def pageTotal (L : Layout) : Nat := (PHYSTOP - pgRoundUp L.end_) / PGSIZE

/-- `freerange(end, PHYSTOP)`. -/
def kinit (L : Layout) : KM Unit := freerangeLoop L (pageTotal L) (pgRoundUp L.end_)

/-- The calls of `kalloc` by which the kernel takes pages at boot. -/
def kallocs : Nat → KM (List Nat)
  | 0 => return []
  | n + 1 => do
      let page ← kalloc
      return page :: (← kallocs n)

/-- The kernel's data before `main`: the memory behind it may hold anything. -/
def powerOn (mem : Bytes) : KState where
  mem := mem
  freelist := 0
  procs := fun _ => ⟨.unused, false, 0, 0, none, 0, 0, 0, fun _ => none, firstInode, fun _ => 0⟩
  files := fun _ => ⟨.none, 0, false, false, 0, firstInode⟩
  inodes := fun _ => 0
  initproc := none
  nextpid := 1

/-- The `n` pages from `p` on. -/
def pagesFrom (p : Nat) : Nat → List Nat
  | 0 => []
  | n + 1 => p :: pagesFrom (p + PGSIZE) n

section Kinit

variable {L : Layout} {k : KState} {free : List Nat}

theorem mem_pagesFrom {p n m : Nat} : m ∈ pagesFrom p n ↔ ∃ i, i < n ∧ m = p + PGSIZE * i := by
  induction n generalizing p with
  | zero => exact ⟨fun bad => absurd bad List.not_mem_nil,
    fun ⟨_, bad, _⟩ => absurd bad (Nat.not_lt_zero _)⟩
  | succ n ih =>
    rw [pagesFrom, List.mem_cons, ih]
    constructor
    · rintro (rfl | ⟨i, low, rfl⟩)
      · exact ⟨0, Nat.succ_pos n, rfl⟩
      · exact ⟨i + 1, Nat.succ_lt_succ low, by rw [Nat.mul_succ]; omega⟩
    · rintro ⟨i, low, rfl⟩
      cases i with
      | zero => exact .inl rfl
      | succ i => exact .inr ⟨i, Nat.lt_of_succ_lt_succ low, by rw [Nat.mul_succ]; omega⟩

theorem length_pagesFrom (p n : Nat) : (pagesFrom p n).length = n := by
  induction n generalizing p with
  | zero => rfl
  | succ n ih => rw [pagesFrom, List.length_cons, ih]

theorem nodup_pagesFrom (p n : Nat) : (pagesFrom p n).Nodup := by
  induction n generalizing p with
  | zero => exact List.nodup_nil
  | succ n ih =>
    rw [pagesFrom, List.nodup_cons, mem_pagesFrom]
    refine ⟨?_, ih _⟩
    rintro ⟨i, _, same⟩
    unfold PGSIZE at same
    omega

theorem pagesFrom_all (L : Layout) :
    (pagesFrom (pgRoundUp L.end_) (pageTotal L) : Multiset Nat) = allPages L := by
  have inRam := L.inRam
  have top : PHYSTOP = PGSIZE * 557056 := by decide
  have first : ∃ a, pgRoundUp L.end_ = PGSIZE * a ∧ L.end_ ≤ PGSIZE * a ∧
      PGSIZE * a < L.end_ + PGSIZE := by
    refine ⟨(L.end_ + (PGSIZE - 1)) / PGSIZE, ?_⟩
    unfold pgRoundUp pgRoundDown u64 PHYSTOP KERNBASE PGSIZE at *
    omega
  obtain ⟨a, start, low, high⟩ := first
  refine (Multiset.Nodup.ext (Multiset.coe_nodup.mpr (nodup_pagesFrom _ _))
    (nodup_allPages L)).mpr fun m => ?_
  rw [Multiset.mem_coe, mem_pagesFrom, mem_allPages, start, pageTotal, start]
  unfold PGSIZE at *
  constructor
  · rintro ⟨i, inside, rfl⟩
    exact ⟨by unfold PGSIZE; omega, by omega, by omega⟩
  · rintro ⟨aligned, fromEnd, below⟩
    unfold PGSIZE at aligned
    exact ⟨m / 4096 - a, by omega, by omega⟩

theorem freerangeLoop_spec (n p : Nat) (ok : Holds L k free (pagesFrom p n)) :
    ∃ k' free', freerangeLoop L n p k = .ok ((), k') ∧
      Exchange k k' free (pagesFrom p n) free' 0 := by
  induction n generalizing k free p with
  | zero => exact ⟨k, free, rfl, .refl ok.chain⟩
  | succ n ih =>
    have split : ((pagesFrom p (n + 1) : List Nat) : Multiset Nat) =
        {p} + (pagesFrom (p + PGSIZE) n : Multiset Nat) := by
      rw [pagesFrom, Multiset.singleton_add, Multiset.cons_coe]
    rw [split] at ok ⊢
    obtain ⟨k₁, first, released⟩ := kfree_spec ok.left
    have next := (released.beside (pagesFrom (p + PGSIZE) n)).congr rfl (zero_add _)
    obtain ⟨k', free', ran, exchange⟩ := ih (p + PGSIZE) (ok.exchange next)
    refine ⟨k', free', ?_, next.trans exchange⟩
    rw [freerangeLoop, run_bind first]
    exact ran

theorem kallocs_spec (n : Nat) (ok : Holds L k free 0) (room : n ≤ free.length) :
    ∃ taken rest k', kallocs n k = .ok (taken, k') ∧ free = taken ++ rest ∧ taken.length = n ∧
      Exchange k k' free 0 rest taken := by
  induction n generalizing k free with
  | zero => exact ⟨[], free, k, rfl, rfl, rfl, .refl ok.chain⟩
  | succ n ih =>
    rcases kalloc_spec ok with ⟨rfl, _⟩ | ⟨m, rest, k₁, rfl, got, taken₁⟩
    · exact absurd room (Nat.not_succ_le_zero n)
    obtain ⟨taken, rest', k', ran, whole, count, exchange⟩ :=
      ih ((ok.exchange taken₁).mono (Multiset.zero_le _)) (Nat.le_of_succ_le_succ room)
    refine ⟨m :: taken, rest', k', ?_, ?_, ?_, ?_⟩
    · rw [kallocs, run_bind got, run_bind ran]
      rfl
    · rw [whole, List.cons_append]
    · rw [List.length_cons, count]
    · refine taken₁.trans ((exchange.beside {m}).congr (zero_add _) ?_)
      rw [add_comm, Multiset.singleton_add, Multiset.cons_coe]

/-- `kinit` and the allocations for the stacks of the processes lead to the state in which
    runs begin. -/
theorem kinit_boots (L : Layout) (mem : Bytes) (room : NPROC + 10 ≤ pageTotal L) :
    ∃ b : Boot L, (kinit L >>= fun _ => kallocs NPROC) (powerOn mem) =
      .ok (List.ofFn b.kstack, b.k) ∧ pageTotal L = NPROC + b.free.length := by
  have all :
      ((pagesFrom (pgRoundUp L.end_) (pageTotal L) : List Nat) : Multiset Nat) = allPages L :=
    pagesFrom_all L
  have ok : Holds L (powerOn mem) [] (pagesFrom (pgRoundUp L.end_) (pageTotal L)) := by
    refine ⟨rfl, ?_, fun m inside => ?_⟩
    · rw [all, Multiset.coe_nil, zero_add]
      exact nodup_allPages L
    · rw [all, Multiset.coe_nil, zero_add] at inside
      exact mem_allPages.mp inside
  obtain ⟨k₁, free₁, filled, exchange₁⟩ := freerangeLoop_spec _ _ ok
  have same : (free₁ : Multiset Nat) = (pagesFrom (pgRoundUp L.end_) (pageTotal L) : List Nat) := by
    have conserved := exchange₁.conserved
    rwa [add_zero, Multiset.coe_nil, zero_add] at conserved
  have count : free₁.length = pageTotal L := by
    have cards := congrArg Multiset.card same
    rwa [Multiset.coe_card, Multiset.coe_card, length_pagesFrom] at cards
  obtain ⟨taken, rest, k₂, took, whole, number, exchange₂⟩ :=
    kallocs_spec NPROC (ok.exchange exchange₁) (by omega)
  have lengths : free₁.length = NPROC + rest.length := by rw [whole, List.length_append, number]
  have kstacks : List.ofFn (fun p : Fin NPROC => taken.getD p 0) = taken := by
    refine List.ext_getElem (by rw [List.length_ofFn, number]) fun i inside inside' => ?_
    rw [List.getElem_ofFn, List.getD_eq_getElem _ _ inside']
  have ran : (kinit L >>= fun _ => kallocs NPROC) (powerOn mem) =
      .ok (List.ofFn fun p : Fin NPROC => taken.getD p 0, k₂) := by
    rw [kstacks, kinit, run_bind filled]
    exact took
  have procs : k₂.procs = (powerOn mem).procs := exchange₂.procs.trans exchange₁.procs
  have files : k₂.files = (powerOn mem).files := exchange₂.files.trans exchange₁.files
  refine ⟨{
    k := k₂
    free := rest
    kstack := fun p => taken.getD p 0
    kernel := []
    chain := exchange₂.chain
    whole := ?_
    room := by omega
    procs := fun p => ?_
    files := fun f => ?_
    initproc := exchange₂.initproc.trans exchange₁.initproc }, ran, count.symm.trans lengths⟩
  · rw [Fin.univ_val_map, kstacks, Multiset.coe_nil, add_zero, ← all, ← same, whole,
      ← Multiset.coe_add, add_comm]
  · rw [procs]
    exact ⟨rfl, rfl, rfl, rfl, fun _ => rfl⟩
  · rw [files]
    exact ⟨rfl, rfl⟩

end Kinit

/-! ## Address spaces -/

section Spaces

variable {L : Layout} {fixed temp : Multiset Nat} {k : KState} {g : Ghost}
  {float : Fin NFILE → Nat} {p : Fin NPROC} {t : Tree} {n tf : Nat}

theorem Shape.isSome_iff (shape : Shape L t n tf) {v : Nat} (small : v < 2 ^ 27) :
    (leafAt t v).isSome ↔ v < n ∨ v = trapframeVpn ∨ v = trampolineVpn := by
  have vpns : trapframeVpn + 1 = trampolineVpn := by decide
  constructor
  · intro some_
    by_contra outside
    have none_ : leafAt t v = none := by
      rcases Nat.lt_or_ge v trapframeVpn with low | high
      · exact shape.above v (by omega) low
      · exact shape.beyond v (by omega) small
    rw [none_] at some_
    exact Bool.noConfusion some_
  · rintro (low | rfl | rfl)
    · obtain ⟨pte, some_⟩ := shape.mapped v low
      rw [some_]
      rfl
    · rw [shape.trapframe]
      rfl
    · rw [shape.trampoline]
      rfl

/-- The memory of a process is bounded by that of the machine. -/
theorem Inv.size_le (inv : Inv L fixed k g temp float) (used : (k.procs p).state ≠ .unused) :
    (k.procs p).sz < 2 ^ 63 :=
  Nat.lt_of_le_of_lt ((inv.live used).2.mapped.size_le (inv.treeHolds p).left)
    (Nat.lt_trans PHYSTOP_lt (by decide))

/-- In every state of every run, the page table of a process maps exactly the pages of
    its memory, the trapframe and the trampoline; and no system call has panicked, but
    for `exit` of the first process. -/
theorem addressSpace_exact (b : Boot L) {tr : List (Event × Obs)} {s : State}
    (run : (machine L).Run b.state tr s) :
    (∀ p, (s.k.procs p).pagetable ≠ 0 → ∀ v, v < 2 ^ 27 →
      ((translate s.k.mem (PGSIZE * v) 2 (s.k.procs p).pagetable).isSome ↔
        PGSIZE * v < pgRoundUp (s.k.procs p).sz ∨ PGSIZE * v = TRAPFRAME ∨
          PGSIZE * v = TRAMPOLINE)) ∧
      (s.panicked = none ∨ s.panicked = some "init exiting") := by
  obtain ⟨g, settled⟩ := b.settled.run run
  refine ⟨fun p hasTable v small => ?_, settled.panicked⟩
  have inv := settled.inv
  have used := inv.pagetable_ne_zero.mp hasTable
  rw [inv.translate_eq used, Option.isSome_map,
    (inv.live used).2.isSome_iff small, pgRoundUp_eq (inv.size_le used), TRAPFRAME_eq,
    TRAMPOLINE_eq, Nat.mul_lt_mul_left (show 0 < PGSIZE by decide)]
  have cancel : ∀ u, PGSIZE * v = PGSIZE * u ↔ v = u := fun u =>
    Nat.mul_right_inj (show PGSIZE ≠ 0 by decide)
  rw [cancel, cancel]

/-- The layout of a kernel of 34 pages. -/
def smallKernel : Layout where
  end_ := 0x80022000
  trampoline := 0x80007000
  stack := 3600
  inText := by decide
  aligned := by decide
  inRam := by decide
  inPage := by decide

theorem exists_userinitRun : ∃ (b : Boot smallKernel) (s : State) (p : Fin NPROC) (g : Ghost),
    (machine smallKernel).Run b.state [(.userinit, .silent)] s ∧ s.panicked = none ∧
      Inv smallKernel b.fixed s.k g 0 (fun _ => 0) ∧ 10 ≤ g.free.length ∧
      IsFirst s.k p (g.tree p) := by
  obtain ⟨b, -, total⟩ := kinit_boots smallKernel (fun _ => 0) (by decide)
  obtain ⟨unused, room⟩ := b.settled.fresh b.initproc
  obtain ⟨k', g', p, ran, after, -, cost, first⟩ := b.settled.inv.userinit_spec unused room
  have taken : step smallKernel b.state .userinit = some (⟨k', none⟩, .silent) := by
    simp only [step, Event.caller, Option.all_none, perform, State.call, Boot.state, b.initproc,
      Option.isSome_none, Bool.false_eq_true, if_false, if_true]
    rw [show userinit smallKernel b.k = .ok ((), k') from ran]
  have plenty : NPROC + 19 ≤ pageTotal smallKernel := by decide
  have cost : b.free.length ≤ g'.free.length + 9 := cost
  exact ⟨b, ⟨k', none⟩, p, g', .snoc .start taken, rfl, after, by omega, first⟩

/-- The first process when the scheduler runs it. -/
structure FirstRuns (s : State) (p : Fin NPROC) : Prop where
  running : (s.k.procs p).state = .running
  quiet : s.panicked = none
  slot : p.val = 0
  size : (s.k.procs p).sz = PGSIZE
  page : ∃ pte, translate s.k.mem 0 2 (s.k.procs p).pagetable = some pte ∧ pte &&& PTE_U ≠ 0

/-- `userinit` makes the first process, and it gets the CPU. -/
def firstRun (p : Fin NPROC) : List (Event × Obs) :=
  [(.userinit, .silent), (.schedule p .running, .silent)]

/-- The first process forks. -/
def forkRun (p : Fin NPROC) (pid : Int) : List (Event × Obs) := firstRun p ++ [(.fork p, .ret pid)]

theorem exists_firstRun : ∃ (b : Boot smallKernel) (s : State) (p : Fin NPROC) (g : Ghost),
    (machine smallKernel).Run b.state (firstRun p) s ∧
      FirstRuns s p ∧ Inv smallKernel b.fixed s.k g 0 (fun _ => 0) ∧ 10 ≤ g.free.length ∧
      ∀ q, q ≠ p → (s.k.procs q).state = .unused := by
  obtain ⟨b, s, p, g, run, quiet, inv, room, first⟩ := exists_userinitRun
  have live : (s.k.procs p).state.live ∧ ProcState.running.live := by
    rw [first.state]
    decide
  have used : (s.k.procs p).state ≠ .unused := by
    rw [first.state]
    decide
  let x : Proc := { s.k.procs p with state := .running }
  let k' : KState := { s.k with procs := Function.update s.k.procs p x }
  have taken : step smallKernel s (.schedule p .running) = some (⟨k', none⟩, .silent) := by
    simp only [step, quiet, Option.isSome_none, Bool.false_eq_true, if_false, Event.caller,
      Option.all_none, if_true, perform, if_pos live, State.call, modifyProc_run]
    rfl
  have here : k'.procs p = x := Function.update_self ..
  have other : ∀ q, q ≠ p → k'.procs q = s.k.procs q := fun q ne => Function.update_of_ne ne ..
  obtain ⟨pte, some_, user⟩ := first.page
  refine ⟨b, ⟨k', none⟩, p, g, run.snoc taken, ⟨by rw [here], rfl, first.slot, ?_, pte, ?_, user⟩,
    inv.relabel rfl rfl rfl fun q => ?_, room, fun q ne => ?_⟩
  · rw [here]
    exact first.size
  · rw [here]
    refine (inv.translate_eq used 0).trans ?_
    rw [some_]
    rfl
  · by_cases same : q = p
    · subst same
      rw [here]
      exact ⟨rfl, rfl, rfl, rfl, iff_of_false ProcState.noConfusion used, nofun⟩
    · rw [other q same]
      exact (inv.procs q).refl_same
  · rw [other q ne]
    exact first.alone q ne

theorem exists_runningRun : ∃ (b : Boot smallKernel) (s : State) (p : Fin NPROC),
    (machine smallKernel).Run b.state (firstRun p) s ∧
      FirstRuns s p := by
  obtain ⟨b, s, p, g, run, first, -⟩ := exists_firstRun
  exact ⟨b, s, p, run, first⟩

/-- There is room for a child, and a slot. -/
theorem FirstRuns.room (first : FirstRuns s p) (room : 10 ≤ n)
    (alone : ∀ q, q ≠ p → (s.k.procs q).state = .unused) :
    ¬ (n ≤ 3 * pageCount (s.k.procs p).sz + 6 ∨ ∀ q, (s.k.procs q).state ≠ .unused) := by
  rintro (few | full)
  · rw [first.size, show pageCount PGSIZE = 1 by decide] at few
    omega
  · have other : (⟨1, one_lt_NPROC⟩ : Fin NPROC) ≠ p := by
      rintro rfl
      exact absurd first.slot (by decide)
    exact full _ (alone _ other)

theorem exists_forkRun : ∃ (b : Boot smallKernel) (s : State) (p np : Fin NPROC) (pid : Int),
    (machine smallKernel).Run b.state (forkRun p pid) s ∧ np ≠ p ∧ ∀ q ∈ [p, np],
      (s.k.procs q).pagetable ≠ 0 := by
  obtain ⟨b, s, p, g, run, first, inv, room, alone⟩ := exists_firstRun
  have running := first.running
  rcases inv.fork_spec running with ⟨_, _, -, -, full⟩ | ⟨np, x, t, k', free', ran, forks⟩
  · exact absurd full (first.room room alone)
  have taken : step smallKernel s (.fork p) =
      some (⟨k', none⟩, .ret s.k.nextpid.toInt) := by
    simp only [step, first.quiet, Option.isSome_none, Bool.false_eq_true, if_false, Event.caller,
      Option.all_some, running, decide_true, if_true, perform, State.call, ran]
  have other : np ≠ p := by
    rintro rfl
    exact ProcState.noConfusion (forks.unused.symm.trans running)
  refine ⟨b, ⟨k', none⟩, p, np, _, run.snoc taken, other, fun q member => ?_⟩
  rw [forks.inv.pagetable_ne_zero, forks.procs]
  rcases List.mem_pair.mp member with rfl | rfl
  · rw [Function.update_of_ne other.symm, running]
    decide
  · rw [Function.update_self]
    exact ProcState.noConfusion

/-- Both processes after a `fork` have the address space that their size calls for. -/
theorem addressSpace_forkRun : ∃ (b : Boot smallKernel) (s : State) (p np : Fin NPROC) (pid : Int),
    (machine smallKernel).Run b.state (forkRun p pid) s ∧ np ≠ p ∧
      (∀ q ∈ [p, np], (s.k.procs q).pagetable ≠ 0 ∧ ∀ v, v < 2 ^ 27 →
        ((translate s.k.mem (PGSIZE * v) 2 (s.k.procs q).pagetable).isSome ↔
          PGSIZE * v < pgRoundUp (s.k.procs q).sz ∨ PGSIZE * v = TRAPFRAME ∨
            PGSIZE * v = TRAMPOLINE)) ∧
      (s.panicked = none ∨ s.panicked = some "init exiting") := by
  obtain ⟨b, s, p, np, pid, run, other, tables⟩ := exists_forkRun
  obtain ⟨shape, panicked⟩ := addressSpace_exact b run
  exact ⟨b, s, p, np, pid, run, other,
    fun q member => ⟨tables q member, shape q (tables q member)⟩, panicked⟩

end Spaces

/-! ## Owners -/

/-- Who may own a page. -/
inductive Owner where
  /-- The free list, at a position. -/
  | freeList (i : Nat)
  /-- A node of the page table of a process. -/
  | node (p : Fin NPROC) (path : List Nat)
  /-- The memory of a process, at a page number. -/
  | user (p : Fin NPROC) (v : Nat)
  | trapframe (p : Fin NPROC)
  | kstack (p : Fin NPROC)
  | pipe
  /-- A structure of the kernel since boot. -/
  | kernel (i : Nat)
  deriving Repr, DecidableEq

/-- The page at `m` is the owner's, by what the kernel keeps in memory. -/
def Owns {L : Layout} (b : Boot L) (k : KState) (m : Nat) : Owner → Prop
  | .freeList i => freeNth k.mem k.freelist i = m
  | .node p path => (k.procs p).pagetable ≠ 0 ∧ (∀ j ∈ path, j < 512) ∧
      nodeIn k.mem (k.procs p).pagetable path = some m
  | .user p v => (k.procs p).pagetable ≠ 0 ∧ v < 2 ^ 27 ∧ PGSIZE * v ≠ TRAPFRAME ∧
      PGSIZE * v ≠ TRAMPOLINE ∧
      (translate k.mem (PGSIZE * v) 2 (k.procs p).pagetable).map pte2pa = some m
  | .trapframe p => (k.procs p).trapframe = m
  | .kstack p => b.kstack p = m
  | .pipe => ∃ f, (k.files f).ref ≠ 0 ∧ (k.files f).type = .pipe ∧ (k.files f).pipe = m
  | .kernel i => b.kernel[i]? = some m

section Owners

variable {L : Layout} {b : Boot L} {fixed : Multiset Nat} {k : KState} {g : Ghost}
  {p : Fin NPROC} {m : Nat}

/-! ### What an owner is, by the account -/

theorem Inv.ownsFree_iff (inv : Inv L fixed k g 0 fun _ => 0) (page : IsPage L m) (i : Nat) :
    Owns b k m (.freeList i) ↔ g.free[i]? = some m := by
  rw [Owns, freeNth_eq inv.chain (fun q mem => inv.holds.free_page mem), List.getD_eq_getElem?_getD]
  cases g.free[i]? with
  | none => exact ⟨fun zero => absurd zero.symm page.ne_zero, fun bad => by cases bad⟩
  | some q =>
    rw [Option.getD_some]
    exact ⟨congrArg some, Option.some.inj⟩

theorem Inv.ownsNode_iff (inv : Inv L fixed k g 0 fun _ => 0) (path : List Nat) :
    Owns b k m (.node p path) ↔
      (∀ j ∈ path, j < 512) ∧ Radix.nodeAt path (g.tree p) = some m := by
  rw [Owns, inv.pagetable_ne_zero]
  constructor
  · rintro ⟨used, digits, at_⟩
    exact ⟨digits, inv.nodeIn_eq used digits ▸ at_⟩
  · rintro ⟨digits, at_⟩
    have used : (k.procs p).state ≠ .unused := fun unused => by
      rw [((inv.procs p).unused unused).2.2.2] at at_
      cases path <;> cases at_
    exact ⟨used, digits, (inv.nodeIn_eq used digits).trans at_⟩

theorem Inv.ownsUser_iff (inv : Inv L fixed k g 0 fun _ => 0) (v : Nat) : Owns b k m (.user p v) ↔
      v < 2 ^ 27 ∧ ∃ x, leafAt (g.tree p) v = some x ∧ m ∈ x.pages := by
  have cancel : ∀ u, PGSIZE * v ≠ PGSIZE * u ↔ v ≠ u := fun u =>
    not_congr (Nat.mul_right_inj (show PGSIZE ≠ 0 by decide))
  rw [Owns, TRAPFRAME_eq, TRAMPOLINE_eq, cancel, cancel, inv.pagetable_ne_zero]
  constructor
  · rintro ⟨used, small, notFrame, notTrampoline, found⟩
    rw [inv.translate_eq used, Option.map_map, Option.map_eq_some_iff] at found
    obtain ⟨x, some_, rfl⟩ := found
    have shape := (inv.live used).2
    have low : v < pageCount (k.procs p).sz :=
      ((shape.isSome_iff small).mp (by rw [some_]; rfl)).resolve_right
        (not_or.mpr ⟨notFrame, notTrampoline⟩)
    obtain ⟨pte, mine⟩ := shape.mapped v low
    obtain rfl := Option.some.inj (some_.symm.trans mine)
    exact ⟨small, _, mine, Multiset.mem_singleton_self _⟩
  · rintro ⟨small, x, some_, mem⟩
    have used : (k.procs p).state ≠ .unused := fun unused => by
      rw [((inv.procs p).unused unused).2.2.2, leafAt, Radix.get_empty] at some_
      cases some_
    have shape := (inv.live used).2
    have user : x.user = true ∧ m = pte2pa x.pte := by
      rw [Leaf.pages] at mem
      split at mem
      · exact ⟨by assumption, Multiset.mem_singleton.mp mem⟩
      · exact absurd mem (Multiset.notMem_zero m)
    refine ⟨used, small, ?_, ?_, ?_⟩
    · rintro rfl
      obtain rfl := Option.some.inj (some_.symm.trans shape.trapframe)
      exact Bool.noConfusion user.1
    · rintro rfl
      obtain rfl := Option.some.inj (some_.symm.trans shape.trampoline)
      exact Bool.noConfusion user.1
    · rw [inv.translate_eq used, some_, user.2]
      rfl

theorem ownsTrapframe_iff (page : IsPage L m) :
    Owns b k m (.trapframe p) ↔ m ∈ framePage (k.procs p) := by
  rw [Owns, framePage]
  split
  · rename_i zero
    exact ⟨fun same => absurd (same.symm.trans zero) page.ne_zero,
      fun mem => absurd mem (Multiset.notMem_zero m)⟩
  · rw [Multiset.mem_singleton]
    exact eq_comm

theorem Inv.ownsPipe_iff (inv : Inv L fixed k g 0 fun _ => 0) : Owns b k m .pipe ↔ m ∈ g.pipes := by
  rw [Owns]
  constructor
  · rintro ⟨f, _, type, rfl⟩
    exact inv.files.live _ _ f ⟨type, rfl, rfl⟩
  · intro mem
    obtain ⟨w, f, isEnd⟩ := inv.files.held m mem
    refine ⟨f, fun zero => ?_, isEnd.type, isEnd.pipe⟩
    exact FileType.noConfusion ((inv.files.unused f zero).symm.trans isEnd.type)

/-! ### One share of the account for each page -/

inductive Share where
  | free
  | proc (p : Fin NPROC)
  | pipe
  | kstack
  | kernel

def Share.pages (b : Boot L) (k : KState) (g : Ghost) : Share → Multiset Nat
  | .free => g.free
  | .proc p => ownPages (k.procs p) (g.tree p)
  | .pipe => g.pipes
  | .kstack => Finset.univ.val.map b.kstack
  | .kernel => b.kernel

def Owner.share : Owner → Share
  | .freeList _ => .free
  | .node p _ | .user p _ | .trapframe p => .proc p
  | .kstack _ => .kstack
  | .pipe => .pipe
  | .kernel _ => .kernel

theorem Inv.share_unique (inv : Inv L b.fixed k g 0 fun _ => 0) {x y : Share}
    (mem : m ∈ x.pages b k g) (mem' : m ∈ y.pages b k g) : x = y := by
  have once : Multiset.count m (allPages L) ≤ 1 :=
    Multiset.nodup_iff_count_le_one.mp (nodup_allPages L) m
  rw [← inv.total, Boot.fixed] at once
  simp only [Multiset.count_add, add_zero] at once
  have inProc : ∀ p, Multiset.count m (ownPages (k.procs p) (g.tree p)) ≤
      Multiset.count m (procPages k g) := fun p => Multiset.count_le_of_le m (own_le_proc k g p)
  rw [← Multiset.one_le_count_iff_mem] at mem mem'
  have pair : ∀ p q, q ≠ p → Multiset.count m (ownPages (k.procs p) (g.tree p)) +
      Multiset.count m (ownPages (k.procs q) (g.tree q)) ≤ Multiset.count m (procPages k g) :=
    fun p q other => by
      rw [procPages_eq k g p, Multiset.count_add]
      exact Nat.add_le_add_left (Multiset.count_le_of_le m (own_le_other k g other)) _
  cases x with
  | proc p =>
    have := inProc p
    cases y with
    | proc q =>
      by_contra other
      have := pair p q fun same => other (congrArg Share.proc same.symm)
      simp only [Share.pages] at mem mem'
      omega
    | _ =>
      simp only [Share.pages] at mem mem'
      omega
  | _ =>
    cases y with
    | proc q =>
      have := inProc q
      simp only [Share.pages] at mem mem'
      omega
    | _ =>
      first
      | rfl
      | simp only [Share.pages] at mem mem'
        omega

theorem Inv.mem_share (inv : Inv L fixed k g 0 fun _ => 0) (page : IsPage L m) {o : Owner}
    (owns : Owns b k m o) : m ∈ o.share.pages b k g := by
  cases o with
  | freeList i =>
    exact Multiset.mem_coe.mpr (List.mem_of_getElem? ((inv.ownsFree_iff page i).mp owns))
  | node p path =>
    obtain ⟨digits, at_⟩ := (inv.ownsNode_iff path).mp owns
    exact Multiset.mem_add.mpr (.inl (Radix.nodeAt_mem digits at_))
  | user p v =>
    obtain ⟨_, x, some_, mem⟩ := (inv.ownsUser_iff v).mp owns
    exact Multiset.mem_add.mpr
      (.inl (Multiset.mem_of_le (Radix.get_pages_le (by decide) some_) mem))
  | trapframe p => exact Multiset.mem_add.mpr (.inr ((ownsTrapframe_iff page).mp owns))
  | kstack p =>
    have mem := Multiset.mem_map_of_mem b.kstack (Finset.mem_val.mpr (Finset.mem_univ p))
    rwa [show b.kstack p = m from owns] at mem
  | pipe => exact inv.ownsPipe_iff.mp owns
  | kernel i => exact Multiset.mem_coe.mpr (List.mem_of_getElem? owns)

theorem Inv.exists_owner (inv : Inv L fixed k g 0 fun _ => 0) (page : IsPage L m) {x : Share}
    (mem : m ∈ x.pages b k g) : ∃ o, Owns b k m o := by
  cases x with
  | free =>
    obtain ⟨i, at_⟩ := List.mem_iff_getElem?.mp (Multiset.mem_coe.mp mem)
    exact ⟨.freeList i, (inv.ownsFree_iff page i).mpr at_⟩
  | proc p =>
    rcases Multiset.mem_add.mp mem with inTree | inFrame
    · have used : (k.procs p).state ≠ .unused := fun unused => by
        rw [((inv.procs p).unused unused).2.2.2, treePages, Radix.pages_empty] at inTree
        exact Multiset.notMem_zero m inTree
      rcases (inv.live used).1.2.page_cases (by decide) inTree with
        ⟨path, digits, at_⟩ | ⟨v, x, small, some_, mem⟩
      · exact ⟨.node p path, (inv.ownsNode_iff path).mpr ⟨digits, at_⟩⟩
      · exact ⟨.user p v, (inv.ownsUser_iff v).mpr ⟨small, x, some_, mem⟩⟩
    · exact ⟨.trapframe p, (ownsTrapframe_iff page).mpr inFrame⟩
  | pipe => exact ⟨.pipe, inv.ownsPipe_iff.mpr mem⟩
  | kstack =>
    obtain ⟨p, _, same⟩ := Multiset.mem_map.mp (show m ∈ Finset.univ.val.map b.kstack from mem)
    exact ⟨.kstack p, same⟩
  | kernel =>
    obtain ⟨i, at_⟩ := List.mem_iff_getElem?.mp (Multiset.mem_coe.mp mem)
    exact ⟨.kernel i, at_⟩

theorem Boot.kstack_injective (b : Boot L) {p q : Fin NPROC} (same : b.kstack p = b.kstack q) :
    p = q := by
  have nodup := nodup_allPages L
  rw [← b.whole, Multiset.nodup_add, Multiset.nodup_add] at nodup
  exact Multiset.inj_on_of_nodup_map nodup.2.1.1 p (Finset.mem_univ p) q (Finset.mem_univ q) same

theorem Boot.kernel_nodup (b : Boot L) : b.kernel.Nodup := by
  have nodup := nodup_allPages L
  rw [← b.whole, Multiset.nodup_add, Multiset.nodup_add] at nodup
  exact Multiset.coe_nodup.mp nodup.2.1.2.1

theorem Inv.proc_owner_unique (inv : Inv L fixed k g 0 fun _ => 0) (page : IsPage L m)
    {o o' : Owner} (share : o.share = .proc p) (share' : o'.share = .proc p)
    (owns : Owns b k m o) (owns' : Owns b k m o') : o = o' := by
  have holds := inv.treeHolds p
  rw [← add_assoc] at holds
  have nodup : (treePages (g.tree p)).Nodup := holds.left.left.held_nodup
  have apart : m ∈ framePage (k.procs p) → m ∉ treePages (g.tree p) := holds.left.disjoint
  have nodeMem : ∀ path, Owns b k m (.node p path) → m ∈ Radix.nodes 512 (g.tree p) :=
    fun path owns =>
      let ⟨digits, at_⟩ := (inv.ownsNode_iff path).mp owns
      Radix.nodeAt_mem_nodes digits at_
  have userMem : ∀ v, Owns b k m (.user p v) →
      m ∉ Radix.nodes 512 (g.tree p) ∧ m ∈ treePages (g.tree p) := fun v owns =>
    let ⟨_, _, some_, mem⟩ := (inv.ownsUser_iff v).mp owns
    ⟨Radix.value_not_node (by decide) nodup some_ mem,
      Multiset.mem_of_le (Radix.get_pages_le (by decide) some_) mem⟩
  have inTree : m ∈ Radix.nodes 512 (g.tree p) → m ∈ treePages (g.tree p) :=
    Multiset.mem_of_le (Radix.nodes_le_pages _)
  cases o with
  | node q path =>
    cases share
    cases o' with
    | node q path' =>
      cases share'
      obtain ⟨digits, at_⟩ := (inv.ownsNode_iff path).mp owns
      obtain ⟨digits', at'⟩ := (inv.ownsNode_iff path').mp owns'
      rw [Radix.nodeAt_unique nodup digits digits' at_ at']
    | user q v =>
      cases share'
      exact absurd (nodeMem path owns) (userMem v owns').1
    | trapframe q =>
      cases share'
      exact absurd (inTree (nodeMem path owns)) (apart ((ownsTrapframe_iff page).mp owns'))
    | _ => cases share'
  | user q v =>
    cases share
    cases o' with
    | node q path =>
      cases share'
      exact absurd (nodeMem path owns') (userMem v owns).1
    | user q u =>
      cases share'
      obtain ⟨small, x, some_, mem⟩ := (inv.ownsUser_iff v).mp owns
      obtain ⟨small', y, some', mem'⟩ := (inv.ownsUser_iff u).mp owns'
      have same := Radix.key_unique (by decide) nodup some_ some' mem mem'
      have width : 512 ^ 3 = 2 ^ 27 := by decide
      rw [width, Nat.mod_eq_of_lt small, Nat.mod_eq_of_lt small'] at same
      rw [same]
    | trapframe q =>
      cases share'
      exact absurd (userMem v owns).2 (apart ((ownsTrapframe_iff page).mp owns'))
    | _ => cases share'
  | trapframe q =>
    cases share
    have outside := apart ((ownsTrapframe_iff page).mp owns)
    cases o' with
    | node q path =>
      cases share'
      exact absurd (inTree (nodeMem path owns')) outside
    | user q v =>
      cases share'
      exact absurd (userMem v owns').2 outside
    | trapframe q =>
      cases share'
      rfl
    | _ => cases share'
  | _ => cases share

theorem Inv.owner_unique (inv : Inv L b.fixed k g 0 fun _ => 0) (page : IsPage L m) {o o' : Owner}
    (owns : Owns b k m o) (owns' : Owns b k m o') : o = o' := by
  have share := inv.share_unique (inv.mem_share page owns) (inv.mem_share page owns')
  cases o with
  | freeList i =>
    cases o' with
    | freeList j =>
      have nodup := (Multiset.nodup_add.mp inv.holds.nodup).1
      have at_ := (inv.ownsFree_iff page i).mp owns
      have at' := (inv.ownsFree_iff page j).mp owns'
      obtain ⟨inside, _⟩ := List.getElem?_eq_some_iff.mp at_
      rw [(List.getElem?_inj inside (Multiset.coe_nodup.mp nodup)).mp (at_.trans at'.symm)]
    | _ => cases share
  | kstack p =>
    cases o' with
    | kstack q => rw [b.kstack_injective (owns.trans owns'.symm)]
    | _ => cases share
  | pipe =>
    cases o' with
    | pipe => rfl
    | _ => cases share
  | kernel i =>
    cases o' with
    | kernel j =>
      have at_ : b.kernel[i]? = some m := owns
      obtain ⟨inside, _⟩ := List.getElem?_eq_some_iff.mp at_
      rw [(List.getElem?_inj inside b.kernel_nodup).mp (at_.trans (Eq.symm owns'))]
    | _ => cases share
  | node p path => exact inv.proc_owner_unique page rfl share.symm owns owns'
  | user p v => exact inv.proc_owner_unique page rfl share.symm owns owns'
  | trapframe p => exact inv.proc_owner_unique page rfl share.symm owns owns'

theorem Inv.exists_share (inv : Inv L b.fixed k g 0 fun _ => 0) (page : IsPage L m) :
    ∃ x : Share, m ∈ x.pages b k g := by
  have mem := mem_allPages.mpr page
  rw [← inv.total, Boot.fixed] at mem
  simp only [Multiset.mem_add, add_zero] at mem
  rcases mem with free | (proc | pipe) | stack | kernel
  · exact ⟨.free, free⟩
  · obtain ⟨p, _, mem⟩ := Multiset.mem_sum.mp proc
    exact ⟨.proc p, mem⟩
  · exact ⟨.pipe, pipe⟩
  · exact ⟨.kstack, stack⟩
  · exact ⟨.kernel, kernel⟩

/-- In every state of every run, every page of `[PGROUNDUP(end), PHYSTOP)` has exactly
    one owner. -/
theorem page_owner_unique (b : Boot L) {tr : List (Event × Obs)} {s : State}
    (run : (machine L).Run b.state tr s) {m : Nat} (aligned : m % PGSIZE = 0)
    (low : pgRoundUp L.end_ ≤ m) (high : m < PHYSTOP) : ∃! o, Owns b s.k m o := by
  obtain ⟨g, settled⟩ := b.settled.run run
  have page : IsPage L m := by
    refine ⟨aligned, Nat.le_trans ?_ low, high⟩
    have := L.inRam
    unfold PHYSTOP KERNBASE at this
    unfold pgRoundUp pgRoundDown u64 PGSIZE
    omega
  obtain ⟨x, mem⟩ := settled.inv.exists_share page
  obtain ⟨o, owns⟩ := settled.inv.exists_owner page mem
  exact ⟨o, owns, fun o' owns' => settled.inv.owner_unique page owns' owns⟩

/-- The last page of memory, after a `fork`. -/
theorem page_owner_forkRun : ∃ (b : Boot smallKernel) (s : State) (p : Fin NPROC) (pid : Int),
    (machine smallKernel).Run b.state (forkRun p pid) s ∧
    ∃! o, Owns b s.k (PHYSTOP - PGSIZE) o := by
  obtain ⟨b, s, p, np, pid, run, -⟩ := exists_forkRun
  exact ⟨b, s, p, pid, run, page_owner_unique b run (by decide) (by decide) (by decide)⟩

end Owners

end Xv6.Kernel
