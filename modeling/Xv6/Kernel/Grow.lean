import Xv6.Kernel.PageOwners

/-! # Growing and shrinking a process

`growproc` with any `int`. A growth that runs out of memory, at a page or at a node of
the page table, is undone; only nodes stay behind. A request to shrink by more than
the process has is the exception: the new size wraps around, `uvmdealloc` takes it for
a growth and does nothing, and `growproc` still returns 0.
-/

namespace Xv6.Kernel

open Lib

section Grow

variable {L : Layout} {fixed : Multiset Nat} {k k' : KState} {g : Ghost} {p : Fin NPROC}
  {t t' : Tree}

/-- What `growproc(n)` is to do: move `p->sz` by `n`, and with it the pages of the process,
    or return -1 and leave the memory of the process as it was. -/
inductive Grows (k k' : KState) (p : Fin NPROC) (free free' : List Nat) (t t' : Tree) (n : Int) :
    Int → Prop
  | moved (size : ((k'.procs p).sz : Int) = (k.procs p).sz + n)
      (resized : Resized k.mem k'.mem t t' (pageCount (k.procs p).sz) (pageCount (k'.procs p).sz)) :
      Grows k k' p free free' t t' n 0
  | refused (size : (k'.procs p).sz = (k.procs p).sz)
      (leaves : ∀ u, u < 2 ^ 27 → leafAt t' u = leafAt t u) (keeps : Keeps k.mem k'.mem t t')
      /- Only new nodes of the page table are missing from the free list. -/
      (frames : (free' : Multiset Nat) + Radix.nodes 512 t' = free + Radix.nodes 512 t) :
      Grows k k' p free free' t t' n (-1)

def GrowsExactly (L : Layout) (fixed : Multiset Nat) (k : KState) (g : Ghost) (p : Fin NPROC)
    (n : Int) : Prop :=
  ∃ r k' free' t', growproc L p n k = .ok (r, k') ∧
    Inv L fixed k' ⟨free', Function.update g.tree p t', g.pipes⟩ 0 (fun _ => 0) ∧
    (∀ q, q ≠ p → k'.procs q = k.procs q) ∧ Grows k k' p g.free free' (g.tree p) t' n r

/-- Two tables with the same leaves differ by their nodes. -/
theorem treePages_add_nodes {root : Nat} {mem mem' : Bytes} (table : Table mem root t)
    (table' : Table mem' root t') (same : ∀ u, u < 2 ^ 27 → leafAt t' u = leafAt t u) :
    treePages t' + Radix.nodes 512 t = treePages t + Radix.nodes 512 t' := by
  have leaves : ∑ v ∈ Finset.range (512 ^ 3), ((leafAt t' v).map Leaf.pages).getD 0 =
      ∑ v ∈ Finset.range (512 ^ 3), ((leafAt t v).map Leaf.pages).getD 0 := by
    refine Finset.sum_congr rfl fun v small => ?_
    rw [same v (Nat.lt_of_lt_of_eq (Finset.mem_range.mp small) (by decide))]
  rw [treePages, treePages, table.2.pages_eq (by decide), table'.2.pages_eq (by decide), leaves,
    add_right_comm, add_assoc, add_comm (Radix.nodes 512 t'), add_assoc,
    add_comm (Radix.nodes 512 t), add_assoc]

/-- `growproc` is exact if and only if it is not asked to take away more than there is. -/
theorem growproc_exact_iff (inv : Inv L fixed k g 0 fun _ => 0)
    (used : (k.procs p).state ≠ .unused) (n : BitVec 32) :
    GrowsExactly L fixed k g p n.toInt ↔ 0 ≤ (k.procs p).sz + n.toInt := by
  obtain ⟨r, k', free', t', ran, after, grew, _, _, exchange⟩ :=
    inv.growproc_grew used (BitVec.le_toInt n) BitVec.toInt_lt
  generalize n.toInt = n at ran grew
  constructor
  · rintro ⟨r₁, k₁, free₁, t₁, ran₁, _, _, grows⟩
    rw [ran, Except.ok.injEq, Prod.mk.injEq] at ran₁
    obtain ⟨rfl, rfl⟩ := ran₁
    cases grew with
    | refused value more => omega
    | moved sz value size procs _ =>
        subst value
        cases grows with
        | moved size' _ =>
            rw [procs, Function.update_self] at size'
            split at size
            · assumption
            · omega
  · intro nonneg
    refine ⟨r, k', free', t', ran, after, fun q other => ?_, ?_⟩
    · cases grew with
      | refused _ _ procs => rw [procs]
      | moved _ _ _ procs => rw [procs, Function.update_of_ne other]
    · cases grew with
      | refused value _ procs leaves keeps =>
          subst value
          refine .refused (by rw [procs]) leaves keeps ?_
          have used' : (k'.procs p).state ≠ .unused := procs ▸ used
          have table' := (after.live used').1
          simp only [procs, Function.update_self] at table'
          have accounts := treePages_add_nodes (inv.live used).1 table' leaves
          refine add_right_cancel (b := treePages (g.tree p)) ?_
          calc (free' : Multiset Nat) + Radix.nodes 512 t' + treePages (g.tree p)
              = free' + (treePages (g.tree p) + Radix.nodes 512 t') := by
                rw [add_assoc, add_comm (Radix.nodes 512 t')]
            _ = free' + treePages t' + Radix.nodes 512 (g.tree p) := by rw [← accounts, add_assoc]
            _ = g.free + Radix.nodes 512 (g.tree p) + treePages (g.tree p) := by
                rw [exchange.conserved, add_right_comm]
      | moved sz value size procs resized =>
          subst value
          have here : (k'.procs p).sz = sz := by rw [procs, Function.update_self]
          rw [if_pos nonneg] at size
          exact .moved (here ▸ size) (here ▸ resized)

/-- The first process grows by a page. -/
theorem growproc_exact_onePage : ∃ (b : Boot smallKernel) (s : State) (p : Fin NPROC) (g : Ghost),
    (machine smallKernel).Run b.state [(.userinit, .silent), (.schedule p .running, .silent)] s ∧
      GrowsExactly smallKernel b.fixed s.k g p 4096 := by
  obtain ⟨b, s, p, run, first⟩ := exists_runningRun
  obtain ⟨g, settled⟩ := b.settled.run run
  have used := running_used first.running
  have size : 0 ≤ ((s.k.procs p).sz : Int) + (4096#32).toInt := by
    rw [show (4096#32).toInt = 4096 from rfl]
    omega
  exact ⟨b, s, p, g, run, (growproc_exact_iff settled.inv used 4096#32).mpr size⟩

/-- The first process, with one page, gives back a page and a byte: `growproc` returns 0 and
    the process still has its page. -/
theorem not_growproc_exact_belowZero : ∃ (b : Boot smallKernel) (s : State) (p : Fin NPROC)
    (k' : KState),
    (machine smallKernel).Run b.state [(.userinit, .silent), (.schedule p .running, .silent)] s ∧
      (s.k.procs p).sz = PGSIZE ∧ growproc smallKernel p (-4097) s.k = .ok (0, k') ∧
      (k'.procs p).sz = PGSIZE := by
  obtain ⟨b, s, p, run, first⟩ := exists_runningRun
  have size := first.size
  obtain ⟨g, settled⟩ := b.settled.run run
  have used := running_used first.running
  obtain ⟨r, k', free', t', ran, _, grew, _⟩ :=
    settled.inv.growproc_grew (n := -4097) used (by decide) (by decide)
  cases grew with
  | refused _ more => cases more
  | moved sz value new procs _ =>
      rw [size, if_neg (by decide)] at new
      refine ⟨b, s, p, k', run, size, value ▸ ran, ?_⟩
      rw [procs, Function.update_self]
      exact Int.ofNat.inj new

end Grow

end Xv6.Kernel
