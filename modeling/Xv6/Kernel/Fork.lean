import Xv6.Kernel.PageOwners

/-! # fork

A child has a copy of the memory and the registers of its parent, in pages of its own,
and refers to the same files and the same directory. If there is no slot or no memory
for it, `fork` gives back what it has taken, whichever page was missing.
-/

namespace Xv6.Kernel

open Lib Function

/-- Page `u` of process `p` before a call has become page `u` of process `np` after it, in
    a frame that was free and that nobody else has. -/
structure PageCopied {L : Layout} (b : Boot L) (k k' : KState) (p np : Fin NPROC)
    (u pte pte' : Nat) : Prop where
  source : translate k.mem (PGSIZE * u) 2 (k.procs p).pagetable = some pte
  copy : translate k'.mem (PGSIZE * u) 2 (k'.procs np).pagetable = some pte'
  flags : pteFlags pte' = pteFlags pte
  bytes : ∀ i, i < PGSIZE → k'.mem (pte2pa pte' + i) = k.mem (pte2pa pte + i)
  fresh : ∃ i, Owns b k (pte2pa pte') (.freeList i)
  unshared : ∀ o, Owns b k' (pte2pa pte') o → o = .user np u

/-- Process `p` has forked, with the child in slot `np`. -/
structure HasForked {L : Layout} (b : Boot L) (k k' : KState) (p np : Fin NPROC) : Prop where
  unused : (k.procs np).state = .unused
  others : ∀ q, q ≠ np → k'.procs q = k.procs q
  runnable : (k'.procs np).state = .runnable
  parent : (k'.procs np).parent = some p
  pid : (k'.procs np).pid = k.nextpid
  size : (k'.procs np).sz = (k.procs p).sz
  memory : ∀ u, PGSIZE * u < (k.procs p).sz → ∃ pte pte', PageCopied b k k' p np u pte pte'
  registers : ∀ i, i < TF_SIZE → k'.mem ((k'.procs np).trapframe + i) =
    if TF_A0 ≤ i ∧ i < TF_A0 + 8 then 0 else k.mem ((k.procs p).trapframe + i)
  ofile : (k'.procs np).ofile = (k.procs p).ofile
  cwd : (k'.procs np).cwd = (k.procs p).cwd
  files : ∀ f, k'.files f =
    { k.files f with ref := (k.files f).ref + tally (k.procs p).ofile f }
  inodes : ∀ i, k'.inodes i = k.inodes i + if i = (k.procs p).cwd then 1 else 0

section Fork

variable {L : Layout} {b : Boot L} {k k' : KState} {g : Ghost} {p np : Fin NPROC} {x : Proc}
  {t : Tree}
  {free' : List Nat}

/-- A file gains a reference for each descriptor that names it. -/
theorem countP_ofile (ofile : Fin NOFILE → Option (Fin NFILE)) (f : Fin NFILE) :
    (List.finRange NOFILE).countP (fun fd => ofile fd = some f) = tally ofile f := by
  rw [tally, Finset.sum_boole, Nat.cast_id, List.countP_eq_length_filter]
  rfl

theorem Forks.used (forks : Forks L b.fixed 0 (fun _ => 0) k k' g p np x t free') :
    (k'.procs np).state ≠ .unused := by
  rw [forks.procs, update_self]
  exact ProcState.noConfusion

theorem Forks.pageCopied {u : Nat} (inv : Inv L b.fixed k g 0 fun _ => 0)
    (used : (k.procs p).state ≠ .unused)
    (forks : Forks L b.fixed 0 (fun _ => 0) k k' g p np x t free')
    (below : PGSIZE * u < (k.procs p).sz) : ∃ pte pte', PageCopied b k k' p np u pte pte' := by
  have inside : u < pageCount (k.procs p).sz := by
    unfold pageCount PGSIZE at *
    omega
  obtain ⟨pte, pte', from_, to_, flags, bytes⟩ := forks.memory u inside
  obtain ⟨mem, owned⟩ := leaf_owned to_ rfl
  have small : u < 2 ^ 27 := by
    obtain ⟨bound, limit⟩ := (inv.live used).2.bounded (inv.treeHolds p).left
    have top : trapframeVpn < 2 ^ 27 := by decide
    omega
  have here : leafAt (update g.tree np t np) u = some ⟨pte', true⟩ := by
    rw [update_self, to_]
  -- the pages of the child were free
  have fresh : pte2pa pte' ∈ g.free := by
    have taken : pte2pa pte' ∈ (free' : Multiset Nat) + ownPages (k'.procs np) t :=
      Multiset.mem_add.mpr (.inr (Multiset.mem_add.mpr (.inl owned)))
    rw [forks.moved.conserved, add_zero] at taken
    exact taken
  have page := inv.holds.free_page fresh
  obtain ⟨i, at_⟩ := List.mem_iff_getElem?.mp fresh
  have mine : Owns b k' (pte2pa pte') (.user np u) :=
    (forks.inv.ownsUser_iff u).mpr ⟨small, _, here, mem⟩
  refine ⟨pte, pte', ?_, ?_, flags, bytes, ⟨i, (inv.ownsFree_iff page i).mpr at_⟩,
    fun o owns => forks.inv.owner_unique page owns mine⟩
  · rw [inv.translate_eq used, from_]
    rfl
  · rw [forks.inv.translate_eq forks.used, here]
    rfl

theorem Forks.hasForked (inv : Inv L b.fixed k g 0 fun _ => 0) (used : (k.procs p).state ≠ .unused)
    (forks : Forks L b.fixed 0 (fun _ => 0) k k' g p np x t free') : HasForked b k k' p np := by
  have child : k'.procs np = childOf p (k.procs p) x := by rw [forks.procs, update_self]
  refine ⟨forks.unused, fun q other => ?_, ?_, ?_, ?_, ?_,
    fun u below => forks.pageCopied inv used below,
    forks.registers, ?_, ?_, fun f => ?_, fun i => ?_⟩
  · rw [forks.procs, update_of_ne other]
  · rw [child, childOf]
  · rw [child, childOf]
  · rw [child]
    exact forks.pid
  · rw [child, childOf]
  · rw [child, childOf]
  · rw [child, childOf]
  · rw [forks.files]
    simp only [dupped, countP_ofile]
  · rw [forks.inodes]
    by_cases same : i = (k.procs p).cwd
    · rw [same, update_self, if_pos rfl]
    · rw [update_of_ne same, if_neg same, add_zero]

/-- `fork` returns -1 with all as before and every page back, or makes an exact copy. -/
theorem fork_copies_or_nothing (inv : Inv L b.fixed k g 0 fun _ => 0)
    (running : (k.procs p).state = .running) :
    (∃ k' free', fork L p k = .ok (-1, k') ∧ LeavesNothing L b.fixed 0 (fun _ => 0) k k' g free' ∧
        (g.free.length ≤ 3 * pageCount (k.procs p).sz + 6 ∨ ∀ q, (k.procs q).state ≠ .unused)) ∨
      ∃ np k' g', fork L p k = .ok (k.nextpid.toInt, k') ∧ HasForked b k k' p np ∧
        Inv L b.fixed k' g' 0 fun _ => 0 := by
  have used := running_used running
  rcases inv.fork_spec running with failed | ⟨np, x, t, k', free', ran, forks⟩
  · exact .inl failed
  · exact .inr ⟨np, k', _, ran, forks.hasForked inv used, forks.inv⟩

/-- The first process forks, and has a child. -/
theorem fork_firstProcess : ∃ (b : Boot smallKernel) (s : State) (p np : Fin NPROC) (k' : KState)
    (g' : Ghost),
    (machine smallKernel).Run b.state (firstRun p) s ∧
      fork smallKernel p s.k = .ok (s.k.nextpid.toInt, k') ∧ HasForked b s.k k' p np ∧
      Inv smallKernel b.fixed k' g' 0 fun _ => 0 := by
  obtain ⟨b, s, p, g, run, first, inv, room, alone⟩ := exists_firstRun
  rcases fork_copies_or_nothing inv first.running with
    ⟨_, _, -, -, full⟩ | ⟨np, k', g', ran, forked, after⟩
  · exact absurd full (first.room room alone)
  · exact ⟨b, s, p, np, k', g', run, ran, forked, after⟩

end Fork

end Xv6.Kernel
