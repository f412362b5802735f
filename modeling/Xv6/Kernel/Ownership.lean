import Xv6.Kernel.ExecImage
import Xv6.Kernel.FileRefs

/-! # Who owns the pages of the machine

Between system calls every page belongs to the free list, to the page table or the
trapframe of one process, to a pipe, or to the kernel since boot. `Inv` says so for
the state in memory: what the processes, the pipes and the kernel own, and what a
system call holds on its way, adds up to all pages.
-/

namespace Xv6.Kernel

open Lib Function

/-- The pages of `[PGROUNDUP(end), PHYSTOP)`. -/
def allPages (L : Layout) : Multiset Nat :=
  ((Multiset.range (PHYSTOP / PGSIZE)).map (PGSIZE * ·)).filter (L.end_ ≤ ·)

theorem mem_allPages {L : Layout} {m : Nat} : m ∈ allPages L ↔ IsPage L m := by
  rw [allPages, Multiset.mem_filter, Multiset.mem_map]
  constructor
  · rintro ⟨⟨i, inside, rfl⟩, low⟩
    rw [Multiset.mem_range] at inside
    refine ⟨Nat.mul_mod_right PGSIZE i, low, ?_⟩
    have top : PHYSTOP = PGSIZE * (PHYSTOP / PGSIZE) := by decide
    rw [top]
    exact Nat.mul_lt_mul_of_pos_left inside (by decide)
  · rintro ⟨aligned, low, high⟩
    refine ⟨⟨m / PGSIZE, ?_, Nat.mul_div_cancel' (Nat.dvd_of_mod_eq_zero aligned)⟩, low⟩
    rw [Multiset.mem_range]
    exact Nat.div_lt_div_of_lt_of_dvd (by decide) high

theorem nodup_allPages (L : Layout) : (allPages L).Nodup :=
  Multiset.Nodup.filter _ ((Multiset.nodup_range _).map fun _ _ same =>
    Nat.eq_of_mul_eq_mul_left (by decide) same)

theorem modifyProc_run (p : Fin NPROC) (f : Proc → Proc) (k : KState) : modifyProc p f k =
      .ok ((), { k with procs := update k.procs p (f (k.procs p)) }) := by
  have same : (fun q => if q = p then f (k.procs q) else k.procs q) =
      update k.procs p (f (k.procs p)) := by
    funext q
    by_cases equal : q = p
    · rw [equal, if_pos rfl, update_self]
    · rw [if_neg equal, update_of_ne equal]
  rw [← same]
  rfl

theorem getProc_run (p : Fin NPROC) (k : KState) : getProc p k = .ok (k.procs p, k) := rfl

/-! ## The invariant -/

/-- The page of the trapframe. -/
def framePage (x : Proc) : Multiset Nat := if x.trapframe = 0 then 0 else {x.trapframe}

/-- What a process owns whose page table is `t`. -/
def ownPages (x : Proc) (t : Tree) : Multiset Nat := treePages t + framePage x

/-- The trees in memory, the free list and the pipes. -/
structure Ghost where
  free : List Nat
  tree : Fin NPROC → Tree
  pipes : Multiset Nat

def procPages (k : KState) (g : Ghost) : Multiset Nat := ∑ p, ownPages (k.procs p) (g.tree p)

/-- A process with the page table `t`. -/
structure ProcOk (L : Layout) (mem : Bytes) (x : Proc) (t : Tree) : Prop where
  unused : x.state = .unused → x.pagetable = 0 ∧ x.trapframe = 0 ∧ x.sz = 0 ∧ t = .empty
  live : x.state ≠ .unused →
    x.trapframe ≠ 0 ∧ Table mem x.pagetable t ∧ Shape L t (pageCount x.sz) x.trapframe
  closed : x.state = .unused ∨ x.state = .used ∨ x.state = .zombie → ∀ fd, x.ofile fd = none

/-- Every page is accounted for. `fixed` are the pages that the kernel keeps since boot,
    `temp` the pages and `float` the references to files that a system call holds. -/
structure Inv (L : Layout) (fixed : Multiset Nat) (k : KState) (g : Ghost) (temp : Multiset Nat)
    (float : Fin NFILE → Nat) : Prop where
  chain : Chain k.mem k.freelist g.free
  total : (g.free : Multiset Nat) + (procPages k g + g.pipes + fixed + temp) = allPages L
  procs : ∀ p, ProcOk L k.mem (k.procs p) (g.tree p)
  files : FilesOk k.slots k.files k.mem float g.pipes

section Invariant

variable {L : Layout} {fixed temp temp' : Multiset Nat} {k k' : KState} {g : Ghost}
  {free free' : List Nat} {held held' rest : Multiset Nat} {float : Fin NFILE → Nat}
  {p : Fin NPROC} {x x' : Proc} {t t' : Tree}

theorem Inv.holds (inv : Inv L fixed k g temp float) :
    Holds L k g.free (procPages k g + g.pipes + fixed + temp) where
  chain := inv.chain
  nodup := inv.total ▸ nodup_allPages L
  page _ mem := mem_allPages.mp (inv.total ▸ mem)

/-- What the other processes own. -/
def otherPages (k : KState) (g : Ghost) (p : Fin NPROC) : Multiset Nat :=
  ∑ q ∈ Finset.univ.erase p, ownPages (k.procs q) (g.tree q)

theorem procPages_eq (k : KState) (g : Ghost) (p : Fin NPROC) :
    procPages k g = ownPages (k.procs p) (g.tree p) + otherPages k g p :=
  (Finset.add_sum_erase Finset.univ _ (Finset.mem_univ p)).symm

theorem own_le_other (k : KState) (g : Ghost) {p q : Fin NPROC} (other : q ≠ p) :
    ownPages (k.procs q) (g.tree q) ≤ otherPages k g p :=
  Finset.single_le_sum (f := fun q => ownPages (k.procs q) (g.tree q))
    (fun _ _ => Multiset.zero_le _) (Finset.mem_erase.mpr ⟨other, Finset.mem_univ q⟩)

theorem own_le_proc (k : KState) (g : Ghost) (q : Fin NPROC) :
    ownPages (k.procs q) (g.tree q) ≤ procPages k g :=
  Finset.single_le_sum (f := fun q => ownPages (k.procs q) (g.tree q))
    (fun _ _ => Multiset.zero_le _) (Finset.mem_univ q)

theorem tree_le_proc (k : KState) (g : Ghost) (q : Fin NPROC) (a b : Multiset Nat) :
    treePages (g.tree q) ≤ procPages k g + a + b :=
  calc treePages (g.tree q) ≤ ownPages (k.procs q) (g.tree q) := Multiset.le_add_right _ _
    _ ≤ procPages k g := own_le_proc k g q
    _ ≤ procPages k g + (a + b) := Multiset.le_add_right _ _
    _ = procPages k g + a + b := (add_assoc _ _ _).symm

/-- A process does not notice moves among pages of others. -/
theorem ProcOk.moved (ok : ProcOk L k.mem x t) (moved : Moved k k' free held free' held')
    (holds : Holds L k free (held + treePages t)) : ProcOk L k'.mem x t :=
  { ok with
    live := fun used =>
      let ⟨frame, table, shape⟩ := ok.live used
      ⟨frame, table.moved moved holds, shape⟩ }

theorem held_eq (k : KState) (g : Ghost) (p : Fin NPROC) (fixed temp : Multiset Nat) :
    procPages k g + g.pipes + fixed + temp =
      ownPages (k.procs p) (g.tree p) + temp + (otherPages k g p + g.pipes + fixed) := by
  rw [procPages_eq k g p]
  abel

section

variable (inv : Inv L fixed k g temp float)
include inv

/-- Process `p` changes, with its pages and those of the system call. -/
theorem Inv.changeProc
    (moved : Moved k k' g.free (ownPages (k.procs p) (g.tree p) + temp) free'
      (ownPages x t + temp'))
    (procs : k'.procs = update k.procs p x) (files : k'.files = k.files)
    (ofile : x.ofile = (k.procs p).ofile) (ok : ProcOk L k'.mem x t) :
    Inv L fixed k' ⟨free', update g.tree p t, g.pipes⟩ temp' float := by
  have holds := inv.holds
  rw [held_eq k g p] at holds
  have others : otherPages k' ⟨free', update g.tree p t, g.pipes⟩ p = otherPages k g p := by
    refine Finset.sum_congr rfl fun q mem => ?_
    have other := Finset.ne_of_mem_erase mem
    simp only [procs, update_of_ne other]
  refine ⟨moved.chain, ?_, fun q => ?_, ?_⟩
  · have total := (moved.beside (otherPages k g p + g.pipes + fixed)).conserved
    rw [held_eq k' _ p, others]
    simp only [procs, update_self]
    rw [total, ← held_eq k g p, inv.total]
  · by_cases same : q = p
    · simp only [same, procs, update_self]
      exact ok
    · simp only [procs, update_of_ne same]
      refine (inv.procs q).moved moved (holds.mono ?_)
      refine Multiset.add_le_add_iff_left.mpr ?_
      calc treePages (g.tree q) ≤ ownPages (k.procs q) (g.tree q) := Multiset.le_add_right _ _
        _ ≤ otherPages k g p := own_le_other k g same
        _ ≤ otherPages k g p + g.pipes + fixed := by
          rw [add_assoc]
          exact Multiset.le_add_right _ _
  · have slots : k'.slots = k.slots := by
      funext i
      rw [KState.slots, KState.slots, procs]
      by_cases same : i.1 = p
      · rw [same, update_self, ofile]
      · rw [update_of_ne same]
    rw [slots, files]
    refine inv.files.frame fun m mem => moved.samePage holds ?_
    rw [Multiset.mem_add, Multiset.mem_add]
    exact .inl (.inr mem)

theorem Inv.changeTemp (moved : Moved k k' g.free temp free' temp') (procs : k'.procs = k.procs)
    (files : k'.files = k.files) : Inv L fixed k' { g with free := free' } temp' float := by
  have holds := inv.holds
  rw [add_comm] at holds
  refine ⟨moved.chain, ?_, fun q => ?_, ?_⟩
  · have total := (moved.beside (procPages k g + g.pipes + fixed)).conserved
    have same : procPages k' { g with free := free' } = procPages k g := by
      simp only [procPages, procs]
    rw [same, add_comm (procPages k g + g.pipes + fixed) temp', total,
      add_comm temp, inv.total]
  · rw [procs]
    exact (inv.procs q).moved moved (holds.mono (Multiset.add_le_add_iff_left.mpr
      (tree_le_proc ..)))
  · have slots : k'.slots = k.slots := by
      funext i
      rw [KState.slots, KState.slots, procs]
    rw [slots, files]
    refine inv.files.frame fun m mem => moved.samePage holds ?_
    rw [Multiset.mem_add, Multiset.mem_add]
    exact .inl (.inr mem)

theorem Inv.changeSlots {pipes : Multiset Nat} {float' : Fin NFILE → Nat}
    (moved : Moved k k' g.free g.pipes free' pipes)
    (frames : ∀ q, (k'.procs q).trapframe = (k.procs q).trapframe)
    (procs : ∀ q, ProcOk L k.mem (k'.procs q) (g.tree q))
    (files : FilesOk k'.slots k'.files k'.mem float' pipes) :
    Inv L fixed k' ⟨free', g.tree, pipes⟩ temp float' := by
  have order : ∀ (a b c : Multiset Nat), a + b + c + temp = b + (a + c + temp) := fun a b c => by
    abel
  have holds := inv.holds
  rw [order] at holds
  refine ⟨moved.chain, ?_, fun q => ?_, files⟩
  · have total := (moved.beside (procPages k g + fixed + temp)).conserved
    have same : procPages k' ⟨free', g.tree, pipes⟩ = procPages k g :=
      Finset.sum_congr rfl fun q _ => by rw [ownPages, ownPages, framePage, framePage, frames]
    rw [same, order, total, ← order, inv.total]
  · exact (procs q).moved moved (holds.mono (Multiset.add_le_add_iff_left.mpr (tree_le_proc ..)))

theorem Inv.changeFiles {pipes : Multiset Nat} {float' : Fin NFILE → Nat}
    (move : FileMove k k' g.free g.pipes free' pipes)
    (files : FilesOk k.slots k'.files k'.mem float' pipes) :
    Inv L fixed k' ⟨free', g.tree, pipes⟩ temp float' := by
  refine inv.changeSlots move.toMoved (fun q => ?_) (fun q => ?_) ?_
  · rw [move.procs]
  · rw [move.procs]
    exact inv.procs q
  · have slots : k'.slots = k.slots := by
      funext i
      rw [KState.slots, KState.slots, move.procs]
    rw [slots]
    exact files

theorem Inv.pipesHolds : Holds L k g.free g.pipes :=
  inv.holds.left.left.right

theorem Inv.still (mem : k'.mem = k.mem) (freelist : k'.freelist = k.freelist) :
    Moved k k' g.free g.pipes g.free g.pipes := by
  refine ⟨?_, rfl, fun m _ _ _ => ?_⟩
  · rw [mem, freelist]
    exact inv.chain
  · rw [mem]
    exact SamePage.refl _ m

end

/-! ## A process and its table -/

theorem tree_le (k : KState) (g : Ghost) (p : Fin NPROC) (fixed temp : Multiset Nat) :
    treePages (g.tree p) + (framePage (k.procs p) + temp) ≤
      procPages k g + g.pipes + fixed + temp := by
  rw [held_eq k g p, ← add_assoc]
  exact Multiset.le_add_right _ _

section

variable (inv : Inv L fixed k g temp float)
include inv

theorem Inv.treeHolds (p : Fin NPROC) :
    Holds L k g.free (treePages (g.tree p) + (framePage (k.procs p) + temp)) :=
  inv.holds.mono (tree_le k g p fixed temp)

theorem Inv.tempHolds : Holds L k g.free temp :=
  inv.holds.right

section

variable (used : (k.procs p).state ≠ .unused)
include used

/-- A live process has a table of the right shape, and a trapframe. -/
theorem Inv.live : Table k.mem (k.procs p).pagetable (g.tree p) ∧
      Shape L (g.tree p) (pageCount (k.procs p).sz) (k.procs p).trapframe :=
  ((inv.procs p).live used).2

theorem Inv.changeTree (exchange : Exchange k k' g.free (treePages (g.tree p)) free' (treePages t))
    (table : Table k'.mem (k.procs p).pagetable t)
    (shape : Shape L t (pageCount (k.procs p).sz) (k.procs p).trapframe) :
    Inv L fixed k' ⟨free', update g.tree p t, g.pipes⟩ temp float := by
  refine inv.changeProc (x := k.procs p) ?_ ?_ exchange.files rfl ?_
  · rw [ownPages, ownPages, add_assoc, add_assoc]
    exact exchange.toMoved.beside _
  · rw [update_eq_self, exchange.procs]
  · have ok := inv.procs p
    exact ⟨fun unused => absurd unused used, fun _ => ⟨(ok.live used).1, table, shape⟩, ok.closed⟩

theorem Inv.writeUser
    (exchange : Exchange k k' g.free (treePages (g.tree p)) g.free (treePages (g.tree p)))
    (table : Table k'.mem (k.procs p).pagetable (g.tree p)) : Inv L fixed k' g temp float := by
  have changed := inv.changeTree used exchange table (inv.live used).2
  rw [update_eq_self] at changed
  exact changed

theorem Inv.copyout_spec (dstva : Nat) (src : Bytes) (len : Nat) :
    ∃ r k', copyout (k.procs p).pagetable dstva src len k = .ok (r, k') ∧
      Inv L fixed k' g temp float ∧ k'.procs = k.procs ∧ k'.files = k.files ∧
      k'.initproc = k.initproc ∧ k'.nextpid = k.nextpid := by
  obtain ⟨r, k', ran, table, exchange⟩ :=
    Kernel.copyout_spec dstva src len (inv.treeHolds p).left (inv.live used).1
  exact ⟨r, k', ran, inv.writeUser used exchange table, exchange.procs, exchange.files,
    exchange.initproc, exchange.nextpid⟩

theorem Inv.writeFrame {mem' : Bytes} (within : Within (k.procs p).trapframe k.mem mem') :
    Inv L fixed { k with mem := mem' } g temp float := by
  have mine : (k.procs p).trapframe ∈ framePage (k.procs p) := by
    rw [framePage, if_neg ((inv.procs p).live used).1]
    exact Multiset.mem_singleton_self _
  have holds := inv.treeHolds p
  rw [← add_assoc] at holds
  have written : Moved k { k with mem := mem' } g.free (ownPages (k.procs p) (g.tree p) + temp)
      g.free (ownPages (k.procs p) (g.tree p) + temp) :=
    (Exchange.write holds.left (Multiset.mem_add.mpr (.inr mine)) within).toMoved.beside temp
  have ok := (inv.procs p).moved (Exchange.write holds.left.right mine within).toMoved
    (by rw [add_comm]; exact holds.left)
  have changed := inv.changeProc written (update_eq_self p k.procs).symm rfl rfl ok
  rw [update_eq_self] at changed
  exact changed

end

end

/-- A change of fields that have nothing to do with memory. -/
structure Proc.SameSpace (x y : Proc) : Prop where
  pagetable : y.pagetable = x.pagetable
  trapframe : y.trapframe = x.trapframe
  sz : y.sz = x.sz
  ofile : y.ofile = x.ofile
  unused : y.state = .unused ↔ x.state = .unused
  closed : y.state = .unused ∨ y.state = .used ∨ y.state = .zombie → ∀ fd, y.ofile fd = none

theorem ProcOk.same {mem : Bytes} (ok : ProcOk L mem x t) (same : x.SameSpace x') :
    ProcOk L mem x' t where
  unused unused := by
    rw [same.pagetable, same.trapframe, same.sz]
    exact ok.unused (same.unused.mp unused)
  live used := by
    rw [same.pagetable, same.trapframe, same.sz]
    exact ok.live fun unused => used (same.unused.mpr unused)
  closed := same.closed

theorem ProcOk.refl_same {mem : Bytes} (ok : ProcOk L mem x t) : x.SameSpace x :=
  ⟨rfl, rfl, rfl, rfl, Iff.rfl, ok.closed⟩

theorem idup_run (ip : Fin NINODE) (k : KState) : idup ip k =
    .ok ((), { k with inodes := update k.inodes ip (k.inodes ip + 1) }) := rfl

theorem iput_run (ip : Fin NINODE) (k : KState) : iput ip k =
    .ok ((), { k with inodes := update k.inodes ip (k.inodes ip - 1) }) := rfl

theorem Inv.relabel (inv : Inv L fixed k g temp float) (mem : k'.mem = k.mem)
    (freelist : k'.freelist = k.freelist) (files : k'.files = k.files)
    (same : ∀ q, (k.procs q).SameSpace (k'.procs q)) : Inv L fixed k' g temp float := by
  refine inv.changeSlots (inv.still mem freelist) (fun q => (same q).trapframe)
    (fun q => (inv.procs q).same (same q)) ?_
  have slots : k'.slots = k.slots := by
    funext i
    rw [KState.slots, KState.slots, (same i.1).ofile]
  rw [slots, files, mem]
  exact inv.files

theorem Inv.setInodes (inv : Inv L fixed k g temp float) (inodes : Fin NINODE → Int) :
    Inv L fixed { k with inodes := inodes } g temp float :=
  inv.relabel rfl rfl rfl fun q => (inv.procs q).refl_same

end Invariant

end Xv6.Kernel
