import Xv6.Kernel.Ownership

/-! # Descriptors

`fdalloc` and the system calls that open, duplicate and close files keep the
references of files in step with the descriptors, and the pages of pipes with their
ends.
-/

namespace Xv6.Kernel

open Lib Function

variable {g' : Ghost} {mem : Bytes} {pipes : Multiset Nat} {slots : Slots}
  {files : Fin NFILE → File} {i : Fin NPROC × Fin NOFILE} {np : Fin NPROC}

/-- Pages that pipes gave up are free. -/
def Drops (g g' : Ghost) : Prop := ∀ m ∈ g.pipes, m ∈ g'.pipes ∨ m ∈ g'.free

/-- Pages move between the free list and the pipes only. -/
def Trades (g g' : Ghost) : Prop := (g'.free : Multiset Nat) + g'.pipes = g.free + g.pipes

theorem Drops.of_eq {g : Ghost} (same : g'.pipes = g.pipes) : Drops g g' := fun _ mem =>
  .inl (same ▸ mem)

theorem Trades.drops {g : Ghost} (trades : Trades g g') : Drops g g' := by
  intro m mem
  have inside : m ∈ (g'.free : Multiset Nat) + g'.pipes := by
    rw [trades]
    exact Multiset.mem_add.mpr (.inr mem)
  rcases Multiset.mem_add.mp inside with free_ | piped
  · exact .inr free_
  · exact .inl piped

/-- A system call returns, with every page accounted for and nothing held. -/
def Returns {α : Type} (L : Layout) (fixed : Multiset Nat) (k : KState) (g : Ghost) (m : KM α) :
    Prop :=
  ∃ r k' g', m k = .ok (r, k') ∧ Inv L fixed k' g' 0 (fun _ => 0) ∧ k'.initproc = k.initproc ∧
    Drops g g'

/-- `p->ofile[fd] = o`. -/
def withFd (k : KState) (p : Fin NPROC) (fd : Fin NOFILE) (o : Option (Fin NFILE)) : KState :=
  { k with
    procs := update k.procs p
      { k.procs p with ofile := update (k.procs p).ofile fd o } }

theorem setFd_run (p : Fin NPROC) (fd : Fin NOFILE) (o : Option (Fin NFILE)) (k : KState) :
    setFd p fd o k = .ok ((), withFd k p fd o) := by
  have same : (fun i => if i = fd then o else (k.procs p).ofile i) =
      update (k.procs p).ofile fd o := by
    funext i
    by_cases equal : i = fd
    · rw [equal, if_pos rfl, update_self]
    · rw [if_neg equal, update_of_ne equal]
  rw [setFd, modifyProc_run, withFd, ← same]

section Descriptors

variable {L : Layout} {fixed temp : Multiset Nat} {k k' : KState} {g : Ghost}
  {float float' : Fin NFILE → Nat} {p : Fin NPROC} {fd : Fin NOFILE} {f : Fin NFILE}
  {o : Option (Fin NFILE)}

theorem withFd_self (k : KState) (p : Fin NPROC) (fd : Fin NOFILE) (o : Option (Fin NFILE)) :
    (withFd k p fd o).procs p =
      { k.procs p with ofile := update (k.procs p).ofile fd o } :=
  update_self _ _ _

theorem withFd_ofile (k : KState) (p : Fin NPROC) (fd : Fin NOFILE) (o : Option (Fin NFILE)) :
    ((withFd k p fd o).procs p).ofile = update (k.procs p).ofile fd o := by
  rw [withFd_self]

theorem withFd_of_ne {q : Fin NPROC} (other : q ≠ p) : (withFd k p fd o).procs q = k.procs q :=
  update_of_ne other _ _

theorem withFd_state (k : KState) (p : Fin NPROC) (fd : Fin NOFILE) (o : Option (Fin NFILE))
    (q : Fin NPROC) : ((withFd k p fd o).procs q).state = (k.procs q).state := by
  by_cases same : q = p
  · rw [same, withFd_self]
  · rw [withFd_of_ne same]

theorem withFd_slots (k : KState) (p : Fin NPROC) (fd : Fin NOFILE) (o : Option (Fin NFILE)) :
    (withFd k p fd o).slots = update k.slots (p, fd) o := by
  funext ⟨q, i⟩
  rw [KState.slots]
  by_cases same : q = p
  · subst same
    rw [withFd_ofile]
    by_cases equal : i = fd
    · rw [equal, update_self, update_self]
    · rw [update_of_ne fun both => equal (congrArg Prod.snd both)]
      exact update_of_ne equal _ _
  · rw [withFd_of_ne same, update_of_ne fun both => same (congrArg Prod.fst both)]
    rfl

theorem ProcOk.withFd {t : Tree} (ok : ProcOk L mem (k.procs p) t)
    (running : (k.procs p).state = .running) :
    ProcOk L mem ((withFd k p fd o).procs p) t := by
  rw [withFd_self]
  refine ⟨ok.unused, ok.live, fun closed => ?_⟩
  simp only [running] at closed
  rcases closed with bad | bad | bad <;> exact ProcState.noConfusion bad

/-- After a descriptor has changed, and files with it. -/
theorem Inv.changeFd {free' : List Nat} (inv : Inv L fixed k g temp float)
    (running : (k.procs p).state = .running) (moved : Moved k k' g.free g.pipes free' pipes)
    (procs : k'.procs = (withFd k p fd o).procs)
    (files : FilesOk (update k.slots (p, fd) o) k'.files k'.mem float' pipes) :
    Inv L fixed k' ⟨free', g.tree, pipes⟩ temp float' := by
  refine inv.changeSlots moved (fun q => ?_) (fun q => ?_) ?_
  · rw [procs]
    by_cases same : q = p
    · rw [same, withFd_self]
    · rw [withFd_of_ne same]
  · rw [procs]
    by_cases same : q = p
    · subst same
      exact (inv.procs q).withFd running
    · rw [withFd_of_ne same]
      exact inv.procs q
  · have slots : k'.slots = (withFd k p fd o).slots := by
      funext i
      rw [KState.slots, KState.slots, procs]
    rw [slots, withFd_slots]
    exact files

theorem addRef_apply (float : Fin NFILE → Nat) (f h : Fin NFILE) :
    addRef float f h = (if some f = some h then 1 else 0) + float h := by
  by_cases same : h = f
  · rw [same, addRef, update_self, if_pos rfl, add_comm]
  · rw [addRef, update_of_ne same, if_neg fun eq => same (Option.some.inj eq).symm, zero_add]

theorem FilesOk.takeFd

    (ok : FilesOk slots files mem (addRef float f) pipes) (empty : slots i = none) :
    FilesOk (update slots i (some f)) files mem float pipes := by
  refine ok.recount fun h => ?_
  have change := tally_update slots i (some f) h
  simp only [empty, reduceCtorEq, if_false] at change
  rw [addRef_apply]
  omega

theorem FilesOk.dropFd

    (ok : FilesOk slots files mem float pipes) (named : slots i = some f) :
    FilesOk (update slots i none) files mem (addRef float f) pipes := by
  refine ok.recount fun h => ?_
  have change := tally_update slots i none h
  simp only [named, reduceCtorEq, if_false] at change
  rw [addRef_apply]
  omega

theorem Inv.takeFd (inv : Inv L fixed k g temp (addRef float f))
    (running : (k.procs p).state = .running) (empty : (k.procs p).ofile fd = none) :
    Inv L fixed (withFd k p fd (some f)) g temp float :=
  inv.changeFd running (inv.still rfl rfl) rfl (inv.files.takeFd empty)

theorem Inv.dropFd (inv : Inv L fixed k g temp float) (running : (k.procs p).state = .running)
    (named : (k.procs p).ofile fd = some f) :
    Inv L fixed (withFd k p fd none) g temp (addRef float f) :=
  inv.changeFd running (inv.still rfl rfl) rfl (inv.files.dropFd named)

theorem fdalloc_run (k : KState) (p : Fin NPROC) (f : Fin NFILE) : fdalloc p f k = .ok (none, k) ∨
      ∃ fd, fdalloc p f k = .ok (some fd, withFd k p fd (some f)) ∧
        (k.procs p).ofile fd = none := by
  rw [fdalloc, run_bind (getProc_run p k)]
  cases found : (List.finRange NOFILE).find? fun fd => (k.procs p).ofile fd = none with
  | none => exact .inl rfl
  | some fd =>
    have empty := List.find?_some found
    exact .inr ⟨fd, run_bind (setFd_run p fd (some f) k), of_decide_eq_true empty⟩

theorem Inv.fileclose_spec (inv : Inv L fixed k g temp (addRef float f)) :
    ∃ k' g', fileclose L f k = .ok ((), k') ∧ Inv L fixed k' g' temp float ∧
      k'.procs = k.procs ∧ k'.initproc = k.initproc ∧ Trades g g' := by
  obtain ⟨k', free', pipes', ran, move, files⟩ := fileclose_addRef inv.pipesHolds inv.files
  exact ⟨k', _, ran, inv.changeFiles move files, move.procs, move.initproc, move.conserved⟩

/-! ## close, dup, open, pipe -/

theorem argfd_run (k : KState) (p : Fin NPROC) (n : Int) : argfd p n k = .ok (none, k) ∨
      ∃ fd f, argfd p n k = .ok (some (fd, f), k) ∧ (k.procs p).ofile fd = some f := by
  rw [argfd, run_bind (getProc_run p k)]
  by_cases inside : 0 ≤ n ∧ n < NOFILE
  · rw [dif_pos inside]
    cases named : (k.procs p).ofile ⟨n.toNat, by omega⟩ with
    | none => exact .inl rfl
    | some f => exact .inr ⟨_, f, rfl, named⟩
  · rw [dif_neg inside]
    exact .inl rfl

theorem Inv.sysClose_returns (inv : Inv L fixed k g 0 fun _ => 0)
    (running : (k.procs p).state = .running) (n : Int) : Returns L fixed k g (sysClose L p n) := by
  rw [sysClose]
  rcases argfd_run k p n with none_ | ⟨fd, f, named, slot⟩
  · exact ⟨-1, k, g, run_bind none_, inv, rfl, .of_eq rfl⟩
  · obtain ⟨k', g', ran, after, _, init, trades⟩ := (inv.dropFd running slot).fileclose_spec
    refine ⟨0, k', g', ?_, after, init, trades.drops⟩
    rw [run_bind named]
    simp only
    rw [run_bind (setFd_run p fd none k), run_bind ran]
    rfl

theorem Inv.sysDup_returns (inv : Inv L fixed k g 0 fun _ => 0)
    (running : (k.procs p).state = .running) (n : Int) : Returns L fixed k g (sysDup p n) := by
  rw [sysDup]
  rcases argfd_run k p n with none_ | ⟨fd, f, named, slot⟩
  · exact ⟨-1, k, g, run_bind none_, inv, rfl, .of_eq rfl⟩
  rw [Returns, run_bind named]
  simp only
  rcases fdalloc_run k p f with full | ⟨i, placed, empty⟩
  · exact ⟨-1, k, g, run_bind full, inv, rfl, .of_eq rfl⟩
  -- the descriptor comes first, its reference after
  have used : 0 < (k.files f).ref := by
    have := inv.files.count f
    have := tally_pos (s := k.slots) (i := (p, fd)) slot
    omega
  have before : FilesOk k.slots (withFd k p i (some f)).files (withFd k p i (some f)).mem
      (fun _ => 0) g.pipes := inv.files
  obtain ⟨k', ran, move, files⟩ :=
    filedup_spec (k := withFd k p i (some f)) ⟨inv.chain, inv.pipesHolds.nodup,
      inv.pipesHolds.page⟩ before used
  refine ⟨(i : Nat), k', g, ?_, inv.changeFd running ?_ move.procs (files.takeFd empty),
    move.initproc, .of_eq rfl⟩
  · rw [run_bind placed]
    exact run_bind ran
  · exact ⟨move.chain, move.conserved, move.frame⟩

theorem Inv.filealloc_spec (inv : Inv L fixed k g temp float) : filealloc k = .ok (none, k) ∨
      ∃ f k', filealloc k = .ok (some f, k') ∧ Inv L fixed k' g temp (addRef float f) ∧
        (k'.files f).type = .none ∧ k'.procs = k.procs ∧ k'.initproc = k.initproc := by
  rcases Kernel.filealloc_spec inv.pipesHolds inv.files with
    full | ⟨f, k', ran, _, type, _, move, files⟩
  · exact .inl full
  · exact .inr ⟨f, k', ran, inv.changeFiles move files, type, move.procs, move.initproc⟩

theorem Inv.sysOpen_returns (inv : Inv L fixed k g 0 fun _ => 0)
    (running : (k.procs p).state = .running) (found : Option Opened) :
    Returns L fixed k g (sysOpen L p found) := by
  cases found with
  | none => exact ⟨-1, k, g, rfl, inv, rfl, .of_eq rfl⟩
  | some ip =>
    rw [sysOpen, Returns, run_bind (idup_run ip.ip k)]
    rcases (inv.setInodes (update k.inodes ip.ip (k.inodes ip.ip + 1))).filealloc_spec with
      full | ⟨f, k₁, got, inv₁, type, procs, init⟩
    · exact ⟨-1, _, g, run_bind full, (inv.setInodes _).setInodes _, rfl, .of_eq rfl⟩
    rw [run_bind got]
    simp only
    rcases fdalloc_run k₁ p f with full | ⟨fd, placed, empty⟩
    · obtain ⟨k', g', ran, after, _, init', trades⟩ := inv₁.fileclose_spec
      refine ⟨-1, { k' with inodes := update k'.inodes ip.ip (k'.inodes ip.ip - 1) }, g', ?_,
        after.setInodes _, init'.trans init, trades.drops⟩
      rw [run_bind full]
      exact (run_bind ran).trans (run_bind (iput_run ip.ip k'))
    · have inv₂ := inv₁.takeFd (procs ▸ running) empty
      rw [run_bind placed]
      simp only
      rw [run_bind (modifyFile_run f _ _)]
      refine ⟨_, _, _, rfl, inv₂.changeFiles (.of_files inv₂.pipesHolds _) ?_, init, .of_eq rfl⟩
      refine inv₂.files.touch (inv₂.files.count f) (fun _ _ => rfl) (fun zero => ?_)
        (fun m w => ?_) fun isPipe => ?_
      · have := inv₂.files.count f
        have := tally_pos (s := (withFd k₁ p fd (some f)).slots) (i := (p, fd)) (a := f)
          (by rw [withFd_slots, update_self])
        exact absurd (show ((withFd k₁ p fd (some f)).files f).ref = 0 from zero) (by omega)
      · refine ⟨fun isEnd => ?_, fun isEnd => absurd isEnd (File.not_isEnd type m w)⟩
        have := isEnd.type
        simp only at this
        split at this <;> exact FileType.noConfusion this
      · simp only at isPipe
        split at isPipe <;> exact FileType.noConfusion isPipe

theorem Inv.pipealloc_spec (inv : Inv L fixed k g temp float) :
    (∃ k' g', pipealloc L k = .ok (none, k') ∧ Inv L fixed k' g' temp float ∧
        k'.procs = k.procs ∧ k'.initproc = k.initproc ∧ Trades g g') ∨
      ∃ rf wf k' g', pipealloc L k = .ok (some (rf, wf), k') ∧
        Inv L fixed k' g' temp (addRef (addRef float wf) rf) ∧ k'.procs = k.procs ∧
        k'.initproc = k.initproc ∧ Trades g g' := by
  rcases Kernel.pipealloc_spec inv.pipesHolds inv.files with
    ⟨k', free', pipes', ran, move, files⟩ | ⟨rf, wf, k', free', pipes', ran, move, files⟩
  · exact .inl ⟨k', _, ran, inv.changeFiles move files, move.procs, move.initproc,
      move.conserved⟩
  · rw [addRef_comm] at files
    exact .inr ⟨rf, wf, k', _, ran, inv.changeFiles move files, move.procs, move.initproc,
      move.conserved⟩

theorem Inv.closeBoth {rf wf : Fin NFILE}
    (inv : Inv L fixed k g temp (addRef (addRef float wf) rf)) :
    ∃ k' g', (fileclose L rf >>= fun _ => fileclose L wf >>= fun _ => pure (-1) : KM Int) k =
        .ok (-1, k') ∧ Inv L fixed k' g' temp float ∧ k'.initproc = k.initproc ∧ Trades g g' := by
  obtain ⟨k₁, g₁, first, inv₁, _, init₁, trades₁⟩ := inv.fileclose_spec
  obtain ⟨k₂, g₂, second, inv₂, _, init₂, trades₂⟩ := inv₁.fileclose_spec
  exact ⟨k₂, g₂, (run_bind first).trans (run_bind second), inv₂, init₂.trans init₁,
    trades₂.trans trades₁⟩

theorem Inv.sysPipe_returns (inv : Inv L fixed k g 0 fun _ => 0)
    (running : (k.procs p).state = .running) (fdarray : Nat) :
    Returns L fixed k g (sysPipe L p fdarray) := by
  rw [Returns, sysPipe]
  rcases inv.pipealloc_spec with
    ⟨k₁, g₁, failed, inv₁, _, init, trades⟩ | ⟨rf, wf, k₁, g₁, made, inv₁, procs, init, trades⟩
  · exact ⟨-1, k₁, g₁, run_bind failed, inv₁, init, trades.drops⟩
  rw [run_bind made, ← init]
  have running₁ : (k₁.procs p).state = .running := procs ▸ running
  simp only
  rcases fdalloc_run k₁ p rf with full | ⟨fd0, placed, empty⟩
  · rw [run_bind full]
    obtain ⟨k', g', ran, after, init', closed⟩ := inv₁.closeBoth
    exact ⟨-1, k', g', ran, after, init', Trades.drops (closed.trans trades)⟩
  rw [run_bind placed]
  have inv₂ := inv₁.takeFd running₁ empty
  have running₂ : ((withFd k₁ p fd0 (some rf)).procs p).state = .running := by
    rw [withFd_state, running₁]
  have slot0 : ((withFd k₁ p fd0 (some rf)).procs p).ofile fd0 = some rf := by
    rw [withFd_ofile, update_self]
  simp only
  rcases fdalloc_run (withFd k₁ p fd0 (some rf)) p wf with full | ⟨fd1, placed, empty⟩
  · rw [run_bind full]
    simp only
    rw [run_bind (setFd_run p fd0 none _)]
    obtain ⟨k', g', ran, after, init', closed⟩ := (inv₂.dropFd running₂ slot0).closeBoth
    exact ⟨-1, k', g', ran, after, init', Trades.drops (closed.trans trades)⟩
  rw [run_bind placed]
  have inv₃ := inv₂.takeFd running₂ empty
  have distinct : fd0 ≠ fd1 := by
    rintro rfl
    exact absurd (slot0.symm.trans empty) (Option.some_ne_none rf)
  have running₃ :
      ((withFd (withFd k₁ p fd0 (some rf)) p fd1 (some wf)).procs p).state = .running := by
    rw [withFd_state, running₂]
  have slot0' : ((withFd (withFd k₁ p fd0 (some rf)) p fd1 (some wf)).procs p).ofile fd0 =
      some rf := by
    rw [withFd_ofile, update_of_ne distinct, slot0]
  have slot1 : ((withFd (withFd k₁ p fd0 (some rf)) p fd1 (some wf)).procs p).ofile fd1 =
      some wf := by
    rw [withFd_ofile, update_self]
  have init₃ : (withFd (withFd k₁ p fd0 (some rf)) p fd1 (some wf)).initproc = k₁.initproc := rfl
  rw [← init₃]
  generalize withFd (withFd k₁ p fd0 (some rf)) p fd1 (some wf) = k₃ at *
  have used : (k₃.procs p).state ≠ .unused := by
    rw [running₃]
    decide
  obtain ⟨out₁, k₄, first, inv₄, procs₄, _, init₄, _⟩ :=
    inv₃.copyout_spec used fdarray (Bytes.digits fd0) 4
  obtain ⟨out, k₅, second, inv₅, procs₅, init₅⟩ : ∃ out k₅,
      (if out₁ < 0 then pure out₁ else
        copyout (k₃.procs p).pagetable (u64 (fdarray + 4)) (Bytes.digits fd1) 4 : KM Int) k₄ =
        .ok (out, k₅) ∧ Inv L fixed k₅ g₁ 0 (fun _ => 0) ∧ k₅.procs = k₃.procs ∧
      k₅.initproc = k₃.initproc := by
    by_cases failed : out₁ < 0
    · rw [if_pos failed]
      exact ⟨out₁, k₄, rfl, inv₄, procs₄, init₄⟩
    · rw [if_neg failed, ← procs₄]
      obtain ⟨out, k₅, ran, inv₅, procs₅, _, init₅, _⟩ :=
        inv₄.copyout_spec (procs₄ ▸ used) (u64 (fdarray + 4)) (Bytes.digits fd1) 4
      exact ⟨out, k₅, ran, inv₅, procs₅, init₅.trans init₄⟩
  simp only
  rw [run_bind (getProc_run p k₃), run_bind first, run_ite_bind second]
  by_cases failed : out < 0
  · rw [if_pos failed, run_bind (setFd_run p fd0 none k₅), run_bind (setFd_run p fd1 none _)]
    have closed0 := inv₅.dropFd (procs₅ ▸ running₃) (procs₅ ▸ slot0')
    have closed1 : Inv L fixed (withFd (withFd k₅ p fd0 none) p fd1 none) g₁ 0
        (addRef (addRef (fun _ => 0) rf) wf) :=
      closed0.dropFd (by rw [withFd_state, procs₅, running₃])
        (by rw [withFd_ofile, update_of_ne distinct.symm, procs₅, slot1])
    rw [addRef_comm] at closed1
    obtain ⟨k', g', ran, after, init', closed⟩ := closed1.closeBoth
    exact ⟨-1, k', g', ran, after, init'.trans init₅, Trades.drops (closed.trans trades)⟩
  · rw [if_neg failed]
    exact ⟨0, k₅, g₁, rfl, inv₅, init₅, trades.drops⟩

/-! ## The loops of exit and fork -/

theorem Inv.closeFiles_spec (fds : List (Fin NOFILE)) (inv : Inv L fixed k g temp float)
    (running : (k.procs p).state = .running) :
    ∃ k' g', closeFiles L p fds k = .ok ((), k') ∧ Inv L fixed k' g' temp float ∧
      (k'.procs p).state = .running ∧
      (∀ fd, fd ∈ fds ∨ (k.procs p).ofile fd = none → (k'.procs p).ofile fd = none) ∧
      k'.initproc = k.initproc ∧ Trades g g' := by
  induction fds generalizing k g with
  | nil =>
    exact ⟨k, g, rfl, inv, running, fun fd => Or.rec (fun mem => absurd mem List.not_mem_nil) id,
      rfl, rfl⟩
  | cons fd rest ih =>
    rw [closeFiles, run_bind (getProc_run p k)]
    cases named : (k.procs p).ofile fd with
    | none =>
      obtain ⟨k', g', ran, after, running', closed, init, trades⟩ := ih inv running
      refine ⟨k', g', ran, after, running', fun i which => closed i ?_, init, trades⟩
      rcases which with mem | none_
      · rcases List.mem_cons.mp mem with rfl | mem
        · exact .inr named
        · exact .inl mem
      · exact .inr none_
    | some f =>
      -- the reference goes before the descriptor does
      obtain ⟨k₁, free₁, pipes₁, ran₁, move, files⟩ :=
        fileclose_addRef inv.pipesHolds (inv.files.dropFd (i := (p, fd)) named)
      have procs : (withFd k₁ p fd none).procs = (withFd k p fd none).procs := by
        rw [withFd, withFd, move.procs]
      have inv₁ : Inv L fixed (withFd k₁ p fd none) ⟨free₁, g.tree, pipes₁⟩ temp float :=
        inv.changeFd running ⟨move.chain, move.conserved, move.frame⟩ procs files
      obtain ⟨k', g', ran, after, running', closed, init, trades⟩ :=
        ih inv₁ (by rw [withFd_state, move.procs, running])
      refine ⟨k', g', ?_, after, running', fun i which => closed i ?_, init.trans move.initproc,
        trades.trans move.conserved⟩
      · simp only
        rw [run_bind ran₁, run_bind (setFd_run p fd none k₁)]
        exact ran
      · rw [withFd_ofile, move.procs]
        by_cases same : i = fd
        · rw [same, update_self]
          exact .inr rfl
        · rw [update_of_ne same]
          exact which.imp_left fun mem => (List.mem_cons.mp mem).resolve_left same

/-- The child `np` has the descriptors `fds` of process `p`, and the files have the references. -/
def dupped (k : KState) (p np : Fin NPROC) (fds : List (Fin NOFILE)) : KState :=
  { k with
    procs := update k.procs np { k.procs np with
      ofile := fun fd => if fd ∈ fds then (k.procs p).ofile fd else (k.procs np).ofile fd }
    files := fun f => { k.files f with
      ref := (k.files f).ref + (fds.countP fun fd => (k.procs p).ofile fd = some f) } }

theorem dupped_nil (k : KState) (p np : Fin NPROC) : dupped k p np [] = k := by
  simp [dupped]

theorem dupped_none (fds : List (Fin NOFILE)) (none_ : (k.procs p).ofile fd = none)
    (empty : (k.procs np).ofile fd = none) : dupped k p np (fd :: fds) = dupped k p np fds := by
  have ofile : ∀ i, (if i ∈ fd :: fds then (k.procs p).ofile i else (k.procs np).ofile i) =
      if i ∈ fds then (k.procs p).ofile i else (k.procs np).ofile i := by
    intro i
    by_cases same : i = fd
    · simp only [same, none_, empty, ite_self]
    · simp only [List.mem_cons, same, false_or]
  simp only [dupped, ofile, List.countP_cons, none_, reduceCtorEq, decide_false, Bool.false_eq_true,
    if_false, Nat.add_zero]

/-- A descriptor and its reference come first, those of the rest later. -/
theorem dupped_some {fds : List (Fin NOFILE)} (other : p ≠ np)
    (named : (k.procs p).ofile fd = some f) (fresh : fd ∉ fds) :
    dupped k p np (fd :: fds) = dupped (withFd { k with
      files := update k.files f { k.files f with ref := (k.files f).ref + 1 } } np fd
        (some f)) p np fds := by
  have ofile : ∀ i, (if i ∈ fd :: fds then (k.procs p).ofile i else (k.procs np).ofile i) =
      if i ∈ fds then (k.procs p).ofile i else
        update (k.procs np).ofile fd (some f) i := by
    intro i
    by_cases same : i = fd
    · rw [same, if_pos List.mem_cons_self, if_neg fresh, update_self, named]
    · simp only [List.mem_cons, same, false_or, update_of_ne same]
  have refs : ∀ h : Fin NFILE, { k.files h with
      ref := (k.files h).ref + ((fd :: fds).countP fun i => (k.procs p).ofile i = some h) } =
      ({ update k.files f { k.files f with ref := (k.files f).ref + 1 } h with
        ref := (update k.files f { k.files f with ref := (k.files f).ref + 1 } h).ref +
          (fds.countP fun i => (k.procs p).ofile i = some h) } : File) := by
    intro h
    by_cases same : h = f
    · rw [same, update_self, List.countP_cons, if_pos (by simp [named])]
      simp only [Nat.cast_add, Nat.cast_one, File.mk.injEq, true_and, and_true]
      omega
    · rw [update_of_ne same, List.countP_cons, if_neg (by simp [named, Ne.symm same]),
        Nat.add_zero]
  simp only [dupped, withFd, update_of_ne other, update_self, update_idem,
    ofile, refs]

/-- `fork` gives the child a reference for each descriptor. -/
theorem dupFiles_spec (fds : List (Fin NOFILE))
    (files : FilesOk k.slots k.files k.mem float pipes) (other : p ≠ np) (nodup : fds.Nodup)
    (empty : ∀ fd ∈ fds, (k.procs np).ofile fd = none) :
    dupFiles p np fds k = .ok ((), dupped k p np fds) ∧
      FilesOk (dupped k p np fds).slots (dupped k p np fds).files k.mem float pipes := by
  induction fds generalizing k with
  | nil =>
    rw [dupped_nil]
    exact ⟨rfl, files⟩
  | cons fd rest ih =>
    obtain ⟨fresh, nodup⟩ := List.nodup_cons.mp nodup
    have here := empty fd List.mem_cons_self
    rw [dupFiles, run_bind (getProc_run p k)]
    cases named : (k.procs p).ofile fd with
    | none =>
      rw [dupped_none rest named here]
      exact ih files nodup fun i mem => empty i (List.mem_cons_of_mem fd mem)
    | some f =>
      have used : 0 < (k.files f).ref := by
        have := files.count f
        have := tally_pos (s := k.slots) (i := (p, fd)) named
        omega
      obtain ⟨ran₁, files₁⟩ := filedup_run files used
      have files₂ := files₁.takeFd (i := (np, fd)) here
      rw [dupped_some other named fresh]
      simp only
      rw [run_bind ran₁, run_bind (setFd_run np fd (some f) _)]
      refine ih ?_ nodup fun i mem => ?_
      · rw [withFd_slots]
        exact files₂
      · have differs : i ≠ fd := fun same => fresh (same ▸ mem)
        rw [withFd_ofile, update_of_ne differs]
        exact empty i (List.mem_cons_of_mem fd mem)

end Descriptors

end Xv6.Kernel
