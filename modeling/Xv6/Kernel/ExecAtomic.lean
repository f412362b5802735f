import Xv6.Kernel.PageOwners

/-! # An attempt to exec

`exec` with its inode and its operation of the log, and what it leaves behind: when it
returns -1 the process is as it was, and everything that the attempt took is given back.
-/

namespace Xv6.Kernel

open Lib Function

/-! ## The inode and the log -/

/-- What a process uses of the file system: the operations of the log that it has begun,
    the references to inodes, and the inodes that it has locked. -/
structure FsUse where
  outstanding : Int
  ref : Nat → Nat
  locks : List Nat

/-- Computations of the kernel that use the file system. -/
abbrev FM (α : Type) : Type := StateT FsUse (StateT KState (Except String)) α

/-- The inode of an executable. -/
structure ExecInode where
  inum : Nat
  file : Executable

namespace ExecFs

def beginOp : FM Unit := modify fun u => { u with outstanding := u.outstanding + 1 }

def endOp : FM Unit := modify fun u => { u with outstanding := u.outstanding - 1 }

/-- `namei`, with the inode that the path leads to. -/
def namei (found : Option ExecInode) : FM (Option ExecInode) := do
  if let some ip := found then
    modify fun u => { u with ref := update u.ref ip.inum (u.ref ip.inum + 1) }
  return found

def ilock (ip : ExecInode) : FM Unit := do
  if (← get).ref ip.inum < 1 then
    throw "ilock"
  modify fun u => { u with locks := ip.inum :: u.locks }

def iunlockput (ip : ExecInode) : FM Unit := do
  let u ← get
  if ip.inum ∉ u.locks ∨ u.ref ip.inum < 1 then
    throw "iunlock"
  set { u with
    locks := u.locks.erase ip.inum
    ref := update u.ref ip.inum (u.ref ip.inum - 1) }

/-- The end of `bad`, while the inode is locked. -/
def bad (ip : ExecInode) : FM Int := do
  iunlockput ip
  endOp
  return -1

def exec (L : Layout) (p : Fin NPROC) (path : List UInt8) (found : Option ExecInode)
    (argv : List Nat) : FM Int := do
  beginOp
  let some ip ← namei found | do
    endOp
    return -1
  ilock ip
  let bytes := readi ip.file 0 64
  if bytes.length ≠ 64 then
    return ← bad ip
  let elf := ofList bytes
  if elf.getLE 0 4 ≠ ELF_MAGIC then
    return ← bad ip
  let pagetable ← procPagetable L p
  if pagetable = 0 then
    return ← bad ip
  let (loaded, sz) ← loadSegments L pagetable ip.file (elf.getLE 56 2) (elf.getLE 32 8) 0
  if !loaded then
    procFreepagetable L pagetable sz
    return ← bad ip
  iunlockput ip
  endOp
  buildStack L p path argv pagetable sz (elf.getLE 24 8)

def sysExec (L : Layout) (p : Fin NPROC) (upath uargv : Nat)
    (namei : List UInt8 → Option ExecInode) : FM Int := do
  let (path, ok) ← copyinstr (← getProc p).pagetable upath MAXPATH
  if !ok then
    return -1
  let path := path.takeWhile (· ≠ 0)
  let (ok, argv) ← fetchArgs p uargv MAXARG []
  if !ok then
    freeArgs L argv
    return -1
  let ret ← exec L p path (namei path) argv
  freeArgs L argv
  return ret

theorem run_lift {α : Type} (m : KM α) (u : FsUse) :
    (liftM m : FM α).run u = m >>= fun a => pure (a, u) := rfl

/-- The use of the file system while `exec` reads the file. -/
def inside (u : FsUse) (ip : ExecInode) : FsUse where
  outstanding := u.outstanding + 1
  ref := update u.ref ip.inum (u.ref ip.inum + 1)
  locks := ip.inum :: u.locks

theorem iunlockput_inside (u : FsUse) (ip : ExecInode) :
    (iunlockput ip).run (inside u ip) = pure ((), { u with outstanding := u.outstanding + 1 }) := by
  simp [iunlockput, inside]

theorem bad_inside (u : FsUse) (ip : ExecInode) : (bad ip).run (inside u ip) = pure (-1, u) := by
  simp [bad, iunlockput_inside, endOp]

theorem locked (u : FsUse) (ip : ExecInode) : (ilock ip).run { u with
      outstanding := u.outstanding + 1
      ref := update u.ref ip.inum (u.ref ip.inum + 1) } = pure ((), inside u ip) := by
  simp [ilock, inside]

/-- `exec` uses the file system and gives everything back. -/
theorem exec_eq (L : Layout) (p : Fin NPROC) (path : List UInt8) (found : Option ExecInode)
    (argv : List Nat) (u : FsUse) :
    (exec L p path found argv).run u =
      (fun r => (r, u)) <$> Kernel.exec L p path (found.map ExecInode.file) argv := by
  cases found with
  | none => simp [exec, Kernel.exec, beginOp, namei, endOp]
  | some ip =>
    have begun : beginOp.run u = pure ((), { u with outstanding := u.outstanding + 1 }) := rfl
    have named : (namei (some ip)).run { u with outstanding := u.outstanding + 1 } =
        pure (some ip, { u with
          outstanding := u.outstanding + 1
          ref := update u.ref ip.inum (u.ref ip.inum + 1) }) := rfl
    simp only [exec, Kernel.exec, Option.map_some, StateT.run_bind, begun, named, locked,
      pure_bind]
    by_cases short : (readi ip.file 0 64).length ≠ 64
    · simp only [if_pos short, bad_inside, map_pure]
    simp only [if_neg short]
    by_cases magic : (ofList (readi ip.file 0 64)).getLE 0 4 ≠ ELF_MAGIC
    · simp only [if_pos magic, bad_inside, map_pure]
    simp only [if_neg magic, StateT.run_bind, run_lift, bind_assoc, pure_bind, map_bind]
    refine bind_congr fun pagetable => ?_
    by_cases none_ : pagetable = 0
    · simp only [if_pos none_, bad_inside, map_pure]
    simp only [if_neg none_, StateT.run_bind, run_lift, bind_assoc, pure_bind, map_bind]
    refine bind_congr fun segments => ?_
    obtain ⟨loaded, sz⟩ := segments
    cases loaded with
    | false =>
      simp [bad_inside]
    | true =>
      simp [iunlockput_inside, endOp]

theorem sysExec_eq (L : Layout) (p : Fin NPROC) (upath uargv : Nat)
    (namei : List UInt8 → Option ExecInode) (u : FsUse) :
    (sysExec L p upath uargv namei).run u = (fun r => (r, u)) <$>
      Kernel.sysExec L p upath uargv fun path => (namei path).map ExecInode.file := by
  simp only [sysExec, Kernel.sysExec, StateT.run_bind, run_lift, bind_assoc, pure_bind, map_bind]
  refine bind_congr fun x => bind_congr fun copied => ?_
  obtain ⟨path, whole⟩ := copied
  cases whole with
  | false => simp
  | true =>
    simp only [Bool.not_true, Bool.false_eq_true, if_false, StateT.run_bind, run_lift, bind_assoc,
      pure_bind, map_bind]
    refine bind_congr fun fetched => ?_
    obtain ⟨done, argv⟩ := fetched
    cases done with
    | false => simp
    | true => simp [exec_eq]

end ExecFs

/-! ## What an attempt leaves -/

/-- The page at `m` is on the free list. -/
def KState.Free (k : KState) (m : Nat) : Prop := ∃ i, freeNth k.mem k.freelist i = m

section

variable {L : Layout} {fixed : Multiset Nat} {b : Boot L} {k k' : KState} {g g' : Ghost}
  {p : Fin NPROC} {m : Nat} {s : State}

/-- The process and its pages are what they were, and so is the free list. -/
structure Unchanged (b : Boot L) (p : Fin NPROC) (k k' : KState) : Prop where
  proc : k'.procs p = k.procs p
  pages : ∀ m o, IsPage L m → o.share = .proc p → Owns b k m o → SamePage k.mem k'.mem m
  free : ∀ m, IsPage L m → (k'.Free m ↔ k.Free m)

/-- The page table and the memory that the process had are free. -/
def OldFreed (b : Boot L) (p : Fin NPROC) (k k' : KState) : Prop :=
  ∀ m, IsPage L m → (∃ path, Owns b k m (.node p path)) ∨ (∃ v, Owns b k m (.user p v)) → k'.Free m

theorem Inv.free_iff (b : Boot L) (inv : Inv L fixed k g 0 fun _ => 0) (page : IsPage L m) :
    k.Free m ↔ m ∈ g.free := by
  rw [List.mem_iff_getElem?]
  exact exists_congr fun i => inv.ownsFree_iff (b := b) page i

theorem Inv.unchanged (inv : Inv L fixed k g 0 fun _ => 0) (inv' : Inv L fixed k' g' 0 fun _ => 0)
    (exchange : Exchange k k' g.free 0 g'.free 0) : Unchanged b p k k' where
  proc := congrFun exchange.procs p
  pages m o page share owns := by
    have mine := inv.mem_share page owns
    rw [share] at mine
    have held := Multiset.mem_of_le (own_le_proc k g p) mine
    have busy : m ∉ g.free := inv.holds.left.left.left.not_free held
    exact exchange.frame m page.aligned busy (Multiset.notMem_zero m)
  free m page := by
    have same : (g'.free : Multiset Nat) = g.free := by simpa using exchange.conserved
    rw [inv.free_iff b page, inv'.free_iff b page, ← Multiset.mem_coe, same, Multiset.mem_coe]

theorem Inv.oldFreed (inv : Inv L fixed k g 0 fun _ => 0) (inv' : Inv L fixed k' g' 0 fun _ => 0)
    (old : ∀ m ∈ treePages (g.tree p), m ∈ g'.free) : OldFreed b p k k' := by
  rintro m page (⟨path, owns⟩ | ⟨v, owns⟩)
  · obtain ⟨digits, at_⟩ := (inv.ownsNode_iff path).mp owns
    exact (inv'.free_iff b page).mpr (old m (Radix.nodeAt_mem digits at_))
  · obtain ⟨_, x, some_, mem⟩ := (inv.ownsUser_iff v).mp owns
    exact (inv'.free_iff b page).mpr
      (old m (Multiset.mem_of_le (Radix.get_pages_le (by decide) some_) mem))

/-- `exec` of a running process returns. If it returns -1, the process and the free list are
    as before; otherwise the old image is free. Either way it has given back its inode and
    its operation of the log. -/
theorem exec_allOrNothing (b : Boot L) {tr : List (Event × Obs)}
    (run : (machine L).Run b.state tr s) (running : (s.k.procs p).state = .running)
    (upath uargv : Nat) (namei : List UInt8 → Option ExecInode) (u : FsUse) :
    ∃ r k', (ExecFs.sysExec L p upath uargv namei).run u s.k = .ok ((r, u), k') ∧
      ((r = -1 ∧ Unchanged b p s.k k') ∨ (0 ≤ r ∧ OldFreed b p s.k k')) := by
  obtain ⟨g, settled⟩ := b.settled.run run
  obtain ⟨r, k', g', ran, after, -, -, attempt⟩ := settled.inv.sysExec_spec running upath uargv
    fun path => (namei path).map ExecInode.file
  refine ⟨r, k', ?_, ?_⟩
  · rw [ExecFs.sysExec_eq, map_eq_pure_bind]
    exact run_bind ran
  · rcases attempt with ⟨failed, exchange⟩ | ⟨done, old⟩
    · exact .inl ⟨failed, settled.inv.unchanged after exchange⟩
    · exact .inr ⟨done, settled.inv.oldFreed after old⟩

end

/-- An image with two segments: 16 bytes of code, and one that is larger in the file than in
    memory. -/
def halfImage : Executable := fun off n =>
  let zeros := fun n => List.replicate n 0
  let header := [0x7F, 0x45, 0x4C, 0x46] ++ zeros 28 ++ [64] ++ zeros 23 ++ [2] ++ zeros 7
  let code := [1, 0, 0, 0, 1] ++ zeros 27 ++ [16] ++ zeros 7 ++ [16] ++ zeros 15
  let data := [1] ++ zeros 31 ++ [16] ++ zeros 23
  ((header ++ code ++ data).drop off).take n

section

variable (L : Layout) (p : Fin NPROC)

/-- Its first segment is loaded if there is memory; its second one is refused. -/
theorem loadSegments_halfImage (root : Nat) (k : KState) :
    Outcome (loadSegments L root halfImage 2 64 0) k (fun _ => True) fun r _ => r.1 = false := by
  have second (sz : Nat) (k : KState) : Outcome (loadSegments L root halfImage 1 120 sz) k
      (fun _ => True) fun r _ => r.1 = false := by
    rw [loadSegments, if_neg (by decide), if_neg (by decide), if_pos (by decide)]
    exact .pure rfl
  rw [loadSegments, if_neg (by decide), if_neg (by decide), if_neg (by decide), if_neg (by decide),
    if_neg (by decide)]
  refine .bind (Outcome.trivial.mono fun sz k _ => ?_)
  split
  · exact .pure rfl
  refine .bind (Outcome.trivial.mono fun loaded k _ => ?_)
  split
  · exact .pure rfl
  · exact second sz k

/-- The computation returns -1. -/
def Refuses (m : KM Int) : Prop := ∀ k, Outcome m k (fun _ => True) fun r _ => r = -1

theorem exec_halfImage (path : List UInt8) (argv : List Nat) :
    Refuses (exec L p path (some halfImage) argv) := by
  intro k
  simp only [exec]
  rw [if_neg (by decide), if_neg (by decide)]
  refine .bind (Outcome.trivial.mono fun pagetable k _ => ?_)
  split
  · exact .pure rfl
  refine .bind ((loadSegments_halfImage L pagetable k).mono ?_)
  rintro ⟨loaded, sz⟩ k rfl
  exact .bind (Outcome.trivial.mono fun _ _ _ => .pure rfl)

theorem sysExec_halfImage (upath uargv : Nat) :
    Refuses (sysExec L p upath uargv fun _ => some halfImage) := by
  intro k
  simp only [sysExec]
  refine .bind (Outcome.trivial.mono fun x k _ => .bind (Outcome.trivial.mono fun copied k _ => ?_))
  split
  · exact .pure rfl
  refine .bind (Outcome.trivial.mono fun fetched k _ => ?_)
  split
  · exact .bind (Outcome.trivial.mono fun _ _ _ => .pure rfl)
  refine .bind ((exec_halfImage L p _ _ k).mono fun r k failed => ?_)
  exact .bind (Outcome.trivial.mono fun _ _ _ => .pure failed)

end

/-- The first process calls `exec` for this image, and is what it was. -/
theorem exec_allOrNothing_initRun : ∃ (b : Boot smallKernel) (s : State) (p : Fin NPROC)
    (k' : KState), (machine smallKernel).Run b.state (firstRun p) s ∧
      (s.k.procs p).state = .running ∧
      (ExecFs.sysExec smallKernel p 36 43 fun _ => some ⟨1, halfImage⟩).run
        ⟨0, fun _ => 0, []⟩ s.k = .ok ((-1, ⟨0, fun _ => 0, []⟩), k') ∧ Unchanged b p s.k k' := by
  obtain ⟨b, s, p, run, first⟩ := exists_runningRun
  have running := first.running
  obtain ⟨r, k', ran, outcome⟩ := exec_allOrNothing b run running 36 43
    (fun _ => some ⟨1, halfImage⟩) ⟨0, fun _ => 0, []⟩
  have fails : Outcome ((ExecFs.sysExec smallKernel p 36 43 fun _ => some ⟨1, halfImage⟩).run
      ⟨0, fun _ => 0, []⟩) s.k (fun _ => True) fun x _ => x.1 = -1 := by
    rw [ExecFs.sysExec_eq, map_eq_pure_bind]
    exact .bind ((sysExec_halfImage smallKernel p 36 43 s.k).mono fun _ _ failed => .pure failed)
  obtain rfl : r = -1 := fails.ok ran
  rcases outcome with ⟨-, unchanged⟩ | ⟨bad, -⟩
  · exact ⟨b, s, p, k', run, running, ran, unchanged⟩
  · exact absurd bad (by decide)

end Xv6.Kernel
