import Xv6.Kernel.FileCalls

/-! # Processes come and go

`allocproc`, `freeproc`, `growproc` and `fork` keep the account of pages.
-/

namespace Xv6.Kernel

open Lib Function

variable {q np : Fin NPROC} {n : Int}

section Calls

variable {L : Layout} {fixed temp : Multiset Nat} {k k' : KState} {g : Ghost}
  {free free' : List Nat} {held held' : Multiset Nat} {float : Fin NFILE → Nat}
  {p : Fin NPROC} {x : Proc} {t : Tree}

theorem Holds.setProcs (ok : Holds L k free held) (procs : Fin NPROC → Proc) :
    Holds L { k with procs := procs } free held :=
  ⟨ok.chain, ok.nodup, ok.page⟩

theorem Moved.setProcs (moved : Moved k k' free held free' held') (procs : Fin NPROC → Proc) :
    Moved k { k' with procs := procs } free held free' held' :=
  ⟨moved.chain, moved.conserved, moved.frame⟩

theorem Moved.fromProcs {procs : Fin NPROC → Proc}
    (moved : Moved { k with procs := procs } k' free held free' held') :
    Moved k k' free held free' held' :=
  ⟨moved.chain, moved.conserved, moved.frame⟩

/-- The tables of files and inodes are as before, and so is `initproc`. -/
structure KeepsFiles (k k' : KState) : Prop where
  files : k'.files = k.files
  inodes : k'.inodes = k.inodes
  initproc : k'.initproc = k.initproc

theorem KeepsFiles.trans {k'' : KState} (first : KeepsFiles k k') (second : KeepsFiles k' k'') :
    KeepsFiles k k'' :=
  ⟨second.files.trans first.files, second.inodes.trans first.inodes,
    second.initproc.trans first.initproc⟩

theorem Exchange.keepsFiles (exchange : Exchange k k' free held free' held') : KeepsFiles k k' :=
  ⟨exchange.files, exchange.inodes, exchange.initproc⟩

/-! ## freeproc -/

/-- `p->trapframe = 0`. -/
def noFrame (k : KState) (p : Fin NPROC) : KState :=
  { k with procs := update k.procs p { k.procs p with trapframe := 0 } }

/-- `freeproc` gives back the trapframe and the whole page table, as far as there are
    any. -/
theorem freeproc_spec (ok : Holds L k free (treePages t + framePage (k.procs p)))
    (table : (k.procs p).pagetable = 0 ∧ t = .empty ∨
      Table k.mem (k.procs p).pagetable t ∧ ∃ tf, Shape L t (pageCount (k.procs p).sz) tf) :
    ∃ k' free', freeproc L p k = .ok ((), k') ∧
      Moved k k' free (treePages t + framePage (k.procs p)) free' 0 ∧
      k'.procs = update k.procs p (freed (k.procs p)) ∧ KeepsFiles k k' := by
  -- the trapframe
  obtain ⟨k₁, free₁, first, exchange₁⟩ : ∃ k₁ free₁,
      (if (k.procs p).trapframe ≠ 0 then kfree L (k.procs p).trapframe else pure ()) k =
        .ok ((), k₁) ∧ Exchange k k₁ free (framePage (k.procs p)) free₁ 0 := by
    have mine := ok.right
    rw [framePage] at mine ⊢
    by_cases none_ : (k.procs p).trapframe = 0
    · rw [if_neg (not_not.mpr none_), if_pos none_]
      exact ⟨k, free, rfl, .refl ok.chain⟩
    · rw [if_neg none_] at mine ⊢
      rw [if_pos none_]
      obtain ⟨k₁, ran, released⟩ := kfree_spec mine
      exact ⟨k₁, _, ran, released⟩
  have joined := (exchange₁.beside (treePages t)).congr (add_comm _ _) (zero_add _)
  -- the page table
  obtain ⟨k₂, free₂, second, exchange₂⟩ : ∃ k₂ free₂,
      (if (k.procs p).pagetable ≠ 0 then procFreepagetable L (k.procs p).pagetable (k.procs p).sz
        else pure ()) (noFrame k₁ p) = .ok ((), k₂) ∧
      Exchange (noFrame k₁ p) k₂ free₁ (treePages t) free₂ 0 := by
    have ok₁ : Holds L (noFrame k₁ p) free₁ (treePages t) := (ok.exchange joined).setProcs _
    rcases table with ⟨none_, rfl⟩ | ⟨table, tf, shape⟩
    · rw [if_neg (not_not.mpr none_), treePages, Radix.pages_empty]
      exact ⟨_, free₁, rfl, .refl ok₁.chain⟩
    · have root : (k.procs p).pagetable ≠ 0 := by
        obtain ⟨⟨c, rfl⟩, _⟩ := table
        exact (ok.left.held_page (Radix.page_mem _ c)).ne_zero
      rw [if_pos root]
      have table₁ := table.exchange exchange₁ (by rwa [add_comm])
      obtain ⟨k₂, free₂, ran, exchange₂⟩ := procFreepagetable_spec ok₁ table₁ shape
      exact ⟨k₂, free₂, ran, exchange₂⟩
  have kept₁ : KeepsFiles k (noFrame k₁ p) :=
    ⟨exchange₁.files, exchange₁.inodes, exchange₁.initproc⟩
  have kept₂ := kept₁.trans exchange₂.keepsFiles
  refine ⟨{ k₂ with procs := update k₂.procs p (freed (k₂.procs p)) }, free₂, ?_,
    (joined.toMoved.trans exchange₂.toMoved.fromProcs).setProcs _, ?_,
    ⟨kept₂.files, kept₂.inodes, kept₂.initproc⟩⟩
  · rw [freeproc, run_bind (getProc_run p k)]
    have frame₂ : (k₂.procs p).trapframe = 0 := by
      simp only [exchange₂.procs, noFrame, update_self]
    refine (run_guarded first).trans ((run_bind (modifyProc_run p _ k₁)).trans ?_)
    refine (run_guarded second).trans ((modifyProc_run p _ k₂).trans ?_)
    rw [freed, frame₂]
  · simp only [exchange₂.procs, noFrame, exchange₁.procs, update_self,
      update_idem]
    rfl

theorem freed_ok (mem : Bytes) (closed : ∀ fd, x.ofile fd = none) : ProcOk L mem (freed x) .empty :=
  ⟨fun _ => ⟨rfl, rfl, rfl, rfl⟩, fun used => absurd rfl used, fun _ => closed⟩

theorem ownPages_freed (x : Proc) : ownPages (freed x) .empty = 0 := by
  rw [ownPages, treePages, Radix.pages_empty, framePage, if_pos (by rfl), add_zero]

theorem Inv.freeproc_spec (inv : Inv L fixed k g temp float)
    (used : (k.procs p).state ≠ .unused) (closed : ∀ fd, (k.procs p).ofile fd = none) :
    ∃ k' free', freeproc L p k = .ok ((), k') ∧
      Inv L fixed k' ⟨free', update g.tree p .empty, g.pipes⟩ temp float ∧
      Moved k k' g.free (ownPages (k.procs p) (g.tree p)) free' 0 ∧
      k'.procs = update k.procs p (freed (k.procs p)) ∧ KeepsFiles k k' := by
  obtain ⟨table, shape⟩ := inv.live used
  have holds := inv.treeHolds p
  rw [← add_assoc] at holds
  obtain ⟨k', free', ran, moved, procs, kept⟩ :=
    Kernel.freeproc_spec holds.left (.inr ⟨table, _, shape⟩)
  have whole := (moved.beside temp).congr rfl
    (show 0 + temp = ownPages (freed (k.procs p)) .empty + temp by rw [ownPages_freed])
  exact ⟨k', free', ran, inv.changeProc whole procs kept.files rfl (freed_ok _ closed), moved,
    procs, kept⟩

/-! ## allocproc -/

/-- What is left of the process table when `allocproc` or `fork` fails: unused slots stay
    unused, the others are as before. -/
def SparesLive (k k' : KState) : Prop :=
  ∀ q, if (k.procs q).state = .unused then (k'.procs q).state = .unused else k'.procs q = k.procs q

theorem SparesLive.refl (k : KState) : SparesLive k k := by
  intro q
  split
  · assumption
  · rfl

theorem sparesLive_freed {y : Proc} (unused : (k.procs p).state = .unused)
    (procs : k'.procs = update k.procs p (freed y)) : SparesLive k k' := by
  intro q
  rw [procs]
  by_cases same : q = p
  · rw [same, if_pos unused, update_self]
    rfl
  · rw [update_of_ne same]
    exact SparesLive.refl k q

/-- The scan of `allocproc` stops at the first slot that is not used. -/
theorem find_unused_le
    (found : (List.finRange NPROC).find? (fun p => (k.procs p).state = .unused) = some p)
    (unused : (k.procs q).state = .unused) : p ≤ q := by
  obtain ⟨_, before, after, whole, none_⟩ := List.find?_eq_some_iff_append.mp found
  have mem : q ∈ before ++ p :: after := whole ▸ List.mem_finRange q
  have sorted := List.pairwise_lt_finRange NPROC
  rw [whole, List.pairwise_append, List.pairwise_cons] at sorted
  rcases List.mem_append.mp mem with early | late
  · have := none_ q early
    simp [unused] at this
  · rcases List.mem_cons.mp late with rfl | later
    · exact le_refl q
    · exact le_of_lt (sorted.2.1.1 q later)

theorem allocproc_found
    (found : (List.finRange NPROC).find? (fun p => (k.procs p).state = .unused) =
      some p) :
    allocproc L k = (do
      let trapframe ← kalloc
      modifyProc p fun x => { x with trapframe := trapframe }
      if trapframe = 0 then
        freeproc L p
        return none
      let pagetable ← procPagetable L p
      modifyProc p fun x => { x with pagetable := pagetable }
      if pagetable = 0 then
        freeproc L p
        return none
      return some p : KM (Option (Fin NPROC)))
      { k with
        procs := update k.procs p { k.procs p with pid := k.nextpid, state := .used }
        nextpid := k.nextpid + 1 } := by
  rw [allocproc, run_get_bind]
  simp only [found]
  rw [run_bind (modifyProc_run p _ k), run_modify_bind]

/-- What `allocproc` and `fork` leave when they fail. -/
structure LeavesNothing (L : Layout) (fixed temp : Multiset Nat) (float : Fin NFILE → Nat)
    (k k' : KState) (g : Ghost) (free' : List Nat) : Prop where
  inv : Inv L fixed k' { g with free := free' } temp float
  moved : Moved k k' g.free 0 free' 0
  spares : SparesLive k k'
  kept : KeepsFiles k k'

/-- The exits of `allocproc`: the slot goes back, with the trapframe if there is one. -/
theorem Inv.allocproc_fails {k₁ : KState} {free₁ : List Nat} {y : Proc}
    (inv : Inv L fixed k g temp float) (unused : (k.procs p).state = .unused)
    (moved : Moved k k₁ g.free 0 free₁ (framePage y))
    (procs : k₁.procs = update k.procs p y) (kept : KeepsFiles k k₁)
    (noTable : y.pagetable = 0) (ofile : y.ofile = (k.procs p).ofile) :
    ∃ k' free', (freeproc L p >>= fun _ => pure none : KM (Option (Fin NPROC))) k₁ =
      .ok (none, k') ∧ LeavesNothing L fixed temp float k k' g free' := by
  obtain ⟨pagetable, trapframe, size, tree⟩ := (inv.procs p).unused unused
  have here : k₁.procs p = y := by rw [procs, update_self]
  have empty : treePages .empty = 0 := Radix.pages_empty 512 Leaf.pages
  have ok₁ : Holds L k₁ free₁ (treePages .empty + framePage (k₁.procs p)) := by
    rw [here, empty, zero_add]
    exact (inv.tempHolds.mono (Multiset.zero_le _)).moved moved
  obtain ⟨k', free', ran, freed_, procs', kept'⟩ :=
    Kernel.freeproc_spec ok₁ (.inl ⟨here ▸ noTable, rfl⟩)
  rw [here, procs, update_idem] at procs'
  rw [here, empty, zero_add] at freed_
  have before : ownPages (k.procs p) (g.tree p) = 0 := by
    rw [ownPages, framePage, trapframe, if_pos rfl, tree, empty, add_zero]
  have whole : Moved k k' g.free (ownPages (k.procs p) (g.tree p) + temp) free'
      (ownPages (freed y) .empty + temp) := by
    rw [before, ownPages_freed]
    exact (moved.trans freed_).beside temp
  have after := inv.changeProc whole procs' (kept.trans kept').files ofile
    (freed_ok _ (ofile ▸ (inv.procs p).closed (.inl unused)))
  rw [← tree, update_eq_self] at after
  exact ⟨k', free', run_bind ran, after, moved.trans freed_, sparesLive_freed unused procs',
    kept.trans kept'⟩

/-- What `allocproc` leaves when it finds slot `p` and memory for it: the record `x`, with
    the table `t`. -/
structure Allocs (L : Layout) (fixed temp : Multiset Nat) (float : Fin NFILE → Nat) (k k' : KState)
    (g : Ghost) (p : Fin NPROC) (x : Proc) (t : Tree) (free' : List Nat) : Prop where
  inv : Inv L fixed k' ⟨free', update g.tree p t, g.pipes⟩ temp float
  moved : Moved k k' g.free 0 free' (ownPages x t)
  unused : (k.procs p).state = .unused
  first : ∀ q, (k.procs q).state = .unused → p ≤ q
  procs : k'.procs = update k.procs p x
  state : x.state = .used
  pid : x.pid = k.nextpid
  size : x.sz = 0
  kept : KeepsFiles k k'
  cost : g.free.length ≤ free'.length + 6

theorem Inv.allocproc_spec (inv : Inv L fixed k g temp float) :
    (∃ k' free', allocproc L k = .ok (none, k') ∧ LeavesNothing L fixed temp float k k' g free' ∧
        (g.free.length ≤ 6 ∨ ∀ q, (k.procs q).state ≠ .unused)) ∨
      ∃ p x t k' free', allocproc L k = .ok (some p, k') ∧
        Allocs L fixed temp float k k' g p x t free' := by
  cases found : (List.finRange NPROC).find? fun p => (k.procs p).state = .unused with
  | none =>
    have ok : Holds L k g.free 0 := inv.tempHolds.mono (Multiset.zero_le _)
    refine .inl ⟨k, g.free, ?_, ⟨inv, (Exchange.refl ok.chain).toMoved, .refl k, rfl, rfl, rfl⟩,
      .inr fun q => ?_⟩
    · rw [allocproc, run_get_bind]
      simp only [found]
      rfl
    · have := List.find?_eq_none.mp found q (List.mem_finRange q)
      simpa using this
  | some p =>
    have unused : (k.procs p).state = .unused := by
      have := List.find?_some found
      simpa using this
    have ok : Holds L k g.free 0 := inv.tempHolds.mono (Multiset.zero_le _)
    obtain ⟨noTable, noFrame_, size, tree⟩ := (inv.procs p).unused unused
    have before : ownPages (k.procs p) (g.tree p) = 0 := by
      rw [ownPages, framePage, noFrame_, if_pos rfl, tree, treePages, Radix.pages_empty, add_zero]
    rw [allocproc_found found]
    generalize used : ({ k.procs p with pid := k.nextpid, state := .used } : Proc) = x₀
    generalize start : ({ k with
      procs := update k.procs p x₀, nextpid := k.nextpid + 1 } : KState) = k₀
    have enter : Moved k k₀ g.free 0 g.free 0 := by
      subst start
      exact ⟨ok.chain, rfl, fun m _ _ _ => SamePage.refl k.mem m⟩
    have procs₀ : k₀.procs = update k.procs p x₀ := by rw [← start]
    have kept₀ : KeepsFiles k k₀ := by
      subst start
      exact ⟨rfl, rfl, rfl⟩
    have noTable₀ : x₀.pagetable = 0 := by rw [← used, ← noTable]
    have ofile₀ : x₀.ofile = (k.procs p).ofile := by rw [← used]
    rcases kalloc_spec (ok.moved enter) with ⟨free_, out⟩ | ⟨m, rest, k₁, free_, got, taken⟩
    · rw [run_bind out, run_bind (modifyProc_run p _ k₀), if_pos rfl]
      obtain ⟨k', free', ran, fails⟩ := inv.allocproc_fails
        (y := { x₀ with trapframe := 0 }) unused
        (enter.setProcs (update k₀.procs p { k₀.procs p with trapframe := 0 }))
        (by simp only [procs₀, update_self, update_idem])
        ⟨kept₀.files, kept₀.inodes, kept₀.initproc⟩ noTable₀ ofile₀
      refine .inl ⟨k', free', ran, fails, .inl ?_⟩
      rw [free_]
      decide
    · have page : IsPage L m := ok.free_page (free_ ▸ List.mem_cons_self)
      have enough : g.free.length = rest.length + 1 := by rw [free_, List.length_cons]
      generalize framed : ({ x₀ with trapframe := m } : Proc) = x₁
      have frame₁ : framePage x₁ = {m} := by rw [framePage, ← framed, if_neg page.ne_zero]
      have procs₁ : update k₁.procs p { k₁.procs p with trapframe := m } = update k.procs p x₁ := by
        rw [taken.procs, procs₀, update_self, update_idem, framed]
      rw [run_bind got, run_bind (modifyProc_run p _ k₁), if_neg page.ne_zero, procs₁]
      have taken₁ : Moved k { k₁ with procs := update k.procs p x₁ } g.free 0 rest {m} :=
        (enter.trans taken.toMoved).setProcs _
      have kept₁ := kept₀.trans taken.keepsFiles
      have holds₁ := ok.moved taken₁
      have frame : (update k.procs p x₁ p).trapframe = m := by
        rw [update_self, ← framed]
      rcases procPagetable_spec (holds₁.mono (Multiset.zero_le _)) frame page.small with
        ⟨k₂, free₂, out, exchange, few⟩ |
        ⟨root, k₂, free₂, t, made, nonzero, table, exchange, shape, cost⟩
      · have moved : Moved k k₂ g.free 0 free₂ {m} := taken₁.trans
          ((exchange.toMoved.beside {m}).congr (zero_add _) (zero_add _))
        rw [run_bind out, run_bind (modifyProc_run p _ k₂), if_pos rfl]
        obtain ⟨k', free', ran, fails⟩ := inv.allocproc_fails
          (y := { x₁ with pagetable := 0 }) unused
          ((moved.congr rfl frame₁.symm).setProcs
            (update k₂.procs p { k₂.procs p with pagetable := 0 }))
          (by simp only [exchange.procs, update_self, update_idem])
          ⟨exchange.files.trans kept₁.files, exchange.inodes.trans kept₁.inodes,
            exchange.initproc.trans kept₁.initproc⟩ rfl (by rw [← ofile₀, ← framed])
        exact .inl ⟨k', free', ran, fails, .inl (by omega)⟩
      · have here : k₂.procs p = x₁ := by simp only [exchange.procs, update_self]
        have procs₂ : update k₂.procs p { x₁ with pagetable := root } =
            update k.procs p { x₁ with pagetable := root } := by
          simp only [exchange.procs, update_idem]
        rw [run_bind made, run_bind (modifyProc_run p _ k₂), if_neg nonzero, here, procs₂]
        have moved : Moved k k₂ g.free 0 free₂ (ownPages { x₁ with pagetable := root } t) := by
          rw [ownPages, show framePage { x₁ with pagetable := root } = {m} from frame₁]
          exact taken₁.trans ((exchange.toMoved.beside {m}).congr (zero_add _) rfl)
        have closed := (inv.procs p).closed (.inl unused)
        have size₁ : x₁.sz = 0 := by rw [← framed, ← used, ← size]
        have used₁ : x₁.state = .used := by rw [← framed, ← used]
        have tf₁ : x₁.trapframe = m := by rw [← framed]
        have ofile₁ : x₁.ofile = (k.procs p).ofile := by rw [← ofile₀, ← framed]
        have ok₂ : ProcOk L k₂.mem { x₁ with pagetable := root } t := by
          refine ⟨fun bad => ?_, fun _ => ⟨?_, table, ?_⟩, fun _ fd => ?_⟩
          · exact absurd (used₁.symm.trans bad) (by decide)
          · exact tf₁ ▸ page.ne_zero
          · simp only [size₁, tf₁]
            exact shape
          · simp only [ofile₁]
            exact closed fd
        have kept₂ : KeepsFiles k { k₂ with
            procs := update k.procs p { x₁ with pagetable := root } } :=
          ⟨exchange.files.trans kept₁.files, exchange.inodes.trans kept₁.inodes,
            exchange.initproc.trans kept₁.initproc⟩
        have whole := (moved.beside temp).congr
          (show 0 + temp = ownPages (k.procs p) (g.tree p) + temp by rw [before]) rfl
        have after := inv.changeProc (whole.setProcs (update k.procs p
          { x₁ with pagetable := root })) rfl kept₂.files ofile₁ ok₂
        exact .inr ⟨p, _, t, _, free₂, rfl, after, moved.setProcs _, unused,
          fun q => find_unused_le found, rfl, used₁,
          by rw [← framed, ← used], size₁, kept₂, by omega⟩

/-! ## growproc -/

/-- The table of a process has changed, and now `p->sz` does. -/
theorem Inv.resize (sz : Nat) (inv : Inv L fixed k g temp float)
    (used : (k.procs p).state ≠ .unused)
    (exchange : Exchange k k' g.free (treePages (g.tree p)) free' (treePages t))
    (table : Table k'.mem (k.procs p).pagetable t)
    (shape : Shape L t (pageCount sz) (k.procs p).trapframe) :
    Inv L fixed { k' with procs := update k'.procs p { k'.procs p with sz := sz } }
      ⟨free', update g.tree p t, g.pipes⟩ temp float := by
  have ok := inv.procs p
  refine inv.changeProc (x := { k.procs p with sz := sz })
    (Moved.setProcs ?_ _) ?_ exchange.files rfl
    ⟨fun unused => absurd unused used, fun _ => ⟨(ok.live used).1, table, shape⟩, ok.closed⟩
  · rw [ownPages, ownPages, add_assoc, add_assoc]
    exact exchange.toMoved.beside _
  · simp only [exchange.procs]

/-- What `growproc(n)` does to process `p`, whose table goes from `t` to `t'`: it returns 0
    and has moved `p->sz` by `n`, or left it if that would be below 0; or it returns -1. -/
inductive Grew (k k' : KState) (p : Fin NPROC) (t t' : Tree) (n r : Int) : Prop
  | moved (sz : Nat) (value : r = 0)
      (size : (sz : Int) = if 0 ≤ (k.procs p).sz + n then (k.procs p).sz + n else (k.procs p).sz)
      (procs : k'.procs = update k.procs p { k.procs p with sz := sz })
      (resized : Resized k.mem k'.mem t t' (pageCount (k.procs p).sz) (pageCount sz))
  | refused (value : r = -1) (more : 0 < n) (procs : k'.procs = k.procs)
      (leaves : ∀ u, u < 2 ^ 27 → leafAt t' u = leafAt t u) (keeps : Keeps k.mem k'.mem t t')

theorem addInt_of_nonneg {sz : Nat} (small : sz < 2 ^ 62) (range : n < 2 ^ 62)
    (nonneg : 0 ≤ sz + n) : (addInt sz n : Int) = sz + n := by
  rw [addInt, Int.toNat_of_nonneg (Int.emod_nonneg _ (by decide)), Int.emod_eq_of_lt nonneg]
  omega

theorem le_addInt_of_neg {sz : Nat} (small : sz < 2 ^ 62) (range : -2 ^ 62 ≤ n)
    (negative : sz + n < 0) : sz ≤ addInt sz n := by
  have wraps : ((sz : Int) + n) % 2 ^ 64 = sz + n + 2 ^ 64 := by
    rw [← Int.add_emod_right, Int.emod_eq_of_lt] <;> omega
  rw [addInt, wraps]
  omega

theorem Inv.growproc_grew (inv : Inv L fixed k g temp float)
    (used : (k.procs p).state ≠ .unused) (low : -2 ^ 31 ≤ n) (high : n < 2 ^ 31) :
    ∃ r k' free' t', growproc L p n k = .ok (r, k') ∧
      Inv L fixed k' ⟨free', update g.tree p t', g.pipes⟩ temp float ∧
      Grew k k' p (g.tree p) t' n r ∧ k'.files = k.files ∧ k'.initproc = k.initproc ∧
      Exchange k { k' with procs := k.procs } g.free (treePages (g.tree p)) free'
        (treePages t') := by
  obtain ⟨table, shape⟩ := inv.live used
  have ok := (inv.treeHolds p).left
  have size : (k.procs p).sz < 2 ^ 32 :=
    Nat.lt_of_le_of_lt (shape.mapped.size_le ok) PHYSTOP_lt
  have exact_ : 0 ≤ (k.procs p).sz + n → (addInt (k.procs p).sz n : Int) = (k.procs p).sz + n :=
    addInt_of_nonneg (by omega) (by omega)
  simp only [growproc]
  rw [run_bind (getProc_run p k)]
  by_cases more : n > 0
  · have new := exact_ (by omega)
    simp only [if_pos more]
    obtain ⟨r, k₁, free₁, t₁, ran, table₁, exchange, keeps, outcome⟩ :=
      uvmalloc_shape (addInt (k.procs p).sz n) allocPerm_W ok table shape
    rw [run_bind ran]
    rcases outcome with ⟨largest, shape₁, _, resized⟩ | ⟨rfl, shape₁, leaves⟩
    · have size' : (r : Int) = (k.procs p).sz + n := by omega
      have nonzero : r ≠ 0 := by omega
      refine ⟨0, _, free₁, t₁, ?_, inv.resize r used exchange table₁ shape₁,
        .moved r rfl (by rw [if_pos (by omega), size']) ?_ resized, exchange.files,
        exchange.initproc, { exchange with procs := rfl }⟩
      · simp only [if_neg nonzero]
        rw [run_bind (modifyProc_run p _ k₁)]
        rfl
      · simp only [exchange.procs]
    · refine ⟨-1, k₁, free₁, t₁, ?_, inv.changeTree used exchange table₁ shape₁,
        .refused rfl more exchange.procs leaves keeps, exchange.files, exchange.initproc,
        { exchange with procs := rfl }⟩
      simp only [if_true]
      rfl
  · simp only [if_neg more]
    by_cases less : n < 0
    · simp only [if_pos less]
      obtain ⟨k₁, free₁, t₁, ran, table₁, exchange, shape₁, resized⟩ :=
        uvmdealloc_shape (addInt (k.procs p).sz n) ok table shape
      have size' : ((min (k.procs p).sz (addInt (k.procs p).sz n) : Nat) : Int) =
          if 0 ≤ (k.procs p).sz + n then (k.procs p).sz + n else (k.procs p).sz := by
        split
        · have new := exact_ (by assumption)
          omega
        · have wraps : (k.procs p).sz ≤ addInt (k.procs p).sz n :=
            le_addInt_of_neg (by omega) (by omega) (by omega)
          omega
      refine ⟨0, _, free₁, t₁, ?_, inv.resize _ used exchange table₁ shape₁,
        .moved _ rfl size' ?_ resized, exchange.files, exchange.initproc,
        { exchange with procs := rfl }⟩
      · rw [run_bind ran, run_bind (modifyProc_run p _ k₁)]
        rfl
      · simp only [exchange.procs]
    · have zero : n = 0 := by omega
      simp only [if_neg less]
      refine ⟨0, k, g.free, g.tree p, rfl, ?_, .moved (k.procs p).sz rfl ?_
        (update_eq_self _ _).symm (.refl _ _ _), rfl, rfl, .refl inv.chain⟩
      · rw [update_eq_self]
        exact inv
      · rw [zero, add_zero, if_pos (by omega)]

theorem Inv.growproc_spec (inv : Inv L fixed k g temp float)
    (used : (k.procs p).state ≠ .unused) (low : -2 ^ 31 ≤ n) (high : n < 2 ^ 31) :
    ∃ r k' g' sz, growproc L p n k = .ok (r, k') ∧ Inv L fixed k' g' temp float ∧
      k'.procs = update k.procs p { k.procs p with sz := sz } ∧
      k'.initproc = k.initproc ∧ g'.pipes = g.pipes := by
  obtain ⟨r, k', free', t', ran, after, grew, _, init, _⟩ := inv.growproc_grew used low high
  cases grew with
  | moved sz _ _ procs _ => exact ⟨r, k', _, sz, ran, after, procs, init, rfl⟩
  | refused _ _ procs _ _ =>
    exact ⟨r, k', _, (k.procs p).sz, ran, after, procs.trans (update_eq_self _ _).symm,
      init, rfl⟩

/-! ## fork -/

theorem pairPages_le (k : KState) (g : Ghost) (other : q ≠ p) :
    treePages (g.tree p) + treePages (g.tree q) ≤ procPages k g := by
  rw [procPages_eq k g p]
  refine add_le_add (Multiset.le_add_right _ _) ?_
  exact (Multiset.le_add_right _ _).trans (own_le_other k g other)

theorem Inv.uvmcopy_spec (inv : Inv L fixed k g temp float) (other : p ≠ np)
    (used : (k.procs p).state ≠ .unused) (used' : (k.procs np).state ≠ .unused)
    (size : (k.procs np).sz = 0) :
    ∃ r k' free' t', uvmcopy L (k.procs p).pagetable (k.procs np).pagetable (k.procs p).sz k =
        .ok (r, k') ∧
      Exchange k k' g.free (treePages (g.tree np)) free' (treePages t') ∧
      ((r = 0 ∧ Inv L fixed { k' with
          procs := update k'.procs np { k'.procs np with sz := (k.procs p).sz } }
          ⟨free', update g.tree np t', g.pipes⟩ temp float ∧
          ∀ u, u < pageCount (k.procs p).sz → CopyOf k.mem k'.mem (g.tree p) t' u) ∨
        (r = -1 ∧ Inv L fixed k' ⟨free', update g.tree np t', g.pipes⟩ temp float ∧
          g.free.length ≤ 3 * pageCount (k.procs p).sz)) := by
  obtain ⟨source, sourceShape⟩ := inv.live used
  obtain ⟨table, shape⟩ := inv.live used'
  rw [size] at shape
  have holds : Holds L k g.free (treePages (g.tree np) + treePages (g.tree p)) :=
    inv.holds.left.left.left.mono (pairPages_le k g other)
  obtain ⟨bound, limit⟩ := sourceShape.bounded holds.right
  have none_ : pageCount 0 = 0 := rfl
  have count : pagesBetween 0 (k.procs p).sz = pageCount (k.procs p).sz := rfl
  have vpns :
      trapframeVpn = 2 ^ 26 - 2 ∧ trapframeVpn < trampolineVpn ∧ trampolineVpn < 2 ^ 27 := by
    decide
  obtain ⟨r, k', free', t', ran, table', exchange, _, outcome⟩ :=
    uvmcopyLoop_spec (v := 0) (pageCount (k.procs p).sz) holds table source
      (fun u _ below => sourceShape.mapped u (by omega)) (fun u below => absurd below (by omega))
      (by omega) fun u _ below => shape.above u (by omega) (by omega)
  rw [Nat.zero_add] at outcome
  refine ⟨r, k', free', t', ran, exchange, ?_⟩
  rcases outcome with ⟨done, mapped, same, copied⟩ | ⟨failed, short, leaves⟩
  · refine .inl ⟨done, inv.resize _ used' exchange table' ⟨mapped, fun v low high => ?_, ?_, ?_,
      fun v low high => ?_⟩, fun u small => copied u (Nat.zero_le u) small⟩
    · rw [same v (by omega) (by omega)]
      exact shape.above v (by omega) high
    · rw [same _ (by omega) (by omega), shape.trapframe]
    · rw [same _ (by omega) (by omega), shape.trampoline]
    · rw [same v high (by omega)]
      exact shape.beyond v low high
  · refine .inr ⟨failed, inv.changeTree used' exchange table' ?_, short⟩
    rw [size]
    refine shape.congr (fun u small => ?_) (by omega)
    rw [leaves u small, if_neg (by omega)]

/-- `*(np->trapframe) = *(p->trapframe); np->trapframe->a0 = 0`. -/
def frameCopied (mem : Bytes) (dst src : Nat) : Bytes :=
  (mem.splice dst TF_SIZE fun i => mem (src + i)).splice (dst + TF_A0) 8 (Bytes.digits 0)

theorem within_frameCopied (mem : Bytes) (dst src : Nat) :
    Within dst mem (frameCopied mem dst src) := by
  have frame : Within dst mem (mem.splice dst TF_SIZE fun i => mem (src + i)) :=
    within_splice (Nat.le_refl _) (Nat.add_le_add_left (by decide) _)
  refine frame.trans (within_splice (Nat.le_add_right _ _) ?_)
  rw [Nat.add_assoc]
  exact Nat.add_le_add_left (by decide) _

/-- The child `np` has the size and the registers of process `p`. -/
def framed (k : KState) (p np : Fin NPROC) : KState :=
  { k with
    mem := frameCopied k.mem (k.procs np).trapframe (k.procs p).trapframe
    procs := update k.procs np { k.procs np with sz := (k.procs p).sz } }

/-- The record of a child of process `p`, whose record is `x`. -/
def childOf (p : Fin NPROC) (x y : Proc) : Proc :=
  { y with
    sz := x.sz, ofile := x.ofile, cwd := x.cwd, parent := some p, state := .runnable
    name := safestrcpyName y.name ((List.ofFn x.name).takeWhile (· ≠ 0)) }

/-- Process `p` has a child in slot `np`, which refers to the files and the directory of its
    parent. -/
def withChild (k : KState) (p np : Fin NPROC) : KState :=
  { k with
    mem := (framed k p np).mem
    procs := update k.procs np (childOf p (k.procs p) (k.procs np))
    files := (dupped k p np (List.finRange NOFILE)).files
    inodes := update k.inodes (k.procs p).cwd (k.inodes (k.procs p).cwd + 1) }

theorem framed_of_ne (other : q ≠ np) : (framed k p np).procs q = k.procs q :=
  update_of_ne other _ _

theorem framed_self (k : KState) (p np : Fin NPROC) :
    (framed k p np).procs np = { k.procs np with sz := (k.procs p).sz } :=
  update_self _ _ _

theorem withChild_mem (k : KState) (p np : Fin NPROC) :
    (withChild k p np).mem = frameCopied k.mem (k.procs np).trapframe (k.procs p).trapframe := rfl

theorem withChild_of_ne (other : q ≠ np) : (withChild k p np).procs q = k.procs q :=
  update_of_ne other _ _

theorem withChild_self (k : KState) (p np : Fin NPROC) :
    (withChild k p np).procs np = childOf p (k.procs p) (k.procs np) :=
  update_self _ _ _

theorem dupped_framed (other : p ≠ np) : dupped (framed k p np) p np (List.finRange NOFILE) =
      { framed k p np with
        procs := update k.procs np
          { k.procs np with sz := (k.procs p).sz, ofile := (k.procs p).ofile }
        files := (dupped k p np (List.finRange NOFILE)).files } := by
  simp only [dupped, framed, List.mem_finRange, if_true, update_of_ne other,
    update_self, update_idem]

theorem withChild_slots (other : p ≠ np) :
    (withChild k p np).slots = (dupped (framed k p np) p np (List.finRange NOFILE)).slots := by
  funext ⟨q, fd⟩
  rw [dupped_framed other, KState.slots, KState.slots]
  by_cases same : q = np
  · simp only [same, withChild_self, update_self, childOf]
  · simp only [withChild_of_ne same, update_of_ne same]

theorem Inv.forkChild (other : p ≠ np) (inv : Inv L fixed { k with
      procs := update k.procs np { k.procs np with sz := (k.procs p).sz } } g temp float)
    (used : (k.procs np).state = .used) :
    forkChild p np (k.procs p) (k.procs np) k = .ok ((k.procs np).pid.toInt, withChild k p np) ∧
      Inv L fixed (withChild k p np) g temp float := by
  have used₁ : ((framed k p np).procs np).state = .used := by rw [framed_self, used]
  have live : ((framed k p np).procs np).state ≠ .unused := by
    rw [used₁]
    decide
  have written : Within ((framed k p np).procs np).trapframe k.mem (framed k p np).mem := by
    rw [framed_self]
    exact within_frameCopied _ _ _
  have inv₁ : Inv L fixed (framed k p np) g temp float := inv.writeFrame (p := np) live written
  obtain ⟨dup, files⟩ := dupFiles_spec (p := p) (List.finRange NOFILE) inv₁.files other
    (List.nodup_finRange NOFILE) fun fd _ => (inv₁.procs np).closed (.inr (.inl used₁)) fd
  refine ⟨?_, inv₁.changeSlots (inv₁.still rfl rfl) (fun q => ?_) (fun q => ?_) ?_⟩
  · rw [Kernel.forkChild, run_bind (modifyProc_run np _ k)]
    refine (run_bind (show memmove _ _ _ _ = .ok ((), _) from rfl)).trans ?_
    refine (run_bind (show store64 _ _ _ = .ok ((), framed k p np) from rfl)).trans ?_
    rw [run_bind dup, dupped_framed other, run_bind (idup_run _ _),
      run_bind (modifyProc_run np _ _),
      run_bind (modifyProc_run np _ _), run_bind (modifyProc_run np _ _),
      run_bind (modifyProc_run np _ _)]
    simp only [update_self, update_idem]
    rfl
  · by_cases same : q = np
    · rw [same, framed_self, withChild_self, childOf]
    · rw [framed_of_ne same, withChild_of_ne same]
  · by_cases same : q = np
    · have ok := (inv₁.procs np).live live
      rw [framed_self] at ok
      rw [same, withChild_self]
      refine ⟨fun bad => ProcState.noConfusion bad, fun _ => ok, fun bad => ?_⟩
      rcases bad with bad | bad | bad <;> exact ProcState.noConfusion bad
    · rw [withChild_of_ne same, ← framed_of_ne (k := k) (p := p) same]
      exact inv₁.procs q
  · rw [withChild_slots other]
    rw [dupped_framed other] at files ⊢
    exact files

theorem frameCopied_inside (mem : Bytes) (dst src : Nat) {i : Nat} (inside : i < TF_SIZE) :
    frameCopied mem dst src (dst + i) =
      if TF_A0 ≤ i ∧ i < TF_A0 + 8 then 0 else mem (src + i) := by
  rw [frameCopied]
  by_cases result : TF_A0 ≤ i ∧ i < TF_A0 + 8
  · rw [if_pos result, show dst + i = dst + TF_A0 + (i - TF_A0) by omega,
      Bytes.splice_inside (by omega), Bytes.digits, Nat.zero_div]
    rfl
  · rw [if_neg result, Bytes.splice_outside (by omega), Bytes.splice_inside inside]

/-- What `fork` leaves when it succeeds: slot `np` has the child, and `t` is its table. -/
structure Forks (L : Layout) (fixed temp : Multiset Nat) (float : Fin NFILE → Nat) (k k' : KState)
    (g : Ghost) (p np : Fin NPROC) (x : Proc) (t : Tree) (free' : List Nat) : Prop where
  inv : Inv L fixed k' ⟨free', update g.tree np t, g.pipes⟩ temp float
  moved : Moved k k' g.free 0 free' (ownPages (k'.procs np) t)
  unused : (k.procs np).state = .unused
  procs : k'.procs = update k.procs np (childOf p (k.procs p) x)
  pid : x.pid = k.nextpid
  memory : ∀ u, u < pageCount (k.procs p).sz → CopyOf k.mem k'.mem (g.tree p) t u
  registers : ∀ i, i < TF_SIZE → k'.mem ((k'.procs np).trapframe + i) =
    if TF_A0 ≤ i ∧ i < TF_A0 + 8 then 0 else k.mem ((k.procs p).trapframe + i)
  files : k'.files = (dupped k p np (List.finRange NOFILE)).files
  inodes : k'.inodes = update k.inodes (k.procs p).cwd (k.inodes (k.procs p).cwd + 1)
  initproc : k'.initproc = k.initproc

/-- The child that `fork` makes when `allocproc` and `uvmcopy` have succeeded. -/
theorem Allocs.forks {x : Proc} {k₁ k₂ : KState} {t₁ t₂ : Tree}
    {free₁ free₂ : List Nat} (inv : Inv L fixed k g temp float) (other : p ≠ np)
    (used : (k.procs p).state ≠ .unused)
    (allocs : Allocs L fixed temp float k k₁ g np x t₁ free₁)
    (exchange : Exchange k₁ k₂ free₁ (treePages t₁) free₂ (treePages t₂))
    (copied : ∀ u, u < pageCount (k.procs p).sz → CopyOf k₁.mem k₂.mem (g.tree p) t₂ u)
    (after : Inv L fixed (withChild k₂ p np) ⟨free₂, update g.tree np t₂, g.pipes⟩ temp float) :
    Forks L fixed temp float k (withChild k₂ p np) g p np x t₂ free₂ := by
  have procs₂ : k₂.procs = update k.procs np x := exchange.procs.trans allocs.procs
  have parent : k₂.procs p = k.procs p := by rw [procs₂, update_of_ne other]
  have child : k₂.procs np = x := by rw [procs₂, update_self]
  have procs : (withChild k₂ p np).procs = update k.procs np (childOf p (k.procs p) x) := by
    rw [withChild, parent, child, procs₂, update_idem]
  have own : ownPages ((withChild k₂ p np).procs np) t₂ = ownPages x t₂ := by
    rw [withChild_self, child]
    rfl
  have files₂ : k₂.files = k.files := exchange.files.trans allocs.kept.files
  have inodes₂ : k₂.inodes = k.inodes := exchange.inodes.trans allocs.kept.inodes
  -- the pages of the parent and of the child
  have moved₂ : Moved k k₂ g.free 0 free₂ (ownPages x t₂) :=
    allocs.moved.trans (exchange.toMoved.beside (framePage x))
  have mine : ∀ m, m ∈ ownPages (k.procs p) (g.tree p) →
      SamePage k.mem k₁.mem m ∧ SamePage k.mem k₂.mem m := by
    intro m mem
    have own := inv.treeHolds p
    rw [← add_assoc, ← ownPages, ← zero_add (ownPages _ _)] at own
    exact ⟨allocs.moved.samePage own.left mem, moved₂.samePage own.left mem⟩
  have holds₂ : Holds L k₂ free₂ (ownPages x t₂) :=
    (inv.tempHolds.mono (Multiset.zero_le _)).moved moved₂
  have frame : x.trapframe ∈ framePage x := by
    have live := ((allocs.inv.procs np).live (by
      rw [allocs.procs, update_self, allocs.state]
      decide)).1
    rw [allocs.procs, update_self] at live
    rw [framePage, if_neg live]
    exact Multiset.mem_singleton_self _
  have within : Within x.trapframe k₂.mem (withChild k₂ p np).mem := by
    rw [withChild_mem, child]
    exact within_frameCopied _ _ _
  have written := Exchange.write holds₂ (Multiset.mem_add.mpr (.inr frame)) within
  have tf : ((withChild k₂ p np).procs np).trapframe = x.trapframe := by
    rw [withChild_self, child]
    rfl
  refine ⟨after, ?_, allocs.unused, procs, allocs.pid, fun u small => ?_, fun i inside => ?_, ?_,
    ?_, exchange.initproc.trans allocs.kept.initproc⟩
  · rw [own]
    exact ⟨written.chain, (moved₂.trans written.toMoved).conserved,
      (moved₂.trans written.toMoved).frame⟩
  · obtain ⟨pte, pte', from_, to_, flags, bytes⟩ := copied u small
    refine ⟨pte, pte', from_, to_, flags, fun i inside => ?_⟩
    obtain ⟨_, source⟩ := leaf_owned from_ rfl
    obtain ⟨_, target⟩ := leaf_owned to_ rfl
    have same := within.samePage (holds₂.right.held_page frame).aligned
      (holds₂.left.held_page target).aligned fun same => holds₂.disjoint frame (same ▸ target)
    rw [same i inside, bytes i inside]
    exact (mine _ (Multiset.mem_add.mpr (.inl source))).1 i inside
  · have theirs : (k.procs p).trapframe ∈ framePage (k.procs p) := by
      rw [framePage, if_neg ((inv.procs p).live used).1]
      exact Multiset.mem_singleton_self _
    rw [tf, withChild_mem, child, parent, frameCopied_inside _ _ _ inside,
      (mine _ (Multiset.mem_add.mpr (.inr theirs))).2 i (Nat.lt_trans inside (by decide))]
  · simp only [withChild, dupped, parent, files₂]
  · rw [withChild, parent, inodes₂]

theorem running_used {x : Proc} (running : x.state = .running) : x.state ≠ .unused := by
  rw [running]
  decide

/-- `fork` fails for want of a slot or of memory and leaves everything as it was, or there is a
    child. -/
theorem Inv.fork_spec (inv : Inv L fixed k g temp float) (running : (k.procs p).state = .running) :
    (∃ k' free', fork L p k = .ok (-1, k') ∧ LeavesNothing L fixed temp float k k' g free' ∧
        (g.free.length ≤ 3 * pageCount (k.procs p).sz + 6 ∨ ∀ q, (k.procs q).state ≠ .unused)) ∨
      ∃ np x t k' free', fork L p k = .ok (k.nextpid.toInt, k') ∧
        Forks L fixed temp float k k' g p np x t free' := by
  rw [fork]
  rcases inv.allocproc_spec with
    ⟨k₁, free₁, failed, fails, why⟩ | ⟨np, x, t₁, k₁, free₁, found, allocs⟩
  · exact .inl ⟨k₁, free₁, run_bind failed, fails, why.imp_left fun few => by omega⟩
  have other : p ≠ np := by
    rintro rfl
    exact ProcState.noConfusion (allocs.unused.symm.trans running)
  have here : k₁.procs np = x := by rw [allocs.procs, update_self]
  have parent : k₁.procs p = k.procs p := by rw [allocs.procs, update_of_ne other]
  have used := running_used running
  have used₁ : (k₁.procs np).state = .used := here ▸ allocs.state
  have live : (k₁.procs np).state ≠ .unused := by
    rw [used₁]
    decide
  obtain ⟨r, k₂, free₂, t₂, ran, exchange, outcome⟩ :=
    allocs.inv.uvmcopy_spec other (parent ▸ used) live (here ▸ allocs.size)
  simp only [update_self, update_of_ne other, update_idem] at exchange outcome
  rw [run_bind found]
  simp only
  rw [run_bind (getProc_run p k₁), run_bind (getProc_run np k₁), run_bind ran]
  rcases outcome with ⟨rfl, inv₂, copied⟩ | ⟨rfl, inv₂, short⟩
  · rw [if_neg (by decide), ← exchange.procs]
    rw [← exchange.procs] at inv₂ used₁
    obtain ⟨done, after⟩ := inv₂.forkChild other used₁
    rw [exchange.procs, here, allocs.pid] at done
    rw [exchange.procs, here]
    rw [parent] at copied
    exact .inr ⟨np, x, t₂, _, free₂, done, Allocs.forks inv other used allocs exchange copied after⟩
  · rw [if_pos (by decide)]
    have closed := (allocs.inv.procs np).closed (.inr (.inl used₁))
    obtain ⟨k', free', done, after, moved, procs, kept⟩ := inv₂.freeproc_spec (p := np)
      (exchange.procs ▸ live) (exchange.procs ▸ closed)
    have tree := ((inv.procs np).unused allocs.unused).2.2.2
    simp only [update_self, update_idem] at after moved
    rw [← tree, update_eq_self] at after
    rw [exchange.procs, here] at moved procs
    rw [allocs.procs, update_idem] at procs
    rw [parent] at short
    have cost := allocs.cost
    exact .inl ⟨k', free', run_bind done, ⟨after,
      (allocs.moved.trans (exchange.toMoved.beside (framePage x))).trans moved,
      sparesLive_freed allocs.unused procs,
      (allocs.kept.trans exchange.keepsFiles).trans kept⟩, .inl (by omega)⟩

theorem Inv.fork_returns (inv : Inv L fixed k g 0 fun _ => 0)
    (running : (k.procs p).state = .running) : Returns L fixed k g (fork L p) := by
  rcases inv.fork_spec running with ⟨k', free', ran, fails, -⟩ | ⟨np, x, t, k', free', ran, forks⟩
  · exact ⟨-1, k', _, ran, fails.inv, fails.kept.initproc, .of_eq rfl⟩
  · exact ⟨_, k', _, ran, forks.inv, forks.initproc, .of_eq rfl⟩

end Calls

end Xv6.Kernel
