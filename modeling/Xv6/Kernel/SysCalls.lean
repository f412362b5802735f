import Xv6.Kernel.ProcCalls

/-! # The other system calls

`sbrk`, `ps`, `exit`, `wait`, `kill` and the stores of user code keep the account of
pages.
-/

namespace Xv6.Kernel

open Lib Function

section Calls

variable {L : Layout} {fixed temp : Multiset Nat} {k k' : KState} {g : Ghost}
  {float : Fin NFILE → Nat} {p : Fin NPROC}

theorem Inv.sbrk_returns (inv : Inv L fixed k g 0 fun _ => 0)
    (running : (k.procs p).state = .running) (n : BitVec 32) :
    Returns L fixed k g (growproc L p n.toInt) := by
  obtain ⟨r, k', g', sz, ran, after, _, init, pipes⟩ :=
    inv.growproc_spec (running_used running) (BitVec.le_toInt n) BitVec.toInt_lt
  exact ⟨r, k', g', ran, after, init, .of_eq pipes⟩

theorem psSize_range (count : UInt8) : -2 ^ 31 ≤ (count.toNat * USER_PROC_SIZE : Int) ∧
    (count.toNat * USER_PROC_SIZE : Int) < 2 ^ 31 := by
  have := count.toNat_lt
  unfold USER_PROC_SIZE
  omega

theorem Inv.ps_returns (inv : Inv L fixed k g 0 fun _ => 0)
    (running : (k.procs p).state = .running) (start count : UInt8) (stack : Bytes) :
    ps L p start count stack k = .error overrun ∨
      Returns L fixed k g (ps L p start count stack) := by
  simp only [Returns, ps]
  rw [run_bind (getProc_run p k)]
  by_cases none_ : count = 0
  · simp only [if_pos none_]
    exact .inr ⟨0, k, g, rfl, inv, rfl, .of_eq rfl⟩
  simp only [if_neg none_]
  obtain ⟨r, k₁, g₁, sz, ran, inv₁, procs, init, pipes⟩ :=
    inv.growproc_spec (running_used running) (psSize_range count).1 (psSize_range count).2
  rw [run_bind ran, ← init]
  by_cases failed : r < 0
  · simp only [if_pos failed]
    exact .inr ⟨0, k₁, g₁, rfl, inv₁, rfl, .of_eq pipes⟩
  simp only [if_neg failed]
  by_cases outside : start.toNat * PROC_ARRAY_SIZE ≥ NPROC
  · simp only [if_pos outside]
    exact .inr ⟨0, k₁, g₁, rfl, inv₁, rfl, .of_eq pipes⟩
  simp only [if_neg outside]
  by_cases large : L.stack < count.toNat * USER_PROC_SIZE
  · simp only [if_pos large]
    exact .inl rfl
  simp only [if_neg large]
  refine .inr ?_
  rw [run_get_bind]
  have used : (k₁.procs p).state ≠ .unused := by
    rw [procs, update_self]
    exact running_used running
  generalize (if (psLoop k₁ _ _ _ _).1 < count.toNat then _ else _ : Bytes) = buf
  obtain ⟨out, k₂, written, inv₂, _, _, init₂, _⟩ :=
    inv₁.copyout_spec used (k.procs p).sz buf (count.toNat * USER_PROC_SIZE)
  exact ⟨(k.procs p).sz, k₂, g₁, run_bind written, inv₂, init₂, .of_eq pipes⟩

/-! ## exit, wait, kill -/

theorem Inv.exit_returns (inv : Inv L fixed k g 0 fun _ => 0)
    (running : (k.procs p).state = .running) (status : Int) (mortal : k.initproc ≠ some p) :
    Returns L fixed k g (exit L p status) := by
  obtain ⟨k₁, g₁, closed, inv₁, running₁, none_, init, trades⟩ :=
    inv.closeFiles_spec (List.finRange NOFILE) running
  rw [Returns, exit, run_get_bind]
  simp only [if_neg mortal]
  rw [run_bind closed, run_bind (getProc_run p k₁), run_bind (iput_run _ k₁), reparent,
    run_modify_bind, modifyProc_run]
  refine ⟨(), _, g₁, rfl, inv₁.relabel rfl rfl rfl (fun q => ?_), init, trades.drops⟩
  by_cases same : q = p
  · simp only [same, update_self]
    split <;> exact ⟨rfl, rfl, rfl, rfl, by simp [running₁],
      fun _ fd => none_ fd (.inl (List.mem_finRange fd))⟩
  · simp only [update_of_ne same]
    split <;> exact ⟨rfl, rfl, rfl, rfl, Iff.rfl, (inv₁.procs q).closed⟩

theorem exit_init (init : k.initproc = some p) (status : Int) :
    exit L p status k = .error "init exiting" := by
  rw [exit, run_get_bind]
  simp only [if_pos init]
  rfl

theorem waitScan_zombie {q : Fin NPROC} {havekids : Bool}
    (found : waitScan k p = (some q, havekids)) : (k.procs q).state = .zombie := by
  have first := List.find?_some (congrArg Prod.fst found)
  exact (of_decide_eq_true first).2

theorem Inv.waitEnd {q : Fin NPROC} (inv : Inv L fixed k g 0 fun _ => 0)
    (zombie : (k.procs q).state = .zombie) (out : Int) (pid : Int) :
    Returns L fixed k g (do
      if out < 0 then
        return some (-1)
      freeproc L q
      return some pid : KM (Option Int)) := by
  by_cases failed : out < 0
  · simp only [if_pos failed]
    exact ⟨_, k, g, rfl, inv, rfl, .of_eq rfl⟩
  · simp only [if_neg failed]
    obtain ⟨k', free', ran, after, _, _, kept⟩ := inv.freeproc_spec (p := q)
      (by rw [zombie]; decide) ((inv.procs q).closed (.inr (.inr zombie)))
    exact ⟨_, k', _, run_bind ran, after, kept.initproc, .of_eq rfl⟩

theorem Inv.wait_returns (inv : Inv L fixed k g 0 fun _ => 0)
    (running : (k.procs p).state = .running) (addr : Nat) :
    Returns L fixed k g (wait L p addr) := by
  rw [Returns, wait, run_get_bind]
  rcases scan : waitScan k p with ⟨_ | q, havekids⟩
  · simp only
    rw [run_bind (getProc_run p k)]
    split
    · exact ⟨_, k, g, rfl, inv, rfl, .of_eq rfl⟩
    · exact ⟨_, k, g, rfl, inv, rfl, .of_eq rfl⟩
  · have zombie := waitScan_zombie scan
    simp only
    rw [run_bind (getProc_run q k)]
    by_cases wanted : addr ≠ 0
    · rw [if_pos wanted, run_bind (getProc_run p k)]
      obtain ⟨out, k₁, ran₁, inv₁, procs, _, init, _⟩ := inv.copyout_spec (running_used running)
        addr (Bytes.digits ((k.procs q).xstate % 2 ^ 32).toNat) 4
      rw [run_bind ran₁, ← init]
      exact inv₁.waitEnd (procs ▸ zombie) _ _
    · rw [if_neg wanted, run_pure_bind]
      exact inv.waitEnd zombie _ _

theorem Inv.kill_returns (inv : Inv L fixed k g 0 fun _ => 0) (pid : BitVec 32) :
    Returns L fixed k g (kill pid) := by
  rw [Returns, kill, run_get_bind]
  cases (List.finRange NPROC).find? fun p => (k.procs p).pid = pid with
  | none => exact ⟨-1, k, g, rfl, inv, rfl, .of_eq rfl⟩
  | some p =>
    simp only
    rw [run_bind (modifyProc_run p _ k)]
    refine ⟨0, _, g, rfl, inv.relabel rfl rfl rfl (fun q => ?_), rfl, .of_eq rfl⟩
    have closed := (inv.procs q).closed
    by_cases same : q = p
    · simp only [← same, update_self]
      by_cases asleep : (k.procs q).state = .sleeping
      · refine ⟨rfl, rfl, rfl, rfl, ?_, ?_⟩ <;> simp [asleep]
      · refine ⟨rfl, rfl, rfl, rfl, ?_, ?_⟩ <;> simp only [if_neg asleep]
        exact closed
    · simp only [update_of_ne same]
      exact (inv.procs q).refl_same

theorem ProcState.live_ne {s : ProcState} (live : s.live) :
    ¬(s = .unused ∨ s = .used ∨ s = .zombie) := by
  rintro (rfl | rfl | rfl) <;> exact Bool.noConfusion live

theorem Inv.schedule_returns {state : ProcState} (inv : Inv L fixed k g 0 fun _ => 0)
    (from_ : (k.procs p).state.live) (to_ : state.live) :
    Returns L fixed k g (modifyProc p fun x => { x with state := state }) := by
  rw [Returns, modifyProc_run]
  refine ⟨(), _, g, rfl, inv.relabel rfl rfl rfl (fun q => ?_), rfl, .of_eq rfl⟩
  by_cases same : q = p
  · simp only [same, update_self]
    exact ⟨rfl, rfl, rfl, rfl, iff_of_false (fun unused => ProcState.live_ne to_ (.inl unused))
      (fun unused => ProcState.live_ne from_ (.inl unused)),
        fun stopped => absurd stopped (ProcState.live_ne to_)⟩
  · simp only [update_of_ne same]
    exact (inv.procs q).refl_same

/-! ## Stores of user code -/

theorem Inv.userStore_returns (inv : Inv L fixed k g 0 fun _ => 0)
    (running : (k.procs p).state = .running) (va : Nat) (byte : UInt8) :
    Returns L fixed k g (userStore p va byte) := by
  have used := running_used running
  have ok := (inv.treeHolds p).left
  obtain ⟨table, _⟩ := inv.live used
  simp only [Returns, userStore]
  rw [run_bind (getProc_run p k), run_bind (walkaddr_eq ok table _)]
  by_cases zero : reach (g.tree p) (pgRoundDown va) = 0
  · simp only [if_pos zero]
    exact ⟨false, k, g, rfl, inv, rfl, .of_eq rfl⟩
  simp only [if_neg zero]
  rw [run_bind (walk_eq ok table (reach_low zero)),
    run_bind (show load64 _ k = .ok (_, k) from rfl)]
  split
  · exact ⟨false, k, g, rfl, inv, rfl, .of_eq rfl⟩
  · have offset : va - pgRoundDown va + 1 ≤ PGSIZE := by
      unfold pgRoundDown PGSIZE
      omega
    obtain ⟨k', ran, table', exchange⟩ := reachWrite_spec
      (a := reach (g.tree p) (pgRoundDown va) + (va - pgRoundDown va)) (n := 1) (fun _ => byte) ok
      table zero (Nat.le_add_right _ _) (by omega)
    exact ⟨true, k', g, run_bind ran, inv.writeUser used exchange table', exchange.initproc,
      .of_eq rfl⟩

/-! ## exec -/

theorem Inv.fetchaddr_run (inv : Inv L fixed k g temp float) (used : (k.procs p).state ≠ .unused)
    (addr : Nat) : ∃ r, fetchaddr p addr k = .ok (r, k) := by
  rw [fetchaddr, run_bind (getProc_run p k)]
  split
  · exact ⟨none, rfl⟩
  · obtain ⟨⟨bytes, ok⟩, ran⟩ := copyin_spec addr 8 (inv.treeHolds p).left (inv.live used).1
    rw [run_bind ran]
    cases ok with
    | false => exact ⟨none, rfl⟩
    | true => exact ⟨_, rfl⟩

theorem Inv.fetchArgs_spec (uargv n : Nat) (argv : List Nat) (inv : Inv L fixed k g argv float)
    (used : (k.procs p).state ≠ .unused) :
    ∃ done argv' k' free', fetchArgs p uargv n argv k = .ok ((done, argv'), k') ∧
      Inv L fixed k' { g with free := free' } argv' float ∧
      Exchange k k' g.free argv free' argv' := by
  induction n generalizing k g argv with
  | zero => exact ⟨false, argv, k, g.free, rfl, inv, .refl inv.chain⟩
  | succ n ih =>
    obtain ⟨r, fetched⟩ := inv.fetchaddr_run used (u64 (uargv + 8 * argv.length))
    rw [fetchArgs, run_bind fetched]
    cases r with
    | none => exact ⟨false, argv, k, g.free, rfl, inv, .refl inv.chain⟩
    | some uarg =>
      simp only
      by_cases last : uarg = 0
      · rw [if_pos last]
        exact ⟨true, argv, k, g.free, rfl, inv, .refl inv.chain⟩
      rw [if_neg last]
      rcases kalloc_spec (inv.tempHolds.mono (Multiset.zero_le _)) with
        ⟨_, out⟩ | ⟨m, rest, k₁, free_, got, taken⟩
      · rw [run_bind out, if_pos rfl]
        exact ⟨false, argv, k, g.free, rfl, inv, .refl inv.chain⟩
      have page : IsPage L m := inv.tempHolds.free_page (free_ ▸ List.mem_cons_self)
      have more : (argv : Multiset Nat) + {m} = ((argv ++ [m] : List Nat) : Multiset Nat) := by
        rw [← Multiset.coe_singleton, Multiset.coe_add]
      have moved₁ := (taken.beside argv).congr (zero_add _) ((add_comm _ _).trans more)
      have inv₁ := inv.changeTemp moved₁.toMoved taken.procs taken.files
      have used₁ : (k₁.procs p).state ≠ .unused := by
        rw [taken.procs]
        exact used
      obtain ⟨⟨bytes, whole⟩, copied_, short⟩ :=
        copyinstr_spec uarg PGSIZE (inv₁.treeHolds p).left (inv₁.live used₁).1
      have mine : m ∈ ((argv ++ [m] : List Nat) : Multiset Nat) := by simp
      have fits : Within m k₁.mem (k₁.mem.splice m bytes.length (ofList bytes)) :=
        within_splice (Nat.le_refl m) (Nat.add_le_add_left short m)
      have moved₂ := Exchange.write inv₁.tempHolds mine fits
      have inv₂ := inv₁.changeTemp moved₂.toMoved rfl rfl
      rw [run_bind got, if_neg page.ne_zero, run_bind (getProc_run p k₁), run_bind copied_]
      simp only
      rw [run_bind (show writeBytes m bytes.length (ofList bytes) k₁ = .ok ((), _) from rfl)]
      cases whole with
      | false => exact ⟨false, argv ++ [m], _, _, rfl, inv₂, moved₁.trans moved₂⟩
      | true =>
        obtain ⟨done, argv', k', free', ran, after, moved⟩ := ih (argv ++ [m]) inv₂ used₁
        exact ⟨done, argv', k', free', ran, after, (moved₁.trans moved₂).trans moved⟩

theorem Inv.freeArgs_spec (argv : List Nat) (inv : Inv L fixed k g argv float) :
    ∃ k' free', freeArgs L argv k = .ok ((), k') ∧
      Inv L fixed k' { g with free := free' } 0 float ∧ Exchange k k' g.free argv free' 0 := by
  induction argv generalizing k g with
  | nil => exact ⟨k, g.free, rfl, inv, .refl inv.chain⟩
  | cons m rest ih =>
    have split : ((m :: rest : List Nat) : Multiset Nat) = {m} + (rest : Multiset Nat) := by
      rw [Multiset.singleton_add, Multiset.cons_coe]
    rw [split] at inv
    obtain ⟨k₁, freed_, released⟩ := kfree_spec inv.tempHolds.left
    have moved₁ := (released.beside rest).congr rfl (zero_add _)
    have inv₁ := inv.changeTemp moved₁.toMoved released.procs released.files
    obtain ⟨k', free', ran, after, moved⟩ := ih inv₁
    rw [split]
    refine ⟨k', free', ?_, after, moved₁.trans moved⟩
    rw [freeArgs, run_bind freed_]
    exact ran

/-- The memory after the commit of `exec`, and the record of the process. -/
def frameMem (mem : Bytes) (tf sp entry : Nat) : Bytes :=
  ((mem.splice (tf + TF_A1) 8 (Bytes.digits sp)).splice (tf + TF_EPC) 8
    (Bytes.digits entry)).splice (tf + TF_SP) 8 (Bytes.digits sp)

def newImage (x : Proc) (path : List UInt8) (root sz : Nat) : Proc :=
  { x with name := safestrcpyName x.name (lastElement path), pagetable := root, sz := sz }

theorem within_frameMem (mem : Bytes) (tf sp entry : Nat) :
    Within tf mem (frameMem mem tf sp entry) := by
  have part : ∀ (mem : Bytes) (i v : Nat), i + 8 ≤ PGSIZE →
      Within tf mem (mem.splice (tf + i) 8 (Bytes.digits v)) := fun mem i v low =>
    within_splice (Nat.le_add_right tf i) (by omega)
  exact ((part _ _ _ (by decide)).trans (part _ _ _ (by decide))).trans (part _ _ _ (by decide))

theorem commitImage_run (path : List UInt8) (root sz sp entry : Nat) :
    commitImage L p path root sz sp entry k =
      procFreepagetable L (k.procs p).pagetable (k.procs p).sz
        { k with
          mem := frameMem k.mem (k.procs p).trapframe sp entry
          procs := update k.procs p (newImage (k.procs p) path root sz) } := by
  rw [commitImage, run_bind (getProc_run p k),
    run_bind (show store64 ((k.procs p).trapframe + TF_A1) sp k = .ok ((), _) from rfl),
    run_bind (modifyProc_run p _ _), run_bind (modifyProc_run p _ _)]
  simp only [update_self, update_idem]
  rfl

theorem Inv.commitImage_spec {k₁ : KState} {free₁ : List Nat} {root sz : Nat} {t : Tree}
    (inv : Inv L fixed k g temp float) (used : (k.procs p).state ≠ .unused)
    (exchange : Exchange k k₁ g.free 0 free₁ (treePages t)) (table : Table k₁.mem root t)
    (shape : Shape L t (pageCount sz) (k.procs p).trapframe) (path : List UInt8) (sp entry : Nat) :
    ∃ k' g', commitImage L p path root sz sp entry k₁ = .ok ((), k') ∧
      Inv L fixed k' g' temp float ∧ k'.initproc = k.initproc ∧ g'.pipes = g.pipes ∧
      ∀ m ∈ treePages (g.tree p), m ∈ g'.free := by
  obtain ⟨hasFrame, old, oldShape⟩ := (inv.procs p).live used
  have mine : (k.procs p).trapframe ∈ framePage (k.procs p) := by
    rw [framePage, if_neg hasFrame]
    exact Multiset.mem_singleton_self _
  have holds := inv.treeHolds p
  rw [← add_assoc] at holds
  rw [commitImage_run, exchange.procs]
  -- the new table, the old one and the trapframe
  have built : Exchange k k₁ g.free (treePages (g.tree p) + framePage (k.procs p)) free₁
      (treePages t + (treePages (g.tree p) + framePage (k.procs p))) :=
    (exchange.beside _).congr (zero_add _) rfl
  have ok₁ := holds.left.exchange built
  have old₁ := old.exchange exchange (by rw [zero_add]; exact holds.left.left)
  have within := within_frameMem k₁.mem (k.procs p).trapframe sp entry
  have written : Moved k₁ { k₁ with
      mem := frameMem k₁.mem (k.procs p).trapframe sp entry
      procs := update k.procs p (newImage (k.procs p) path root sz) } free₁
      (framePage (k.procs p)) free₁ (framePage (k.procs p)) :=
    (Exchange.write ok₁.right.right mine within).toMoved.setProcs _
  generalize committed : ({ k₁ with
      mem := frameMem k₁.mem (k.procs p).trapframe sp entry
      procs := update k.procs p (newImage (k.procs p) path root sz) } : KState) = k₂ at *
  have procs₂ : k₂.procs = update k.procs p (newImage (k.procs p) path root sz) := by
    rw [← committed]
  have files₂ : k₂.files = k₁.files := by rw [← committed]
  have init₂ : k₂.initproc = k₁.initproc := by rw [← committed]
  have order : treePages t + (treePages (g.tree p) + framePage (k.procs p)) =
      framePage (k.procs p) + (treePages (g.tree p) + treePages t) := by abel
  rw [order] at ok₁
  have table₂ := table.moved written
    (ok₁.mono (Multiset.add_le_add_iff_left.mpr (Multiset.le_add_left _ _)))
  have old₂ := old₁.moved written
    (ok₁.mono (Multiset.add_le_add_iff_left.mpr (Multiset.le_add_right _ _)))
  have written₂ := written.beside (treePages (g.tree p) + treePages t)
  have ok₂ := (ok₁.moved written₂).right
  obtain ⟨k', free', ran, gone⟩ := procFreepagetable_spec ok₂.left old₂ oldShape
  have table' := table₂.exchange gone ok₂
  have frame' : framePage (newImage (k.procs p) path root sz) = framePage (k.procs p) := rfl
  have whole : Moved k k' g.free (ownPages (k.procs p) (g.tree p) + temp) free'
      (ownPages (newImage (k.procs p) path root sz) t + temp) := by
    rw [ownPages, ownPages, frame']
    refine Moved.beside (built.toMoved.trans ?_) temp
    rw [order]
    refine written₂.trans ((gone.toMoved.beside (treePages t + framePage (k.procs p))).congr ?_ ?_)
    · abel
    · rw [zero_add]
  have old_ : ∀ m ∈ treePages (g.tree p), m ∈ free' := fun m mem => by
    have both : m ∈ (free' : Multiset Nat) + 0 := by
      rw [gone.conserved]
      exact Multiset.mem_add.mpr (.inr mem)
    simpa using both
  exact ⟨k', _, ran, inv.changeProc whole (gone.procs.trans procs₂)
    (gone.files.trans (files₂.trans exchange.files)) rfl
    ⟨fun unused => absurd unused used, fun _ => ⟨hasFrame, table', shape⟩, (inv.procs p).closed⟩,
    gone.initproc.trans (init₂.trans exchange.initproc), rfl, old_⟩

/-- What an attempt to `exec` leads to: nothing has changed, or the old image is free. -/
def Attempt (p : Fin NPROC) (k k' : KState) (g g' : Ghost) (temp temp' : Multiset Nat) (r : Int) :
    Prop :=
  (r = -1 ∧ Exchange k k' g.free temp g'.free temp') ∨
    (0 ≤ r ∧ ∀ m ∈ treePages (g.tree p), m ∈ g'.free)

theorem Inv.exec_spec (inv : Inv L fixed k g temp float) (used : (k.procs p).state ≠ .unused)
    (path : List UInt8) (found : Option Executable) (argv : List Nat) :
    ∃ r k' g', exec L p path found argv k = .ok (r, k') ∧ Inv L fixed k' g' temp float ∧
      k'.initproc = k.initproc ∧ g'.pipes = g.pipes ∧ Attempt p k k' g g' temp temp r := by
  have page : IsPage L (k.procs p).trapframe := by
    refine (inv.treeHolds p).right.left.held_page ?_
    rw [framePage, if_neg ((inv.procs p).live used).1]
    exact Multiset.mem_singleton_self _
  rcases Kernel.exec_spec p path found argv (inv.tempHolds.mono (Multiset.zero_le _)) rfl
      page.small with
    ⟨k', free', ran, exchange⟩ |
      ⟨k₁, free₁, root, t, sz, sp, entry, argc, ran, _, table, exchange, shape⟩
  · have moved := (exchange.beside temp).congr (zero_add _) (zero_add _)
    exact ⟨-1, k', _, ran, inv.changeTemp moved.toMoved exchange.procs exchange.files,
      exchange.initproc, rfl, .inl ⟨rfl, moved⟩⟩
  · obtain ⟨k', g', committed, after, init, pipes, old⟩ :=
      inv.commitImage_spec used exchange table shape path sp entry
    exact ⟨argc, k', g', ran.trans (run_bind committed), after, init, pipes,
      .inr ⟨Int.natCast_nonneg argc, old⟩⟩

theorem Inv.sysExec_spec (inv : Inv L fixed k g 0 fun _ => 0)
    (running : (k.procs p).state = .running) (upath uargv : Nat)
    (namei : List UInt8 → Option Executable) :
    ∃ r k' g', sysExec L p upath uargv namei k = .ok (r, k') ∧ Inv L fixed k' g' 0 (fun _ => 0) ∧
      k'.initproc = k.initproc ∧ g'.pipes = g.pipes ∧ Attempt p k k' g g' 0 0 r := by
  have used := running_used running
  obtain ⟨⟨path, whole⟩, copied_, _⟩ :=
    copyinstr_spec upath MAXPATH (inv.treeHolds p).left (inv.live used).1
  simp only [sysExec]
  rw [run_bind (getProc_run p k), run_bind copied_]
  cases whole with
  | false => exact ⟨-1, k, g, rfl, inv, rfl, rfl, .inl ⟨rfl, .refl inv.chain⟩⟩
  | true =>
    obtain ⟨done, argv, k₁, free₁, fetched, inv₁, moved₁⟩ :=
      inv.fetchArgs_spec uargv MAXARG [] used
    simp only [Bool.not_true, Bool.false_eq_true, if_false]
    rw [run_bind fetched]
    cases done with
    | false =>
      obtain ⟨k', free', ran, after, moved⟩ := inv₁.freeArgs_spec argv
      exact ⟨-1, k', _, run_bind ran, after, moved.initproc.trans moved₁.initproc, rfl,
        .inl ⟨rfl, moved₁.trans moved⟩⟩
    | true =>
      obtain ⟨r, k₂, g₂, ran₂, inv₂, init₂, pipes₂, attempt⟩ :=
        inv₁.exec_spec (moved₁.procs ▸ used) (path.takeWhile (· ≠ 0))
          (namei (path.takeWhile (· ≠ 0))) argv
      obtain ⟨k', free', ran, after, moved⟩ := inv₂.freeArgs_spec argv
      refine ⟨r, k', _, ?_, after, moved.initproc.trans (init₂.trans moved₁.initproc), pipes₂, ?_⟩
      · simp only [Bool.not_true, Bool.false_eq_true, if_false]
        rw [run_bind ran₂, run_bind ran]
        rfl
      · rcases attempt with ⟨failed, moved₂⟩ | ⟨done, old⟩
        · exact .inl ⟨failed, (moved₁.trans moved₂).trans moved⟩
        · refine .inr ⟨done, fun m mem => ?_⟩
          have both : m ∈ (free' : Multiset Nat) + 0 := by
            rw [moved.conserved]
            exact Multiset.mem_add.mpr (.inl (old m mem))
          simpa using both

theorem Inv.sysExec_returns (inv : Inv L fixed k g 0 fun _ => 0)
    (running : (k.procs p).state = .running) (upath uargv : Nat)
    (namei : List UInt8 → Option Executable) :
    Returns L fixed k g (sysExec L p upath uargv namei) := by
  obtain ⟨r, k', g', ran, after, init, pipes, _⟩ := inv.sysExec_spec running upath uargv namei
  exact ⟨r, k', g', ran, after, init, .of_eq pipes⟩

/-! ## userinit -/

/-- With four free pages `uvmfirst` finds room for the first page of a process. -/
theorem uvmfirst_spec {free : List Nat} {root tf sz : Nat} {t : Tree} (src : Bytes)
    (ok : Holds L k free (treePages t)) (table : Table k.mem root t) (shape : Shape L t 0 tf)
    (short : sz < PGSIZE) (room : 4 ≤ free.length) :
    ∃ k' free' t', uvmfirst root src sz k = .ok ((), k') ∧ Table k'.mem root t' ∧
      Exchange k k' free (treePages t) free' (treePages t') ∧ Shape L t' 1 tf ∧
      free.length ≤ free'.length + 3 ∧ ∃ pte, leafAt t' 0 = some ⟨pte, true⟩ ∧
      pte &&& PTE_U ≠ 0 := by
  have flags :
      PTE_W ||| PTE_R ||| PTE_X ||| PTE_U = PTE_R ||| PTE_U ||| (PTE_X ||| PTE_W) := by decide
  have perm : AllocPerm (PTE_X ||| PTE_W) := by
    unfold AllocPerm
    decide
  rw [uvmfirst, flags]
  generalize PTE_X ||| PTE_W = xperm at perm
  simp only [if_neg (Nat.not_le.mpr short)]
  rcases kalloc_spec (ok.mono (Multiset.zero_le _)) with ⟨rfl, _⟩ | ⟨m, rest, k₁, rfl, got, taken⟩
  · exact absurd room (by decide)
  have page := ok.free_page (m := m) List.mem_cons_self
  rw [List.length_cons] at room
  rw [run_bind got, run_bind (show memset m 0 PGSIZE k₁ = .ok ((), _) from rfl)]
  rcases mapFresh_spec (v := 0) ok table taken
      (within_page k₁.mem (fun _ => 0) m) (by decide)
      (shape.above 0 (Nat.le_refl 0) (by decide)) perm.low perm.readable with
    ⟨_, _, _, _, _, _, _, _, _, _, few⟩ | ⟨k₂, free₂, t₂, stored, table₂, whole, _, _, cost, leaves⟩
  · omega
  rw [Nat.mul_zero] at stored
  have here := leaves 0 (by decide)
  rw [if_pos rfl] at here
  have pa : pte2pa (pa2pte m ||| (PTE_R ||| PTE_U ||| xperm) ||| PTE_V) = m :=
    pte2pa_mapped page.aligned perm.low page.small
  have fits : Within (pte2pa (pa2pte m ||| (PTE_R ||| PTE_U ||| xperm) ||| PTE_V)) k₂.mem
      (k₂.mem.splice m sz src) := by
    rw [pa]
    exact within_splice (Nat.le_refl m) (by omega)
  obtain ⟨table', written⟩ := leafWrite_spec (ok.exchange whole) table₂ here rfl fits
  have first : Grown t t₂ 0 1 := by
    refine ⟨fun u small outside => ?_, fun u _ below => ?_⟩
    · rw [leaves u small, if_neg (by omega)]
    · obtain rfl : u = 0 := by omega
      exact ⟨_, here, perm.user m⟩
  refine ⟨{ k₂ with mem := k₂.mem.splice m sz src }, free₂, t₂, ?_, table', whole.trans written,
    shape.grown first (by decide), by rw [List.length_cons]; omega,
    first.2 0 (Nat.le_refl 0) (by decide)⟩
  rw [run_bind stored]
  rfl

theorem Inv.launchInit (inv : Inv L fixed k g temp float) (used : (k.procs p).state ≠ .unused)
    (closed : ∀ fd, (k.procs p).ofile fd = none) :
    ∃ k', (do
      store64 ((← getProc p).trapframe + TF_EPC) 0
      store64 ((← getProc p).trapframe + TF_SP) PGSIZE
      modifyProc p fun x => { x with name := safestrcpyName x.name "initcode".toUTF8.data.toList }
      idup firstInode
      modifyProc p fun x => { x with cwd := firstInode, state := .runnable } : KM Unit) k =
        .ok ((), k') ∧ Inv L fixed k' g temp float ∧
      k'.initproc = k.initproc ∧ (k'.procs p).state = .runnable ∧
      (k'.procs p).sz = (k.procs p).sz ∧ ∀ q, q ≠ p → k'.procs q = k.procs q := by
  have inside : ∀ (mem : Bytes) (i v : Nat), i + 8 ≤ PGSIZE → Within (k.procs p).trapframe mem
      (mem.splice ((k.procs p).trapframe + i) 8 (Bytes.digits v)) := fun mem i v low =>
    within_splice (Nat.le_add_right _ i) (by omega)
  have inv₁ := inv.writeFrame used (inside k.mem TF_EPC 0 (by decide))
  have inv₂ := inv₁.writeFrame (p := p) used (inside _ TF_SP PGSIZE (by decide))
  rw [run_bind (getProc_run p k),
    run_bind (show store64 ((k.procs p).trapframe + TF_EPC) 0 k = .ok ((), _) from rfl),
    run_bind (getProc_run p _),
    run_bind (show store64 ((k.procs p).trapframe + TF_SP) PGSIZE _ = .ok ((), _) from rfl),
    run_bind (modifyProc_run p _ _), run_bind (idup_run _ _), modifyProc_run]
  refine ⟨_, rfl, inv₂.relabel rfl rfl rfl fun q => ?_, rfl, by simp only [update_self],
    by simp only [update_self], fun q other => by simp only [update_of_ne other]⟩
  by_cases same : q = p
  · simp only [same, update_self]
    exact ⟨rfl, rfl, rfl, rfl, iff_of_false ProcState.noConfusion used, fun _ => closed⟩
  · simp only [update_of_ne same]
    exact (inv.procs q).refl_same

/-- The process that `userinit` makes: one page for user code, at 0. -/
structure IsFirst (k : KState) (p : Fin NPROC) (t : Tree) : Prop where
  initproc : k.initproc = some p
  slot : p.val = 0
  state : (k.procs p).state = .runnable
  size : (k.procs p).sz = PGSIZE
  page : ∃ pte, leafAt t 0 = some ⟨pte, true⟩ ∧ pte &&& PTE_U ≠ 0
  alone : ∀ q, q ≠ p → (k.procs q).state = .unused

/-- The first process is made of the pages that are free at boot. -/
theorem Inv.userinit_spec (inv : Inv L fixed k g 0 fun _ => 0)
    (unused : ∀ q, (k.procs q).state = .unused) (room : 10 ≤ g.free.length) :
    ∃ k' g' p, userinit L k = .ok ((), k') ∧ Inv L fixed k' g' 0 (fun _ => 0) ∧
      g'.pipes = g.pipes ∧ g.free.length ≤ g'.free.length + 9 ∧ IsFirst k' p (g'.tree p) := by
  rw [userinit]
  rcases inv.allocproc_spec with ⟨_, _, _, _, few | full⟩ |
    ⟨p, x, t, k₁, free₁, found, inv₁, _, _, first, procs, used, _, size, _, cost⟩
  · omega
  · exact absurd (unused ⟨0, by decide⟩) (full _)
  have here : k₁.procs p = x := by rw [procs, update_self]
  have closed := (inv₁.procs p).closed (.inr (.inl (here ▸ used)))
  have live : (k₁.procs p).state ≠ .unused := by
    rw [here, used]
    decide
  rw [run_bind found]
  simp only
  rw [run_modify_bind, run_bind (getProc_run p _)]
  generalize start : ({ k₁ with initproc := some p } : KState) = k₂
  have inv₂ : Inv L fixed k₂ ⟨free₁, update g.tree p t, g.pipes⟩ 0 fun _ => 0 :=
    start ▸ inv₁.relabel rfl rfl rfl fun q => (inv₁.procs q).refl_same
  have procs₂ : k₂.procs = k₁.procs := by rw [← start]
  have init₂ : k₂.initproc = some p := by rw [← start]
  have live₂ : (k₂.procs p).state ≠ .unused := procs₂ ▸ live
  obtain ⟨table, shape⟩ := inv₂.live live₂
  have none_ : pageCount (k₂.procs p).sz = 0 := by
    rw [procs₂, here, size]
    rfl
  rw [none_] at shape
  obtain ⟨k₃, free₃, t₃, loaded, table₃, exchange, shape₃, cost₃, page⟩ :=
    uvmfirst_spec (ofList initcode) (inv₂.treeHolds p).left table shape
      (show initcode.length < PGSIZE by decide) (show 4 ≤ free₁.length by omega)
  simp only at cost₃
  rw [run_bind loaded, run_bind (modifyProc_run p _ k₃)]
  have one : pageCount PGSIZE = 1 := by decide
  have inv₃ := inv₂.resize PGSIZE live₂ exchange table₃ (by rw [one]; exact shape₃)
  have here₃ : k₃.procs p = x := by rw [exchange.procs, procs₂, here]
  obtain ⟨k', done, after, init', runnable, size', rest⟩ := inv₃.launchInit (p := p)
    (by simp only [update_self, here₃, used]; decide)
    (by simp only [update_self, here₃]; exact here ▸ closed)
  refine ⟨k', _, p, done, after, rfl, show g.free.length ≤ free₃.length + 9 by omega,
    init'.trans (exchange.initproc.trans init₂), Nat.le_zero.mp (first ⟨0, by decide⟩ (unused _)),
    runnable, ?_, ?_, fun q other => ?_⟩
  · rw [size']
    simp only [update_self]
  · simp only [update_self]
    exact page
  · rw [rest q other]
    simp only [update_of_ne other, exchange.procs, procs₂, procs, unused]

end Calls

end Xv6.Kernel
