import Xv6.Kernel.ProcSpace

/-! # Building an image in exec

The part of `exec` that works on the new page table, up to the commit. Until then the
table belongs to no process; whatever happens, it keeps the shape that
`proc_freepagetable` needs.
-/

namespace Xv6.Kernel

open Lib

section Image

variable {L : Layout} {k k' : KState} {free free' : List Nat} {t : Tree}
  {root v sz tf : Nat} {file : Executable}

/-! ## loadseg -/

theorem readi_length_le (file : Executable) (off n : Nat) : (readi file off n).length ≤ n :=
  List.length_take_le n _

theorem loadsegLoop_spec (n : Nat) {va offset i : Nat} (ok : Holds L k free (treePages t))
    (table : Table k.mem root t) (low : v + n ≤ 2 ^ 26) (here : va + i = PGSIZE * v)
    (reachable : ∀ u, v ≤ u → u < v + n →
      ∃ pte, leafAt t u = some ⟨pte, true⟩ ∧ pte &&& PTE_U ≠ 0) :
    ∃ r k', loadsegLoop root va file offset sz n i k = .ok (r, k') ∧ Table k'.mem root t ∧
      Exchange k k' free (treePages t) free (treePages t) := by
  induction n generalizing k v i with
  | zero => exact ⟨0, k, rfl, table, .refl ok.chain⟩
  | succ n ih =>
    obtain ⟨pte, some_, user⟩ := reachable v (Nat.le_refl v) (by omega)
    have address : u64 (va + i) = PGSIZE * v := by
      rw [here]
      unfold u64 PGSIZE
      omega
    have reached : reach t (PGSIZE * v) = pte2pa pte :=
      reach_mapped (mul_lt_MAXVA (by omega)) (by rwa [vpn_mul]) user
    have page := leaf_page ok some_ rfl
    have nonzero : reach t (PGSIZE * v) ≠ 0 := reached ▸ page.ne_zero
    -- the bytes that `readi` finds, for the part of the segment in this page
    obtain ⟨len, lenEq⟩ : ∃ len, len = if sz - i < PGSIZE then sz - i else PGSIZE := ⟨_, rfl⟩
    have fits : len ≤ PGSIZE := by
      rw [lenEq]
      split <;> omega
    have bytes := readi_length_le file (offset + i) len
    obtain ⟨k₁, wrote, table₁, written⟩ := reachWrite_spec (ofList (readi file (offset + i) len))
      ok table nonzero (Nat.le_refl _) (n := (readi file (offset + i) len).length) (by omega)
    rw [loadsegLoop, address, run_bind (walkaddr_eq ok table _)]
    simp only [if_neg nonzero, ← lenEq]
    rw [run_bind wrote]
    by_cases short : (readi file (offset + i) len).length ≠ len
    · refine ⟨-1, k₁, ?_, table₁, written⟩
      rw [if_pos short]
      rfl
    · obtain ⟨r, k', ran, table', exchange⟩ := ih (v := v + 1) (i := i + PGSIZE)
        (ok.exchange written) table₁ (by omega) (by rw [← Nat.add_assoc, here, Nat.mul_succ])
        fun u from_ to_ => reachable u (by omega) (by omega)
      refine ⟨r, k', ?_, table', written.trans exchange⟩
      rw [if_neg short]
      exact ran

/-! ## The segments -/

theorem flags2perm_ok (flags : Nat) : AllocPerm (flags2perm flags) := by
  rw [flags2perm, AllocPerm]
  split <;> split <;> decide

variable (file) in
/-- `loadseg` of a segment that lies inside the pages that are mapped. -/
theorem loadseg_spec {vaddr memsz filesz : Nat} (off : Nat) (ok : Holds L k free (treePages t))
    (table : Table k.mem root t) (reachable : Reachable t (pageCount sz))
    (bounded : pageCount sz ≤ 2 ^ 26) (aligned : vaddr % PGSIZE = 0) (inMem : filesz ≤ memsz)
    (inside : vaddr + memsz ≤ sz) :
    ∃ r k', loadseg root vaddr file off filesz k = .ok (r, k') ∧ Table k'.mem root t ∧
      Exchange k k' free (treePages t) free (treePages t) := by
  have start : vaddr + 0 = PGSIZE * (vaddr / PGSIZE) := by
    unfold PGSIZE at *
    omega
  have reaches : vaddr / PGSIZE + pagesBetween 0 (filesz % 2 ^ 32) ≤ pageCount sz := by
    have truncated : filesz % 2 ^ 32 ≤ filesz := Nat.mod_le _ _
    unfold pagesBetween pageCount PGSIZE at *
    omega
  exact loadsegLoop_spec _ ok table (by omega) start fun u _ below => reachable u (by omega)

theorem loadSegments_spec (file : Executable) (n off sz : Nat) (ok : Holds L k free (treePages t))
    (table : Table k.mem root t) (shape : Shape L t (pageCount sz) tf)
    (reachable : Reachable t (pageCount sz)) :
    ∃ r k' free' t', loadSegments L root file n off sz k = .ok (r, k') ∧ Table k'.mem root t' ∧
      Exchange k k' free (treePages t) free' (treePages t') ∧ Shape L t' (pageCount r.2) tf := by
  induction n generalizing k free t off sz with
  | zero => exact ⟨(true, sz), k, free, t, rfl, table, .refl ok.chain, shape⟩
  | succ n ih =>
    have stops : ∃ r k' free' t', (pure (false, sz) : KM (Bool × Nat)) k = .ok (r, k') ∧
        Table k'.mem root t' ∧ Exchange k k' free (treePages t) free' (treePages t') ∧
        Shape L t' (pageCount r.2) tf :=
      ⟨(false, sz), k, free, t, rfl, table, .refl ok.chain, shape⟩
    simp only [loadSegments]
    generalize readi file off 56 = bytes
    generalize (ofList bytes).getLE 0 4 = kind
    generalize (ofList bytes).getLE 4 4 = flags
    generalize (ofList bytes).getLE 8 8 = fileOff
    generalize small₁ : (ofList bytes).getLE 16 8 = vaddr
    generalize (ofList bytes).getLE 32 8 = filesz
    generalize small₂ : (ofList bytes).getLE 40 8 = memsz
    by_cases short : bytes.length ≠ 56
    · simp only [if_pos short]
      exact stops
    simp only [if_neg short]
    by_cases skipped : kind ≠ ELF_PROG_LOAD
    · simp only [if_pos skipped]
      exact ih _ _ ok table shape reachable
    simp only [if_neg skipped]
    by_cases less : memsz < filesz
    · simp only [if_pos less]
      exact stops
    simp only [if_neg less]
    by_cases wraps : u64 (vaddr + memsz) < vaddr
    · simp only [if_pos wraps]
      exact stops
    simp only [if_neg wraps]
    by_cases ragged : vaddr % PGSIZE ≠ 0
    · simp only [if_pos ragged]
      exact stops
    simp only [if_neg ragged]
    obtain ⟨sz₁, k₁, free₁, t₁, grew, table₁, exchange₁, _, outcome⟩ :=
      uvmalloc_shape (u64 (vaddr + memsz)) (flags2perm_ok flags) ok table shape
    rw [run_bind grew]
    have ok₁ := ok.exchange exchange₁
    by_cases zero : sz₁ = 0
    · simp only [if_pos zero]
      refine ⟨(false, sz), k₁, free₁, t₁, rfl, table₁, exchange₁, ?_⟩
      rcases outcome with ⟨largest, shape₁, _⟩ | ⟨_, shape₁, _⟩
      · have : sz = sz₁ := by omega
        rwa [this]
      · exact shape₁
    simp only [if_neg zero]
    obtain ⟨largest, shape₁, kept, _⟩ | ⟨failed, _⟩ := outcome
    case inr => exact absurd failed zero
    have bounds := shape₁.bounded ok₁
    have limit : trapframeVpn < 2 ^ 26 := by decide
    have low : vaddr < 2 ^ 64 := small₁ ▸ Bytes.getLE_lt (ofList bytes) 16 8
    have low' : memsz < 2 ^ 64 := small₂ ▸ Bytes.getLE_lt (ofList bytes) 40 8
    have inside : vaddr + memsz ≤ sz₁ := by
      unfold u64 at *
      omega
    obtain ⟨loaded, k₂, ran, table₂, exchange₂⟩ :=
      loadseg_spec file fileOff ok₁ table₁ (kept reachable) (by omega)
        (not_not.mp ragged) (Nat.not_lt.mp less) inside
    rw [run_bind ran]
    by_cases failed : loaded < 0
    · simp only [if_pos failed]
      exact ⟨(false, sz₁), k₂, free₁, t₁, rfl, table₂, exchange₁.trans exchange₂, shape₁⟩
    simp only [if_neg failed]
    obtain ⟨r, k', free', t', rest, table', exchange', shape'⟩ :=
      ih (off + 56) sz₁ (ok₁.exchange exchange₂) table₂ shape₁ (kept reachable)
    exact ⟨r, k', free', t', rest, table', (exchange₁.trans exchange₂).trans exchange', shape'⟩

/-! ## The stack -/

theorem pushArgs_spec (stackbase : Nat) (args : List Nat) (sp : Nat) (ustack : List Nat)
    (ok : Holds L k free (treePages t)) (table : Table k.mem root t) :
    ∃ r k', pushArgs root stackbase args sp ustack k = .ok (r, k') ∧ Table k'.mem root t ∧
      Exchange k k' free (treePages t) free (treePages t) := by
  induction args generalizing k sp ustack with
  | nil => exact ⟨some (sp, ustack), k, rfl, table, .refl ok.chain⟩
  | cons arg args ih =>
    have stops : ∃ r k', (pure none : KM (Option (Nat × List Nat))) k = .ok (r, k') ∧
        Table k'.mem root t ∧ Exchange k k' free (treePages t) free (treePages t) :=
      ⟨none, k, rfl, table, .refl ok.chain⟩
    simp only [pushArgs]
    by_cases many : ustack.length ≥ MAXARG
    · simp only [if_pos many]
      exact stops
    simp only [if_neg many]
    rw [run_get_bind]
    generalize sub64 sp (strlen k.mem arg + 1) = sp₁
    by_cases deep : sp₁ - sp₁ % 16 < stackbase
    · simp only [if_pos deep]
      exact stops
    simp only [if_neg deep]
    obtain ⟨r, k₁, ran, table₁, exchange₁⟩ := copyout_spec (sp₁ - sp₁ % 16)
      (fun i => k.mem (arg + i)) (strlen k.mem arg + 1) ok table
    rw [run_bind ran]
    by_cases failed : r < 0
    · simp only [if_pos failed]
      exact ⟨none, k₁, rfl, table₁, exchange₁⟩
    simp only [if_neg failed]
    obtain ⟨r', k', rest, table', exchange'⟩ := ih (sp₁ - sp₁ % 16) (ustack ++ [sp₁ - sp₁ % 16])
      (ok.exchange exchange₁) table₁
    exact ⟨r', k', rest, table', exchange₁.trans exchange'⟩

theorem discard_spec (ok : Holds L k free (treePages t)) (table : Table k.mem root t)
    (shape : Shape L t (pageCount sz) tf) :
    ∃ k' free', (procFreepagetable L root sz >>= fun _ => pure (-1) : KM Int) k = .ok (-1, k') ∧
      Exchange k k' free (treePages t) free' 0 := by
  obtain ⟨k', free', ran, exchange⟩ := procFreepagetable_spec ok table shape
  exact ⟨k', free', run_bind ran, exchange⟩

theorem Shape.replaced {t' : Tree} {n pte : Nat} (shape : Shape L t n tf)
    (replaced : ∀ u, u < 2 ^ 27 → leafAt t' u = if u = v then some ⟨pte, true⟩ else leafAt t u)
    (low : v < n) (bounded : n ≤ trapframeVpn) : Shape L t' n tf := by
  have vpns : trapframeVpn < trampolineVpn ∧ trampolineVpn < 2 ^ 27 := by decide
  refine ⟨fun u below => ?_, fun u low high => ?_, ?_, ?_, fun u low high => ?_⟩
  · rw [replaced u (by omega)]
    split
    · exact ⟨pte, rfl⟩
    · exact shape.mapped u below
  · rw [replaced u (by omega), if_neg (by omega)]
    exact shape.above u low high
  · rw [replaced _ (by omega), if_neg (by omega), shape.trapframe]
  · rw [replaced _ (by omega), if_neg (by omega), shape.trampoline]
  · rw [replaced u high, if_neg (by omega)]
    exact shape.beyond u low high

/-- `exec` with the program loaded: the new table is gone again, or `exec` commits to
    it. -/
theorem buildStack_spec (p : Fin NPROC) (path : List UInt8) (argv : List Nat) (entry : Nat)
    (ok : Holds L k free (treePages t)) (table : Table k.mem root t)
    (shape : Shape L t (pageCount sz) tf) :
    (∃ k' free', buildStack L p path argv root sz entry k = .ok (-1, k') ∧
        Exchange k k' free (treePages t) free' 0) ∨
      ∃ k₁ free₁ t₁ sz₁ sp, ∃ argc : Nat, buildStack L p path argv root sz entry k =
          (commitImage L p path root sz₁ sp entry >>= fun _ => pure (argc : Int)) k₁ ∧
        Table k₁.mem root t₁ ∧ Exchange k k₁ free (treePages t) free₁ (treePages t₁) ∧
        Shape L t₁ (pageCount sz₁) tf := by
  obtain ⟨bound, limit⟩ := shape.bounded ok
  have small : sz < 2 ^ 63 :=
    Nat.lt_of_le_of_lt (shape.mapped.size_le ok) (Nat.lt_trans PHYSTOP_lt (by decide))
  have vpns : trapframeVpn < 2 ^ 26 := by decide
  simp only [buildStack, pgRoundUp_eq small]
  generalize pageCount sz = n at shape bound
  have top : u64 (PGSIZE * n + 2 * PGSIZE) = PGSIZE * (n + 2) := by
    unfold u64 PGSIZE
    omega
  have guard_ : sub64 (PGSIZE * (n + 2)) (2 * PGSIZE) = PGSIZE * n := by
    unfold sub64 u64 PGSIZE
    omega
  rw [← pageCount_mul n] at shape
  obtain ⟨sz₁, k₁, free₁, t₁, grew, table₁, exchange₁, _, outcome⟩ :=
    uvmalloc_shape (PGSIZE * (n + 2)) allocPerm_W ok table shape
  have ok₁ := ok.exchange exchange₁
  rw [top, run_bind grew]
  by_cases zero : sz₁ = 0
  · simp only [if_pos zero]
    obtain ⟨largest, _, _⟩ | ⟨_, shape₁, _⟩ := outcome
    case inl =>
      unfold PGSIZE at largest
      omega
    obtain ⟨k', free', ran, exchange⟩ := discard_spec ok₁ table₁ shape₁
    exact .inl ⟨k', free', ran, exchange₁.trans exchange⟩
  simp only [if_neg zero]
  obtain ⟨largest, shape₁, _⟩ | ⟨failed, _⟩ := outcome
  case inr => exact absurd failed zero
  have size : sz₁ = PGSIZE * (n + 2) := by
    unfold PGSIZE at *
    omega
  subst size
  have bound₁ := (shape₁.bounded ok₁).1
  rw [pageCount_mul] at shape₁ bound₁
  obtain ⟨pte, some_⟩ := shape₁.mapped n (by omega)
  obtain ⟨k₂, t₂, cleared_, table₂, exchange₂, leaves₂⟩ :=
    uvmclear_spec ok₁ table₁ (by omega) some_
  have shape₂ := shape₁.replaced leaves₂ (by omega) (by omega)
  rw [← pageCount_mul (n + 2)] at shape₂
  have ok₂ := ok₁.exchange exchange₂
  rw [guard_, run_bind cleared_]
  generalize sub64 (PGSIZE * (n + 2)) PGSIZE = stackbase
  obtain ⟨pushed, k₃, ran₃, table₃, exchange₃⟩ :=
    pushArgs_spec stackbase argv (PGSIZE * (n + 2)) [] ok₂ table₂
  have ok₃ := ok₂.exchange exchange₃
  have whole₃ := (exchange₁.trans exchange₂).trans exchange₃
  rw [run_bind ran₃]
  cases pushed with
  | none =>
    obtain ⟨k', free', ran, exchange⟩ := discard_spec ok₃ table₃ shape₂
    exact .inl ⟨k', free', ran, whole₃.trans exchange⟩
  | some pair =>
    obtain ⟨sp, ustack⟩ := pair
    simp only
    generalize sub64 sp ((ustack.length + 1) * 8) = sp₁
    by_cases deep : sp₁ - sp₁ % 16 < stackbase
    · simp only [if_pos deep]
      obtain ⟨k', free', ran, exchange⟩ := discard_spec ok₃ table₃ shape₂
      exact .inl ⟨k', free', ran, whole₃.trans exchange⟩
    simp only [if_neg deep]
    obtain ⟨r, k₄, ran₄, table₄, exchange₄⟩ := copyout_spec (sp₁ - sp₁ % 16)
      (ofWords (ustack ++ [0])) ((ustack.length + 1) * 8) ok₃ table₃
    rw [run_bind ran₄]
    by_cases failed : r < 0
    · simp only [if_pos failed]
      obtain ⟨k', free', ran, exchange⟩ :=
        discard_spec (ok₃.exchange exchange₄) table₄ shape₂
      exact .inl ⟨k', free', ran, (whole₃.trans exchange₄).trans exchange⟩
    simp only [if_neg failed]
    exact .inr ⟨k₄, free₁, t₂, _, _, _, rfl, table₄, whole₃.trans exchange₄, shape₂⟩

/-- `exec` makes a new table for `p` or none; the table that it does not commit to is
    gone again. -/
theorem exec_spec (p : Fin NPROC) (path : List UInt8) (found : Option Executable)
    (argv : List Nat) (ok : Holds L k free 0) (frame : (k.procs p).trapframe = tf)
    (small : tf < 2 ^ 56) :
    (∃ k' free', exec L p path found argv k = .ok (-1, k') ∧ Exchange k k' free 0 free' 0) ∨
      ∃ k₁ free₁ root t₁ sz₁ sp entry, ∃ argc : Nat, exec L p path found argv k =
          (commitImage L p path root sz₁ sp entry >>= fun _ => pure (argc : Int)) k₁ ∧
        root ≠ 0 ∧ Table k₁.mem root t₁ ∧ Exchange k k₁ free 0 free₁ (treePages t₁) ∧
        Shape L t₁ (pageCount sz₁) tf := by
  have stops : (∃ k' free', (pure (-1) : KM Int) k = .ok (-1, k') ∧
      Exchange k k' free 0 free' 0) := ⟨k, free, rfl, .refl ok.chain⟩
  cases found with
  | none => exact .inl stops
  | some file =>
    simp only [exec]
    by_cases short : (readi file 0 64).length ≠ 64
    · simp only [if_pos short]
      exact .inl stops
    simp only [if_neg short]
    by_cases magic : (ofList (readi file 0 64)).getLE 0 4 ≠ ELF_MAGIC
    · simp only [if_pos magic]
      exact .inl stops
    simp only [if_neg magic]
    rcases procPagetable_spec ok frame small with
      ⟨k₁, free₁, none_, exchange₁, _⟩ |
        ⟨root, k₁, free₁, t₁, made, nonzero, table₁, exchange₁, shape₁, _⟩
    · rw [run_bind none_]
      exact .inl ⟨k₁, free₁, rfl, exchange₁⟩
    rw [run_bind made]
    simp only [if_neg nonzero]
    have ok₁ := ok.exchange exchange₁
    obtain ⟨⟨loaded, sz⟩, k₂, free₂, t₂, ran₂, table₂, exchange₂, shape₂⟩ :=
      loadSegments_spec file ((ofList (readi file 0 64)).getLE 56 2)
        ((ofList (readi file 0 64)).getLE 32 8) 0 ok₁ table₁ shape₁
        fun v low => absurd low (Nat.not_lt_zero v)
    have ok₂ := ok₁.exchange exchange₂
    rw [run_bind ran₂]
    cases loaded with
    | false =>
      obtain ⟨k', free', ran, exchange⟩ := discard_spec ok₂ table₂ shape₂
      exact .inl ⟨k', free', ran, (exchange₁.trans exchange₂).trans exchange⟩
    | true =>
      rcases buildStack_spec p path argv ((ofList (readi file 0 64)).getLE 24 8) ok₂ table₂
        shape₂ with
        ⟨k', free', ran, exchange⟩ | ⟨k₃, free₃, t₃, sz₃, sp, argc, ran, table₃, exchange, shape₃⟩
      · exact .inl ⟨k', free', ran, (exchange₁.trans exchange₂).trans exchange⟩
      · exact .inr ⟨k₃, free₃, root, t₃, sz₃, sp, _, argc, ran, nonzero, table₃,
          (exchange₁.trans exchange₂).trans exchange, shape₃⟩

end Image

end Xv6.Kernel
