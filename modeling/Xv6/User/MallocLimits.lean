import Xv6.User.MallocRuns
import Xv6.Kernel.Ps

/-! # Requests that do not fit in an int

`malloc` on top of the kernel's `sbrk`. `morecore` asks for `nu * sizeof(Header)` bytes, and
`sbrk` takes an `int`: a request of 2^31 bytes or more becomes one that shrinks the process
or grows it by less. `sbrk` still returns the old break, and `morecore` records a block of
`nu` units there.
-/

namespace Xv6.User.Malloc

open Lib Extent
open Kernel (KState Layout NPROC Boot smallKernel Ghost)

/-- `sys_sbrk` in process `p`. A panic is no result. -/
def sysSbrk (L : Layout) (p : Fin NPROC) : Sbrk KState := fun n k =>
  match Kernel.growproc L p n k with
  | .error _ => none
  | .ok (r, k') => some (if r < 0 then none else some (k.procs p).sz, k')

/-- The free blocks are `bs`, all in the memory from `heap` to the break at `brk`. -/
structure HeapState (base heap brk : Nat) (h : Heap) (bs : List Extent) : Prop where
  statics : 0 < base
  above : base + headerSize ≤ heap
  grown : heap ≤ brk
  list : h.freep = 0 ∧ bs = [] ∨ FreeList base h bs
  solid : ∀ b ∈ bs, 0 < b.size
  within : ∀ b ∈ bs, heap ≤ b.start ∧ b.stop headerSize ≤ brk

/-- `malloc(nbytes)` returns, and if it does not return 0, the block with its header is in
    the memory from `heap` to the new break. -/
def Backed (L : Layout) (p : Fin NPROC) (base heap nbytes : Nat) (h : Heap) (k : KState) : Prop :=
  ∃ fuel ap h' k', (∀ more, fuel ≤ more →
      malloc (sysSbrk L p) base more nbytes h k = some (ap, h', k')) ∧
    (ap = 0 ∨ heap ≤ ap - headerSize ∧
      offset (ap - headerSize) (h'.mem (ap - headerSize)).size ≤ (k'.procs p).sz)

section

variable {L : Layout} {fixed : Multiset Nat} {k : KState} {g : Ghost} {p : Fin NPROC}
  {base heap nbytes : Nat} {h : Heap} {bs : List Extent}

theorem HeapState.listed {brk : Nat} (state : HeapState base heap brk h bs) :
    FreeList base (initList base h) bs := by
  rcases state.list with ⟨unset, rfl⟩ | list
  · refine ⟨?_, by simp [Gapped], by simp [initList, unset, baseBlock]⟩
    simp [initList, unset, baseBlock, Heap.setPtr, Heap.setSize]
  · have set : h.freep ≠ 0 := by
      obtain ⟨e, inside, start⟩ := list.freep
      have := list.base_le e inside
      have := state.statics
      omega
    rwa [initList, if_neg set]

theorem nunits_eq (word : nbytes < 2 ^ 32) : nunits nbytes = (nbytes + 15) / 16 + 1 := by
  simp only [nunits, headerSize]
  omega

theorem backed_of_fits (state : HeapState base heap (k.procs p).sz h bs) (word : nbytes < 2 ^ 32)
    (fits : ∃ b ∈ bs, nunits nbytes ≤ b.size) : Backed L p base heap nbytes h k := by
  obtain ⟨h', b, takes, done⟩ := state.listed.mallocLoop_takes (sysSbrk L p) k
    (nunits_pos word) fits
  refine ⟨bs.length + 1, b.start + headerSize, h', k, fun more enough => done more enough, .inr ?_⟩
  obtain ⟨l, e, t, rfl, enough, rfl, -⟩ := takes.block
  have whole := state.within e (by simp)
  rw [Nat.add_sub_cancel, takes.size]
  exact ⟨whole.1.trans (Nat.le_add_right _ _),
    (@stop_carved headerSize _ _ enough).le.trans whole.2⟩

/-- The only block of the list that is large enough is the one that ends with the new memory. -/
theorem stop_of_grown {n brk nu : Nat} {bs' l : List Extent} {last e : Extent}
    (short : ∀ b ∈ baseBlock base :: bs, b.size < n) (split : baseBlock base :: bs = l ++ [last])
    (whole : baseBlock base :: bs' = l ++ join headerSize last [⟨brk, nu⟩]) (inside : e ∈ bs')
    (large : n ≤ e.size) : e.stop headerSize = brk + headerSize * nu := by
  rw [split] at short
  have there : e ∈ l ++ join headerSize last [⟨brk, nu⟩] := whole ▸ List.mem_cons_of_mem _ inside
  have old : e ∉ l ++ [last] := fun old => absurd large (Nat.not_le_of_lt (short e old))
  rw [join] at there
  split at there
  · rename_i touch
    rcases List.mem_append.mp there with early | there
    · exact absurd (List.mem_append_left _ early) old
    · rw [List.mem_singleton.mp there, stop_mk, ← stop, touch]
  · have new : e = ⟨brk, nu⟩ := by
      simp only [List.mem_append, List.mem_cons, List.not_mem_nil, or_false] at there old
      tauto
    rw [new, stop]

section

variable {k' : KState} (state : HeapState base heap (k.procs p).sz h bs) (word : nbytes < 2 ^ 32)
  (short : ∀ b ∈ bs, b.size < nunits nbytes)
include state word short

theorem backed_of_refused
    (answer : sysSbrk L p (intArg (coreUnits (nunits nbytes) * headerSize)) k = some (none, k')) :
    Backed L p base heap nbytes h k := by
  refine ⟨bs.length + 1, 0, initList base h, k', fun more enough => ?_, .inl rfl⟩
  exact state.listed.mallocLoop_refused
    (List.forall_mem_cons.mpr ⟨nunits_pos word, short⟩) answer enough

variable (answer : sysSbrk L p (intArg (coreUnits (nunits nbytes) * headerSize)) k =
  some (some (k.procs p).sz, k'))
include answer

/-- `sbrk` returns the break, and `malloc` a block that ends `coreUnits` units above it. -/
theorem malloc_granted :
    ∃ fuel ap h', (∀ more, fuel ≤ more →
        malloc (sysSbrk L p) base more nbytes h k = some (ap, h', k')) ∧
      ap ≠ 0 ∧ heap ≤ ap - headerSize ∧ offset (ap - headerSize) (h'.mem (ap - headerSize)).size =
        (k.procs p).sz + headerSize * coreUnits (nunits nbytes) := by
  have pos := nunits_pos word
  have small : nunits nbytes < 2 ^ 31 := by
    rw [nunits_eq word]
    omega
  have low : base < (k.procs p).sz := by
    have above := state.above
    have grown := state.grown
    simp only [headerSize] at above
    omega
  have short' : ∀ b ∈ baseBlock base :: bs, b.size < nunits nbytes :=
    List.forall_mem_cons.mpr ⟨pos, short⟩
  obtain ⟨h₁, bs₁, l, last, split, whole, list, -, again⟩ := state.listed.mallocLoop_grows
    state.statics short' small state.solid answer low fun e inside => (state.within e inside).2
  obtain ⟨fits, length⟩ := fits_of_grown split whole pos (le_coreUnits _).1
  obtain ⟨h', b, takes, done⟩ := list.mallocLoop_takes (sysSbrk L p) k' pos fits
  obtain ⟨l', e, t, here, enough, rfl, -⟩ := takes.block
  have stops := stop_of_grown short' split whole (here ▸ by simp) enough
  have block := @stop_carved headerSize _ _ enough
  refine ⟨2 * bs.length + 3, (carved headerSize (nunits nbytes) e).start + headerSize, h',
    fun more large => ?_, by simp [headerSize], ?_, ?_⟩
  · obtain ⟨fuel, rfl⟩ : ∃ fuel, more = fuel + 1 + bs.length := ⟨more - 1 - bs.length, by omega⟩
    exact (again fuel (by omega)).trans (done fuel (by omega))
  · rw [Nat.add_sub_cancel]
    have grown := state.grown
    have core := (le_coreUnits (nunits nbytes)).1
    rw [stops] at block
    simp only [stop, headerSize, carved] at block ⊢
    omega
  · rw [Nat.add_sub_cancel, takes.size, ← stops, ← block]
    rfl

/-- The memory that `sbrk` has added has to be what `morecore` records. -/
theorem backed_granted_iff :
    Backed L p base heap nbytes h k ↔
      (k.procs p).sz + headerSize * coreUnits (nunits nbytes) ≤ (k'.procs p).sz := by
  obtain ⟨fuel, ap, h', done, other, low, stop⟩ := malloc_granted state word short answer
  constructor
  · rintro ⟨fuel', ap', h'', k'', done', backed⟩
    have same := (done _ (Nat.le_max_left fuel fuel')).symm.trans (done' _ (Nat.le_max_right _ _))
    cases same
    rw [← stop]
    exact (backed.resolve_left other).2
  · intro enough
    exact ⟨fuel, ap, h', k', done, .inr ⟨low, stop.trans_le enough⟩⟩

end

theorem sysSbrk_of_ok {n : Int} {k' : KState} (ran : Kernel.growproc L p n k = .ok (0, k')) :
    sysSbrk L p n k = some (some (k.procs p).sz, k') := by
  simp [sysSbrk, ran]

theorem sysSbrk_cases {n : Int} (inv : Kernel.Inv L fixed k g 0 fun _ => 0)
    (used : (k.procs p).state ≠ .unused) (low : -2 ^ 31 ≤ n) (high : n < 2 ^ 31) : ∃ k',
    (sysSbrk L p n k = some (none, k') ∧ 0 < n ∧ Kernel.growproc L p n k = .ok (-1, k')) ∨
    (sysSbrk L p n k = some (some (k.procs p).sz, k') ∧ Kernel.growproc L p n k = .ok (0, k') ∧
      ((k'.procs p).sz : Int) =
        if 0 ≤ (k.procs p).sz + n then (k.procs p).sz + n else (k.procs p).sz) := by
  obtain ⟨r, k', free', t', ran, -, grew, -⟩ := inv.growproc_grew used low high
  refine ⟨k', ?_⟩
  cases grew with
  | refused value more =>
    subst value
    exact .inl ⟨by simp [sysSbrk, ran], more, ran⟩
  | moved sz value size procs =>
    subst value
    refine .inr ⟨sysSbrk_of_ok ran, ran, ?_⟩
    rw [procs, Function.update_self]
    exact size

/-- The `int` that a request becomes. -/
inductive Asks (nbytes : Nat) (arg : Int) : Prop
  | exactly (small : nbytes ≤ 2 ^ 31 - 32)
      (value : arg = (headerSize * coreUnits (nunits nbytes) : Nat)) : Asks nbytes arg
  | nothing (large : 2 ^ 31 - 32 < nbytes) (below : nbytes ≤ 2 ^ 32 - 16) (value : arg ≤ 0) :
      Asks nbytes arg
  | oneHeader (above : 2 ^ 32 - 16 < nbytes) (value : arg = 16) : Asks nbytes arg

theorem intArg_cond (n : Nat) : intArg n =
    if 2 * (n % 2 ^ 32) < 2 ^ 32 then ((n % 2 ^ 32 : Nat) : Int)
      else ((n % 2 ^ 32 : Nat) : Int) - 2 ^ 32 := by
  rw [intArg, BitVec.toInt_eq_toNat_cond, BitVec.toNat_ofNat]
  rfl

theorem morecore_asks (word : nbytes < 2 ^ 32) :
    Asks nbytes (intArg (coreUnits (nunits nbytes) * headerSize)) := by
  have units := nunits_eq word
  have core : coreUnits (nunits nbytes) = if nunits nbytes < 4096 then 4096 else nunits nbytes :=
    rfl
  simp only [headerSize]
  rw [intArg_cond]
  by_cases small : nbytes ≤ 2 ^ 31 - 32
  · refine .exactly small ?_
    split at core <;> split <;> simp only [headerSize] <;> omega
  · rw [if_neg (by omega)] at core
    by_cases below : nbytes ≤ 2 ^ 32 - 16
    · refine .nothing (by omega) below ?_
      split <;> omega
    · refine .oneHeader (by omega) ?_
      split <;> omega

/-- What `malloc` returns is backed by memory if and only if the request fits in an `int`, or
    nothing has to be asked of `sbrk`, or `sbrk` fails. -/
theorem malloc_backed_iff (inv : Kernel.Inv L fixed k g 0 fun _ => 0)
    (used : (k.procs p).state ≠ .unused) (state : HeapState base heap (k.procs p).sz h bs)
    (word : nbytes < 2 ^ 32) :
    Backed L p base heap nbytes h k ↔
      nbytes ≤ 2 ^ 31 - 32 ∨ (∃ b ∈ bs, nunits nbytes ≤ b.size) ∨
        (2 ^ 32 - 16 < nbytes ∧ ∃ k', Kernel.growproc L p 16 k = .ok (-1, k')) := by
  by_cases fits : ∃ b ∈ bs, nunits nbytes ≤ b.size
  · exact iff_of_true (backed_of_fits state word fits) (.inr (.inl fits))
  · have short : ∀ b ∈ bs, b.size < nunits nbytes := by simpa using fits
    have asks := morecore_asks word
    have range : -2 ^ 31 ≤ intArg (coreUnits (nunits nbytes) * headerSize) ∧
        intArg (coreUnits (nunits nbytes) * headerSize) < 2 ^ 31 :=
      ⟨BitVec.le_toInt _, BitVec.toInt_lt⟩
    obtain ⟨k', ⟨answer, more, failed⟩ | ⟨answer, ran, size⟩⟩ :=
      sysSbrk_cases inv used range.1 range.2
    · refine iff_of_true (backed_of_refused state word short answer) ?_
      cases asks with
      | exactly small => exact .inl small
      | nothing _ _ value => omega
      | oneHeader above value => exact .inr (.inr ⟨above, k', value ▸ failed⟩)
    · rw [backed_granted_iff state word short answer]
      cases asks with
      | exactly small value =>
          rw [value, if_pos (by omega)] at size
          exact iff_of_true (by omega) (.inl small)
      | nothing large below value =>
          have core := (le_coreUnits (nunits nbytes)).2
          refine iff_of_false ?_ ?_
          · simp only [headerSize]
            split at size <;> omega
          · rintro (small | fits' | ⟨above, -⟩)
            · omega
            · exact fits fits'
            · omega
      | oneHeader above value =>
          have core := (le_coreUnits (nunits nbytes)).1
          have units := nunits_eq word
          refine iff_of_false ?_ ?_
          · simp only [headerSize]
            split at size <;> omega
          · rintro (small | fits' | ⟨-, k'', failed⟩)
            · omega
            · exact fits fits'
            · rw [value, failed] at ran
              cases ran

end

theorem heapState_fresh {brk : Nat} (size : brk = 1000) : HeapState 16 1000 brk ⟨zeroed, 0⟩ [] :=
  ⟨by decide, by decide, size.ge, .inl ⟨rfl, rfl⟩, by simp, by simp⟩

/-- The first process, which keeps 1000 bytes of its page, calls `malloc(100)`. -/
theorem malloc_backed_first : ∃ (b : Boot smallKernel) (s : Kernel.State) (p : Fin NPROC),
    (Kernel.machine smallKernel).Run b.state [(.userinit, .silent), (.schedule p .running, .silent),
      (.sbrk p (-3096), .ret 0)] s ∧
    Backed smallKernel p 16 1000 100 ⟨zeroed, 0⟩ s.k := by
  obtain ⟨b, s, p, run, running, size, -⟩ := Kernel.exists_shrunkRun
  obtain ⟨g, settled⟩ := b.settled.run run
  have used := Kernel.running_used running
  exact ⟨b, s, p, run, (malloc_backed_iff settled.inv used (heapState_fresh size) (by decide)).mpr
    (.inl (by decide))⟩

/-- `malloc(2^32 - 1)` returns a block of 2^28 + 1 units for 16 bytes of memory. -/
theorem not_malloc_backed_huge : ∃ (b : Boot smallKernel) (s : Kernel.State) (p : Fin NPROC)
    (k' : KState),
    (Kernel.machine smallKernel).Run b.state [(.userinit, .silent), (.schedule p .running, .silent),
      (.sbrk p (-3096), .ret 0)] s ∧
    Kernel.growproc smallKernel p 16 s.k = .ok (0, k') ∧
      (k'.procs p).sz = 1016 ∧ ¬ Backed smallKernel p 16 1000 (2 ^ 32 - 1) ⟨zeroed, 0⟩ s.k := by
  obtain ⟨b, s, p, run, running, size, -⟩ := Kernel.exists_shrunkRun
  obtain ⟨k', grown, more⟩ : ∃ k', Kernel.growproc smallKernel p 16 s.k = .ok (0, k') ∧
      (k'.procs p).sz = 1016 := by
    refine ⟨_, Kernel.growproc_inPage (n := 16) (by decide) (by rw [size]; decide)
      (by rw [size]; decide), ?_⟩
    simp only [Function.update_self, size]
  have arg : intArg (coreUnits (nunits (2 ^ 32 - 1)) * headerSize) = 16 := by decide
  refine ⟨b, s, p, k', run, grown, more, ?_⟩
  rw [backed_granted_iff (heapState_fresh size) (by decide) (by simp)
    (arg ▸ sysSbrk_of_ok grown), size, more]
  decide

end Xv6.User.Malloc
