import Xv6.Kernel.Pages
import Xv6.Lib.Exec

/-! # The loops that copy to and from user memory

`copyin`, `copyout` and `copyinstr` go through user memory a page at a time, from an
unaligned address, and stop where `walkaddr` does. All they learn of the page table is the
frame that `walkaddr` finds for an address, so they are described for any table of which
that is known.
-/

namespace Xv6.Kernel

open Lib

/-- The place of `va` in physical memory. -/
def place (frame : Nat → Nat) (va : Nat) : Nat := frame va + va % PGSIZE

/-- `walkaddr` finds `frame va` for `va`, where 0 stands for none, as long as `Good` holds of
    the kernel; and writing to one of the frames leaves it so. -/
structure Frames (root : Nat) (frame : Nat → Nat) (Good : KState → Prop) : Prop where
  walk : ∀ {k}, Good k → ∀ va, walkaddr root (pgRoundDown va) k = .ok (frame va, k)
  page : ∀ {va va'}, vpn va = vpn va' → frame va = frame va'
  low : ∀ {va}, frame va ≠ 0 → va < MAXVA
  once : ∀ {va va'}, frame va ≠ 0 → frame va' ≠ 0 → place frame va = place frame va' → va = va'
  write : ∀ {k va mem'}, Good k → frame va ≠ 0 → Within (frame va) k.mem mem' →
    Good { k with mem := mem' }

section Pages

variable {root va i : Nat} {frame : Nat → Nat} {Good : KState → Prop}

theorem vpn_pgRoundDown (va : Nat) : vpn (pgRoundDown va) = vpn va :=
  Nat.mul_div_cancel _ (by decide)

theorem sub_pgRoundDown (va : Nat) : va - pgRoundDown va = va % PGSIZE := by
  unfold pgRoundDown PGSIZE
  omega

/-- The rest of a page lies in one piece. -/
theorem Frames.add (frames : Frames root frame Good) (mapped : frame va ≠ 0)
    (inside : i < PGSIZE - va % PGSIZE) :
    frame (va + i) ≠ 0 ∧ place frame (va + i) = frame va + (va - pgRoundDown va) + i := by
  have same : vpn (va + i) = vpn va ∧ (va + i) % PGSIZE = va % PGSIZE + i := by
    unfold vpn PGSIZE at *
    omega
  rw [place, frames.page same.1, same.2, sub_pgRoundDown, Nat.add_assoc]
  exact ⟨mapped, rfl⟩

/-- The part of the first page that is copied. -/
def chunk (va len : Nat) : Nat := min (PGSIZE - (va - pgRoundDown va)) len

theorem chunk_le (va len : Nat) : chunk va len ≤ len ∧ chunk va len ≤ PGSIZE - va % PGSIZE := by
  rw [chunk, sub_pgRoundDown]
  exact ⟨Nat.min_le_right _ _, Nat.min_le_left _ _⟩

theorem chunk_pos {len : Nat} (va : Nat) (more : len ≠ 0) : 0 < chunk va len := by
  rw [chunk, sub_pgRoundDown]
  unfold PGSIZE
  omega

/-- Either the chunk is all, or the next page follows it. -/
theorem next_chunk (len : Nat) (low : va < MAXVA) :
    len - chunk va len = 0 ∨ u64 (pgRoundDown va + PGSIZE) = va + chunk va len := by
  rw [chunk, sub_pgRoundDown]
  unfold u64 pgRoundDown PGSIZE
  unfold MAXVA at low
  omega

end Pages

/-! ## copyin -/

section Copyin

variable {mem : Bytes} {k : KState} {root va len n : Nat} {frame : Nat → Nat}
  {Good : KState → Prop} {bytes : List UInt8} {ok : Bool}

/-- The bytes at `va`, up to `len` or the first that is not there. -/
structure CopiedIn (frame : Nat → Nat) (mem : Bytes) (va len : Nat) (bytes : List UInt8)
    (ok : Bool) : Prop where
  short : bytes.length ≤ len
  byte : ∀ i, i < bytes.length → frame (va + i) ≠ 0 ∧
    bytes[i]? = some (mem (place frame (va + i)))
  whole : ok = true → bytes.length = len
  stopped : ok = false → bytes.length < len ∧ frame (va + bytes.length) = 0

theorem CopiedIn.append (le : n ≤ len) (mapped : ∀ i, i < n → frame (va + i) ≠ 0)
    (rest : CopiedIn frame mem (va + n) (len - n) bytes ok) :
    CopiedIn frame mem va len
      ((List.range n).map (fun i => mem (place frame (va + i))) ++ bytes) ok := by
  have short := rest.short
  have length : ((List.range n).map (fun i => mem (place frame (va + i))) ++ bytes).length =
      n + bytes.length := by simp
  refine ⟨by omega, fun i inside => ?_, fun yes => ?_, fun no => ?_⟩
  · by_cases first : i < n
    · refine ⟨mapped i first, ?_⟩
      rw [List.getElem?_append_left (by simpa using first)]
      simp [first]
    · obtain ⟨there, found⟩ := rest.byte (i - n) (by omega)
      rw [show va + n + (i - n) = va + i by omega] at there found
      refine ⟨there, ?_⟩
      rw [List.getElem?_append_right (by simpa using first)]
      simpa using found
  · have := rest.whole yes
    omega
  · obtain ⟨less, missing⟩ := rest.stopped no
    rw [length]
    refine ⟨by omega, ?_⟩
    rwa [← Nat.add_assoc]

/-- What is left when nothing is to be copied, wherever that would be. -/
theorem CopiedIn.zero {a : Nat} (copied : CopiedIn frame mem a 0 bytes ok) :
    CopiedIn frame mem va 0 bytes ok := by
  obtain rfl : bytes = [] := List.length_eq_zero_iff.mp (Nat.le_zero.mp copied.short)
  exact ⟨copied.short, by simp, copied.whole, fun no => absurd (copied.stopped no).1 (by simp)⟩

theorem Frames.copyinLoop (frames : Frames root frame Good) (good : Good k) (va : Nat)
    {fuel : Nat} (enough : len ≤ fuel) (done : List UInt8) : ∃ bytes ok,
      copyinLoop root fuel va len done k = .ok ((done ++ bytes, ok), k) ∧
        CopiedIn frame k.mem va len bytes ok := by
  induction fuel generalizing va len done with
  | zero =>
    obtain rfl : len = 0 := by omega
    exact ⟨[], true, by rw [List.append_nil]; rfl, by simp, by simp, fun _ => rfl, by simp⟩
  | succ fuel ih =>
    rw [Kernel.copyinLoop]
    by_cases finished : len = 0
    · refine ⟨[], true, ?_, by simp, by simp, fun _ => finished.symm, by simp⟩
      rw [if_pos finished, List.append_nil]
      rfl
    rw [if_neg finished, run_bind (frames.walk good va)]
    by_cases absent : frame va = 0
    · refine ⟨[], false, ?_, by simp, by simp, by simp, fun _ => ⟨by simp; omega, by simpa⟩⟩
      rw [if_pos absent, List.append_nil]
      rfl
    · rw [if_neg absent, run_get_bind]
      obtain ⟨le, inPage⟩ := chunk_le va len
      have positive := chunk_pos va finished
      have here := fun i (inside : i < chunk va len) => frames.add (i := i) absent (by omega)
      have first : (List.range (chunk va len)).map (fun i =>
          k.mem (frame va + (va - pgRoundDown va) + i)) =
          (List.range (chunk va len)).map fun i => k.mem (place frame (va + i)) :=
        List.map_congr_left fun i inside => by rw [(here i (List.mem_range.mp inside)).2]
      obtain ⟨bytes, ok, ran, rest⟩ := @ih (len - chunk va len) (u64 (pgRoundDown va + PGSIZE))
        (by omega) (done ++ (List.range (chunk va len)).map fun i => k.mem (place frame (va + i)))
      have rest : CopiedIn frame k.mem (va + chunk va len) (len - chunk va len) bytes ok := by
        rcases next_chunk len (frames.low absent) with all | next
        · rw [all] at rest ⊢
          exact rest.zero
        · rwa [← next]
      refine ⟨_, ok, ?_, rest.append le fun i inside => (here i inside).1⟩
      rw [← List.append_assoc, ← first]
      rw [← first] at ran
      exact ran

end Copyin

/-! ## copyinstr -/

section Copyinstr

variable {mem : Bytes} {k : KState} {root va max n : Nat} {frame : Nat → Nat}
  {Good : KState → Prop} {bytes : List UInt8} {ok : Bool}

/-- The string at `va` has `n` bytes before its NUL, all of them mapped. -/
structure StringAt (frame : Nat → Nat) (mem : Bytes) (va n : Nat) : Prop where
  mapped : ∀ i, i ≤ n → frame (va + i) ≠ 0
  before : ∀ i, i < n → mem (place frame (va + i)) ≠ 0
  nul : mem (place frame (va + n)) = 0

theorem StringAt.unique {m : Nat} (ends : StringAt frame mem va n)
    (ends' : StringAt frame mem va m) : n = m := by
  rcases Nat.lt_trichotomy n m with less | same | more
  · exact absurd ends.nul (ends'.before n less)
  · exact same
  · exact absurd ends'.nul (ends.before m more)

/-- The string at `va` with its NUL, if it ends within `max` bytes. -/
structure CopiedStr (frame : Nat → Nat) (mem : Bytes) (va max : Nat) (bytes : List UInt8)
    (ok : Bool) : Prop where
  short : bytes.length ≤ max
  found : ok = true → ∃ n, n < max ∧ StringAt frame mem va n ∧
    bytes = (List.range n).map (fun i => mem (place frame (va + i))) ++ [0]
  missing : ok = false → ∀ n, n < max → ¬ StringAt frame mem va n

theorem untilNul_eq (mem : Bytes) (p n : Nat) : ∃ m, m ≤ n ∧
    untilNul mem p n = (List.range m).map (fun i => mem (p + i)) ∧ (∀ i, i < m → mem (p + i) ≠ 0) ∧
      (m < n → mem (p + m) = 0) := by
  induction n generalizing p with
  | zero => exact ⟨0, Nat.le_refl 0, rfl, by simp, by simp⟩
  | succ n ih =>
    rw [untilNul]
    by_cases nul : mem p = 0
    · exact ⟨0, Nat.zero_le _, by rw [if_pos nul]; rfl, by simp, fun _ => nul⟩
    · obtain ⟨m, le, same, nonzero, ends⟩ := ih (p + 1)
      have shift : ∀ i, p + 1 + i = p + (i + 1) := fun i => by omega
      simp only [shift] at same nonzero ends
      refine ⟨m + 1, by omega, ?_, fun i inside => ?_, fun less => ends (by omega)⟩
      · rw [if_neg nul, same, List.range_succ_eq_map]
        simp
      · cases i with
        | zero => exact nul
        | succ i => exact nonzero i (by omega)

theorem CopiedStr.append (le : n ≤ max) (mapped : ∀ i, i < n → frame (va + i) ≠ 0)
    (nonzero : ∀ i, i < n → mem (place frame (va + i)) ≠ 0)
    (rest : CopiedStr frame mem (va + n) (max - n) bytes ok) :
    CopiedStr frame mem va max
      ((List.range n).map (fun i => mem (place frame (va + i))) ++ bytes) ok := by
  have short := rest.short
  refine ⟨by simp; omega, fun yes => ?_, fun no m less ends => ?_⟩
  · obtain ⟨m, less, ends, rfl⟩ := rest.found yes
    refine ⟨n + m, by omega, ⟨fun i inside => ?_, fun i inside => ?_, ?_⟩, ?_⟩
    · by_cases first : i < n
      · exact mapped i first
      · have := ends.mapped (i - n) (by omega)
        rwa [show va + n + (i - n) = va + i by omega] at this
    · by_cases first : i < n
      · exact nonzero i first
      · have := ends.before (i - n) (by omega)
        rwa [show va + n + (i - n) = va + i by omega] at this
    · have := ends.nul
      rwa [Nat.add_assoc] at this
    · rw [← List.append_assoc, List.range_add, List.map_append, List.map_map]
      simp only [Function.comp_def, Nat.add_assoc]
  · by_cases first : m < n
    · exact nonzero m first ends.nul
    · refine rest.missing no (m - n) (by omega) ⟨fun i inside => ?_, fun i inside => ?_, ?_⟩
      · have := ends.mapped (n + i) (by omega)
        rwa [← Nat.add_assoc] at this
      · have := ends.before (n + i) (by omega)
        rwa [← Nat.add_assoc] at this
      · rw [show va + n + (m - n) = va + m by omega]
        exact ends.nul

theorem CopiedStr.zero {a : Nat} (copied : CopiedStr frame mem a 0 bytes ok) :
    CopiedStr frame mem va 0 bytes ok := by
  refine ⟨copied.short, fun yes => ?_, fun _ n less => absurd less (Nat.not_lt_zero n)⟩
  obtain ⟨n, less, -⟩ := copied.found yes
  exact absurd less (Nat.not_lt_zero n)

theorem Frames.copyinstrLoop (frames : Frames root frame Good) (good : Good k) (va : Nat)
    {fuel : Nat} (enough : max ≤ fuel) (done : List UInt8) : ∃ bytes ok,
      copyinstrLoop root fuel va max done k = .ok ((done ++ bytes, ok), k) ∧
        CopiedStr frame k.mem va max bytes ok := by
  induction fuel generalizing va max done with
  | zero =>
    obtain rfl : max = 0 := by omega
    exact ⟨[], false, by rw [List.append_nil]; rfl, by simp, by simp, by simp⟩
  | succ fuel ih =>
    rw [Kernel.copyinstrLoop]
    by_cases finished : max = 0
    · subst finished
      exact ⟨[], false, by rw [List.append_nil]; rfl, by simp, by simp, by simp⟩
    rw [if_neg finished, run_bind (frames.walk good va)]
    by_cases absent : frame va = 0
    · refine ⟨[], false, ?_, by simp, by simp, fun _ n _ ends => ends.mapped 0 (by simp) absent⟩
      rw [if_pos absent, List.append_nil]
      rfl
    · rw [if_neg absent, run_get_bind]
      obtain ⟨le, inPage⟩ := chunk_le va max
      have positive := chunk_pos va finished
      have here := fun i (inside : i < chunk va max) => frames.add (i := i) absent (by omega)
      obtain ⟨m, within, same, nonzero, ends⟩ :=
        untilNul_eq k.mem (frame va + (va - pgRoundDown va)) (chunk va max)
      have read : untilNul k.mem (frame va + (va - pgRoundDown va)) (chunk va max) =
          (List.range m).map fun i => k.mem (place frame (va + i)) := by
        rw [same]
        refine List.map_congr_left fun i inside => ?_
        rw [(here i (by have := List.mem_range.mp inside; omega)).2]
      have before : ∀ i, i < m → k.mem (place frame (va + i)) ≠ 0 := by
        intro i inside
        rw [(here i (by omega)).2]
        exact nonzero i inside
      rw [show min (PGSIZE - (va - pgRoundDown va)) max = chunk va max from rfl, read]
      rcases Nat.lt_or_eq_of_le within with less | all
      · -- the NUL is in this page
        refine ⟨(List.range m).map (fun i => k.mem (place frame (va + i))) ++ [0], true,
          ?_, by simp; omega, fun _ => ⟨m, by omega, ⟨fun i inside => (here i (by omega)).1,
            before, ?_⟩, rfl⟩, by simp⟩
        · rw [if_pos (by simpa using less), ← List.append_assoc]
          rfl
        · rw [(here m less).2]
          exact ends less
      · obtain ⟨bytes, ok, ran, rest⟩ := @ih (max - chunk va max) (u64 (pgRoundDown va + PGSIZE))
          (by omega) (done ++ (List.range m).map fun i => k.mem (place frame (va + i)))
        have rest : CopiedStr frame k.mem (va + m) (max - m) bytes ok := by
          rw [all]
          rcases next_chunk max (frames.low absent) with none_ | next
          · rw [none_] at rest ⊢
            exact rest.zero
          · rwa [← next]
        refine ⟨_, ok, ?_, rest.append (by omega) (fun i inside => (here i (by omega)).1) before⟩
        rw [if_neg (by simp [all]), ← List.append_assoc]
        exact ran

end Copyinstr

/-! ## copyout -/

section Copyout

variable {mem mem₁ mem' : Bytes} {k : KState} {root va len n : Nat} {frame : Nat → Nat}
  {Good : KState → Prop} {src : Bytes} {r : Int}

/-- All bytes up to `va + i` are mapped. -/
def Reached (frame : Nat → Nat) (va i : Nat) : Prop := ∀ j ≤ i, frame (va + j) ≠ 0

/-- `len` bytes of `src` are stored at `va`, up to the first that has no place. -/
structure CopiedOut (frame : Nat → Nat) (mem mem' : Bytes) (va : Nat) (src : Bytes) (len : Nat)
    (r : Int) : Prop where
  value : r = 0 ∧ (∀ i < len, frame (va + i) ≠ 0) ∨ r = -1 ∧ ∃ i < len, frame (va + i) = 0
  stored : ∀ i < len, Reached frame va i → mem' (place frame (va + i)) = src i
  other : ∀ a, (∀ i < len, Reached frame va i → a ≠ place frame (va + i)) → mem' a = mem a

theorem CopiedOut.ok_iff (copied : CopiedOut frame mem mem' va src len r) :
    r = 0 ↔ ∀ i < len, frame (va + i) ≠ 0 := by
  rcases copied.value with ⟨rfl, all⟩ | ⟨rfl, i, inside, missing⟩
  · exact iff_of_true rfl all
  · exact iff_of_false (by decide) fun all => all i inside missing

theorem CopiedOut.nothing (va : Nat) (src : Bytes) : CopiedOut frame mem mem va src 0 0 :=
  ⟨.inl ⟨rfl, fun i inside => absurd inside (Nat.not_lt_zero i)⟩,
    fun i inside => absurd inside (Nat.not_lt_zero i), fun _ _ => rfl⟩

theorem CopiedOut.zero {a : Nat} {src' : Bytes} (copied : CopiedOut frame mem mem' a src 0 r) :
    CopiedOut frame mem mem' va src' 0 r := by
  have none_ : ∀ i, ¬ i < 0 := Nat.not_lt_zero
  refine ⟨?_, fun i inside => absurd inside (none_ i),
    fun x _ => copied.other x fun i inside => absurd inside (none_ i)⟩
  rcases copied.value with ⟨ok, -⟩ | ⟨-, i, inside, -⟩
  · exact .inl ⟨ok, fun i inside => absurd inside (none_ i)⟩
  · exact absurd inside (none_ i)

/-- The first `n` bytes lie in one page, and the others are copied after them. -/
theorem CopiedOut.append (frames : Frames root frame Good) (le : n ≤ len)
    (here : ∀ i < n, frame (va + i) ≠ 0)
    (stored : ∀ i < n, mem₁ (place frame (va + i)) = src i)
    (kept : ∀ a, (∀ i < n, a ≠ place frame (va + i)) → mem₁ a = mem a)
    (rest : CopiedOut frame mem₁ mem' (va + n) (fun i => src (n + i)) (len - n) r) :
    CopiedOut frame mem mem' va src len r := by
  have at_ : ∀ i, n ≤ i → va + n + (i - n) = va + i := fun i later => by omega
  have split : ∀ i, Reached frame (va + n) i ↔ Reached frame va (n + i) := by
    refine fun i => ⟨fun reached j small => ?_, fun reached j small => ?_⟩
    · by_cases first : j < n
      · exact here j first
      · rw [← at_ j (by omega)]
        exact reached (j - n) (by omega)
    · rw [Nat.add_assoc]
      exact reached (n + j) (by omega)
  refine ⟨?_, fun i inside reached => ?_, fun a free => ?_⟩
  · rcases rest.value with ⟨ok, all⟩ | ⟨bad, i, less, missing⟩
    · refine .inl ⟨ok, fun i inside => ?_⟩
      by_cases first : i < n
      · exact here i first
      · rw [← at_ i (by omega)]
        exact all (i - n) (by omega)
    · exact .inr ⟨bad, n + i, by omega, by rwa [← Nat.add_assoc]⟩
  · by_cases first : i < n
    · -- the later bytes have other places
      rw [rest.other, stored i first]
      intro j less reached' taken
      have := frames.once (here i first) (reached' j (Nat.le_refl j)) taken
      omega
    · obtain ⟨j, rfl⟩ := Nat.exists_eq_add_of_le (Nat.le_of_not_lt first)
      rw [← Nat.add_assoc]
      exact rest.stored j (by omega) ((split j).mpr reached)
  · rw [rest.other, kept]
    · exact fun i inside => free i (by omega) fun j small => here j (by omega)
    · intro i less reached
      rw [Nat.add_assoc]
      exact free (n + i) (by omega) ((split i).mp reached)

theorem Frames.copyoutLoop (frames : Frames root frame Good) (good : Good k) (va : Nat)
    {fuel : Nat} (enough : len ≤ fuel) (src : Bytes) : ∃ r k',
      copyoutLoop root fuel va src len k = .ok (r, k') ∧ Good k' ∧
        CopiedOut frame k.mem k'.mem va src len r := by
  induction fuel generalizing k va len src with
  | zero =>
    obtain rfl : len = 0 := by omega
    exact ⟨0, k, rfl, good, .nothing va src⟩
  | succ fuel ih =>
    rw [Kernel.copyoutLoop]
    by_cases finished : len = 0
    · subst finished
      exact ⟨0, k, rfl, good, .nothing va src⟩
    rw [if_neg finished, run_bind (frames.walk good va)]
    by_cases absent : frame va = 0
    · rw [if_pos absent]
      exact ⟨-1, k, rfl, good, .inr ⟨rfl, 0, by omega, absent⟩,
        fun i _ reached => absurd absent (reached 0 (Nat.zero_le i)), fun _ _ => rfl⟩
    · rw [if_neg absent]
      obtain ⟨le, inPage⟩ := chunk_le va len
      have positive := chunk_pos va finished
      have offset : va % PGSIZE < PGSIZE := Nat.mod_lt _ (by decide)
      have here := fun i (inside : i < chunk va len) => frames.add (i := i) absent (by omega)
      have within : Within (frame va) k.mem
          (k.mem.splice (frame va + (va - pgRoundDown va)) (chunk va len) src) :=
        within_splice (Nat.le_add_right _ _) (by rw [sub_pgRoundDown]; omega)
      obtain ⟨r, k', ran, good', rest⟩ := @ih _ (len - chunk va len)
        (frames.write good absent within) (u64 (pgRoundDown va + PGSIZE)) (by omega)
        (fun i => src (chunk va len + i))
      have rest : CopiedOut frame
          (k.mem.splice (frame va + (va - pgRoundDown va)) (chunk va len) src) k'.mem
          (va + chunk va len) (fun i => src (chunk va len + i)) (len - chunk va len) r := by
        rcases next_chunk len (frames.low absent) with none_ | next
        · rw [none_] at rest ⊢
          exact rest.zero
        · rwa [← next]
      refine ⟨r, k', ran, good', .append frames le (fun i inside => (here i inside).1)
        (fun i inside => ?_) (fun a free => ?_) rest⟩
      · rw [(here i inside).2]
        exact Bytes.splice_inside inside
      · refine Bytes.splice_outside ?_
        by_contra covered
        have inside : a - (frame va + (va - pgRoundDown va)) < chunk va len := by omega
        refine free _ inside ?_
        rw [(here _ inside).2]
        omega

end Copyout

/-! ## Fuel

Every turn copies at least one byte, so more turns than bytes change nothing.
-/

section Fuel

variable {root fuel fuel' len : Nat} (va : Nat) (enough : len ≤ fuel) (enough' : len ≤ fuel')
include enough enough'

theorem copyinLoop_fuel (done : List UInt8) :
    copyinLoop root fuel va len done = copyinLoop root fuel' va len done := by
  refine fuel_irrelevant (x := (va, len, done)) (fun n x => copyinLoop root n x.1 x.2.1 x.2.2)
    (fun x => x.2.1) ?_ ?_ enough enough'
  · rintro n ⟨va, len, done⟩ rfl
    cases n <;> rfl
  · rintro n n' ⟨va, len, done⟩ more same
    have step : 0 < min (PGSIZE - (va - pgRoundDown va)) len := chunk_pos va more
    simp only [copyinLoop, if_neg more]
    refine congrArg (walkaddr root (pgRoundDown va) >>= ·) (funext fun pa0 => ?_)
    split
    · rfl
    · exact congrArg (get >>= ·) (funext fun k => same (_, _, _) (by simp only at more ⊢; omega))

theorem copyinstrLoop_fuel (done : List UInt8) :
    copyinstrLoop root fuel va len done = copyinstrLoop root fuel' va len done := by
  refine fuel_irrelevant (x := (va, len, done)) (fun n x => copyinstrLoop root n x.1 x.2.1 x.2.2)
    (fun x => x.2.1) ?_ ?_ enough enough'
  · rintro n ⟨va, len, done⟩ rfl
    cases n <;> rfl
  · rintro n n' ⟨va, len, done⟩ more same
    have step : 0 < min (PGSIZE - (va - pgRoundDown va)) len := chunk_pos va more
    simp only [copyinstrLoop, if_neg more]
    refine congrArg (walkaddr root (pgRoundDown va) >>= ·) (funext fun pa0 => ?_)
    split
    · rfl
    · refine congrArg (get >>= ·) (funext fun k => ?_)
      split
      · rfl
      · exact same (_, _, _) (by simp only at more ⊢; omega)

theorem copyoutLoop_fuel (src : Bytes) :
    copyoutLoop root fuel va src len = copyoutLoop root fuel' va src len := by
  refine fuel_irrelevant (x := (va, src, len)) (fun n x => copyoutLoop root n x.1 x.2.1 x.2.2)
    (fun x => x.2.2) ?_ ?_ enough enough'
  · rintro n ⟨va, src, len⟩ rfl
    cases n <;> rfl
  · rintro n n' ⟨va, src, len⟩ more same
    have step : 0 < min (PGSIZE - (va - pgRoundDown va)) len := chunk_pos va more
    simp only [copyoutLoop, if_neg more]
    refine congrArg (walkaddr root (pgRoundDown va) >>= ·) (funext fun pa0 => ?_)
    split
    · rfl
    · exact congrArg (writeBytes _ _ src >>= ·)
        (funext fun _ => same (_, _, _) (by simp only at more ⊢; omega))

end Fuel

end Xv6.Kernel
