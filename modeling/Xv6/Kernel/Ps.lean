import Xv6.Kernel.UserCopy

/-! # ps

`ps` fills an array on the kernel stack with entries for the processes, up to the first
slot that is not used, and copies the whole array to memory that it has just added to
the caller. What user code finds there is what the loop has written, and what was on the
stack before.
-/

namespace Xv6.Kernel

open Lib PageMap Function

/-! ## The array -/

section Loop

variable {k k₂ : KState} {q : Fin NPROC} {i j count : Nat} {buf buf₂ : Bytes}
  {slots : List (Fin NPROC)}

theorem psEntry_outside (outside : j < USER_PROC_SIZE * i ∨
      USER_PROC_SIZE * i + USER_PROC_SIZE ≤ j) :
    psEntry k q i buf j = buf j := by
  unfold USER_PROC_SIZE at outside
  cases parent : (k.procs q).parent <;> simp only [psEntry, parent, Bytes.setLE, USER_PROC_SIZE] <;>
    repeat rw [Bytes.splice_outside (by omega)]

/-- Byte `c` of the entry for slot `q`, where there was `old`. -/
def entryByte (k : KState) (q : Fin NPROC) (old : UInt8) (c : Nat) : UInt8 :=
  if c < 4 then Bytes.digits (k.procs q).state.code c
  else if c < 8 then Bytes.digits (if (k.procs q).killed then 1 else 0) (c - 4)
  else if c < 12 then Bytes.digits ((k.procs q).xstate % 2 ^ 32).toNat (c - 8)
  else if c < 16 then Bytes.digits (k.procs q).pid.toNat (c - 12)
  else if c < 20 then (k.procs q).parent.elim old fun r =>
    Bytes.digits (k.procs r).pid.toNat (c - 16)
  else ofList (List.ofFn (k.procs q).name) (c - 20)

theorem psEntry_inside {c : Nat} (inside : c < USER_PROC_SIZE) :
    psEntry k q i buf (USER_PROC_SIZE * i + c) =
      entryByte k q (buf (USER_PROC_SIZE * i + c)) c := by
  unfold USER_PROC_SIZE at *
  -- a field of `n` bytes at offset `a`
  have field : ∀ (m : Bytes) (a n : Nat) (src : Bytes), m.splice (36 * i + a) n src (36 * i + c) =
      if a ≤ c ∧ c < a + n then src (c - a) else m (36 * i + c) := by
    intro m a n src
    rw [Bytes.splice, show 36 * i + c - (36 * i + a) = c - a by omega]
    exact if_congr (by omega) rfl rfl
  have first := fun (m : Bytes) (src : Bytes) => field m 0 4 src
  simp only [Nat.add_zero, Nat.sub_zero, Nat.zero_add] at first
  have ranges : c < 4 ∨ (4 ≤ c ∧ c < 8) ∨ (8 ≤ c ∧ c < 12) ∨ (12 ≤ c ∧ c < 16) ∨
      (16 ≤ c ∧ c < 20) ∨ (20 ≤ c ∧ c < 36) := by
    omega
  cases parent : (k.procs q).parent <;>
    simp only [psEntry, parent, Bytes.setLE, USER_PROC_SIZE, field, first, entryByte,
      Option.elim_none, Option.elim_some] <;>
    rcases ranges with h | h | h | h | h | h <;>
    simp (disch := omega) only [if_pos, if_neg]

/-- The fields of an entry for slot `q`. -/
structure IsEntry (k : KState) (q : Fin NPROC) (a : Bytes) (i : Nat) : Prop where
  state : a.getLE (USER_PROC_SIZE * i) 4 = (k.procs q).state.code
  pid : a.getLE (USER_PROC_SIZE * i + 12) 4 = (k.procs q).pid.toNat
  parent : ∀ r, (k.procs q).parent = some r →
    a.getLE (USER_PROC_SIZE * i + 16) 4 = (k.procs r).pid.toNat
  name : ∀ c : Fin 16, a (USER_PROC_SIZE * i + 20 + c) = (k.procs q).name c

theorem ProcState.code_lt (s : ProcState) : s.code < 256 ^ 4 := by cases s <;> decide

theorem ProcState.code_eq_zero {s : ProcState} : s.code = 0 ↔ s = .unused := by cases s <;> decide

theorem isEntry_of_bytes (old : Nat → UInt8)
    (bytes : ∀ c, c < USER_PROC_SIZE → buf (USER_PROC_SIZE * i + c) = entryByte k q (old c) c) :
    IsEntry k q buf i := by
  have pid : ∀ r, (k.procs r).pid.toNat < 256 ^ 4 := fun r =>
    Nat.lt_of_lt_of_eq (k.procs r).pid.isLt (by decide)
  have field : ∀ (a v : Nat), a + 4 ≤ USER_PROC_SIZE → v < 256 ^ 4 →
      (∀ c, c < 4 → entryByte k q (old (a + c)) (a + c) = Bytes.digits v c) →
      buf.getLE (USER_PROC_SIZE * i + a) 4 = v := by
    intro a v fits small same
    rw [Bytes.getLE_digits (v := v), Nat.mod_eq_of_lt small]
    intro c inside
    rw [Nat.add_assoc, bytes (a + c) (by omega), same c inside]
  refine ⟨field 0 _ (by decide) (ProcState.code_lt _) fun c inside => ?_,
    field 12 _ (by decide) (pid q) fun c inside => ?_,
    fun r some_ => field 16 _ (by decide) (pid r) fun c inside => ?_, fun c => ?_⟩
  · rw [Nat.zero_add, entryByte, if_pos inside]
  · simp (disch := omega) only [entryByte, if_pos, if_neg, Nat.add_sub_cancel_left]
  · simp (disch := omega) only [entryByte, if_pos, if_neg, Nat.add_sub_cancel_left, some_,
      Option.elim_some]
  · rw [Nat.add_assoc, bytes (20 + c) (by unfold USER_PROC_SIZE; omega)]
    simp (disch := omega) only [entryByte, if_neg, Nat.add_sub_cancel_left]
    rw [ofList, List.getD_eq_getElem?_getD, List.getElem?_ofFn, dif_pos c.isLt, Option.getD_some]

/-- The processes that the loop comes to before it stops. -/
def scanned (k : KState) (slots : List (Fin NPROC)) (n : Nat) : List (Fin NPROC) :=
  (slots.takeWhile fun q => (k.procs q).state ≠ .unused).take n

/-- The loop from entry `i` on: an entry for each process that it comes to, and nothing else
    but the state of the entry after them. -/
theorem psLoop_spec (k : KState) (count : Nat) (slots : List (Fin NPROC)) (i : Nat) (buf : Bytes)
    (le : i ≤ count) :
    (psLoop k count slots i buf).1 = i + (scanned k slots (count - i)).length ∧
      (∀ j, j < USER_PROC_SIZE * i → (psLoop k count slots i buf).2 j = buf j) ∧
      (∀ j, USER_PROC_SIZE * (psLoop k count slots i buf).1 + 4 ≤ j →
        (psLoop k count slots i buf).2 j = buf j) ∧
      ∀ n q, (scanned k slots (count - i))[n]? = some q → ∀ c, c < USER_PROC_SIZE →
        (psLoop k count slots i buf).2 (USER_PROC_SIZE * (i + n) + c) =
          entryByte k q (buf (USER_PROC_SIZE * (i + n) + c)) c := by
  induction slots generalizing i buf with
  | nil => simp [psLoop, scanned]
  | cons q rest ih =>
    rw [psLoop]
    by_cases full : i = count
    · rw [if_pos full]
      simp [scanned, full]
    rw [if_neg full]
    by_cases unused : (k.procs q).state = .unused
    · rw [if_pos unused]
      have none_ : scanned k (q :: rest) (count - i) = [] := by
        simp [scanned, unused]
      rw [none_]
      refine ⟨rfl, fun j below => ?_, fun j above => ?_, fun n q bad => by cases bad⟩
      · exact Bytes.splice_outside (.inl below)
      · exact Bytes.splice_outside (.inr above)
    · rw [if_neg unused]
      have more : scanned k (q :: rest) (count - i) = q :: scanned k rest (count - (i + 1)) := by
        rw [scanned, List.takeWhile_cons, if_pos (by simpa using unused),
          show count - i = count - (i + 1) + 1 by omega, List.take_succ_cons, scanned]
      obtain ⟨stops, below, above, entries⟩ := ih (i + 1) (psEntry k q i buf) (by omega)
      have after : USER_PROC_SIZE * i + USER_PROC_SIZE = USER_PROC_SIZE * (i + 1) := rfl
      have ordered : ∀ {m n}, m ≤ n → USER_PROC_SIZE * m ≤ USER_PROC_SIZE * n :=
        Nat.mul_le_mul_left _
      rw [more, List.length_cons]
      refine ⟨by omega, fun j low => ?_, fun j high => ?_, fun n q' at_ c inside => ?_⟩
      · rw [below j (by omega), psEntry_outside (.inl low)]
      · have := ordered (show i + 1 ≤ (psLoop k count rest (i + 1) (psEntry k q i buf)).1 by omega)
        rw [above j high, psEntry_outside (.inr (by omega))]
      · cases n with
        | zero =>
          obtain rfl : q = q' := Option.some.inj at_
          rw [show i + 0 = i from rfl, below _ (by omega), psEntry_inside inside]
        | succ n =>
          have later := entries n q' at_ c inside
          rw [show i + 1 + n = i + (n + 1) by omega] at later
          have := ordered (show i + 1 ≤ i + (n + 1) by omega)
          rw [later, psEntry_outside (.inr (by omega))]

end Loop

/-- The array that `ps` copies to user code; `stack` is what was there before. -/
def psArray (k : KState) (count : Nat) (stack : Bytes) : Bytes :=
  let (localCount, buf) := psLoop k count (List.finRange NPROC) 0 stack
  if localCount < count then buf.setLE (USER_PROC_SIZE * localCount) 4 ProcState.unused.code
    else buf

section Array

variable {k k₂ : KState} {q : Fin NPROC} {n j c count : Nat} {stack : Bytes}

theorem psArray_entry (at_ : (scanned k (List.finRange NPROC) count)[n]? = some q)
    (inside : c < USER_PROC_SIZE) : psArray k count stack (USER_PROC_SIZE * n + c) =
      entryByte k q (stack (USER_PROC_SIZE * n + c)) c := by
  obtain ⟨stops, _, _, entries⟩ :=
    psLoop_spec k count (List.finRange NPROC) 0 stack (Nat.zero_le count)
  have entry := entries n q at_ c inside
  rw [Nat.zero_add] at entry stops
  obtain ⟨less, _⟩ := List.getElem?_eq_some_iff.mp at_
  have before : USER_PROC_SIZE * n + USER_PROC_SIZE ≤
      USER_PROC_SIZE * (scanned k (List.finRange NPROC) count).length := Nat.mul_le_mul_left _ less
  rw [Nat.sub_zero] at stops
  simp only [psArray]
  split
  · rw [Bytes.setLE, Bytes.splice_outside (.inl (by rw [stops]; omega)), entry]
  · exact entry

theorem psArray_marker (less : (scanned k (List.finRange NPROC) count).length < count)
    (inside : c < 4) : psArray k count stack
      (USER_PROC_SIZE * (scanned k (List.finRange NPROC) count).length + c) = 0 := by
  obtain ⟨stops, -⟩ := psLoop_spec k count (List.finRange NPROC) 0 stack (Nat.zero_le count)
  rw [Nat.zero_add, Nat.sub_zero] at stops
  simp only [psArray]
  rw [stops, if_pos less, Bytes.setLE, Bytes.splice_inside inside, ProcState.code, Bytes.digits,
    Nat.zero_div]
  rfl

theorem psArray_rest
    (above : USER_PROC_SIZE * (scanned k (List.finRange NPROC) count).length + 4 ≤ j) :
    psArray k count stack j = stack j := by
  obtain ⟨stops, _, rest, _⟩ :=
    psLoop_spec k count (List.finRange NPROC) 0 stack (Nat.zero_le count)
  rw [Nat.zero_add, Nat.sub_zero] at stops
  have same := rest j (by rw [stops]; exact above)
  simp only [psArray]
  split
  · rw [Bytes.setLE, Bytes.splice_outside (.inr (by rw [stops]; exact above)), same]
  · exact same

end Array

/-! ## The ways out of `ps` -/

section Ways

variable {L : Layout} {k k₁ : KState} {p : Fin NPROC} {start count : UInt8} {stack : Bytes}

/-- `proc + start * sizeof(proc)` lies in the table only for `start = 0`. -/
theorem past_table : start.toNat * PROC_ARRAY_SIZE ≥ NPROC ↔ start ≠ 0 := by
  rw [ne_eq, ← UInt8.toNat_inj]
  unfold PROC_ARRAY_SIZE NPROC
  have : (0 : UInt8).toNat = 0 := rfl
  omega

theorem ps_refused (some_ : count ≠ 0)
    (refused : growproc L p (count.toNat * USER_PROC_SIZE) k = .ok (-1, k₁)) :
    ps L p start count stack k = .ok (0, k₁) := by
  simp only [ps]
  rw [run_bind (getProc_run p k)]
  simp only [if_neg some_]
  rw [run_bind refused]
  rfl

theorem ps_past (some_ : count ≠ 0) (past : start ≠ 0)
    (grown : growproc L p (count.toNat * USER_PROC_SIZE) k = .ok (0, k₁)) :
    ps L p start count stack k = .ok (0, k₁) := by
  simp only [ps]
  rw [run_bind (getProc_run p k)]
  simp only [if_neg some_]
  rw [run_bind grown]
  simp only [show ¬(0 : Int) < 0 by decide, if_false, if_pos (past_table.mpr past)]
  rfl

theorem ps_overruns (some_ : count ≠ 0) (large : L.stack < count.toNat * USER_PROC_SIZE)
    (grown : growproc L p (count.toNat * USER_PROC_SIZE) k = .ok (0, k₁)) :
    ps L p 0 count stack k = .error overrun := by
  have inside : ¬ (0 : UInt8).toNat * PROC_ARRAY_SIZE ≥ NPROC := fun past => past_table.mp past rfl
  simp only [ps]
  rw [run_bind (getProc_run p k)]
  simp only [if_neg some_]
  rw [run_bind grown]
  simp only [show ¬(0 : Int) < 0 by decide, if_false, if_neg inside, if_pos large]
  rfl

theorem ps_copies (some_ : count ≠ 0) (fits : count.toNat * USER_PROC_SIZE ≤ L.stack)
    (grown : growproc L p (count.toNat * USER_PROC_SIZE) k = .ok (0, k₁)) :
    ps L p 0 count stack k = (do
      let _ ← copyout (k₁.procs p).pagetable (k.procs p).sz (psArray k₁ count.toNat stack)
        (count.toNat * USER_PROC_SIZE)
      return (k.procs p).sz : KM Nat) k₁ := by
  have inside : ¬ (0 : UInt8).toNat * PROC_ARRAY_SIZE ≥ NPROC := fun past => past_table.mp past rfl
  simp only [ps]
  rw [run_bind (getProc_run p k)]
  simp only [if_neg some_]
  rw [run_bind grown]
  simp only [show ¬(0 : Int) < 0 by decide, if_false, if_neg inside, if_neg (Nat.not_lt.mpr fits)]
  rw [run_get_bind]
  rfl

end Ways

/-! ## How far the loop gets -/

section Scan

variable {k k₂ : KState} {q : Fin NPROC} {n count : Nat}

/-- The first slot that is not used. -/
def firstUnused (k : KState) : Nat :=
  (List.finRange NPROC).findIdx fun q => (k.procs q).state = .unused

theorem firstUnused_le_nproc (k : KState) : firstUnused k ≤ NPROC :=
  Nat.le_trans List.findIdx_le_length (Nat.le_of_eq List.length_finRange)

theorem used_of_lt (before : q.val < firstUnused k) : (k.procs q).state ≠ .unused := by
  have := List.not_of_lt_findIdx before
  simpa using this

theorem firstUnused_le (unused : (k.procs q).state = .unused) : firstUnused k ≤ q.val :=
  Nat.not_lt.mp fun before => used_of_lt before unused

theorem unused_of_eq (here : firstUnused k = q.val) : (k.procs q).state = .unused := by
  rw [firstUnused, List.findIdx_eq (by simp), List.getElem_finRange] at here
  exact of_decide_eq_true here.1

theorem scanned_eq (k : KState) (n : Nat) :
    scanned k (List.finRange NPROC) n = (List.finRange NPROC).take (min n (firstUnused k)) := by
  rw [scanned, List.takeWhile_eq_take_findIdx_not, List.take_take, firstUnused]
  simp only [ne_eq, decide_not, Bool.not_not]

theorem scanned_length (k : KState) (n : Nat) :
    (scanned k (List.finRange NPROC) n).length = min n (firstUnused k) := by
  have := firstUnused_le_nproc k
  rw [scanned_eq, List.length_take, List.length_finRange]
  omega

theorem scanned_get (early : q.val < count) (before : q.val < firstUnused k) :
    (scanned k (List.finRange NPROC) count)[q.val]? = some q := by
  rw [scanned_eq, List.getElem?_take, if_pos (by omega), List.getElem?_eq_getElem (by simp),
    List.getElem_finRange]
  rfl

/-- The slots that `ps` is asked to report. -/
def listed (k : KState) (start count : Nat) : List (Fin NPROC) :=
  (((List.finRange NPROC).drop start).filter fun q => (k.procs q).state ≠ .unused).take count

/-- The slots before the first that is not used, and what is used after it. -/
theorem listed_zero (k : KState) (count : Nat) :
    listed k 0 count = ((List.finRange NPROC).take (firstUnused k) ++
      ((List.finRange NPROC).drop (firstUnused k)).filter fun q => (k.procs q).state ≠ .unused).take
        count := by
  have first : ((List.finRange NPROC).take (firstUnused k)).filter
      (fun q => (k.procs q).state ≠ .unused) = (List.finRange NPROC).take (firstUnused k) := by
    refine List.filter_eq_self.mpr fun q mem => ?_
    obtain ⟨i, inside, rfl⟩ := List.mem_take_iff_getElem.mp mem
    rw [List.getElem_finRange]
    simp only [ne_eq, decide_eq_true_eq]
    exact used_of_lt (q := Fin.cast _ ⟨i, _⟩) (by simp only [Fin.val_cast]; omega)
  rw [listed, List.drop_zero]
  nth_rewrite 1 [← List.take_append_drop (firstUnused k) (List.finRange NPROC)]
  rw [List.filter_append, first]

/-- After a slot of the first `count` that is not used there is none that is. -/
def HoleFree (k : KState) (count : Nat) : Prop :=
  ∀ q : Fin NPROC, q.val < count → (k.procs q).state = .unused →
    ∀ r : Fin NPROC, q.val < r.val → (k.procs r).state = .unused

theorem mem_drop_finRange {m : Nat} (mem : q ∈ (List.finRange NPROC).drop m) : m ≤ q.val := by
  obtain ⟨j, inside, rfl⟩ := List.mem_drop_iff_getElem.mp mem
  rw [List.getElem_finRange]
  exact Nat.le_add_right m j

theorem HoleFree.listed_eq (free : HoleFree k count) :
    listed k 0 count = scanned k (List.finRange NPROC) count := by
  rw [listed_zero, scanned_eq]
  by_cases early : count ≤ firstUnused k
  · rw [List.take_append_of_le_length, List.take_take]
    have := firstUnused_le_nproc k
    rw [List.length_take, List.length_finRange]
    omega
  · have none_ : ((List.finRange NPROC).drop (firstUnused k)).filter
        (fun q => (k.procs q).state ≠ .unused) = [] := by
      refine List.filter_eq_nil_iff.mpr fun q mem => ?_
      have after := mem_drop_finRange mem
      simp only [ne_eq, decide_eq_true_eq, not_not]
      by_cases here : firstUnused k = q.val
      · exact unused_of_eq here
      · have inside : firstUnused k < NPROC := Nat.lt_of_le_of_lt after q.isLt
        exact free ⟨firstUnused k, inside⟩ (Nat.not_le.mp early) (unused_of_eq rfl) q
          (Nat.lt_of_le_of_ne after here)
    rw [none_, List.append_nil, List.take_take]

/-- With a hole there is a process that the loop does not come to. -/
theorem exists_missed (hole : ¬HoleFree k count) : firstUnused k < count ∧
    ∃ q, (listed k 0 count)[firstUnused k]? = some q ∧ (k.procs q).state ≠ .unused := by
  simp only [HoleFree, not_forall] at hole
  obtain ⟨q, early, unused, r, after, used⟩ := hole
  have before := firstUnused_le unused
  have less : firstUnused k < count := Nat.lt_of_le_of_lt before early
  have found : r ∈ ((List.finRange NPROC).drop (firstUnused k)).filter
      (fun q => (k.procs q).state ≠ .unused) := by
    refine List.mem_filter.mpr ⟨List.mem_drop_iff_getElem.mpr ⟨r.val - firstUnused k, ?_, ?_⟩, ?_⟩
    · rw [List.length_finRange]
      have := r.isLt
      omega
    · rw [List.getElem_finRange]
      exact Fin.ext (by simp only [Fin.val_cast]; omega)
    · simpa using used
  have total := firstUnused_le_nproc k
  have length : ((List.finRange NPROC).take (firstUnused k)).length = firstUnused k := by
    rw [List.length_take, List.length_finRange, Nat.min_eq_left total]
  refine ⟨less, ?_⟩
  rw [listed_zero, List.getElem?_take, if_pos less, List.getElem?_append_right (by omega), length,
    Nat.sub_self]
  cases rest : ((List.finRange NPROC).drop (firstUnused k)).filter
      (fun q => (k.procs q).state ≠ .unused) with
  | nil =>
    rw [rest] at found
    cases found
  | cons q' tail =>
    refine ⟨q', rfl, ?_⟩
    have mem : q' ∈ ((List.finRange NPROC).drop (firstUnused k)).filter
        (fun q => (k.procs q).state ≠ .unused) := rest ▸ List.mem_cons_self
    simpa using (List.mem_filter.mp mem).2

end Scan

/-! ## What the caller may not see -/

/-- The states agree in the fields that `ps` reports. -/
structure SameReport (k k₂ : KState) : Prop where
  state : ∀ q, (k₂.procs q).state = (k.procs q).state
  killed : ∀ q, (k₂.procs q).killed = (k.procs q).killed
  xstate : ∀ q, (k₂.procs q).xstate = (k.procs q).xstate
  pid : ∀ q, (k₂.procs q).pid = (k.procs q).pid
  parent : ∀ q, (k₂.procs q).parent.map (fun r => (k₂.procs r).pid) =
    (k.procs q).parent.map fun r => (k.procs r).pid
  name : ∀ q, (k₂.procs q).name = (k.procs q).name

/-- `ps` gets as far as `copyout`, which is to copy `buf`. -/
def PsCopies (L : Layout) (p : Fin NPROC) (start count : UInt8) (stack : Bytes) (k : KState)
    (buf : Bytes) : Prop :=
  count ≠ 0 ∧ start.toNat * PROC_ARRAY_SIZE < NPROC ∧
    count.toNat * USER_PROC_SIZE ≤ L.stack ∧
    ∃ k₁, growproc L p (count.toNat * USER_PROC_SIZE) k = .ok (0, k₁) ∧
      buf = psArray k₁ count.toNat stack

/-- What `ps` copies for the caller `p` is the same in every state that agrees with `k` in
    what is to be reported, whatever was on the stack. -/
def LeaksNothing (L : Layout) (k : KState) (p : Fin NPROC) (start count : UInt8) : Prop :=
  ∀ fixed k₂ g₂ stack stack₂ buf buf₂, Inv L fixed k₂ g₂ 0 (fun _ => 0) → SameReport k k₂ →
    PsCopies L p start count stack k buf → PsCopies L p start count stack₂ k₂ buf₂ →
    ∀ j, j < count.toNat * USER_PROC_SIZE → buf₂ j = buf j

section Report

variable {L : Layout} {fixed : Multiset Nat} {k k₁ k₂ k₃ : KState} {g : Ghost} {p q : Fin NPROC}
  {start count : UInt8} {stack buf : Bytes} {c : Nat}

theorem SameReport.refl (k : KState) : SameReport k k :=
  ⟨fun _ => rfl, fun _ => rfl, fun _ => rfl, fun _ => rfl, fun _ => rfl, fun _ => rfl⟩

theorem SameReport.symm (same : SameReport k k₂) : SameReport k₂ k :=
  ⟨fun q => (same.state q).symm, fun q => (same.killed q).symm, fun q => (same.xstate q).symm,
    fun q => (same.pid q).symm, fun q => (same.parent q).symm, fun q => (same.name q).symm⟩

theorem SameReport.trans (first : SameReport k k₂) (second : SameReport k₂ k₃) : SameReport k k₃ :=
  ⟨fun q => (second.state q).trans (first.state q),
    fun q => (second.killed q).trans (first.killed q),
    fun q => (second.xstate q).trans (first.xstate q), fun q => (second.pid q).trans (first.pid q),
    fun q => (second.parent q).trans (first.parent q),
    fun q => (second.name q).trans (first.name q)⟩

theorem sameReport_resized {sz : Nat}
    (procs : k₁.procs = update k.procs p { k.procs p with sz := sz }) : SameReport k k₁ := by
  have each : ∀ q, ∃ n, k₁.procs q = { k.procs q with sz := n } := by
    intro q
    rw [procs]
    by_cases same : q = p
    · exact ⟨sz, by rw [same, update_self]⟩
    · exact ⟨(k.procs q).sz, by rw [update_of_ne same]⟩
  have pid : ∀ q, (k₁.procs q).pid = (k.procs q).pid := fun q => by
    obtain ⟨n, same⟩ := each q
    rw [same]
  refine ⟨fun q => ?_, fun q => ?_, fun q => ?_, pid, fun q => ?_, fun q => ?_⟩ <;>
    obtain ⟨n, same⟩ := each q <;> rw [same]
  simp only [pid]

theorem Inv.grown_report {n : Nat} (inv : Inv L fixed k g 0 fun _ => 0)
    (used : (k.procs p).state ≠ .unused) (small : n < 2 ^ 31)
    (grown : growproc L p n k = .ok (0, k₁)) : SameReport k k₁ := by
  obtain ⟨r, k', free', t', ran, _, grew, _⟩ :=
    inv.growproc_grew (n := n) used (by omega) (by omega)
  rw [ran, Except.ok.injEq, Prod.mk.injEq] at grown
  obtain ⟨rfl, rfl⟩ := grown
  cases grew with
  | moved sz value size procs _ => exact sameReport_resized procs
  | refused value => exact absurd value (by decide)

theorem SameReport.parent_none (same : SameReport k k₂) :
    (k₂.procs q).parent = none ↔ (k.procs q).parent = none := by
  rw [← Option.map_eq_none_iff (f := fun r => (k₂.procs r).pid), same.parent,
    Option.map_eq_none_iff]

/-- With a parent every byte of an entry is written, from the report. -/
theorem SameReport.entryByte_eq (same : SameReport k k₂) (parent : (k.procs q).parent ≠ none)
    (old old₂ : UInt8) (c : Nat) : entryByte k₂ q old₂ c = entryByte k q old c := by
  have pids := same.parent q
  obtain ⟨r, some_⟩ := Option.ne_none_iff_exists'.mp parent
  obtain ⟨r₂, some₂⟩ := Option.ne_none_iff_exists'.mp (mt same.parent_none.mp parent)
  rw [some_, some₂, Option.map_some, Option.map_some, Option.some.injEq] at pids
  simp only [entryByte, same.state, same.killed, same.xstate, same.pid q, same.name, some_, some₂,
    Option.elim_some, pids]

theorem SameReport.firstUnused_eq (same : SameReport k k₂) : firstUnused k₂ = firstUnused k := by
  simp only [firstUnused, same.state]

/-- Every one of the first `n` slots has a process with a parent. -/
def AllReported (k : KState) (n : Nat) : Prop :=
  n ≤ NPROC ∧ ∀ q : Fin NPROC, q.val < n → (k.procs q).state ≠ .unused ∧ (k.procs q).parent ≠ none

theorem AllReported.firstUnused_ge {n : Nat} (all : AllReported k n) : n ≤ firstUnused k := by
  by_contra early
  have inside : firstUnused k < NPROC := by
    have := all.1
    omega
  exact (all.2 ⟨firstUnused k, inside⟩ (Nat.not_le.mp early)).1 (unused_of_eq rfl)

theorem AllReported.psArray_eq {n j : Nat} (all : AllReported k n) (same : SameReport k k₂)
    (stack stack₂ : Bytes) (inside : j < n * USER_PROC_SIZE) :
    psArray k₂ n stack₂ j = psArray k n stack j := by
  have size : 0 < USER_PROC_SIZE := by decide
  have entry : j / USER_PROC_SIZE < n := Nat.div_lt_of_lt_mul (Nat.mul_comm n _ ▸ inside)
  have offset := Nat.mod_lt j size
  have below := all.firstUnused_ge
  have slot : j / USER_PROC_SIZE < NPROC := Nat.lt_of_lt_of_le entry all.1
  have there := scanned_get (k := k) (q := ⟨_, slot⟩) entry (Nat.lt_of_lt_of_le entry below)
  have there₂ := scanned_get (k := k₂) (q := ⟨_, slot⟩) entry
    (same.firstUnused_eq ▸ Nat.lt_of_lt_of_le entry below)
  rw [← Nat.div_add_mod j USER_PROC_SIZE, psArray_entry there offset, psArray_entry there₂ offset]
  exact same.entryByte_eq (all.2 ⟨_, slot⟩ entry).2 _ _ _

/-- Otherwise some byte of the array is what was on the stack. -/
theorem exists_leak {n : Nat} (notAll : ¬AllReported k n) :
    ∃ j, j < n * USER_PROC_SIZE ∧ ∀ stack, psArray k n stack j = stack j := by
  have size : USER_PROC_SIZE = 36 := rfl
  by_cases short : firstUnused k < n
  · -- the end of the entry that only says where the list ends
    refine ⟨USER_PROC_SIZE * firstUnused k + 35, by rw [size]; omega, fun stack => psArray_rest ?_⟩
    rw [scanned_length, Nat.min_eq_right (Nat.le_of_lt short)]
    omega
  · have all : n ≤ NPROC := Nat.le_trans (Nat.not_lt.mp short) (firstUnused_le_nproc k)
    simp only [AllReported, all, true_and, not_forall] at notAll
    obtain ⟨q, early, orphan⟩ := notAll
    have before : q.val < firstUnused k := by omega
    have none_ : (k.procs q).parent = none := by
      by_contra parent
      exact orphan ⟨used_of_lt before, parent⟩
    refine ⟨USER_PROC_SIZE * q + 16, by rw [size]; omega, fun stack => ?_⟩
    rw [psArray_entry (scanned_get early before) (by decide), entryByte]
    simp only [none_, Option.elim_none]
    rfl

/-- `ps` leaks nothing if and only if it does not get as far as to copy, or fills every entry:
    there are `count` processes in the first slots, and each has a parent. -/
theorem ps_leaksNothing_iff (inv : Inv L fixed k g 0 fun _ => 0)
    (running : (k.procs p).state = .running) (start count : UInt8) :
    LeaksNothing L k p start count ↔
      count = 0 ∨ start ≠ 0 ∨ (∃ k₁, growproc L p (count.toNat * USER_PROC_SIZE) k = .ok (-1, k₁)) ∨
        L.stack < count.toNat * USER_PROC_SIZE ∨ AllReported k count.toNat := by
  have used := running_used running
  have small : count.toNat * USER_PROC_SIZE < 2 ^ 31 := by
    have := count.toNat_lt
    unfold USER_PROC_SIZE
    omega
  constructor
  · intro leaksNothing
    by_contra not_
    simp only [not_or, not_not, not_lt] at not_
    obtain ⟨some_, rfl, notRefused, fits, notAll⟩ := not_
    obtain ⟨r, k₁, free', t', ran, _, grew, _⟩ :=
      inv.growproc_grew (n := (count.toNat * USER_PROC_SIZE : Nat)) used (by omega) (by omega)
    rw [Nat.cast_mul] at ran
    cases grew with
    | refused value => exact notRefused ⟨k₁, value ▸ ran⟩
    | moved sz value _ procs _ =>
        subst value
        have report := sameReport_resized procs
        obtain ⟨j, inside, leak⟩ := exists_leak (k := k₁) (n := count.toNat) fun all =>
          notAll ⟨all.1, fun q early => ⟨report.state q ▸ (all.2 q early).1,
            mt report.parent_none.mpr (all.2 q early).2⟩⟩
        have copies : ∀ stack, PsCopies L p 0 count stack k (psArray k₁ count.toNat stack) :=
          fun stack => ⟨some_, by decide, fits, k₁, ran, rfl⟩
        have same := leaksNothing fixed k g (fun _ => 0) (fun _ => 1) _ _ inv (.refl k) (copies _)
          (copies _) j inside
        rw [leak, leak] at same
        exact absurd same (by decide)
  · intro safe fixed₂ k₂ g₂ stack stack₂ buf buf₂ inv₂ report copies copies₂ j inside
    obtain ⟨some_, first, fits, k₁, grown, rfl⟩ := copies
    obtain ⟨_, _, _, k₃, grown₂, rfl⟩ := copies₂
    rcases safe with none_ | past | ⟨k₁', refused⟩ | large | all
    · exact absurd none_ some_
    · exact absurd first (Nat.not_lt.mpr (past_table.mpr past))
    · rw [grown] at refused
      cases refused
    · exact absurd fits (Nat.not_le.mpr large)
    · rw [← Nat.cast_mul] at grown grown₂
      have report₁ := inv.grown_report used small grown
      have report₃ := inv₂.grown_report (report.state p ▸ used) small grown₂
      have all₁ : AllReported k₁ count.toNat := ⟨all.1, fun q early =>
        ⟨report₁.state q ▸ (all.2 q early).1, mt report₁.parent_none.mp (all.2 q early).2⟩⟩
      exact all₁.psArray_eq ((report₁.symm.trans report).trans report₃) stack stack₂ inside

end Report

/-! ## What the caller is to see -/

/-- The memory of process `p` from `va` on, as user code reads it. -/
def userBytes (k : KState) (p : Fin NPROC) (va : Nat) : Bytes := fun i =>
  k.mem (physical k.mem (k.procs p).pagetable (va + i))

/-- The array `a` has an entry for each slot that is to be reported, and the mark of the end
    if there is room for it. -/
structure Lists (k : KState) (start count : Nat) (a : Bytes) : Prop where
  entry : ∀ i q, (listed k start count)[i]? = some q → IsEntry k q a i
  ends : (listed k start count).length < count →
    a.getLE (USER_PROC_SIZE * (listed k start count).length) 4 = ProcState.unused.code

/-- `ps` returns the address of the list, if there is memory for it, and 0 only if the
    caller has no more memory than before. -/
def ListsLive (L : Layout) (k : KState) (p : Fin NPROC) (start count : UInt8) (stack : Bytes) :
    Prop :=
  ∃ r k', ps L p start count stack k = .ok (r, k') ∧
    (r = 0 → (k'.procs p).sz = (k.procs p).sz) ∧
    ((∃ k₁, growproc L p (count.toNat * USER_PROC_SIZE) k = .ok (0, k₁)) → r ≠ 0 ∧
      (∀ i, i < count.toNat * USER_PROC_SIZE →
        UserByte k'.mem (k'.procs p).pagetable (r + i)) ∧
      Lists k start.toNat count.toNat (userBytes k' p r))

section Live

variable {L : Layout} {fixed : Multiset Nat} {k k₁ k' : KState} {g : Ghost} {p q : Fin NPROC}
  {start count : UInt8} {stack buf : Bytes} {free₁ : List Nat} {t₁ : Tree} {n : Nat}

/-- The first `n` bytes after the old size of a process that has grown can all be reached by
    user code, if the first can that was in a page of the process before. -/
theorem userByte_grown (inv : Inv L fixed k g 0 fun _ => 0) (used : (k.procs p).state ≠ .unused)
    (inv₁ : Inv L fixed k₁ ⟨free₁, update g.tree p t₁, g.pipes⟩ 0 fun _ => 0)
    (procs : k₁.procs = update k.procs p { k.procs p with sz := (k.procs p).sz + n })
    (resized : Resized k.mem k₁.mem (g.tree p) t₁ (pageCount (k.procs p).sz)
      (pageCount ((k.procs p).sz + n))) {i : Nat} (inside : i < n) :
    UserByte k₁.mem (k.procs p).pagetable ((k.procs p).sz + i) ↔
      vpn ((k.procs p).sz + i) ≥ pageCount (k.procs p).sz ∨
        UserByte k.mem (k.procs p).pagetable (k.procs p).sz := by
  have here : k₁.procs p = { k.procs p with sz := (k.procs p).sz + n } := by
    rw [procs, update_self]
  have used₁ : (k₁.procs p).state ≠ .unused := by
    rw [here]
    exact used
  obtain ⟨table, _⟩ := inv.live used
  obtain ⟨table₁, shape₁⟩ := inv₁.live used₁
  have ok := (inv.treeHolds p).left
  have ok₁ := (inv₁.treeHolds p).left
  simp only [here, update_self] at table₁ shape₁ ok₁
  have bound := shape₁.mapped.size_le ok₁
  have low : (k.procs p).sz + i < MAXVA := by
    have : PHYSTOP < MAXVA := by decide
    omega
  have read : ∀ v, pteAt k₁.mem (k.procs p).pagetable v = (leafAt t₁ v).map Leaf.pte :=
    fun v => pteAt_eq ok₁ table₁
  by_cases fresh : vpn ((k.procs p).sz + i) ≥ pageCount (k.procs p).sz
  · have below : vpn ((k.procs p).sz + i) < pageCount ((k.procs p).sz + n) := by
      unfold vpn pageCount PGSIZE
      omega
    obtain ⟨pte, some_, user, _⟩ := resized.fresh _ fresh below
    refine iff_of_true ⟨low, pte, ?_, user⟩ (.inl fresh)
    rw [read, some_]
    rfl
  · -- the rest of the last page of before
    have same : vpn ((k.procs p).sz + i) = vpn (k.procs p).sz := by
      unfold vpn pageCount PGSIZE at *
      omega
    have kept := resized.same (vpn (k.procs p).sz) (by omega) (by
      unfold vpn pageCount PGSIZE at *
      omega)
    rw [(userByte_page k₁.mem (k.procs p).pagetable same).1, or_iff_right fresh, UserByte, UserByte,
      read, kept, pteAt_eq ok table]

theorem SameReport.isEntry {k₂ : KState} {i : Nat} (same : SameReport k k₂)
    (entry : IsEntry k₂ q buf i) : IsEntry k q buf i := by
  refine ⟨same.state q ▸ entry.state, same.pid q ▸ entry.pid, fun r some_ => ?_,
    same.name q ▸ entry.name⟩
  have pids := same.parent q
  rw [some_, Option.map_some, Option.map_eq_some_iff] at pids
  obtain ⟨r₂, some₂, pid⟩ := pids
  rw [entry.parent r₂ some₂, pid]

theorem SameReport.lists {k₂ : KState} {i m : Nat} (same : SameReport k k₂)
    (lists : Lists k₂ i m buf) : Lists k i m buf := by
  have slots : listed k i m = listed k₂ i m := by simp only [listed, same.state]
  refine ⟨fun j q at_ => same.isEntry (lists.entry j q (slots ▸ at_)), fun less => ?_⟩
  rw [slots] at less ⊢
  exact lists.ends less

/-- The array is the list if and only if there is no hole in the table. -/
theorem psArray_lists_iff {m : Nat}
    (array : ∀ j, j < m * USER_PROC_SIZE → buf j = psArray k m stack j) :
    Lists k 0 m buf ↔ HoleFree k m := by
  have within :
      ∀ {i c}, i < m → c < USER_PROC_SIZE → USER_PROC_SIZE * i + c < m * USER_PROC_SIZE := by
    intro i c less small
    have := Nat.mul_le_mul_left USER_PROC_SIZE (Nat.succ_le_of_lt less)
    rw [Nat.mul_succ] at this
    rw [Nat.mul_comm m]
    omega
  have marker : firstUnused k < m → buf.getLE (USER_PROC_SIZE * firstUnused k) 4 = 0 := by
    intro less
    have length := scanned_length k m
    rw [Nat.min_eq_right (Nat.le_of_lt less)] at length
    refine Bytes.getLE_zero fun c small => ?_
    rw [array _ (within less (Nat.lt_of_lt_of_le small (by decide))), ← length]
    exact psArray_marker (length ▸ less) small
  constructor
  · intro lists
    by_contra hole
    obtain ⟨less, q, at_, used⟩ := exists_missed hole
    have state := (lists.entry _ q at_).state
    rw [marker less] at state
    exact used (ProcState.code_eq_zero.mp state.symm)
  · intro free
    have slots := free.listed_eq
    refine ⟨fun i q at_ => ?_, fun less => ?_⟩
    · rw [slots] at at_
      have early : i < m := by
        obtain ⟨inside, _⟩ := List.getElem?_eq_some_iff.mp at_
        rw [scanned_length] at inside
        omega
      refine isEntry_of_bytes (fun c => stack (USER_PROC_SIZE * i + c)) fun c small => ?_
      rw [array _ (within early small), psArray_entry at_ small]
    · rw [slots, scanned_length] at less ⊢
      rw [Nat.min_eq_right (by omega)]
      exact marker (by omega)

/-- `ps(0, count)` when there is memory: what is copied, and where. -/
theorem Inv.ps_array (inv₁ : Inv L fixed k₁ ⟨free₁, update g.tree p t₁, g.pipes⟩ 0 fun _ => 0)
    (used₁ : (k₁.procs p).state ≠ .unused) (some_ : count ≠ 0)
    (fits : count.toNat * USER_PROC_SIZE ≤ L.stack)
    (grown : growproc L p (count.toNat * USER_PROC_SIZE) k = .ok (0, k₁)) (stack : Bytes) :
    ∃ k', ps L p 0 count stack k = .ok ((k.procs p).sz, k') ∧ k'.procs = k₁.procs ∧
      (∀ va, UserByte k'.mem (k₁.procs p).pagetable va ↔
        UserByte k₁.mem (k₁.procs p).pagetable va) ∧
      ((∀ i, i < count.toNat * USER_PROC_SIZE →
          UserByte k₁.mem (k₁.procs p).pagetable ((k.procs p).sz + i)) →
        ∀ i, i < count.toNat * USER_PROC_SIZE →
          userBytes k' p (k.procs p).sz i = psArray k₁ count.toNat stack i) := by
  have table := userTable_of_table (inv₁.treeHolds p).left (inv₁.live used₁).1
  obtain ⟨r, k', ran, _, procs, _⟩ := inv₁.copyout_spec used₁ (k.procs p).sz
    (psArray k₁ count.toNat stack) (count.toNat * USER_PROC_SIZE)
  obtain ⟨r', k'', ran', ⟨-, map⟩, copied⟩ := table.frames.copyoutLoop ⟨table, .refl _ _⟩
    (k.procs p).sz (Nat.le_refl (count.toNat * USER_PROC_SIZE)) (psArray k₁ count.toNat stack)
  obtain ⟨rfl, rfl⟩ : r' = r ∧ k'' = k' := by
    have same := ran'.symm.trans ran
    rwa [Except.ok.injEq, Prod.mk.injEq] at same
  refine ⟨k'', ?_, procs, fun va => (map.user va).1, fun all i inside => ?_⟩
  · rw [ps_copies some_ fits grown, run_bind ran]
    rfl
  · rw [userBytes, procs, (map.user _).2.2]
    exact copied.stored i inside fun j small => table.userFrame_ne_zero.mpr (all j (by omega))

/-- `ps` lists the processes if and only if it gets no memory, or `start` is 0, the array fits
    on the kernel stack, no slot that counts is a hole, and the place for the list is not 0 and
    not closed to user code. -/
theorem ps_listsLive_iff (inv : Inv L fixed k g 0 fun _ => 0)
    (running : (k.procs p).state = .running) (some_ : count ≠ 0) (stack : Bytes) :
    ListsLive L k p start count stack ↔
      (∃ k₁, growproc L p (count.toNat * USER_PROC_SIZE) k = .ok (-1, k₁)) ∨
      start = 0 ∧ count.toNat * USER_PROC_SIZE ≤ L.stack ∧ HoleFree k count.toNat ∧
        (k.procs p).sz ≠ 0 ∧
        ((k.procs p).sz % PGSIZE = 0 ∨ UserByte k.mem (k.procs p).pagetable (k.procs p).sz) := by
  have used := running_used running
  have positive : 0 < count.toNat * USER_PROC_SIZE := by
    have : count.toNat ≠ 0 := fun zero => some_ (UInt8.toNat_inj.mp zero)
    unfold USER_PROC_SIZE
    omega
  have range := psSize_range count
  obtain ⟨r, k₁, free₁, t₁, ran, inv₁, grew, _⟩ := inv.growproc_grew used range.1 range.2
  cases grew with
  | refused value _ procs _ _ =>
      subst value
      refine iff_of_true ⟨0, k₁, ps_refused some_ ran, fun _ => by rw [procs], ?_⟩ (.inl ⟨k₁, ran⟩)
      rintro ⟨k₂, grown⟩
      rw [ran] at grown
      cases grown
  | moved sz value size procs resized =>
      subst value
      obtain rfl : sz = (k.procs p).sz + count.toNat * USER_PROC_SIZE := by
        rw [if_pos (by omega)] at size
        omega
      have bigger : (k₁.procs p).sz ≠ (k.procs p).sz := by
        rw [procs, Function.update_self]
        simp only
        omega
      have notRefused : ¬∃ k₁, growproc L p (count.toNat * USER_PROC_SIZE) k = .ok (-1, k₁) := by
        rintro ⟨k₂, refused⟩
        rw [ran] at refused
        cases refused
      rw [or_iff_right notRefused]
      by_cases past : start ≠ 0
      · refine iff_of_false ?_ fun ⟨zero, _⟩ => past zero
        rintro ⟨r', k', returned, unchanged, _⟩
        rw [ps_past some_ past ran, Except.ok.injEq, Prod.mk.injEq] at returned
        obtain ⟨rfl, rfl⟩ := returned
        exact bigger (unchanged rfl)
      rw [not_not] at past
      subst past
      by_cases large : L.stack < count.toNat * USER_PROC_SIZE
      · refine iff_of_false ?_ fun ⟨_, fits, _⟩ => Nat.not_le.mpr large fits
        rintro ⟨r', k', returned, _⟩
        rw [ps_overruns some_ large ran] at returned
        cases returned
      have fits := Nat.not_lt.mp large
      have report := sameReport_resized procs
      have used₁ : (k₁.procs p).state ≠ .unused := report.state p ▸ used
      have root :
          (k₁.procs p).pagetable = (k.procs p).pagetable := by rw [procs, Function.update_self]
      obtain ⟨k', returned, procs', bytes, array⟩ := inv₁.ps_array used₁ some_ fits ran stack
      have reach := fun i inside => userByte_grown inv used inv₁ procs resized (i := i) inside
      have holes : HoleFree k₁ count.toNat ↔ HoleFree k count.toNat := by
        simp only [HoleFree, report.state]
      rw [root] at bytes array
      constructor
      · rintro ⟨r', k'', returned', unchanged, lists⟩
        rw [returned, Except.ok.injEq, Prod.mk.injEq] at returned'
        obtain ⟨rfl, rfl⟩ := returned'
        obtain ⟨nonzero, mapped, lists⟩ := lists ⟨k₁, ran⟩
        have all : ∀ i, i < count.toNat * USER_PROC_SIZE →
            UserByte k₁.mem (k.procs p).pagetable ((k.procs p).sz + i) := fun i inside => by
          have byte := mapped i inside
          rw [procs', root] at byte
          exact (bytes _).mp byte
        refine ⟨rfl, fits, holes.mp ((psArray_lists_iff (array all)).mp (report.symm.lists lists)),
          nonzero, ?_⟩
        rcases (reach 0 positive).mp (all 0 positive) with fresh | user
        · refine .inl ?_
          unfold vpn pageCount PGSIZE at *
          omega
        · exact .inr user
      · rintro ⟨_, _, free, nonzero, open_⟩
        have all : ∀ i, i < count.toNat * USER_PROC_SIZE →
            UserByte k₁.mem (k.procs p).pagetable ((k.procs p).sz + i) := fun i inside => by
          refine (reach i inside).mpr (open_.imp_left fun aligned => ?_)
          unfold vpn pageCount PGSIZE at *
          omega
        refine ⟨_, k', returned, fun zero => absurd zero nonzero,
          fun _ => ⟨nonzero, fun i inside => ?_,
          report.lists ((psArray_lists_iff (array all)).mpr (holes.mpr free))⟩⟩
        rw [procs', root]
        exact (bytes _).mpr (all i inside)

end Live

/-! ## The first process calls `ps` -/

section First

variable {L : Layout} {k : KState} {p : Fin NPROC}

theorem growproc_inPage {n : Nat} (positive : 0 < n) (small : (k.procs p).sz + n < 2 ^ 63)
    (room : pageCount ((k.procs p).sz + n) = pageCount (k.procs p).sz) :
    growproc L p n k = .ok (0, { k with
      procs := update k.procs p { k.procs p with sz := (k.procs p).sz + n } }) := by
  have new : addInt (k.procs p).sz n = (k.procs p).sz + n := by
    unfold addInt
    omega
  have none_ : pagesBetween (pgRoundUp (k.procs p).sz) ((k.procs p).sz + n) = 0 := by
    rw [pgRoundUp_eq (by omega)]
    unfold pagesBetween pageCount PGSIZE at *
    omega
  have grown : uvmalloc L (k.procs p).pagetable (k.procs p).sz ((k.procs p).sz + n) PTE_W k =
      .ok ((k.procs p).sz + n, k) := by
    rw [uvmalloc, if_neg (by omega)]
    simp only [none_, uvmallocLoop]
    rfl
  simp only [growproc]
  rw [run_bind (getProc_run p k), if_pos (by omega), new, run_bind grown, if_neg (by omega),
    run_bind (modifyProc_run p _ k)]
  rfl

theorem exists_shrunkRun : ∃ (b : Boot smallKernel) (s : State) (p : Fin NPROC),
    (machine smallKernel).Run b.state [(.userinit, .silent), (.schedule p .running, .silent),
      (.sbrk p (-3096), .ret 0)] s ∧
      (s.k.procs p).state = .running ∧ (s.k.procs p).sz = 1000 ∧
      UserByte s.k.mem (s.k.procs p).pagetable 1000 := by
  obtain ⟨b, s, p, run, first⟩ := exists_runningRun
  obtain ⟨g, settled⟩ := b.settled.run run
  have used := running_used first.running
  obtain ⟨r, k', free', t', ran, inv', grew, _⟩ := settled.inv.growproc_grew (p := p)
    (n := (-3096#32).toInt) used (BitVec.le_toInt _) BitVec.toInt_lt
  cases grew with
  | refused _ more => exact absurd more (by decide)
  | moved sz value size procs resized =>
    subst value
    have left : sz = 1000 := by
      rw [first.size] at size
      have exact_ : (sz : Int) = 1000 := size
      omega
    subst left
    have taken : step smallKernel s (.sbrk p (-3096)) = some (⟨k', none⟩, .ret 0) := by
      simp only [step, first.quiet, Option.isSome_none, Bool.false_eq_true, if_false, Event.caller,
        Option.all_some, first.running, decide_true, if_true, perform, State.call]
      rw [show growproc smallKernel p (-3096 : BitVec 32).toInt s.k = .ok (0, k') from ran]
    have here : k'.procs p = { s.k.procs p with sz := 1000 } := by rw [procs, update_self]
    have used' : (k'.procs p).state ≠ .unused := by
      rw [here]
      exact used
    refine ⟨b, ⟨k', none⟩, p, run.snoc taken, ?_, ?_, by decide, ?_⟩
    · rw [here]
      exact first.running
    · rw [here]
    · -- the page is still there
      obtain ⟨pte, found, user⟩ := first.page
      refine ⟨pte, ?_, user⟩
      have kept := resized.same 0 (by rw [first.size]; decide) (by decide)
      have before := settled.inv.translate_eq used 0
      rw [Nat.mul_zero, found] at before
      rw [show vpn 1000 = 0 from rfl, pteAt_eq (inv'.treeHolds p).left (inv'.live used').1]
      simp only [update_self]
      rw [kept, ← before]

/-- The first process is alone, and lists itself. -/
theorem ps_listsLive_first : ∃ (b : Boot smallKernel) (s : State) (p : Fin NPROC),
    (machine smallKernel).Run b.state [(.userinit, .silent), (.schedule p .running, .silent)] s ∧
      ListsLive smallKernel s.k p 0 1 fun _ => 0 := by
  obtain ⟨b, s, p, run, first⟩ := exists_runningRun
  obtain ⟨g, settled⟩ := b.settled.run run
  refine ⟨b, s, p, run, (ps_listsLive_iff settled.inv first.running (by decide) _).mpr
    (.inr ⟨rfl, by decide, fun q early unused => ?_, ?_, .inl ?_⟩)⟩
  · obtain rfl : q = p := Fin.ext ((Nat.lt_one_iff.mp early).trans first.slot.symm)
    exact absurd (unused.symm.trans first.running) (by decide)
  · rw [first.size]
    decide
  · rw [first.size]
    decide

/-- `ps(1, 1)` returns 0 and leaves the caller with 36 bytes more. -/
theorem ps_keepsGrowth : ∃ (b : Boot smallKernel) (s : State) (p : Fin NPROC) (k' : KState),
    (machine smallKernel).Run b.state [(.userinit, .silent), (.schedule p .running, .silent),
      (.sbrk p (-3096), .ret 0)] s ∧
      (s.k.procs p).sz = 1000 ∧ ps smallKernel p 1 1 (fun _ => 0) s.k = .ok (0, k') ∧
      (k'.procs p).sz = 1036 := by
  obtain ⟨b, s, p, run, running, size, -⟩ := exists_shrunkRun
  have grown := growproc_inPage (L := smallKernel) (k := s.k) (p := p) (n := 36) (by decide)
    (by rw [size]; decide) (by rw [size]; decide)
  refine ⟨b, s, p, _, run, size, ps_past (by decide) (by decide) grown, ?_⟩
  simp only [Function.update_self, size]

theorem not_allReported_65 (k : KState) : ¬AllReported k 65 := fun all =>
  absurd all.1 (by decide)

theorem not_ps_leaksNothing_65 : ∃ (b : Boot smallKernel) (s : State) (p : Fin NPROC),
    (machine smallKernel).Run b.state [(.userinit, .silent), (.schedule p .running, .silent),
      (.sbrk p (-3096), .ret 0)] s ∧ ¬LeaksNothing smallKernel s.k p 0 65 := by
  obtain ⟨b, s, p, run, running, size, -⟩ := exists_shrunkRun
  obtain ⟨g, settled⟩ := b.settled.run run
  have grown := growproc_inPage (L := smallKernel) (k := s.k) (p := p) (n := 65 * USER_PROC_SIZE)
    (by decide) (by rw [size]; decide) (by rw [size]; decide)
  refine ⟨b, s, p, run, fun leaksNothing => ?_⟩
  rcases (ps_leaksNothing_iff settled.inv running 0 65).mp leaksNothing with
    bad | bad | ⟨k₁, refused⟩ | large | all
  · exact absurd bad (by decide)
  · exact absurd rfl bad
  · exact absurd (refused.symm.trans grown) (by simp)
  · exact absurd large (by decide)
  · exact not_allReported_65 s.k all

/-- `ps(0, 65)` shows the caller a byte of the kernel stack. -/
theorem ps_showsStack : ∃ (b : Boot smallKernel) (s : State) (p : Fin NPROC) (k₁ k₂ : KState)
    (j : Nat),
    (machine smallKernel).Run b.state [(.userinit, .silent), (.schedule p .running, .silent),
      (.sbrk p (-3096), .ret 0)] s ∧
      ps smallKernel p 0 65 (fun _ => 0) s.k = .ok (1000, k₁) ∧
      ps smallKernel p 0 65 (fun _ => 1) s.k = .ok (1000, k₂) ∧
      j < 65 * USER_PROC_SIZE ∧ userBytes k₁ p 1000 j = 0 ∧ userBytes k₂ p 1000 j = 1 := by
  obtain ⟨b, s, p, run, running, size, user⟩ := exists_shrunkRun
  obtain ⟨g, settled⟩ := b.settled.run run
  have used := running_used running
  have grown := growproc_inPage (L := smallKernel) (k := s.k) (p := p) (n := 65 * USER_PROC_SIZE)
    (by decide) (by rw [size]; decide) (by rw [size]; decide)
  obtain ⟨r, k₁, free₁, t₁, ran, inv₁, grew, _⟩ :=
    settled.inv.growproc_grew used (psSize_range 65).1 (psSize_range 65).2
  obtain ⟨rfl, -⟩ : 0 = r ∧ _ = k₁ := by
    have same := grown.symm.trans ran
    rwa [Except.ok.injEq, Prod.mk.injEq] at same
  cases grew with
  | refused value => exact absurd value (by decide)
  | moved sz _ new procs resized =>
      obtain rfl : sz = (s.k.procs p).sz + 65 * USER_PROC_SIZE := by
        rw [if_pos (by rw [size]; decide)] at new
        exact Int.ofNat.inj new
      have here :
          k₁.procs p = { s.k.procs p with sz := (s.k.procs p).sz + 65 * USER_PROC_SIZE } := by
        rw [procs, Function.update_self]
      have used₁ : (k₁.procs p).state ≠ .unused := by
        rw [here]
        exact used
      have all : ∀ i, i < 65 * USER_PROC_SIZE →
          UserByte k₁.mem (k₁.procs p).pagetable ((s.k.procs p).sz + i) := fun i inside => by
        rw [here]
        exact (userByte_grown settled.inv used inv₁ procs resized inside).mpr (.inr (size ▸ user))
      obtain ⟨j, inside, leak⟩ := exists_leak (not_allReported_65 k₁)
      obtain ⟨k', ran', -, -, shown'⟩ :=
        inv₁.ps_array used₁ (show (65 : UInt8) ≠ 0 by decide) (by decide) ran fun _ => 0
      obtain ⟨k'', ran'', -, -, shown''⟩ :=
        inv₁.ps_array used₁ (show (65 : UInt8) ≠ 0 by decide) (by decide) ran fun _ => 1
      rw [size] at ran' ran'' shown' shown'' all
      exact ⟨b, s, p, k', k'', j, run, ran', ran'', inside, (shown' all j inside).trans (leak _),
        (shown'' all j inside).trans (leak _)⟩

end First

end Xv6.Kernel
