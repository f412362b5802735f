import Xv6.Lib.Machine
import Xv6.Lib.Ring

/-! # Pipes

`pipewrite`, `piperead` and `pipeclose` of `kernel/pipe.c`, for any number of
callers. A step is one critical section of `pi->lock`: from the `acquire` at the
start of a call, or from the one at the end of `sleep`, to the `release` at the
end of the call or inside `sleep`. A sleeper may be woken at any time, so any
section that can come next may come next.

Bytes that `copyin` or `copyout` cannot reach are part of the call: `none` in the
source of a write, `false` in the destination of a read.
-/

namespace Xv6.Kernel.Pipes

open Function

variable {pi : Pipe} {dst : List Bool}

def PIPESIZE : Nat := 512

/-- `struct pipe`, without its lock. -/
structure Pipe where
  data : Nat → UInt8
  nread : BitVec 32
  nwrite : BitVec 32
  readopen : Bool
  writeopen : Bool

namespace Pipe

def ring (pi : Pipe) : Lib.Ring UInt8 32 PIPESIZE := ⟨pi.data, pi.nread, pi.nwrite⟩

/-- The bytes written and not yet read. -/
def buffered (pi : Pipe) : List UInt8 := pi.ring.contents

def full (pi : Pipe) : Bool := pi.nwrite = pi.nread + BitVec.ofNat 32 PIPESIZE

def empty (pi : Pipe) : Bool := pi.nread = pi.nwrite

/-- `pi->data[pi->nwrite++ % PIPESIZE] = ch`. -/
def put (pi : Pipe) (ch : UInt8) : Pipe :=
  { pi with
    data := update pi.data (pi.nwrite.toNat % PIPESIZE) ch
    nwrite := pi.nwrite + 1 }

/-- `ch = pi->data[pi->nread++ % PIPESIZE]`. -/
def get (pi : Pipe) : UInt8 × Pipe :=
  (pi.data (pi.nread.toNat % PIPESIZE), { pi with nread := pi.nread + 1 })

end Pipe

/-- How a critical section ends. -/
inductive Ending (Rest : Type) where
  | ret (value : Int)
  /-- The call sleeps; `rest` is what it goes on with. -/
  | sleep (rest : Rest)
  deriving Repr, DecidableEq

/-- The loop of `pipewrite`: `i` bytes are written, `src` is left. `killed(pr)`
    becomes true after `kill` tests, if at all. The list is what goes into the pipe. -/
def pipewriteLoop (pi : Pipe) (kill : Option Nat) (i : Nat) :
    List (Option UInt8) → Pipe × List UInt8 × Ending (List (Option UInt8) × Nat)
  | [] => (pi, [], .ret i)
  | src@(byte :: rest) =>
      if pi.readopen = false ∨ kill = some 0 then (pi, [], .ret (-1))
      else if pi.full then (pi, [], .sleep (src, i))
      else
        match byte with
        | none => (pi, [], .ret i)
        | some ch =>
            let more := pipewriteLoop (pi.put ch) (kill.map Nat.pred) (i + 1) rest
            (more.1, ch :: more.2.1, more.2.2)

/-- The `for` loop of `piperead`; the list is what reaches the user. -/
def pipereadLoop (pi : Pipe) (i : Nat) : List Bool → Pipe × List UInt8 × Int
  | [] => (pi, [], i)
  | mapped :: rest =>
      if pi.empty then (pi, [], i)
      else if mapped then
        let more := pipereadLoop pi.get.2 (i + 1) rest
        (more.1, pi.get.1 :: more.2.1, more.2.2)
      else (pi.get.2, [], i)

/-- One critical section of `piperead`. -/
def piperead (pi : Pipe) (killed : Bool) (dst : List Bool) :
    Pipe × List UInt8 × Ending (List Bool) :=
  if pi.empty ∧ pi.writeopen = true then
    (pi, [], if killed then .ret (-1) else .sleep dst)
  else
    let all := pipereadLoop pi 0 dst
    (all.1, all.2.1, .ret all.2.2)

def pipeclose (pi : Pipe) (writable : Bool) : Pipe :=
  if writable then { pi with writeopen := false } else { pi with readopen := false }

/-- A call in progress. -/
inductive Call where
  | write (src : List (Option UInt8)) (i : Nat)
  | read (dst : List Bool)
  deriving Repr, DecidableEq

structure State where
  pipe : Pipe
  calls : Nat → Option Call

/-- `pipealloc`; `data` is whatever the page held. -/
def start (data : Nat → UInt8) : State where
  pipe := { data := data, nread := 0, nwrite := 0, readopen := true, writeopen := true }
  calls := fun _ => none

inductive Event where
  /-- Process `k` calls `pipewrite` or `piperead`; `n` is the length of the list. -/
  | write (k : Nat) (src : List (Option UInt8))
  | read (k : Nat) (dst : List Bool)
  /-- Process `k` runs the next critical section of its call. -/
  | enter (k : Nat) (kill : Option Nat)
  | close (writable : Bool)
  deriving Repr, DecidableEq

/-- The bytes a step moves, and the value a call returns. -/
inductive Obs where
  | silent
  | wrote (k : Nat) (bytes : List UInt8) (value : Option Int)
  | read (k : Nat) (bytes : List UInt8) (value : Option Int)
  deriving Repr, DecidableEq

def Ending.value {Rest : Type} : Ending Rest → Option Int
  | .ret value => some value
  | .sleep _ => none

def Ending.rest {Rest : Type} : Ending Rest → Option Rest
  | .ret _ => none
  | .sleep rest => some rest

/-- Once both ends are closed the page is freed and nothing more happens to the pipe. -/
def step (s : State) (e : Event) : Option (State × Obs) :=
  if s.pipe.readopen = false ∧ s.pipe.writeopen = false then none
  else
    match e with
    | .write k src =>
        if s.calls k = none then
          some ({ s with calls := update s.calls k (some (.write src 0)) }, .silent)
        else none
    | .read k dst =>
        if s.calls k = none then
          some ({ s with calls := update s.calls k (some (.read dst)) }, .silent)
        else none
    | .enter k kill =>
        match s.calls k with
        | none => none
        | some (.write src i) =>
            let done := pipewriteLoop s.pipe kill i src
            let next := done.2.2.rest.map fun (src, i) => .write src i
            some (⟨done.1, update s.calls k next⟩, .wrote k done.2.1 done.2.2.value)
        | some (.read dst) =>
            let done := piperead s.pipe (kill = some 0) dst
            let next := done.2.2.rest.map .read
            some (⟨done.1, update s.calls k next⟩, .read k done.2.1 done.2.2.value)
    | .close writable => some ({ s with pipe := pipeclose s.pipe writable }, .silent)

def machine : Lib.Machine State Event Obs := ⟨step⟩

/-- The bytes that `pipewrite` accepted, in order. -/
def accepted (tr : List (Event × Obs)) : List UInt8 :=
  tr.flatMap fun x => match x.2 with | .wrote _ bytes _ => bytes | _ => []

/-- The bytes that `piperead` delivered, in order. -/
def delivered (tr : List (Event × Obs)) : List UInt8 :=
  tr.flatMap fun x => match x.2 with | .read _ bytes _ => bytes | _ => []

/-! ## The buffer as a queue -/

theorem divides : PIPESIZE ∣ 2 ^ 32 := by decide

theorem small : PIPESIZE < 2 ^ 32 := by decide

namespace Pipe

variable {pi : Pipe}

/-- What every critical section keeps. -/
def Bounded (pi : Pipe) : Prop := pi.ring.used ≤ PIPESIZE

theorem length_buffered (pi : Pipe) : pi.buffered.length = (pi.nwrite - pi.nread).toNat :=
  pi.ring.length_contents

theorem empty_iff (pi : Pipe) : pi.empty = true ↔ pi.buffered = [] := by
  rw [buffered, pi.ring.contents_eq_nil_iff, empty, decide_eq_true_eq]
  rfl

theorem full_iff (pi : Pipe) : pi.full = true ↔ pi.ring.used = PIPESIZE := by
  rw [full, decide_eq_true_eq]
  exact pi.ring.tail_eq_head_add_iff small

theorem put_spec (bounded : pi.Bounded) (room : pi.full = false) (ch : UInt8) :
    (pi.put ch).Bounded ∧ (pi.put ch).buffered = pi.buffered ++ [ch] := by
  have below : pi.ring.used < PIPESIZE := by
    refine Nat.lt_of_le_of_ne bounded fun all => ?_
    rw [← full_iff, room] at all
    cases all
  refine ⟨?_, pi.ring.contents_push divides small below ch⟩
  have : (pi.put ch).ring.used = pi.ring.used + 1 := pi.ring.used_push small below ch
  rw [Bounded, this]
  exact below

theorem used_ne_zero (some_ : pi.empty = false) : pi.ring.used ≠ 0 := by
  rw [← pi.ring.length_contents, ne_eq, List.length_eq_zero_iff]
  intro nothing
  rw [(empty_iff pi).mpr nothing] at some_
  cases some_

theorem buffered_get (some_ : pi.empty = false) : pi.buffered = pi.get.1 :: pi.get.2.buffered :=
  pi.ring.contents_pop (used_ne_zero some_)

theorem get_spec (bounded : pi.Bounded) (some_ : pi.empty = false) :
    pi.get.2.Bounded ∧ pi.buffered = pi.get.1 :: pi.get.2.buffered := by
  refine ⟨?_, buffered_get some_⟩
  have : pi.get.2.ring.used + 1 = pi.ring.used := pi.ring.used_pop (used_ne_zero some_)
  rw [Bounded] at bounded ⊢
  omega

end Pipe

/-- What one critical section does to the bytes: `put` go in at the back, `got`
    come out at the front. -/
structure Moves (pi pi' : Pipe) (put got : List UInt8) : Prop where
  bounded : pi'.Bounded
  bytes : pi.buffered ++ put = got ++ pi'.buffered

section

variable (bounded : pi.Bounded)
include bounded

theorem Moves.none : Moves pi pi [] [] := ⟨bounded, by simp⟩

theorem pipewriteLoop_moves (kill : Option Nat) (i : Nat) (src : List (Option UInt8)) :
    Moves pi (pipewriteLoop pi kill i src).1 (pipewriteLoop pi kill i src).2.1 [] := by
  induction src generalizing pi kill i with
  | nil => exact .none bounded
  | cons byte rest ih =>
    unfold pipewriteLoop
    split
    · exact .none bounded
    split
    · exact .none bounded
    · rename_i room
      cases byte with
      | none => exact .none bounded
      | some ch =>
        obtain ⟨bounded', bytes⟩ := Pipe.put_spec bounded (Bool.not_eq_true _ ▸ room) ch
        obtain ⟨bounded'', bytes'⟩ := ih bounded' (kill.map Nat.pred) (i + 1)
        refine ⟨bounded'', ?_⟩
        rw [← bytes', bytes]
        simp

/-- With the destination mapped, what the loop takes out it delivers, and it counts it. -/
theorem pipereadLoop_moves (i : Nat) (mapped : ∀ m ∈ dst, m = true) :
    Moves pi (pipereadLoop pi i dst).1 [] (pipereadLoop pi i dst).2.1 ∧
      (pipereadLoop pi i dst).2.2 = i + (pipereadLoop pi i dst).2.1.length := by
  induction dst generalizing pi i with
  | nil => exact ⟨.none bounded, by simp [pipereadLoop]⟩
  | cons m rest ih =>
    rw [pipereadLoop]
    split
    · exact ⟨.none bounded, by simp⟩
    · rename_i some_
      obtain ⟨bounded', bytes⟩ := Pipe.get_spec bounded (Bool.not_eq_true _ ▸ some_)
      obtain ⟨⟨bounded'', bytes'⟩, value⟩ :=
        ih bounded' (i + 1) (fun m inside => mapped m (List.mem_cons_of_mem _ inside))
      rw [if_pos (mapped m List.mem_cons_self)]
      refine ⟨⟨bounded'', ?_⟩, ?_⟩
      · rw [List.append_nil] at bytes' ⊢
        rw [bytes, bytes']
        rfl
      · simp only [value, List.length_cons]
        push_cast
        omega

theorem piperead_moves (killed : Bool) (mapped : ∀ m ∈ dst, m = true) :
    Moves pi (piperead pi killed dst).1 [] (piperead pi killed dst).2.1 := by
  rw [piperead]
  split
  · exact .none bounded
  · exact (pipereadLoop_moves bounded 0 mapped).1

theorem pipeclose_moves (writable : Bool) : Moves pi (pipeclose pi writable) [] [] := by
  have same : (pipeclose pi writable).ring = pi.ring := by
    unfold pipeclose
    split <;> rfl
  refine ⟨?_, ?_⟩
  · rw [Pipe.Bounded, same]
    exact bounded
  · simp only [Pipe.buffered, same, List.append_nil, List.nil_append]

/-- A read of at least one byte returns 0 only at the end of the data. -/
theorem piperead_zero (killed : Bool) (wants : dst ≠ []) (mapped : ∀ m ∈ dst, m = true)
    (zero : (piperead pi killed dst).2.2 = .ret 0) :
    pi.writeopen = false ∧ pi.buffered = [] := by
  rw [← Pipe.empty_iff]
  rw [piperead] at zero
  split at zero
  · split at zero <;> cases zero
  · rename_i open_
    have nothing : pi.empty = true := by
      by_contra some_
      cases dst with
      | nil => exact wants rfl
      | cons m rest =>
        have value := (pipereadLoop_moves bounded 0 mapped).2
        simp only [Ending.ret.injEq] at zero
        rw [zero] at value
        simp only [pipereadLoop, some_, mapped m List.mem_cons_self, if_true, if_false,
          List.length_cons] at value
        push_cast at value
        omega
    exact ⟨by simpa [nothing] using open_, nothing⟩

end

/-! ## Reads that fail -/

/-- What `piperead` should have done when it returns `i`: the first `i` of the buffered
    bytes have left the pipe and have been delivered. -/
structure ReadsExactly (pi pi' : Pipe) (bytes : List UInt8) (i : Nat) : Prop where
  enough : i ≤ pi.buffered.length
  nread : pi'.nread = pi.nread + BitVec.ofNat 32 i
  bytes : bytes = pi.buffered.take i
  left : pi'.buffered = pi.buffered.drop i

/-- `nread` moves over `n` bytes. -/
def Pipe.skip (pi : Pipe) (n : Nat) : Pipe := { pi with nread := pi.nread + BitVec.ofNat 32 n }

namespace Pipe

variable {pi : Pipe}

theorem skip_zero (pi : Pipe) : pi.skip 0 = pi := by
  rw [skip, BitVec.add_zero]

theorem get_skip (pi : Pipe) (n : Nat) : pi.get.2.skip n = pi.skip (n + 1) := by
  have next : pi.nread + 1 + BitVec.ofNat 32 n = pi.nread + BitVec.ofNat 32 (n + 1) := by
    rw [BitVec.add_assoc, Nat.add_comm n 1, BitVec.ofNat_add]
    rfl
  simp only [skip, get, next]

theorem buffered_skip (n : Nat) (enough : n ≤ pi.buffered.length) :
    (pi.skip n).buffered = pi.buffered.drop n := by
  induction n generalizing pi with
  | zero => rw [skip_zero, List.drop_zero]
  | succ n ih =>
    have some_ : pi.empty = false := by
      by_contra nothing
      rw [(empty_iff pi).mp (by simpa using nothing)] at enough
      cases enough
    have bytes := buffered_get some_
    rw [bytes, List.length_cons] at enough
    rw [← get_skip, ih (by omega), bytes, List.drop_succ_cons]

end Pipe

/-- No byte of the destination that a buffered byte would go to is unmapped. -/
def Reaches (pi : Pipe) (dst : List Bool) : Prop :=
  ∀ j, dst[j]? = some false → pi.buffered.length ≤ j

/-- The loop delivers `n` bytes and counts them; it takes one more out if it comes to an
    unmapped byte. -/
theorem pipereadLoop_spec (pi : Pipe) (i : Nat) (dst : List Bool) :
    ∃ n, n ≤ pi.buffered.length ∧ (pipereadLoop pi i dst).2.1 = pi.buffered.take n ∧
      (pipereadLoop pi i dst).2.2 = (i + n : Nat) ∧
      (Reaches pi dst ∧ (pipereadLoop pi i dst).1 = pi.skip n ∨
        ¬Reaches pi dst ∧ (pipereadLoop pi i dst).1 = pi.skip (n + 1)) := by
  induction dst generalizing pi i with
  | nil =>
    refine ⟨0, Nat.zero_le _, rfl, rfl, .inl ⟨fun j unmapped => ?_, pi.skip_zero.symm⟩⟩
    cases unmapped
  | cons mapped rest ih =>
    rw [pipereadLoop]
    by_cases nothing : pi.empty = true
    · rw [if_pos nothing]
      have none_ : pi.buffered.length = 0 := by rw [(Pipe.empty_iff pi).mp nothing, List.length_nil]
      exact ⟨0, Nat.zero_le _, rfl, rfl, .inl ⟨fun j _ => none_ ▸ Nat.zero_le j, pi.skip_zero.symm⟩⟩
    rw [if_neg nothing]
    have bytes := Pipe.buffered_get (by simpa using nothing)
    have length := congrArg List.length bytes
    rw [List.length_cons] at length
    cases mapped with
    | false =>
      refine ⟨0, Nat.zero_le _, rfl, rfl, .inr ⟨fun reaches => ?_, ?_⟩⟩
      · have := reaches 0 rfl
        omega
      · rw [← Pipe.get_skip, Pipe.skip_zero]
        rfl
    | true =>
      obtain ⟨n, enough, delivered, value, outcome⟩ := ih pi.get.2 (i + 1)
      have same : Reaches pi (true :: rest) ↔ Reaches pi.get.2 rest := by
        constructor
        · intro reaches j unmapped
          have := reaches (j + 1) unmapped
          omega
        · intro reaches j unmapped
          cases j with
          | zero => cases unmapped
          | succ j =>
            have := reaches j unmapped
            omega
      simp only [if_true]
      refine ⟨n + 1, by omega, ?_, ?_, ?_⟩
      · rw [delivered, bytes, List.take_succ_cons]
      · rw [value]
        congr 1
        omega
      · rw [same, ← Pipe.get_skip, ← Pipe.get_skip]
        exact outcome

/-- A read that returns has taken out of the pipe what it delivered, and nothing else, if
    and only if it found no unmapped byte in the way of a buffered one. -/
theorem piperead_losesNothing_iff (pi : Pipe) (killed : Bool) (dst : List Bool) :
    (∀ i, (piperead pi killed dst).2.2 = .ret i →
        ReadsExactly pi (piperead pi killed dst).1 (piperead pi killed dst).2.1 i.toNat) ↔
      ∀ j, dst[j]? = some false → pi.buffered.length ≤ j := by
  change _ ↔ Reaches pi dst
  have exactly : ∀ n, n ≤ pi.buffered.length → ReadsExactly pi (pi.skip n) (pi.buffered.take n) n :=
    fun n enough => ⟨enough, rfl, rfl, Pipe.buffered_skip n enough⟩
  rw [piperead]
  split
  · rename_i waits
    have none_ : pi.buffered.length = 0 := by rw [(Pipe.empty_iff pi).mp waits.1, List.length_nil]
    refine iff_of_true (fun i ended => ?_) fun j _ => none_ ▸ Nat.zero_le j
    have value : i = -1 := by
      cases killed
      · cases ended
      · cases ended
        rfl
    rw [value]
    have := exactly 0 (Nat.zero_le _)
    rwa [Pipe.skip_zero] at this
  · obtain ⟨n, enough, delivered, value, outcome⟩ := pipereadLoop_spec pi 0 dst
    rw [Nat.zero_add] at value
    simp only [delivered, value, Ending.ret.injEq]
    rcases outcome with ⟨reaches, after⟩ | ⟨stuck, after⟩
    · refine iff_of_true ?_ reaches
      rintro i rfl
      rw [after]
      exact exactly n enough
    · refine iff_of_false (fun all => ?_) stuck
      have moved := (all n rfl).nread
      rw [after, Pipe.skip, Int.toNat_natCast] at moved
      have := congrArg BitVec.toNat moved
      simp only [BitVec.toNat_add, BitVec.toNat_ofNat] at this
      omega

/-- One byte is buffered, and the destination is not mapped: the read returns 0, and the
    byte is gone. -/
theorem piperead_losesByte : ∃ pi dst, pi.buffered = [7] ∧
    (piperead pi false dst).2 = ([], .ret 0) ∧ (piperead pi false dst).1.nread = pi.nread + 1 ∧
      (piperead pi false dst).1.buffered = [] := by
  refine ⟨⟨fun _ => 7, 0, 1, true, true⟩, [false], ?_⟩
  decide

/-! ## Runs -/

/-- The buffers of the calls are mapped. -/
def Mapped (_ : State) (e : Event) : Prop :=
  match e with
  | .write _ src => ∀ byte ∈ src, byte ≠ none
  | .read _ dst => ∀ m ∈ dst, m = true
  | _ => True

/-- The pipe after the steps `tr`. -/
structure Flow (tr : List (Event × Obs)) (s : State) : Prop where
  bounded : s.pipe.Bounded
  bytes : accepted tr = delivered tr ++ s.pipe.buffered
  mapped : ∀ k dst, s.calls k = some (.read dst) → ∀ m ∈ dst, m = true

theorem flow_start (data : Nat → UInt8) : Flow [] (start data) where
  bounded := by simp [Pipe.Bounded, Lib.Ring.used, Pipe.ring, start]
  bytes := by
    have nothing : (start data).pipe.buffered = [] := (Pipe.empty_iff _).mp rfl
    rw [nothing]
    rfl
  mapped := by simp [start]

theorem Flow.step {tr : List (Event × Obs)} {s s' : State} {e : Event} {o : Obs}
    (flow : Flow tr s) (buffers : Mapped s e) (taken : step s e = some (s', o)) :
    Flow (tr ++ [(e, o)]) s' := by
  -- a section moves bytes and leaves at most the same destination to be filled
  have moved : ∀ {pi put got k next}, Moves s.pipe pi put got →
      accepted (tr ++ [(e, o)]) = accepted tr ++ put →
      delivered (tr ++ [(e, o)]) = delivered tr ++ got →
      (∀ dst, next = some (.read dst) → ∀ m ∈ dst, m = true) →
      Flow (tr ++ [(e, o)]) ⟨pi, update s.calls k next⟩ := by
    intro pi put got k next moves into out waits
    refine ⟨moves.bounded, ?_, ?_⟩
    · rw [into, out, flow.bytes, List.append_assoc, List.append_assoc, moves.bytes]
    · intro k' dst waiting
      by_cases here : k' = k
      · subst here
        exact waits dst (update_self k' next s.calls ▸ waiting)
      · exact flow.mapped k' dst (update_of_ne here next s.calls ▸ waiting)
  unfold Pipes.step at taken
  split at taken
  · cases taken
  cases e with
  | write k src =>
    simp only at taken
    split at taken
    · cases taken
      exact moved (.none flow.bounded) (by simp [accepted]) (by simp [delivered]) (by simp)
    · cases taken
  | read k dst =>
    simp only at taken
    split at taken
    · cases taken
      refine moved (.none flow.bounded) (by simp [accepted]) (by simp [delivered]) ?_
      rintro dst' ⟨⟩
      exact buffers
    · cases taken
  | enter k kill =>
    simp only at taken
    split at taken
    · cases taken
    · rename_i src i _
      cases taken
      refine moved (pipewriteLoop_moves flow.bounded kill i src) (by simp [accepted])
        (by simp [delivered]) ?_
      intro dst waits
      simp at waits
    · rename_i dst waiting
      cases taken
      have mapped := flow.mapped k dst waiting
      refine moved (piperead_moves flow.bounded _ mapped) (by simp [accepted])
        (by simp [delivered]) ?_
      intro dst' waits
      have same : dst' = dst := by
        rw [piperead] at waits
        split at waits
        · split at waits <;> simp [Ending.rest] at waits
          exact waits.symm
        · simp [Ending.rest] at waits
      rw [same]
      exact mapped
  | close writable =>
    cases taken
    obtain ⟨bounded, bytes⟩ := pipeclose_moves flow.bounded writable
    refine ⟨bounded, ?_, flow.mapped⟩
    rw [List.append_nil, List.nil_append] at bytes
    simpa [accepted, delivered, bytes] using flow.bytes

theorem flow_run {data : Nat → UInt8} {tr : List (Event × Obs)} {s : State}
    (run : machine.Run (start data) tr s) (mapped : machine.Throughout (start data) tr Mapped) :
    Flow tr s :=
  run.invariant Flow mapped (flow_start data)
    (fun _ _ _ _ _ _ flow ok taken => flow.step ok taken)

/-- A pipe is a queue of at most `PIPESIZE` bytes: what was delivered, followed by
    what is buffered, is what was accepted, and a read that returns 0 has reached
    the end of it. -/
theorem pipe_fifo {data : Nat → UInt8} {tr : List (Event × Obs)} {s : State}
    (run : machine.Run (start data) tr s) (mapped : machine.Throughout (start data) tr Mapped) :
    (s.pipe.nwrite - s.pipe.nread).toNat ≤ PIPESIZE ∧
    accepted tr = delivered tr ++ s.pipe.buffered ∧
    s.pipe.buffered.length = (s.pipe.nwrite - s.pipe.nread).toNat ∧
    ∀ k dst kill s' bytes, s.calls k = some (.read dst) → dst ≠ [] →
      step s (.enter k kill) = some (s', .read k bytes (some 0)) →
      s.pipe.writeopen = false ∧ s.pipe.buffered = [] := by
  have flow := flow_run run mapped
  refine ⟨flow.bounded, flow.bytes, s.pipe.length_buffered, ?_⟩
  intro k dst kill s' bytes waiting wants taken
  refine piperead_zero flow.bounded (kill = some 0) wants (flow.mapped k dst waiting) ?_
  unfold step at taken
  split at taken
  · cases taken
  · simp only [waiting, Option.some.injEq, Prod.mk.injEq, Obs.read.injEq, true_and] at taken
    have value := taken.2.2
    cases ending : (piperead s.pipe (decide (kill = some 0)) dst).2.2 with
    | ret v =>
        rw [ending] at value
        simp only [Ending.value, Option.some.injEq] at value
        rw [value]
    | sleep rest =>
        rw [ending] at value
        cases value

/-- Three bytes are written and two of them read. -/
def shortRun : List (Event × Obs) :=
  [(.read 1 [true, true], .silent), (.enter 1 none, .read 1 [] none),
    (.write 0 [some 1, some 2, some 3], .silent), (.enter 0 none, .wrote 0 [1, 2, 3] (some 3)),
    (.enter 1 none, .read 1 [1, 2] (some 2))]

theorem pipe_fifo_shortRun : ∃ s, machine.Run (start fun _ => 0) shortRun s ∧
      [1, 2, 3] = [1, 2] ++ s.pipe.buffered ∧ s.pipe.buffered.length = 1 := by
  have ran : (machine.exec (start fun _ => 0) (shortRun.map Prod.fst)).map
      (fun r => (r.1, (r.2.pipe.nwrite - r.2.pipe.nread).toNat)) = some (shortRun, 1) := by decide
  obtain ⟨s, run, count⟩ :=
    Lib.Machine.run_of_exec (fun s : State => (s.pipe.nwrite - s.pipe.nread).toNat) ran
  have mapped : machine.Throughout (start fun _ => 0) shortRun Mapped := by
    refine Lib.Machine.throughout_of_events fun x inside s => ?_
    simp only [shortRun, List.mem_cons, List.not_mem_nil, or_false] at inside
    rcases inside with rfl | rfl | rfl | rfl | rfl <;> simp [Mapped]
  obtain ⟨-, bytes, length, -⟩ := pipe_fifo run mapped
  exact ⟨s, run, bytes, length.trans count⟩

end Xv6.Kernel.Pipes
