import Mathlib

/-! # The shell's two ways to read commands

`getcmd`, `parse_buffer` and `main` of `user/sh.c`, with `gets` of `user/ulib.c`, as far
as they decide which buffers are passed to `parse_buffer`. Interactive mode reads a line
at a time; script mode reads 120 bytes at a time.
-/

namespace Xv6.User.Script

/-- `sizeof(buf)`. -/
def NBUF : Nat := 120

/-- The bytes of `buf`, with zeros behind what was read. -/
def fill (bs : List UInt8) : List UInt8 := bs ++ List.replicate (NBUF - bs.length) 0

def endsLine (c : UInt8) : Bool := c == 10 || c == 13

/-- The loop of `gets` with room for `n` more bytes: what it stores, and what is left of the
    input. -/
def getsLoop : Nat → List UInt8 → List UInt8 × List UInt8
  | 0, input => ([], input)
  | _ + 1, [] => ([], [])
  | n + 1, c :: rest =>
      if endsLine c then ([c], rest)
      else
        let (line, left) := getsLoop n rest
        (c :: line, left)

def gets (max : Nat) (input : List UInt8) : List UInt8 × List UInt8 := getsLoop (max - 1) input

/-- The buffer and the rest of the input, unless `getcmd` returns -1. -/
def getcmd (input : List UInt8) : Option (List UInt8 × List UInt8) :=
  let (line, left) := gets NBUF input
  let buf := fill line
  if buf.head? = some 0 then none else some (buf, left)

/-- What `parse_buffer` leaves in `buf`, unless it exits. -/
def parseBuffer (buf : List UInt8) : Option (List UInt8) :=
  if [99, 100, 32] <+: buf then
    -- `cd `: chop the newline
    some (buf.set ((buf.takeWhile (· ≠ 0)).length - 1) 0)
  else if [101, 120, 105, 116] <+: buf then none
  else some buf

/-- The buffers that the loop of `main` passes to `parse_buffer` before the shell exits. -/
def interactive : Nat → List UInt8 → Option (List (List UInt8))
  | 0, _ => none
  | fuel + 1, input =>
      match getcmd input with
      | none => some []
      | some (buf, left) =>
          match parseBuffer buf with
          | none => some [buf]
          | some _ => (interactive fuel left).map (buf :: ·)

/-- The loop over the script, with `buf` filled and `left` still to be read. -/
def scriptLoop : Nat → List UInt8 → List UInt8 → Option (List (List UInt8))
  | 0, _, _ => none
  | fuel + 1, buf, left =>
      match parseBuffer buf with
      | none => some [buf]
      | some _ =>
          let chunk := left.take NBUF
          if chunk.length = NBUF then (scriptLoop fuel chunk (left.drop NBUF)).map (buf :: ·)
          else some [buf]

/-- `main` with a script. `buf` is static, so it is all zeros at first. -/
def script (fuel : Nat) (file : List UInt8) : Option (List (List UInt8)) :=
  scriptLoop fuel (fill (file.take NBUF)) (file.drop NBUF)

/-- The lines of a file, each with its newline. -/
def lines : List UInt8 → List (List UInt8)
  | [] => []
  | c :: rest =>
      if c = 10 then [c] :: lines rest
      else
        match lines rest with
        | [] => [[c]]
        | line :: more => (c :: line) :: more

/-- The shell passes the same buffers and exits, with the file as a script and typed in. -/
def ScriptAgrees (file : List UInt8) : Prop :=
  ∃ calls, script (file.length + 1) file = some calls ∧
    interactive (file.length + 1) file = some calls

/-- The file has one line, with nothing but zeros behind it as far as the buffer goes, and
    there is no second buffer to read. -/
structure OneLine (file line rest : List UInt8) : Prop where
  whole : file = line ++ rest
  first : ∀ c ∈ line.dropLast, endsLine c = false
  ended : line.getLast?.any endsLine ∨ rest = []
  started : line.head? ≠ none ∧ line.head? ≠ some 0
  zeros : ∀ c ∈ rest.take (NBUF - line.length), c = 0
  single : file.length < 2 * NBUF ∨ [101, 120, 105, 116] <+: line

section

variable {n fuel : Nat} {file line rest input left : List UInt8}

/-! ## Lines -/

/-- `gets` takes a line off the input, or as much as it has room for. -/
theorem getsLoop_spec (got : getsLoop n input = (line, left)) :
    input = line ++ left ∧ line.length ≤ n ∧ (∀ c ∈ line.dropLast, endsLine c = false) ∧
      (line.getLast?.any endsLine ∨ left = [] ∨ line.length = n) := by
  induction n generalizing input line with
  | zero =>
    cases got
    simp
  | succ n ih =>
    cases input with
    | nil =>
      cases got
      simp
    | cons c more =>
      rw [getsLoop] at got
      split at got
      · rename_i ends
        cases got
        simp [ends]
      · rename_i ends
        cases read : getsLoop n more with
        | mk line' left' =>
          rw [read] at got
          cases got
          obtain ⟨whole, room, inner, last⟩ := ih read
          refine ⟨by simp [whole], by simpa using room, ?_, ?_⟩
          · cases line' with
            | nil => simp
            | cons d line' => simpa [ends] using inner
          · cases line' with
            | nil =>
              rcases last with ended | none_ | full
              · simp at ended
              · exact .inr (.inl none_)
              · exact .inr (.inr (congrArg Nat.succ full))
            | cons d line' => simpa using last

theorem getsLoop_of_line (room : line.length ≤ n) (first : ∀ c ∈ line.dropLast, endsLine c = false)
    (ended : line.getLast?.any endsLine ∨ rest = []) :
    getsLoop n (line ++ rest) = (line, rest) := by
  induction line generalizing n with
  | nil =>
    have none_ : rest = [] := by simpa using ended
    subst none_
    cases n <;> rfl
  | cons c line ih =>
    cases n with
    | zero => simp at room
    | succ n =>
      rw [List.cons_append, getsLoop]
      cases line with
      | nil =>
        rcases ended with ended | rfl
        · simp only [List.getLast?_singleton, Option.any_some] at ended
          simp [ended]
        · cases n <;> simp [getsLoop]
      | cons d line =>
        have inner : endsLine c = false := first c (by simp)
        have more := ih (n := n) (by simpa using room)
          (fun e inside => first e (by simp [inside])) (by simpa using ended)
        rw [if_neg (by simp [inner]), more]

theorem line_le_lines (line rest : List UInt8) (nonempty : line ≠ [])
    (first : ∀ c ∈ line.dropLast, endsLine c = false) :
    ∃ whole ∈ (lines (line ++ rest)).head?, line.length ≤ whole.length := by
  induction line with
  | nil => exact absurd rfl nonempty
  | cons c line ih =>
    rw [List.cons_append, lines]
    cases line with
    | nil =>
      split
      · simp
      · split <;> simp
    | cons d line =>
      have inner : c ≠ 10 := by
        rintro rfl
        have := first 10 (by simp)
        simp [endsLine] at this
      obtain ⟨whole, head, le⟩ := ih (by simp) fun e inside => first e (by simp [inside])
      rw [if_neg inner]
      cases split_ : lines (d :: line ++ rest) with
      | nil =>
        rw [split_] at head
        cases head
      | cons first more =>
        rw [split_] at head
        cases head
        exact ⟨_, rfl, by simpa using le⟩

theorem line_short (short : ∀ whole ∈ lines (line ++ rest), whole.length < NBUF)
    (first : ∀ c ∈ line.dropLast, endsLine c = false) : line.length < NBUF := by
  by_cases nonempty : line = []
  · subst nonempty
    decide
  obtain ⟨whole, head, le⟩ := line_le_lines line rest nonempty first
  exact Nat.lt_of_le_of_lt le (short whole (List.mem_of_mem_head? head))

/-! ## Buffers -/

theorem fill_head (room : line.length < NBUF) :
    (fill line).head? = some 0 ↔ line = [] ∨ line.head? = some 0 := by
  cases line with
  | nil => simp [fill, NBUF]
  | cons c line => simp [fill]

theorem fill_eq_iff (room : line.length + rest.length ≤ NBUF) :
    fill (line ++ rest) = fill line ↔ ∀ c ∈ rest, c = 0 := by
  have enough : NBUF - line.length = rest.length + (NBUF - (line ++ rest).length) := by
    rw [List.length_append]
    omega
  rw [fill, fill, enough, List.replicate_add, List.append_assoc, List.append_cancel_left_eq,
    List.append_cancel_right_eq, List.eq_replicate_iff]
  simp

theorem parseBuffer_none {buf : List UInt8} :
    parseBuffer buf = none ↔ [101, 120, 105, 116] <+: buf := by
  unfold parseBuffer
  split
  · rename_i cd
    simp only [reduceCtorEq, false_iff]
    intro exit
    obtain ⟨more, rfl⟩ := cd
    obtain ⟨more', same⟩ := exit
    simp at same
  · split <;> simp_all

theorem exits_fill (line : List UInt8) :
    [101, 120, 105, 116] <+: fill line ↔ [101, 120, 105, 116] <+: line := by
  constructor
  · intro exit
    by_cases long : 4 ≤ line.length
    · exact List.prefix_of_prefix_length_le exit (List.prefix_append _ _) long
    -- the first zero would have to be a letter
    obtain ⟨more, same⟩ := exit
    have at_ := congrArg (·[line.length]?) same
    have zero : (fill line)[line.length]? = some 0 := by
      rw [fill, List.getElem?_append_right (Nat.le_refl _), Nat.sub_self, List.getElem?_replicate,
        if_pos (by unfold NBUF; omega)]
    rw [zero] at at_
    have few : line.length = 0 ∨ line.length = 1 ∨ line.length = 2 ∨ line.length = 3 := by omega
    rcases few with n | n | n | n <;> simp [n] at at_
  · exact fun exit => exit.trans (List.prefix_append _ _)

/-! ## The two modes -/

theorem interactive_nil (none_ : rest = [] ∨ rest.head? = some 0) :
    interactive (fuel + 1) rest = some [] := by
  have stops : getcmd rest = none := by
    rcases none_ with rfl | zero
    · rfl
    · cases rest with
      | nil => cases zero
      | cons c rest =>
        cases zero
        rfl
  rw [interactive, stops]

theorem interactive_head {buf : List UInt8} {calls : List (List UInt8)}
    (got : getcmd input = some (buf, left)) (ran : interactive fuel input = some calls) :
    calls.head? = some buf := by
  cases fuel with
  | zero => cases ran
  | succ fuel =>
    simp only [interactive, got] at ran
    split at ran
    · cases ran
      rfl
    · obtain ⟨more, -, rfl⟩ := Option.map_eq_some_iff.mp ran
      rfl

theorem scriptLoop_head {buf : List UInt8} {calls : List (List UInt8)}
    (ran : scriptLoop fuel buf left = some calls) : calls.head? = some buf := by
  cases fuel with
  | zero => cases ran
  | succ fuel =>
    simp only [scriptLoop] at ran
    split at ran
    · cases ran
      rfl
    · split at ran
      · obtain ⟨more, -, rfl⟩ := Option.map_eq_some_iff.mp ran
        rfl
      · cases ran
        rfl

/-- One buffer is passed, if the shell exits in it or the next read is short. -/
theorem scriptLoop_single {buf : List UInt8} :
    scriptLoop (fuel + 1) buf left = some [buf] ↔ parseBuffer buf = none ∨ left.length < NBUF := by
  rw [scriptLoop]
  cases parseBuffer buf with
  | none => simp
  | some buf' =>
    simp only [List.length_take, reduceCtorEq, false_or]
    split
    · rename_i full
      constructor
      · intro ran
        obtain ⟨more, ran, same⟩ := Option.map_eq_some_iff.mp ran
        have head := scriptLoop_head ran
        have none_ : more = [] := by simpa using same
        simp [none_] at head
      · intro short
        omega
    · rename_i part
      constructor
      · intro _
        omega
      · exact fun _ => rfl

theorem scriptAgrees_of_gets (got : getsLoop (NBUF - 1) (line ++ rest) = (line, rest))
    (room : line.length < NBUF) :
    ScriptAgrees (line ++ rest) ↔ (line.head? ≠ none ∧ line.head? ≠ some 0) ∧
      (∀ c ∈ rest.take (NBUF - line.length), c = 0) ∧
      ((line ++ rest).length < 2 * NBUF ∨ [101, 120, 105, 116] <+: line) := by
  have typed : getcmd (line ++ rest) =
      if (fill line).head? = some 0 then none else some (fill line, rest) := by
    simp only [getcmd, gets, got]
  have read : (line ++ rest).take NBUF = line ++ rest.take (NBUF - line.length) := by
    rw [List.take_append, List.take_of_length_le (Nat.le_of_lt room)]
  by_cases started : line.head? ≠ none ∧ line.head? ≠ some 0
  · have more : (fill line).head? ≠ some 0 := by
      rw [Ne, fill_head room, ← List.head?_eq_none_iff]
      exact not_or.mpr started
    rw [if_neg more] at typed
    rw [and_iff_right started]
    by_cases zeros : ∀ c ∈ rest.take (NBUF - line.length), c = 0
    · rw [and_iff_right zeros]
      have same : fill ((line ++ rest).take NBUF) = fill line := by
        rw [read, fill_eq_iff (by rw [List.length_take]; omega)]
        exact zeros
      have ends : rest = [] ∨ rest.head? = some 0 := by
        cases rest with
        | nil => exact .inl rfl
        | cons c rest =>
          refine .inr (congrArg some (zeros c ?_))
          rw [show NBUF - line.length = (NBUF - line.length - 1) + 1 by omega, List.take_succ_cons]
          exact List.mem_cons_self
      have session : interactive ((line ++ rest).length + 1) (line ++ rest) = some [fill line] := by
        have positive : (line ++ rest).length = (line ++ rest).length - 1 + 1 := by
          cases line with
          | nil => exact absurd rfl started.1
          | cons c line => rfl
        simp only [interactive, typed]
        cases parseBuffer (fill line) with
        | none => rfl
        | some buf =>
          rw [positive, interactive_nil ends]
          rfl
      have scripted : ScriptAgrees (line ++ rest) ↔
          script ((line ++ rest).length + 1) (line ++ rest) = some [fill line] := by
        rw [ScriptAgrees, session]
        simp
      rw [scripted, script, same, scriptLoop_single, parseBuffer_none, exits_fill, or_comm,
        List.length_drop]
      exact or_congr_left (by omega)
    · simp only [zeros, false_and, iff_false]
      rintro ⟨calls, scripted, ran⟩
      have first := scriptLoop_head scripted
      rw [interactive_head typed ran, read, Option.some.injEq] at first
      exact zeros ((fill_eq_iff (by rw [List.length_take]; omega)).mp first.symm)
  · have stops : (fill line).head? = some 0 := by
      rw [fill_head room, ← List.head?_eq_none_iff]
      tauto
    rw [if_pos stops] at typed
    simp only [started, false_and, iff_false]
    rintro ⟨calls, scripted, ran⟩
    rw [interactive, typed] at ran
    cases ran
    cases scriptLoop_head scripted

end

/-- A script is run like a session exactly if it has one line. -/
theorem scriptAgrees_iff (file : List UInt8) (short : ∀ line ∈ lines file, line.length < NBUF) :
    ScriptAgrees file ↔ ∃ line rest, OneLine file line rest := by
  constructor
  · intro agrees
    cases got : getsLoop (NBUF - 1) file with
    | mk line rest =>
      obtain ⟨rfl, room, first, last⟩ := getsLoop_spec got
      have small := line_short short first
      obtain ⟨started, zeros, single⟩ := (scriptAgrees_of_gets got small).mp agrees
      refine ⟨line, rest, rfl, first, ?_, started, zeros, single⟩
      by_cases ended : line.getLast?.any endsLine
      · exact .inl ended
      cases rest with
      | nil => exact .inr rfl
      | cons c rest =>
        -- the line would go on, and be too long
        have full : line.length = NBUF - 1 := (last.resolve_left ended).resolve_left nofun
        have inner : ∀ d ∈ line, endsLine d = false := by
          intro d inside
          have nonempty := List.ne_nil_of_mem inside
          rw [← List.dropLast_append_getLast nonempty, List.mem_append,
            List.mem_singleton] at inside
          rcases inside with inside | rfl
          · exact first d inside
          · simpa [List.getLast?_eq_some_getLast nonempty] using ended
        rw [List.append_cons] at short
        have small := line_short short (by simpa using inner)
        rw [List.length_append, List.length_singleton, full] at small
        exact absurd small (by decide)
  · rintro ⟨line, rest, rfl, first, ended, started, zeros, single⟩
    have small := line_short short first
    exact (scriptAgrees_of_gets (getsLoop_of_line (by omega) first ended) small).mpr
      ⟨started, zeros, single⟩

/-- `ls`, with a newline. -/
theorem scriptAgrees_ls : (∀ line ∈ lines [108, 115, 10], line.length < NBUF) ∧
    ScriptAgrees [108, 115, 10] := by
  have short : ∀ line ∈ lines [108, 115, 10], line.length < NBUF := by decide
  refine ⟨short, (scriptAgrees_iff _ short).mpr ⟨[108, 115, 10], [], rfl, ?_, .inl rfl, ?_, ?_, ?_⟩⟩
  · simp [endsLine]
  · decide
  · simp
  · exact .inl (by decide)

/-- `ls` twice, in two lines: the session passes two buffers, the script one. -/
theorem not_scriptAgrees_twoLines :
    (∀ line ∈ lines [108, 115, 10, 108, 115, 10], line.length < NBUF) ∧
      interactive 7 [108, 115, 10, 108, 115, 10] =
        some [fill [108, 115, 10], fill [108, 115, 10]] ∧
      script 7 [108, 115, 10, 108, 115, 10] = some [fill [108, 115, 10, 108, 115, 10]] ∧
      ¬ ScriptAgrees [108, 115, 10, 108, 115, 10] := by
  have typed : interactive 7 [108, 115, 10, 108, 115, 10] =
      some [fill [108, 115, 10], fill [108, 115, 10]] := by decide +kernel
  have scripted : script 7 [108, 115, 10, 108, 115, 10] =
      some [fill [108, 115, 10, 108, 115, 10]] := by decide +kernel
  refine ⟨by decide, typed, scripted, ?_⟩
  rintro ⟨calls, first, second⟩
  have same := (scripted.symm.trans first).trans (second.symm.trans typed)
  revert same
  decide +kernel

end Xv6.User.Script
