import Xv6.Lib.Machine
import Xv6.Lib.Ring

/-! # The console

`consoleintr` and `consoleread` of `kernel/console.c`, for any input and any number of
readers. A step is one critical section of `cons.lock`: a call of `consoleintr`, or what
`consoleread` does from the `acquire` at its start, or from the one at the end of `sleep`,
to the `release` at its end or inside `sleep`. The buffers of the readers are mapped. The
echo of the input, the process list of `^P` and the kill of `^C` leave `cons` alone and
are not part of the model.
-/

namespace Xv6.Kernel.Console

open Function

def INPUT_BUF_SIZE : Nat := 128

/-- Control-x. -/
def C (x : Char) : UInt8 := x.toUInt8 - '@'.toUInt8

/-- The end of a line. -/
def NL : UInt8 := 10

/-- `struct cons`, without its lock. -/
structure Cons where
  buf : Nat → UInt8
  r : BitVec 32
  w : BitVec 32
  e : BitVec 32

/-- What the user did to the line, as far as the console accepted it. -/
inductive Key where
  | char (c : UInt8)
  /-- The buffer is full, which ends the line as it is. -/
  | full
  | erase
  | kill
  deriving Repr, DecidableEq

/-- The loop for `^U`, for at most `n` turns. -/
def killLoop : Nat → Cons → Cons
  | 0, c => c
  | n + 1, c =>
      if c.e ≠ c.w ∧ c.buf ((c.e - 1).toNat % INPUT_BUF_SIZE) ≠ NL then
        killLoop n { c with e := c.e - 1 }
      else c

/-- The `default` case of `consoleintr`, for a character that fits into the buffer. -/
def store (c : Cons) (ch : UInt8) : Cons × List Key :=
  let ch := if ch = 13 then NL else ch
  let c := { c with
    buf := update c.buf (c.e.toNat % INPUT_BUF_SIZE) ch
    e := c.e + 1 }
  let full : Bool := (c.e - c.r).toNat = INPUT_BUF_SIZE
  let keys := .char ch :: if full then [.full] else []
  if ch = NL ∨ ch = C 'D' ∨ full then ({ c with w := c.e }, keys) else (c, keys)

def consoleintr (c : Cons) (ch : UInt8) : Cons × List Key :=
  if ch = C 'P' then (c, [])
  else if ch = C 'U' then (killLoop (c.e - c.w).toNat c, [.kill])
  else if ch = C 'C' then (c, [])
  else if ch = C 'H' ∨ ch = 127 then
    (if c.e ≠ c.w then { c with e := c.e - 1 } else c, [.erase])
  else if ch ≠ 0 ∧ (c.e - c.r).toNat < INPUT_BUF_SIZE then store c ch
  else (c, [])

/-- One critical section of `consoleread`, with `n` bytes still to be read out of `target`:
    what it copies to the user, and the value it returns unless it sleeps. -/
def consoleread (killed : Bool) (target : Nat) : Cons → Nat → Cons × List UInt8 × Option Int
  | c, 0 => (c, [], some target)
  | c, n + 1 =>
      if c.r = c.w then (c, [], if killed then some (-1) else none)
      else
        let ch := c.buf (c.r.toNat % INPUT_BUF_SIZE)
        let next := { c with r := c.r + 1 }
        if ch = C 'D' then
          -- save ^D for next time
          (if n + 1 < target then { next with r := next.r - 1 } else next, [],
            some (target - (n + 1 : Nat)))
        else if ch = NL then (next, [ch], some (target - n))
        else
          let more := consoleread killed target next n
          (more.1, ch :: more.2.1, more.2.2)

/-- A call of `consoleread` in progress: `got` is in the buffer of the caller. -/
structure Call where
  target : Nat
  got : List UInt8
  deriving Repr, DecidableEq

structure State where
  cons : Cons
  calls : Nat → Option Call

def start : State where
  cons := { buf := fun _ => 0, r := 0, w := 0, e := 0 }
  calls := fun _ => none

inductive Event where
  | intr (ch : UInt8)
  /-- Process `k` calls `consoleread` for `n` bytes; a negative number is as good as none. -/
  | read (k : Nat) (n : Int)
  /-- Process `k` runs the next critical section of its call. -/
  | enter (k : Nat) (killed : Bool)
  deriving Repr, DecidableEq

inductive Obs where
  | keys (accepted : List Key)
  | silent
  /-- The bytes that a section of `call` delivers, and the value that it returns. -/
  | read (call : Call) (bytes : List UInt8) (value : Option Int)
  deriving Repr, DecidableEq

def step (s : State) : Event → Option (State × Obs)
  | .intr ch =>
      let done := consoleintr s.cons ch
      some ({ s with cons := done.1 }, .keys done.2)
  | .read k n =>
      if s.calls k = none then
        some ({ s with calls := update s.calls k (some ⟨n.toNat, []⟩) }, .silent)
      else none
  | .enter k killed =>
      match s.calls k with
      | none => none
      | some call =>
          let done := consoleread killed call.target s.cons (call.target - call.got.length)
          let next :=
            if done.2.2 = none then some { call with got := call.got ++ done.2.1 } else none
          some (⟨done.1, update s.calls k next⟩, .read call done.2.1 done.2.2)

def machine : Lib.Machine State Event Obs := ⟨step⟩

/-! ## The line discipline -/

/-- The lines that were ended, and the one that is being typed. -/
structure Editor where
  lines : List UInt8
  typed : List UInt8
  deriving Repr, DecidableEq

def Editor.press (ed : Editor) : Key → Editor
  | .char c =>
      if c = NL ∨ c = C 'D' then ⟨ed.lines ++ (ed.typed ++ [c]), []⟩
      else { ed with typed := ed.typed ++ [c] }
  | .full => ⟨ed.lines ++ ed.typed, []⟩
  | .erase => { ed with typed := ed.typed.dropLast }
  | .kill => { ed with typed := [] }

/-- The input with the erase and kill characters applied. -/
def edited (keys : List Key) : Editor := keys.foldl Editor.press ⟨[], []⟩

/-- The part of the buffer between two indices. -/
def Cons.span (c : Cons) (head tail : BitVec 32) : Lib.Ring UInt8 32 INPUT_BUF_SIZE :=
  ⟨c.buf, head, tail⟩

/-- The committed bytes that have not been read. -/
def Cons.unread (c : Cons) : List UInt8 := (c.span c.r c.w).contents

/-- The bytes that can still be erased. -/
def Cons.typed (c : Cons) : List UInt8 := (c.span c.w c.e).contents

/-- A call that wants something and returns 0 has taken a `^D` out of the buffer. -/
def eof (target : Nat) (value : Option Int) : List UInt8 :=
  if value = some 0 ∧ 0 < target then [C 'D'] else []

/-- What a section of `consoleread` takes out of the buffer. -/
def Obs.taken : Obs → List UInt8
  | .read call bytes value => bytes ++ eof call.target value
  | .keys _ | .silent => []

def Obs.accepted : Obs → List Key
  | .keys accepted => accepted
  | .silent | .read .. => []

/-! ## The buffer -/

theorem divides : INPUT_BUF_SIZE ∣ 2 ^ 32 := by decide

theorem small : INPUT_BUF_SIZE < 2 ^ 32 := by decide

variable {c : Cons} {a b : List UInt8}

/-- The buffer holds the lines `a`, and `b` is being typed. -/
structure Shows (c : Cons) (a b : List UInt8) : Prop where
  unread : c.unread = a
  typed : c.typed = b
  room : a.length + b.length ≤ INPUT_BUF_SIZE

namespace Shows

section

variable (shows_ : Shows c a b)
include shows_

theorem length_unread : (c.w - c.r).toNat = a.length := by
  rw [← shows_.unread]
  exact (c.span c.r c.w).length_contents.symm

theorem length_typed : (c.e - c.w).toNat = b.length := by
  rw [← shows_.typed]
  exact (c.span c.w c.e).length_contents.symm

theorem fits : (c.w - c.r).toNat + (c.e - c.w).toNat < 2 ^ 32 := by
  rw [shows_.length_unread, shows_.length_typed]
  exact shows_.room.trans_lt small

theorem length_all : (c.e - c.r).toNat = a.length + b.length := by
  rw [Lib.Ring.used_split shows_.fits, shows_.length_unread, shows_.length_typed]

theorem contents : (c.span c.r c.e).contents = a ++ b := by
  rw [← shows_.unread, ← shows_.typed]
  exact Lib.Ring.contents_split c.buf shows_.fits

theorem r_eq_w_iff : c.r = c.w ↔ a = [] := by
  rw [← shows_.unread]
  exact (c.span c.r c.w).contents_eq_nil_iff.symm

theorem w_eq_e_iff : c.w = c.e ↔ b = [] := by
  rw [← shows_.typed]
  exact (c.span c.w c.e).contents_eq_nil_iff.symm

theorem commit : Shows { c with w := c.e } (a ++ b) [] where
  unread := shows_.contents
  typed := (c.span c.e c.e).contents_eq_nil_iff.mpr rfl
  room := by simpa using shows_.room

theorem put (room : a.length + b.length < INPUT_BUF_SIZE) (ch : UInt8) :
    Shows { c with
      buf := update c.buf (c.e.toNat % INPUT_BUF_SIZE) ch
      e := c.e + 1 } a (b ++ [ch]) := by
  have all : (c.span c.r c.e).used = a.length + b.length := shows_.length_all
  have unread : (c.span c.r c.w).used = a.length := shows_.length_unread
  have typed : (c.span c.w c.e).used = b.length := shows_.length_typed
  refine ⟨?_, ?_, ?_⟩
  · rw [← shows_.unread]
    apply (c.span c.r c.w).contents_update
    -- The cell of `e` is behind the bytes that wait to be read.
    intro i inside
    have last : c.e.toNat % INPUT_BUF_SIZE = (c.span c.r c.e).cell (c.span c.r c.e).used :=
      (c.span c.r c.e).tail_cell
    rw [last]
    exact (c.span c.r c.e).cell_ne divides (by omega) (by omega)
  · rw [← shows_.typed]
    exact (c.span c.w c.e).contents_push divides small (by omega) ch
  · rw [List.length_append, List.length_singleton]
    omega

end

theorem back {ch : UInt8} (shows_ : Shows c a (b ++ [ch])) :
    c.buf ((c.e - 1).toNat % INPUT_BUF_SIZE) = ch ∧ Shows { c with e := c.e - 1 } a b := by
  have room := shows_.room
  have some_ : (c.span c.w c.e).used ≠ 0 := by
    have : (c.span c.w c.e).used = (b ++ [ch]).length := shows_.length_typed
    simp [this]
  have split := (c.span c.w c.e).contents_unpush some_
  have before : (c.span c.w c.e).contents = b ++ [ch] := shows_.typed
  rw [before] at split
  obtain ⟨typed, last⟩ := List.append_inj' split rfl
  rw [List.length_append, List.length_singleton] at room
  exact ⟨(List.cons.inj last).1.symm, shows_.unread, typed.symm, by omega⟩

theorem get {ch : UInt8} (shows_ : Shows c (ch :: a) b) :
    c.buf (c.r.toNat % INPUT_BUF_SIZE) = ch ∧ Shows { c with r := c.r + 1 } a b := by
  have room := shows_.room
  have some_ : (c.span c.r c.w).used ≠ 0 := by
    have : (c.span c.r c.w).used = (ch :: a).length := shows_.length_unread
    simp [this]
  have split := (c.span c.r c.w).contents_pop some_
  have before : (c.span c.r c.w).contents = ch :: a := shows_.unread
  rw [before] at split
  obtain ⟨first, unread⟩ := List.cons.inj split
  rw [List.length_cons] at room
  exact ⟨first.symm, unread.symm, shows_.typed, by omega⟩

end Shows

/-- The buffer holds what the editor has, and a full buffer has no line in the making. -/
structure Holds (c : Cons) (ed : Editor) : Prop where
  shows_ : Shows c ed.lines ed.typed
  full : ed.lines.length + ed.typed.length = INPUT_BUF_SIZE → ed.typed = []
  text : NL ∉ ed.typed

theorem killLoop_shows (n : Nat) (shows_ : Shows c a b) (text : NL ∉ b) (all : n = b.length) :
    Shows (killLoop n c) a [] := by
  induction n generalizing c b with
  | zero =>
    rw [List.length_eq_zero_iff.mp all.symm] at shows_
    exact shows_
  | succ n ih =>
    obtain ⟨front, ch, rfl⟩ : ∃ front ch, b = front ++ [ch] := by
      rcases List.eq_nil_or_concat b with rfl | ⟨front, ch, rfl⟩
      · simp at all
      · exact ⟨front, ch, by simp⟩
    obtain ⟨byte, before⟩ := shows_.back
    have more : c.e ≠ c.w := by
      intro same
      simp [shows_.w_eq_e_iff.mp same.symm] at all
    have other : ch ≠ NL := by
      rintro rfl
      simp at text
    rw [killLoop, byte, if_pos ⟨more, other⟩]
    exact ih before (by simp_all) (by simpa using all)

theorem store_holds {ed : Editor} (holds : Holds c ed)
    (room : ed.lines.length + ed.typed.length < INPUT_BUF_SIZE) (ch : UInt8) :
    Holds (store c ch).1 ((store c ch).2.foldl Editor.press ed) := by
  rw [store]
  generalize (if ch = 13 then NL else ch) = ch
  have put := holds.shows_.put room ch
  have all := put.length_all
  rw [List.length_append, List.length_singleton] at all
  simp only [all, decide_eq_true_eq]
  by_cases line : ch = NL ∨ ch = C 'D'
  · rw [if_pos (by tauto)]
    -- A buffer that is full as well changes nothing.
    have pressed : ((Key.char ch :: if ed.lines.length + (ed.typed.length + 1) = INPUT_BUF_SIZE
        then [Key.full] else []).foldl Editor.press ed) = ⟨ed.lines ++ (ed.typed ++ [ch]), []⟩ := by
      split <;> simp [Editor.press, line]
    rw [pressed]
    exact ⟨put.commit, fun _ => rfl, List.not_mem_nil⟩
  · have first : ed.press (.char ch) = ⟨ed.lines, ed.typed ++ [ch]⟩ := by
      simp only [Editor.press, if_neg line]
    by_cases full : ed.lines.length + (ed.typed.length + 1) = INPUT_BUF_SIZE
    · rw [if_pos (by tauto), if_pos full]
      simp only [List.foldl_cons, first]
      exact ⟨put.commit, fun _ => rfl, List.not_mem_nil⟩
    · rw [if_neg (by tauto), if_neg full]
      simp only [List.foldl_cons, first]
      refine ⟨put, ?_, ?_⟩
      · intro same
        simp only [List.foldl_nil, List.length_append, List.length_singleton] at same
        exact absurd same full
      · have other : NL ≠ ch := fun same => line (.inl same.symm)
        simpa [other] using holds.text

theorem erase_holds {ed : Editor} (holds : Holds c ed) :
    Holds (if c.e ≠ c.w then { c with e := c.e - 1 } else c) (ed.press .erase) := by
  obtain ⟨lines, typed⟩ := ed
  obtain ⟨shows_, full, text⟩ := holds
  simp only [Editor.press] at *
  rcases List.eq_nil_or_concat typed with rfl | ⟨front, ch, rfl⟩
  · rw [if_neg (not_not.mpr (shows_.w_eq_e_iff.mpr rfl).symm)]
    exact ⟨shows_, full, text⟩
  · rw [List.concat_eq_append] at *
    have more : c.e ≠ c.w := by
      intro same
      simpa using shows_.w_eq_e_iff.mp same.symm
    have room := shows_.room
    rw [List.length_append, List.length_singleton] at room
    rw [if_pos more, List.dropLast_concat]
    refine ⟨shows_.back.2, fun same => ?_, fun inside => text (List.mem_append_left _ inside)⟩
    change lines.length + front.length = INPUT_BUF_SIZE at same
    omega

theorem consoleintr_holds {ed : Editor} (holds : Holds c ed) (ch : UInt8) :
    Holds (consoleintr c ch).1 ((consoleintr c ch).2.foldl Editor.press ed) := by
  rw [consoleintr]
  split
  · exact holds
  split
  · have killed := killLoop_shows _ holds.shows_ holds.text holds.shows_.length_typed
    exact ⟨killed, fun _ => rfl, List.not_mem_nil⟩
  split
  · exact holds
  split
  · exact erase_holds holds
  split
  · rename_i room
    rw [holds.shows_.length_all] at room
    exact store_holds holds room.2 ch
  · exact holds

/-- What a section of `consoleread` does that wants `n` of `target` bytes and finds the lines
    `a`: `done` is its outcome, and the lines `a'` are left. -/
structure Delivers (target n : Nat) (killed : Bool) (a b : List UInt8)
    (done : Cons × List UInt8 × Option Int) (a' : List UInt8) : Prop where
  bytes : a = done.2.1 ++ eof target done.2.2 ++ a'
  shows_ : Shows done.1 a' b
  text : C 'D' ∉ done.2.1
  count : done.2.1.length ≤ n
  value : ∀ v, done.2.2 = some v → v = -1 ∧ killed = true ∨
    v = target - n + done.2.1.length ∧
      (v < target → done.2.1.getLast? = some NL ∨ v = 0 ∨ a'.head? = some (C 'D'))

theorem consoleread_delivers (killed : Bool) {target n : Nat} (shows_ : Shows c a b)
    (within : n ≤ target) :
    ∃ a', Delivers target n killed a b (consoleread killed target c n) a' := by
  induction n generalizing c a with
  | zero =>
    refine ⟨a, ?_, shows_, List.not_mem_nil, le_rfl, ?_⟩
    · simp [consoleread, eof]
    · rintro v ⟨⟩
      exact .inr ⟨by simp [consoleread], fun short => absurd short (lt_irrefl _)⟩
  | succ n ih =>
    rw [consoleread]
    cases a with
    | nil =>
      rw [if_pos (shows_.r_eq_w_iff.mpr rfl)]
      refine ⟨[], ?_, shows_, List.not_mem_nil, Nat.zero_le _, ?_⟩
      · cases killed <;> simp [eof]
      · cases killed
        · rintro v ⟨⟩
        · rintro v ⟨⟩
          exact .inl ⟨rfl, rfl⟩
    | cons ch a =>
      obtain ⟨byte, next⟩ := shows_.get
      have some_ : c.r ≠ c.w := fun same => List.cons_ne_nil _ _ (shows_.r_eq_w_iff.mp same)
      simp only [if_neg some_, byte]
      by_cases isEof : ch = C 'D'
      · rw [if_pos isEof]
        by_cases early : n + 1 < target
        · rw [if_pos early]
          refine ⟨ch :: a, ?_, ?_, List.not_mem_nil, Nat.zero_le _, ?_⟩
          · have more : (target - (n + 1 : Nat) : Int) ≠ 0 := by omega
            rw [eof, if_neg fun zero => more (Option.some.inj zero.1)]
            rfl
          · rw [add_sub_cancel_right]
            exact shows_
          · rintro v ⟨⟩
            exact .inr ⟨by simp, fun _ => .inr (.inr (by rw [isEof]; rfl))⟩
        · have all : n + 1 = target := by omega
          rw [if_neg early]
          refine ⟨a, ?_, next, List.not_mem_nil, Nat.zero_le _, ?_⟩
          · simp [eof, ← all, isEof]
          · rintro v ⟨⟩
            exact .inr ⟨by simp, fun _ => .inr (.inl (by omega))⟩
      · rw [if_neg isEof]
        by_cases isLine : ch = NL
        · rw [if_pos isLine]
          refine ⟨a, ?_, next, by simpa using Ne.symm isEof, by simp, ?_⟩
          · have more : (target - n : Int) ≠ 0 := by omega
            simp [eof, more]
          · rintro v ⟨⟩
            refine .inr ⟨?_, fun _ => .inl (by rw [isLine]; rfl)⟩
            simp only [List.length_singleton]
            omega
        · rw [if_neg isLine]
          obtain ⟨a', bytes, shows', text, count, value⟩ := ih next (by omega)
          refine ⟨a', ?_, shows', ?_, by simpa using count, ?_⟩
          · simp only [List.cons_append]
            rw [← bytes]
          · simp only [List.mem_cons, not_or]
            exact ⟨Ne.symm isEof, text⟩
          · intro v returned
            rcases value v returned with killed' | ⟨sum, short⟩
            · exact .inl killed'
            · refine .inr ⟨?_, fun less => ?_⟩
              · simp only [BitVec.ofNat_eq_ofNat] at sum
                simp only [List.length_cons]
                push_cast
                omega
              · rcases short less with line | rest
                · left
                  rw [List.getLast?_cons, line]
                  rfl
                · exact .inr rest

/-! ## Runs -/

theorem press_append (taken : List UInt8) (ed : Editor) (keys : List Key) :
    keys.foldl Editor.press ⟨taken ++ ed.lines, ed.typed⟩ =
      ⟨taken ++ (keys.foldl Editor.press ed).lines, (keys.foldl Editor.press ed).typed⟩ := by
  induction keys generalizing ed with
  | nil => rfl
  | cons key keys ih =>
    have one : Editor.press ⟨taken ++ ed.lines, ed.typed⟩ key =
        ⟨taken ++ (ed.press key).lines, (ed.press key).typed⟩ := by
      cases key with
      | char ch =>
        simp only [Editor.press]
        split <;> simp
      | _ => simp [Editor.press]
    rw [List.foldl_cons, one, ih, List.foldl_cons]

theorem lines_foldl_press (ed : Editor) (keys : List Key) :
    ed.lines <+: (keys.foldl Editor.press ed).lines := by
  induction keys generalizing ed with
  | nil => exact List.prefix_rfl
  | cons key keys ih =>
    refine List.IsPrefix.trans ?_ (ih (ed.press key))
    cases key with
    | char ch =>
      simp only [Editor.press]
      split <;> simp
    | _ => simp [Editor.press]

/-- The input that the steps accepted, edited. -/
def input (tr : List (Event × Obs)) : Editor := edited (tr.flatMap fun x => x.2.accepted)

/-- The bytes that the steps took out of the buffer, in order. -/
def output (tr : List (Event × Obs)) : List UInt8 := tr.flatMap fun x => x.2.taken

/-- The console after the steps `tr`. -/
structure Flow (tr : List (Event × Obs)) (s : State) : Prop where
  holds : ∃ lines, Holds s.cons ⟨lines, (input tr).typed⟩ ∧ output tr ++ lines = (input tr).lines
  calls : ∀ k call, s.calls k = some call → call.got.length ≤ call.target

theorem input_snoc (tr : List (Event × Obs)) (e : Event) (o : Obs) :
    input (tr ++ [(e, o)]) = o.accepted.foldl Editor.press (input tr) := by
  simp [input, edited]

theorem output_snoc (tr : List (Event × Obs)) (e : Event) (o : Obs) :
    output (tr ++ [(e, o)]) = output tr ++ o.taken := by
  simp [output]

theorem Flow.step {tr : List (Event × Obs)} {s s' : State} {e : Event} {o : Obs} (flow : Flow tr s)
    (taken : step s e = some (s', o)) : Flow (tr ++ [(e, o)]) s' := by
  obtain ⟨⟨lines, holds, bytes⟩, calls⟩ := flow
  -- A call that starts or goes to sleep has not got more than it wants.
  have waits {k : Nat} {next : Option Call}
      (fits : ∀ call, next = some call → call.got.length ≤ call.target) :
      ∀ k' call, update s.calls k next k' = some call → call.got.length ≤ call.target := by
    intro k' call waiting
    by_cases here : k' = k
    · subst here
      exact fits call (update_self k' next s.calls ▸ waiting)
    · exact calls k' call (update_of_ne here next s.calls ▸ waiting)
  cases e with
  | intr ch =>
    cases taken
    have after := consoleintr_holds holds ch
    have whole := press_append (output tr) ⟨lines, (input tr).typed⟩ (consoleintr s.cons ch).2
    rw [bytes] at whole
    refine ⟨⟨((consoleintr s.cons ch).2.foldl Editor.press ⟨lines, (input tr).typed⟩).lines,
      ?_, ?_⟩, calls⟩
    · rw [input_snoc]
      change Holds (consoleintr s.cons ch).1
        ⟨_, ((consoleintr s.cons ch).2.foldl Editor.press (input tr)).typed⟩
      rw [whole]
      exact after
    · rw [output_snoc, input_snoc]
      change _ = ((consoleintr s.cons ch).2.foldl Editor.press (input tr)).lines
      rw [whole, Obs.taken, List.append_nil]
  | read k n =>
    simp only [Console.step] at taken
    split at taken
    · cases taken
      refine ⟨⟨lines, ?_, ?_⟩, waits ?_⟩
      · rw [input_snoc]
        exact holds
      · rw [output_snoc, input_snoc, Obs.taken, List.append_nil]
        exact bytes
      · rintro call ⟨⟩
        exact Nat.zero_le _
    · cases taken
  | enter k killed =>
    simp only [Console.step] at taken
    split at taken
    · cases taken
    · rename_i call waiting
      cases taken
      have within := calls k call waiting
      obtain ⟨left, delivers⟩ :=
        consoleread_delivers killed holds.shows_ (Nat.sub_le call.target call.got.length)
      refine ⟨⟨left, ?_, ?_⟩, waits ?_⟩
      · rw [input_snoc]
        refine ⟨delivers.shows_, fun same => holds.full ?_, holds.text⟩
        have fewer := congrArg List.length delivers.bytes
        have room := holds.shows_.room
        simp only [List.length_append] at fewer
        change left.length + (input tr).typed.length = INPUT_BUF_SIZE at same
        change lines.length + (input tr).typed.length = INPUT_BUF_SIZE
        change lines.length + (input tr).typed.length ≤ INPUT_BUF_SIZE at room
        change lines.length = _ at fewer
        omega
      · rw [output_snoc, input_snoc, Obs.taken, List.append_assoc, ← delivers.bytes]
        exact bytes
      · intro call' next
        have count := delivers.count
        split at next
        · cases next
          simp only [List.length_append]
          omega
        · cases next

theorem flow_run {tr : List (Event × Obs)} {s : State} (run : machine.Run start tr s) :
    Flow tr s := by
  refine run.always_invariant Flow ⟨⟨[], ⟨⟨?_, ?_, Nat.zero_le _⟩, fun _ => rfl, List.not_mem_nil⟩,
    rfl⟩, by simp [start]⟩ (fun _ _ _ _ _ _ flow taken => flow.step taken)
  · exact (Lib.Ring.contents_eq_nil_iff _).mpr rfl
  · exact (Lib.Ring.contents_eq_nil_iff _).mpr rfl

/-- What a console driver is to do, in a state that the steps `tr` have led to. -/
structure Disciplined (tr : List (Event × Obs)) (s : State) : Prop where
  ordered : (s.cons.w - s.cons.r).toNat ≤ (s.cons.e - s.cons.r).toNat
  bounded : (s.cons.e - s.cons.r).toNat ≤ INPUT_BUF_SIZE
  full : (s.cons.e - s.cons.r).toNat = INPUT_BUF_SIZE → s.cons.w = s.cons.e
  /-- What was read and what waits to be read are the lines of the edited input. -/
  lines : output tr ++ s.cons.unread = (input tr).lines
  typed : s.cons.typed = (input tr).typed
  /-- No input, and so no erase or kill character, takes a committed byte away. -/
  kept : ∀ ch s' o, step s (.intr ch) = some (s', o) → s.cons.unread <+: s'.cons.unread
  /-- No `^D` is delivered. A call that is not killed returns the number of bytes that it
      got; if it got less than it wants, a line has ended or a `^D` is to blame, which the
      next call finds unless this one got nothing. -/
  reads : ∀ k killed s' call bytes value,
    step s (.enter k killed) = some (s', .read call bytes value) →
    C 'D' ∉ bytes ∧ ∀ v, value = some v → v = -1 ∧ killed = true ∨
      v = (call.got ++ bytes).length ∧ (v < call.target →
        bytes.getLast? = some NL ∨ v = 0 ∨ s'.cons.unread.head? = some (C 'D'))

/-- The console is a line discipline, for all input and all readers. -/
theorem console_disciplined {tr : List (Event × Obs)} {s : State} (run : machine.Run start tr s) :
    Disciplined tr s := by
  obtain ⟨⟨lines, holds, bytes⟩, calls⟩ := flow_run run
  have all := holds.shows_.length_all
  have unread := holds.shows_.length_unread
  refine ⟨by omega, all.trans_le holds.shows_.room, fun full => ?_, ?_, holds.shows_.typed, ?_, ?_⟩
  · exact holds.shows_.w_eq_e_iff.mpr (holds.full (all.symm.trans full))
  · rw [holds.shows_.unread]
    exact bytes
  · intro ch s' o taken
    obtain ⟨rfl, rfl⟩ := Prod.mk.inj (Option.some.inj taken)
    rw [holds.shows_.unread, (consoleintr_holds holds ch).shows_.unread]
    exact lines_foldl_press _ _
  · intro k killed s' call bytes value taken
    simp only [step] at taken
    split at taken
    · cases taken
    · rename_i call' waiting
      obtain ⟨rfl, read⟩ := Prod.mk.inj (Option.some.inj taken)
      obtain ⟨rfl, rfl, rfl⟩ := Obs.read.inj read
      have within := calls k _ waiting
      obtain ⟨left, delivers⟩ :=
        consoleread_delivers killed holds.shows_ (Nat.sub_le call'.target call'.got.length)
      refine ⟨delivers.text, fun v returned => ?_⟩
      rcases delivers.value v returned with killed' | ⟨sum, short⟩
      · exact .inl killed'
      · refine .inr ⟨?_, fun less => ?_⟩
        · rw [List.length_append]
          omega
        · rw [delivers.shows_.unread]
          exact short less

/-- A line with a typing error, and its reader. -/
def mistyped : List (Event × Obs) :=
  [(.intr 97, .keys [.char 97]), (.intr 127, .keys [.erase]), (.intr 98, .keys [.char 98]),
    (.intr 13, .keys [.char NL]), (.read 0 9, .silent),
    (.enter 0 false, .read ⟨9, []⟩ [98, NL] (some 2))]

theorem console_disciplined_mistyped :
    ∃ s, machine.Run start mistyped s ∧ output mistyped = [98, NL] ∧ Disciplined mistyped s := by
  have ran : (machine.exec start (mistyped.map Prod.fst)).map (fun r => (r.1, r.2.cons.r)) =
      some (mistyped, 2) := by
    decide
  obtain ⟨s, run, -⟩ := Lib.Machine.run_of_exec (fun s : State => s.cons.r) ran
  exact ⟨s, run, by decide, console_disciplined run⟩

end Xv6.Kernel.Console
