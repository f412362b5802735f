import Mathlib

/-! # The matcher of grep

`match`, `matchhere` and `matchstar` of `user/grep.c`. A string is the list of its
bytes before the NUL. The order of the tests in `matchhere` decides how a pattern
is read: an item is starred before it is anything else.
-/

namespace Xv6.User.Grep

/-- `'*'`, `'$'`, `'.'` and `'^'`. -/
def star : UInt8 := 42

def dollar : UInt8 := 36

def dot : UInt8 := 46

def caret : UInt8 := 94

mutual

def matchhere (re text : List UInt8) : Bool :=
  match re with
  | [] => true
  | c :: re =>
      if re.head? = some star then matchstar c re.tail text
      else if c = dollar ∧ re = [] then text = []
      else
        match text with
        | [] => false
        | t :: text => if c = dot ∨ c = t then matchhere re text else false
termination_by (re.length, text.length, 0)
decreasing_by
  all_goals simp_wf
  all_goals simp only [Prod.lex_def]
  all_goals omega

def matchstar (c : UInt8) (re text : List UInt8) : Bool :=
  if matchhere re text then true
  else
    match text with
    | [] => false
    | t :: text => if t = c ∨ c = dot then matchstar c re text else false
termination_by (re.length, text.length, 1)

end

/-- The loop of `match`, which also looks at the empty string. -/
def matchAnywhere (re : List UInt8) : List UInt8 → Bool
  | [] => matchhere re []
  | t :: text => if matchhere re (t :: text) then true else matchAnywhere re text

def «match» (re text : List UInt8) : Bool :=
  if re.head? = some caret then matchhere re.tail text else matchAnywhere re text

/-! ## What a pattern means -/

inductive Item where
  | one (c : UInt8)
  | many (c : UInt8)
  | atEnd
  deriving DecidableEq

/-- The pattern as `matchhere` reads it. -/
def items : List UInt8 → List Item
  | [] => []
  | c :: re =>
      if re.head? = some star then .many c :: items re.tail
      else if c = dollar ∧ re = [] then [.atEnd]
      else .one c :: items re
termination_by re => re.length
decreasing_by
  all_goals simp only [List.length_cons, List.length_tail]
  all_goals omega

/-- The character `t` matches `c`. -/
def Fits (c t : UInt8) : Prop := c = dot ∨ c = t

/-- The items match `s`, where `rest` follows it. -/
inductive Sat : List Item → List UInt8 → List UInt8 → Prop where
  | nil {rest} : Sat [] [] rest
  | one {c t is s rest} (fits : Fits c t) (sat : Sat is s rest) : Sat (.one c :: is) (t :: s) rest
  | many {c u is s rest} (fits : ∀ t ∈ u, Fits c t) (sat : Sat is s rest) :
      Sat (.many c :: is) (u ++ s) rest
  | atEnd : Sat [.atEnd] [] []

/-- Some first part of the text matches the items. -/
def Here (is : List Item) (text : List UInt8) : Prop := ∃ s rest, text = s ++ rest ∧ Sat is s rest

/-- The text matches the pattern: at its beginning after `'^'`, and anywhere otherwise. -/
def Matches (re text : List UInt8) : Prop :=
  if re.head? = some caret then Here (items re.tail) text
  else ∃ before after, text = before ++ after ∧ Here (items re) after

section Here

variable {c : UInt8} {is : List Item} {text : List UInt8}

theorem here_nil (text : List UInt8) : Here [] text := ⟨[], text, rfl, .nil⟩

theorem here_atEnd : Here [.atEnd] text ↔ text = [] := by
  constructor
  · rintro ⟨s, rest, rfl, sat⟩
    cases sat
    rfl
  · rintro rfl
    exact ⟨[], [], rfl, .atEnd⟩

theorem here_one :
    Here (.one c :: is) text ↔ ∃ t rest, text = t :: rest ∧ Fits c t ∧ Here is rest := by
  constructor
  · rintro ⟨s, rest, rfl, sat⟩
    cases sat with
    | @one _ t _ s _ fits sat => exact ⟨t, s ++ rest, rfl, fits, s, rest, rfl, sat⟩
  · rintro ⟨t, _, rfl, fits, s, rest, rfl, sat⟩
    exact ⟨t :: s, rest, rfl, .one fits sat⟩

theorem here_many : Here (.many c :: is) text ↔
    ∃ u rest, text = u ++ rest ∧ (∀ t ∈ u, Fits c t) ∧ Here is rest := by
  constructor
  · rintro ⟨s, rest, rfl, sat⟩
    cases sat with
    | @many _ u _ s _ fits sat =>
      exact ⟨u, s ++ rest, List.append_assoc u s rest, fits, s, rest, rfl, sat⟩
  · rintro ⟨u, _, rfl, fits, s, rest, rfl, sat⟩
    exact ⟨u ++ s, rest, (List.append_assoc u s rest).symm, .many fits sat⟩

/-- No character more, or one more and then any number. -/
theorem here_many_cons {t : UInt8} : Here (.many c :: is) (t :: text) ↔
    Here is (t :: text) ∨ Fits c t ∧ Here (.many c :: is) text := by
  rw [here_many, here_many]
  constructor
  · rintro ⟨u, rest, same, fits, here⟩
    cases u with
    | nil => exact .inl (same ▸ here)
    | cons first u =>
      rw [List.cons_append, List.cons.injEq] at same
      obtain ⟨rfl, rfl⟩ := same
      exact .inr ⟨fits t List.mem_cons_self, u, rest, rfl,
        fun x inside => fits x (List.mem_cons_of_mem t inside), here⟩
  · rintro (here | ⟨first, u, rest, rfl, fits, here⟩)
    · exact ⟨[], t :: text, rfl, fun _ none_ => absurd none_ List.not_mem_nil, here⟩
    · refine ⟨t :: u, rest, rfl, fun x inside => ?_, here⟩
      rcases List.mem_cons.mp inside with rfl | inside
      · exact first
      · exact fits x inside

end Here

/-! ## The matcher finds what the pattern means -/

section Correct

variable {c : UInt8} {re text : List UInt8}

/-- The loop of `matchstar`, by induction on the text that is left. -/
theorem matchstar_iff (here : ∀ text, matchhere re text = true ↔ Here (items re) text) :
    matchstar c re text = true ↔ Here (.many c :: items re) text := by
  induction text with
  | nil =>
    rw [matchstar, here_many]
    constructor
    · intro found
      have now : matchhere re [] = true := by simpa using found
      exact ⟨[], [], rfl, fun _ none_ => absurd none_ List.not_mem_nil, (here []).mp now⟩
    · rintro ⟨u, rest, empty, -, now⟩
      obtain ⟨rfl, rfl⟩ := List.append_eq_nil_iff.mp empty.symm
      rw [if_pos ((here []).mpr now)]
  | cons t text ih =>
    rw [matchstar, here_many_cons, ← ih, ← here]
    by_cases now : matchhere re (t :: text) = true
    · rw [if_pos now]
      exact iff_of_true rfl (.inl now)
    · rw [if_neg now, or_iff_right now]
      have order : (t = c ∨ c = dot) ↔ Fits c t := by
        rw [Fits, or_comm, eq_comm (a := t)]
      by_cases fits : Fits c t
      · simp [order, fits]
      · simp [order, fits]

/-- By induction on the length of the pattern, of which `matchstar` leaves two
    characters less. -/
theorem matchhere_iff (re text : List UInt8) :
    matchhere re text = true ↔ Here (items re) text := by
  induction len : re.length using Nat.strongRecOn generalizing re text with
  | ind n ih =>
    cases re with
    | nil =>
      rw [matchhere, items]
      exact iff_of_true rfl (here_nil text)
    | cons c re =>
      rw [List.length_cons] at len
      rw [matchhere.eq_def, items]
      dsimp only
      by_cases starred : re.head? = some star
      · rw [if_pos starred, if_pos starred]
        refine matchstar_iff fun text => ih re.tail.length ?_ re.tail text rfl
        rw [List.length_tail]
        omega
      rw [if_neg starred, if_neg starred]
      by_cases last : c = dollar ∧ re = []
      · rw [if_pos last, if_pos last, here_atEnd, decide_eq_true_eq]
      rw [if_neg last, if_neg last, here_one]
      cases text with
      | nil => simp
      | cons t text =>
        have rest := ih re.length (by omega) re text rfl
        by_cases fits : c = dot ∨ c = t
        · simp [fits, rest, Fits]
        · simp [fits, Fits]

theorem matchAnywhere_iff : matchAnywhere re text = true ↔
    ∃ before after, text = before ++ after ∧ Here (items re) after := by
  induction text with
  | nil =>
    rw [matchAnywhere, matchhere_iff]
    constructor
    · exact fun here => ⟨[], [], rfl, here⟩
    · rintro ⟨before, after, empty, here⟩
      rwa [(List.append_eq_nil_iff.mp empty.symm).2] at here
  | cons t text ih =>
    rw [matchAnywhere]
    by_cases now : matchhere re (t :: text) = true
    · rw [if_pos now]
      exact iff_of_true rfl ⟨[], t :: text, rfl, (matchhere_iff _ _).mp now⟩
    · rw [if_neg now, ih]
      constructor
      · rintro ⟨before, after, rfl, here⟩
        exact ⟨t :: before, after, rfl, here⟩
      · rintro ⟨before, after, same, here⟩
        cases before with
        | nil => exact absurd ((matchhere_iff _ _).mpr (same ▸ here)) now
        | cons first before =>
          rw [List.cons_append, List.cons.injEq] at same
          exact ⟨before, after, same.2, here⟩

end Correct

/-- `match` returns 1 if and only if the text matches the pattern. -/
theorem match_iff (re text : List UInt8) : «match» re text = true ↔ Matches re text := by
  unfold «match» Matches
  split
  · exact matchhere_iff re.tail text
  · exact matchAnywhere_iff

/-- `$*` is a starred dollar, and a star after a starred item is one more item. -/
example : items [dollar, star] = [.many dollar] ∧
    items [97, star, star] = [.many 97, .one star] := by
  simp [items, star, dollar]

end Xv6.User.Grep
