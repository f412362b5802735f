import Mathlib

/-! # Maps in slots

A finite map kept in a list of slots, each empty or with a key and its value. A search goes
through the slots in order; a new key takes an empty slot or one more at the end; a key is
removed by emptying its slot. When no key is in two slots this is a map.
-/

namespace Xv6.Lib

abbrev SlotMap (κ ν : Type) := List (Option (κ × ν))

namespace SlotMap

variable {κ ν : Type} {m : SlotMap κ ν} {k k' : κ} {v w : ν} {i j n : Nat}

/-- Slot `i` has the key `k` with the value `v`. -/
def Holds (m : SlotMap κ ν) (i : Nat) (k : κ) (v : ν) : Prop := m[i]? = some (some (k, v))

/-- No key is in two slots. -/
def Unique (m : SlotMap κ ν) : Prop :=
  ∀ ⦃i j k v w⦄, m.Holds i k v → m.Holds j k w → i = j

/-- Slot `i` becomes `x`; it may be the one after the last. -/
def put (m : SlotMap κ ν) (i : Nat) (x : Option (κ × ν)) : SlotMap κ ν :=
  m.take i ++ [x] ++ m.drop (i + 1)

theorem Holds.eq (first : m.Holds i k v) (second : m.Holds i k' w) : k = k' ∧ v = w := by
  rw [Holds, first] at second
  simpa using second

theorem Holds.lt (holds : m.Holds i k v) : i < m.length := by
  by_contra beyond
  rw [Holds, List.getElem?_eq_none (by omega)] at holds
  cases holds

/-- Slot `i` is empty, or the next one after the last. -/
def Vacant (m : SlotMap κ ν) (i : Nat) : Prop := i = m.length ∨ m[i]? = some none

theorem Vacant.le (vacant : m.Vacant i) : i ≤ m.length := by
  rcases vacant with rfl | empty
  · exact Nat.le_refl _
  · by_contra beyond
    rw [List.getElem?_eq_none (by omega)] at empty
    cases empty

theorem Vacant.not_holds (vacant : m.Vacant i) : ¬ m.Holds i k v := by
  intro holds
  rcases vacant with rfl | empty
  · exact Nat.lt_irrefl _ holds.lt
  · rw [Holds, empty] at holds
    cases holds

theorem getElem?_put (le : i ≤ m.length) (x : Option (κ × ν)) (j : Nat) :
    (m.put i x)[j]? = if j = i then some x else m[j]? := by
  have length : (m.take i).length = i := by
    rw [List.length_take, Nat.min_eq_left le]
  rw [put, List.append_assoc]
  rcases Nat.lt_trichotomy j i with before | rfl | after
  · rw [if_neg (by omega), List.getElem?_append_left (by omega), List.getElem?_take, if_pos before]
  · rw [if_pos rfl, List.getElem?_append_right (by omega), length, Nat.sub_self]
    rfl
  · rw [if_neg (by omega), List.getElem?_append_right (by omega), length,
      List.getElem?_append_right (by simp; omega), List.getElem?_drop]
    congr 1
    simp
    omega

theorem holds_put_of_ne (le : i ≤ m.length) {x : Option (κ × ν)} (other : j ≠ i) :
    (m.put i x).Holds j k v ↔ m.Holds j k v := by
  rw [Holds, getElem?_put le, if_neg other, Holds]

theorem holds_put_self (le : i ≤ m.length) {x : Option (κ × ν)} :
    (m.put i x).Holds i k v ↔ x = some (k, v) := by
  rw [Holds, getElem?_put le, if_pos rfl, Option.some_inj]

theorem Unique.put_none (unique : m.Unique) (le : i ≤ m.length) : (m.put i none).Unique := by
  intro a b k v w first second
  by_cases here : a = i
  · subst here
    cases (holds_put_self le).mp first
  · by_cases there : b = i
    · subst there
      cases (holds_put_self le).mp second
    · exact unique ((holds_put_of_ne le here).mp first) ((holds_put_of_ne le there).mp second)

theorem Unique.put_some (unique : m.Unique) (le : i ≤ m.length)
    (absent : ∀ j w, ¬ m.Holds j k w) (v : ν) : (m.put i (some (k, v))).Unique := by
  intro a b k' v' w' first second
  by_cases here : a = i
  · by_cases there : b = i
    · rw [here, there]
    · subst here
      have same := (holds_put_self le).mp first
      simp only [Option.some.injEq, Prod.mk.injEq] at same
      rw [holds_put_of_ne le there, ← same.1] at second
      exact absurd second (absent _ _)
  · by_cases there : b = i
    · subst there
      have same := (holds_put_self le).mp second
      simp only [Option.some.injEq, Prod.mk.injEq] at same
      rw [holds_put_of_ne le here, ← same.1] at first
      exact absurd first (absent _ _)
    · exact unique ((holds_put_of_ne le here).mp first) ((holds_put_of_ne le there).mp second)

/-! ## Search -/

variable [DecidableEq κ]

/-- The first slot with the key `k`, when the slots are numbered from `n` on. -/
def findFrom (k : κ) : Nat → SlotMap κ ν → Option (ν × Nat)
  | _, [] => none
  | n, none :: rest => findFrom k (n + 1) rest
  | n, some (k', v) :: rest => if k = k' then some (v, n) else findFrom k (n + 1) rest

/-- The value of `k` and its slot. -/
def find (m : SlotMap κ ν) (k : κ) : Option (ν × Nat) := findFrom k 0 m

theorem findFrom_eq_some (found : findFrom k n m = some (v, i)) : n ≤ i ∧ m.Holds (i - n) k v := by
  induction m generalizing n with
  | nil => cases found
  | cons slot rest ih =>
    -- what is found in the rest is one slot further on
    have later :
        findFrom k (n + 1) rest = some (v, i) → n ≤ i ∧ Holds (slot :: rest) (i - n) k v := by
      intro next
      obtain ⟨le, holds⟩ := ih next
      refine ⟨by omega, ?_⟩
      rw [Holds, show i - n = (i - (n + 1)) + 1 by omega, List.getElem?_cons_succ]
      exact holds
    cases slot with
    | none => exact later found
    | some pair =>
      obtain ⟨k', v'⟩ := pair
      rw [findFrom] at found
      split at found
      · rename_i same
        simp only [Option.some.injEq, Prod.mk.injEq] at found
        obtain ⟨rfl, rfl⟩ := found
        subst same
        exact ⟨Nat.le_refl _, by simp [Holds]⟩
      · exact later found

theorem findFrom_eq_none (absent : findFrom k n m = none) (i : Nat) (v : ν) : ¬ m.Holds i k v := by
  induction m generalizing n i with
  | nil => simp [Holds]
  | cons slot rest ih =>
    have later : findFrom k (n + 1) rest = none → ∀ i, ¬ Holds (slot :: rest) (i + 1) k v := by
      intro next i holds
      rw [Holds, List.getElem?_cons_succ] at holds
      exact ih next i holds
    cases slot with
    | none =>
      cases i with
      | zero => simp [Holds]
      | succ i => exact later absent i
    | some pair =>
      obtain ⟨k', v'⟩ := pair
      rw [findFrom] at absent
      split at absent
      · cases absent
      · rename_i other
        cases i with
        | zero =>
          intro holds
          simp only [Holds, List.getElem?_cons_zero, Option.some.injEq, Prod.mk.injEq] at holds
          exact other holds.1.symm
        | succ i => exact later absent i

theorem find_eq_some (found : m.find k = some (v, i)) : m.Holds i k v :=
  (findFrom_eq_some found).2

theorem find_eq_none_iff : m.find k = none ↔ ∀ i v, ¬ m.Holds i k v := by
  refine ⟨fun absent => findFrom_eq_none absent, fun none_ => ?_⟩
  cases found : m.find k with
  | none => rfl
  | some pair => exact absurd (find_eq_some found) (none_ _ _)

theorem Unique.find_eq_some_iff (unique : m.Unique) : m.find k = some (v, i) ↔ m.Holds i k v := by
  refine ⟨find_eq_some, fun holds => ?_⟩
  cases found : m.find k with
  | none => exact absurd holds (find_eq_none_iff.mp found i v)
  | some pair =>
    obtain ⟨w, j⟩ := pair
    have there := find_eq_some found
    obtain rfl := unique holds there
    rw [(holds.eq there).2]

theorem Unique.find_congr {m' : SlotMap κ ν} (unique : m.Unique) (unique' : m'.Unique)
    (same : ∀ i v, m'.Holds i k v ↔ m.Holds i k v) : m'.find k = m.find k := by
  ext ⟨v, i⟩
  rw [unique'.find_eq_some_iff, unique.find_eq_some_iff, same]

theorem Unique.find_put_some (unique : m.Unique) (absent : m.find k = none)
    (vacant : m.Vacant i) (v : ν) (k' : κ) :
    (m.put i (some (k, v))).find k' = if k' = k then some (v, i) else m.find k' := by
  have le := vacant.le
  have unique' := unique.put_some le (find_eq_none_iff.mp absent) v
  by_cases same : k' = k
  · subst same
    rw [if_pos rfl, unique'.find_eq_some_iff, holds_put_self le]
  · rw [if_neg same]
    apply unique.find_congr unique'
    intro j w
    by_cases here : j = i
    · subst here
      rw [holds_put_self le]
      refine ⟨fun equal => ?_, fun holds => ?_⟩
      · simp only [Option.some.injEq, Prod.mk.injEq] at equal
        exact absurd equal.1.symm same
      · exact absurd holds vacant.not_holds
    · exact holds_put_of_ne le here

/-- A key whose slot is emptied is not found any more, and the others as before. -/
theorem Unique.find_put_none (unique : m.Unique) (found : m.find k = some (v, i)) (k' : κ) :
    (m.put i none).find k' = if k' = k then none else m.find k' := by
  have holds := find_eq_some found
  have le := Nat.le_of_lt holds.lt
  by_cases same : k' = k
  · subst same
    rw [if_pos rfl, find_eq_none_iff]
    intro j w there
    by_cases here : j = i
    · subst here
      cases (holds_put_self le).mp there
    · exact here (unique ((holds_put_of_ne le here).mp there) holds)
  · rw [if_neg same]
    apply unique.find_congr (unique.put_none le)
    intro j w
    by_cases here : j = i
    · subst here
      rw [holds_put_self le]
      refine ⟨nofun, fun there => ?_⟩
      exact absurd (there.eq holds).1 same
    · exact holds_put_of_ne le here

end SlotMap

end Xv6.Lib
