import Xv6.Lib.Radix

/-! # Tries linked through memory

A search tree over keys in base `b` whose nodes are arrays of words: a word leads to
the node below, or nowhere, and the words of the last nodes are the values. Nothing is
assumed about the words that lead nowhere. The tree is what a walk from the root
finds, so that it is a function of the words; the condition that no two walks share a
node makes a write to one word visible to the keys below it only.
-/

namespace Xv6.Lib.Trie

open Radix (digit)

variable {b top : Nat} {next : Nat → Option Nat} {rd rd' : Nat → Nat → Nat} {root : Nat}

/-- Two keys agree above digit `h` when they agree above `h + 1` and in digit `h`. -/
theorem div_pow_eq_iff {h u v : Nat} : u / b ^ h = v / b ^ h ↔
    u / b ^ (h + 1) = v / b ^ (h + 1) ∧ digit b h u = digit b h v := by
  have split : ∀ x, x / b ^ h = b * (x / b ^ (h + 1)) + digit b h x := by
    intro x
    rw [Nat.pow_succ, ← Nat.div_div_eq_div_mul]
    exact (Nat.div_add_mod _ b).symm
  constructor
  · intro same
    refine ⟨?_, by rw [digit, digit, same]⟩
    rw [Nat.pow_succ, ← Nat.div_div_eq_div_mul, ← Nat.div_div_eq_div_mul, same]
  · rintro ⟨above, here⟩
    rw [split u, split v, above, here]

variable (b top next) in
/-- The node that the walk for key `v` has come to after `d` steps. -/
def node (rd : Nat → Nat → Nat) (root v : Nat) : Nat → Option Nat
  | 0 => some root
  | d + 1 => (node rd root v d).bind fun q => next (rd q (digit b (top - d) v))

variable (b top next) in
/-- The value of key `v`, as `leaf` reads it from its word. -/
def get {β : Type} (leaf : Nat → Option β) (rd : Nat → Nat → Nat) (root v : Nat) : Option β :=
  (node b top next rd root v top).bind fun q => leaf (rd q (digit b 0 v))

theorem node_congr {v d : Nat} (same : ∀ e p j, e ≤ top →
    node b top next rd root v e = some p → j < b → rd' p j = rd p j) (pos : 0 < b)
    (depth : d ≤ top + 1) : node b top next rd' root v d = node b top next rd root v d := by
  induction d with
  | zero => rfl
  | succ d ih =>
    rw [node, node, ih (by omega)]
    cases at_ : node b top next rd root v d with
    | none => rfl
    | some p =>
      rw [Option.bind_some, Option.bind_some,
        same d p _ (by omega) at_ (Radix.digit_lt pos _ _)]

theorem get_congr {β : Type} {leaf : Nat → Option β} {v : Nat} (same : ∀ e p j, e ≤ top →
    node b top next rd root v e = some p → j < b → rd' p j = rd p j) (pos : 0 < b) :
    get b top next leaf rd' root v = get b top next leaf rd root v := by
  rw [get, get, node_congr same pos (Nat.le_succ top)]
  cases at_ : node b top next rd root v top with
  | none => rfl
  | some p =>
    rw [Option.bind_some, Option.bind_some,
      same top p _ (Nat.le_refl top) at_ (Radix.digit_lt pos _ _)]

variable (b top next) in
/-- Walks come to the same node only with the same steps. -/
def Unshared (rd : Nat → Nat → Nat) (root : Nat) : Prop :=
  ∀ d d' u v q, d ≤ top → d' ≤ top → u < b ^ (top + 1) → v < b ^ (top + 1) →
    node b top next rd root u d = some q → node b top next rd root v d' = some q →
    d = d' ∧ u / b ^ (top + 1 - d) = v / b ^ (top + 1 - d)

variable (b top next) in
/-- From `rd` to `rd'` the word of the node `q` that the walk for `v` uses after `d`
    steps is written, and no other word of the tree. -/
structure Wrote (rd rd' : Nat → Nat → Nat) (root v d q : Nat) : Prop where
  key : v < b ^ (top + 1)
  depth : d ≤ top
  at_ : node b top next rd root v d = some q
  same : ∀ u e p j, u < b ^ (top + 1) → e ≤ top → node b top next rd root u e = some p → j < b →
    ¬(p = q ∧ j = digit b (top - d) v) → rd' p j = rd p j

namespace Wrote

variable {v d q u e p : Nat}

theorem word (wrote : Wrote b top next rd rd' root v d q)
    (unshared : Unshared b top next rd root) (pos : 0 < b) (key : u < b ^ (top + 1))
    (depth : e ≤ top) (at_ : node b top next rd root u e = some p)
    (other : e = d → u / b ^ (top - d) ≠ v / b ^ (top - d)) :
    rd' p (digit b (top - e) u) = rd p (digit b (top - e) u) := by
  refine wrote.same u e p _ key depth at_ (Radix.digit_lt pos _ _) ?_
  rintro ⟨rfl, here⟩
  obtain ⟨rfl, above⟩ := unshared e d u v p depth wrote.depth key wrote.key at_ wrote.at_
  refine other rfl (div_pow_eq_iff.mpr ⟨?_, here⟩)
  rwa [Nat.sub_add_comm wrote.depth] at above

theorem node_eq (wrote : Wrote b top next rd rd' root v d q)
    (unshared : Unshared b top next rd root) (pos : 0 < b) (key : u < b ^ (top + 1))
    (depth : e ≤ top + 1) (other : e ≤ d ∨ u / b ^ (top - d) ≠ v / b ^ (top - d)) :
    node b top next rd' root u e = node b top next rd root u e := by
  induction e with
  | zero => rfl
  | succ e ih =>
    rw [node, node, ih (by omega) (other.imp_left (by omega))]
    cases at_ : node b top next rd root u e with
    | none => rfl
    | some p =>
      rw [Option.bind_some, Option.bind_some,
        wrote.word unshared pos key (by omega) at_ fun here => ?_]
      exact other.resolve_left (by omega)

end Wrote

section Leaf

variable {β : Type} {leaf : Nat → Option β} {v q : Nat}

/-- A key whose walk uses other words keeps its value. -/
theorem Wrote.get_other {d u : Nat} (wrote : Wrote b top next rd rd' root v d q)
    (unshared : Unshared b top next rd root) (pos : 0 < b) (key : u < b ^ (top + 1))
    (walk : top ≤ d ∨ u / b ^ (top - d) ≠ v / b ^ (top - d))
    (other : top = d → u / b ^ (top - d) ≠ v / b ^ (top - d)) :
    get b top next leaf rd' root u = get b top next leaf rd root u := by
  rw [get, get, wrote.node_eq unshared pos key (Nat.le_succ top) walk]
  cases at_ : node b top next rd root u top with
  | none => rfl
  | some p =>
    have word := wrote.word unshared pos key (Nat.le_refl top) at_ other
    rw [Nat.sub_self] at word
    rw [Option.bind_some, Option.bind_some, word]

/-- Writing the word of a key changes the value of that key. -/
theorem Wrote.get_eq (wrote : Wrote b top next rd rd' root v top q)
    (unshared : Unshared b top next rd root) (pos : 0 < b) {u : Nat} (key : u < b ^ (top + 1)) :
    get b top next leaf rd' root u =
      if u = v then leaf (rd' q (digit b 0 v)) else get b top next leaf rd root u := by
  split
  · rename_i same
    rw [get, wrote.node_eq unshared pos key (Nat.le_succ top) (.inl (Nat.le_refl top)), same,
      wrote.at_, Option.bind_some]
  · rename_i other
    exact wrote.get_other unshared pos key (.inl (Nat.le_refl top)) fun _ => by simpa using other

theorem Wrote.unshared (wrote : Wrote b top next rd rd' root v top q)
    (unshared : Unshared b top next rd root) (pos : 0 < b) : Unshared b top next rd' root := by
  intro d d' u v' p depth depth' key key' at_ at'
  rw [wrote.node_eq unshared pos key (by omega) (.inl depth)] at at_
  rw [wrote.node_eq unshared pos key' (by omega) (.inl depth')] at at'
  exact unshared d d' u v' p depth depth' key key' at_ at'

end Leaf

section Link

variable {v d q m u e p : Nat}
variable (b top next) in
/-- The word written led nowhere, and now leads to a fresh node without a way on. -/
structure Linked (rd rd' : Nat → Nat → Nat) (root v d q m : Nat) : Prop
    extends Wrote b top next rd rd' root v d q where
  inner : d < top
  absent : next (rd q (digit b (top - d) v)) = none
  present : next (rd' q (digit b (top - d) v)) = some m
  fresh : ∀ u e, u < b ^ (top + 1) → e ≤ top → node b top next rd root u e ≠ some m
  blank : ∀ j, j < b → next (rd' m j) = none

theorem Linked.node_below (linked : Linked b top next rd rd' root v d q m)
    (unshared : Unshared b top next rd root) (pos : 0 < b) (key : u < b ^ (top + 1))
    (below : u / b ^ (top - d) = v / b ^ (top - d)) :
    node b top next rd root u (d + 1) = none ∧ node b top next rd' root u (d + 1) = some m := by
  have depth := linked.depth
  obtain ⟨above, here⟩ := div_pow_eq_iff.mp below
  have same : ∀ e, e ≤ d → node b top next rd root u e = node b top next rd root v e := by
    intro e
    induction e with
    | zero => exact fun _ => rfl
    | succ e ih =>
      intro le
      -- the digits above `top - d` are those of `v`
      have digits : digit b (top - e) u = digit b (top - e) v := by
        have reached : ∀ i, u / b ^ (top - d + 1 + i) = v / b ^ (top - d + 1 + i) := by
          intro i
          rw [Nat.pow_add, ← Nat.div_div_eq_div_mul, above, Nat.div_div_eq_div_mul]
        have high := reached (d - e - 1)
        rw [show top - d + 1 + (d - e - 1) = top - e by omega] at high
        exact (div_pow_eq_iff.mp high).2
      rw [node, node, ih (by omega), digits]
  have before : node b top next rd root u d = some q := (same d (Nat.le_refl d)).trans linked.at_
  have after := linked.node_eq unshared pos key (by omega) (.inl (Nat.le_refl d))
  rw [node, node, after, before, Option.bind_some, Option.bind_some, here]
  exact ⟨linked.absent, linked.present⟩

theorem node_none_of_le (nowhere : node b top next rd root u d = none) (le : d ≤ e) :
    node b top next rd root u e = none := by
  induction le with
  | refl => exact nowhere
  | step _ ih => rw [node, ih, Option.bind_none]

section

variable (linked : Linked b top next rd rd' root v d q m) (distinct : Unshared b top next rd root)
  (pos : 0 < b)
include linked distinct pos

theorem Linked.node_beyond (key : u < b ^ (top + 1))
    (below : u / b ^ (top - d) = v / b ^ (top - d)) (beyond : d + 2 ≤ e) :
    node b top next rd' root u e = none := by
  refine node_none_of_le ?_ beyond
  rw [node, (linked.node_below distinct pos key below).2, Option.bind_some]
  exact linked.blank _ (Radix.digit_lt pos _ _)

/-- The nodes afterwards: those before, where they were, and the new one. -/
theorem Linked.node_cases (key : u < b ^ (top + 1)) (depth : e ≤ top)
    (at_ : node b top next rd' root u e = some p) :
    node b top next rd root u e = some p ∨
      (p = m ∧ e = d + 1 ∧ u / b ^ (top - d) = v / b ^ (top - d)) := by
  by_cases old : e ≤ d ∨ u / b ^ (top - d) ≠ v / b ^ (top - d)
  · rw [linked.node_eq distinct pos key (by omega) old] at at_
    exact .inl at_
  · have below : u / b ^ (top - d) = v / b ^ (top - d) := by
      by_contra other
      exact old (.inr other)
    have deeper : d < e := Nat.lt_of_not_le fun le => old (.inl le)
    rcases Nat.eq_or_lt_of_le (Nat.succ_le_of_lt deeper) with rfl | beyond
    · rw [(linked.node_below distinct pos key below).2] at at_
      exact .inr ⟨(Option.some.inj at_).symm, rfl, below⟩
    · rw [linked.node_beyond distinct pos key below beyond] at at_
      cases at_

theorem Linked.unshared : Unshared b top next rd' root := by
  intro e e' u u' p depth depth' key key' at_ at'
  rcases linked.node_cases distinct pos key depth at_ with old | ⟨rfl, rfl, below⟩ <;>
    rcases linked.node_cases distinct pos key' depth' at' with old' | ⟨new, same, below'⟩
  · exact distinct e e' u u' p depth depth' key key' old old'
  · exact absurd (new ▸ old) (linked.fresh u e key depth)
  · exact absurd old' (linked.fresh u' e' key' depth')
  · refine ⟨same.symm, ?_⟩
    rw [Nat.add_sub_add_right, below, below']

/-- No value changes: the keys below the new node had none and have none. -/
theorem Linked.get_eq {β : Type} {leaf : Nat → Option β}
    (empty : ∀ j, j < b → leaf (rd' m j) = none) (key : u < b ^ (top + 1)) :
    get b top next leaf rd' root u = get b top next leaf rd root u := by
  have inner := linked.inner
  by_cases below : u / b ^ (top - d) = v / b ^ (top - d)
  · rw [get, get]
    obtain ⟨nowhere, here⟩ := linked.node_below distinct pos key below
    rw [node_none_of_le nowhere inner, Option.bind_none]
    rcases Nat.eq_or_lt_of_le (Nat.succ_le_of_lt inner) with last | beyond
    · rw [show d + 1 = top from last] at here
      rw [here, Option.bind_some]
      exact empty _ (Radix.digit_lt pos _ _)
    · rw [linked.node_beyond distinct pos key below beyond, Option.bind_none]
  · exact linked.get_other distinct pos key (.inr below) fun _ => below

end

end Link

end Xv6.Lib.Trie
