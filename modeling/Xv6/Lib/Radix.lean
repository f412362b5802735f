import Mathlib

/-! # Radix trees kept in pages

A tree over keys in base `b` whose nodes are pages of `b` words. A word is 0, a
value, or points to the page of the node below. The tree is the abstract content;
`Stored` says that given words spell it out. The pages of a tree form a multiset, so
that "no page is used twice" is `Nodup` of a sum.
-/

namespace Xv6.Lib

open Function

inductive Radix (α : Type) where
  | empty
  | leaf (a : α)
  | node (page : Nat) (child : Nat → Radix α)

namespace Radix

variable {α : Type}
variable {h u v q : Nat} {t : Radix α}

def value : Radix α → Option α
  | leaf a => some a
  | _ => none

variable (b : Nat)

/-- The digit of `v` that a node of height `h + 1` looks at. -/
def digit (h v : Nat) : Nat := v / b ^ h % b

theorem digit_lt {b : Nat} (pos : 0 < b) (h v : Nat) : digit b h v < b := Nat.mod_lt _ pos

theorem mod_pow_succ_eq_iff {b : Nat} (pos : 0 < b) :
    u % b ^ (h + 1) = v % b ^ (h + 1) ↔ digit b h u = digit b h v ∧ u % b ^ h = v % b ^ h := by
  rw [Nat.mod_pow_succ, Nat.mod_pow_succ]
  have power : 0 < b ^ h := Nat.pow_pos pos
  constructor
  · intro same
    have low := congrArg (· % b ^ h) same
    have high := congrArg (· / b ^ h) same
    simp only [Nat.add_mul_mod_self_left, Nat.mod_mod] at low
    simp only [Nat.add_mul_div_left _ _ power, Nat.div_eq_of_lt (Nat.mod_lt _ power),
      Nat.zero_add] at high
    exact ⟨high, low⟩
  · rintro ⟨high, low⟩
    rw [low, show u / b ^ h % b = v / b ^ h % b from high]

/-! ## Reading and changing an entry -/

/-- What the key `v` leads to, `h` levels down. -/
def entry : Nat → Nat → Radix α → Radix α
  | 0, _, t => t
  | h + 1, v, node _ c => entry h v (c (digit b h v))
  | _ + 1, _, _ => empty

def get (h v : Nat) (t : Radix α) : Option α := (entry b h v t).value

/-- The page of the last node on the way to `v`. -/
def slot : Nat → Nat → Radix α → Option Nat
  | 1, _, node q _ => some q
  | h + 2, v, node _ c => slot (h + 1) v (c (digit b (h + 1) v))
  | _, _, _ => none

/-- Replace what `v` leads to. -/
def set (x : Radix α) : Nat → Nat → Radix α → Radix α
  | 0, _, _ => x
  | h + 1, v, node q c =>
      node q (update c (digit b h v) (set x h v (c (digit b h v))))
  | _ + 1, _, t => t

/-- The page of the node that a path of digits leads to. -/
def nodeAt : List Nat → Radix α → Option Nat
  | [], node q _ => some q
  | j :: path, node _ c => nodeAt path (c j)
  | _, _ => none

@[simp] theorem get_empty (h v : Nat) : get b h v (empty : Radix α) = none := by
  cases h <;> rfl

@[simp] theorem get_zero (v : Nat) (t : Radix α) : get b 0 v t = t.value := rfl

@[simp] theorem get_node (h v q : Nat) (c : Nat → Radix α) :
    get b (h + 1) v (node q c) = get b h v (c (digit b h v)) := rfl

@[simp] theorem slot_empty (h v : Nat) : slot b h v (empty : Radix α) = none := by
  rcases h with _ | _ | h <;> rfl

theorem slot_one (at_ : slot b 1 v t = some q) : ∃ c, t = node q c := by
  cases t with
  | node p c => exact ⟨c, by rw [Option.some.inj at_]⟩
  | empty => cases at_
  | leaf a => cases at_

theorem slot_succ (at_ : slot b (h + 2) v t = some q) :
    ∃ p c, t = node p c ∧ slot b (h + 1) v (c (digit b (h + 1) v)) = some q := by
  cases t with
  | node p c => exact ⟨p, c, rfl, at_⟩
  | empty => cases at_
  | leaf a => cases at_

variable {b}

theorem get_set (pos : 0 < b) {x : Radix α} (at_ : slot b (h + 1) v t = some q) :
    get b (h + 1) u (set b x (h + 1) v t) =
      if u % b ^ (h + 1) = v % b ^ (h + 1) then x.value else get b (h + 1) u t := by
  induction h generalizing t with
  | zero =>
    obtain ⟨c, rfl⟩ := slot_one b at_
    simp only [set, get_node, get_zero, mod_pow_succ_eq_iff pos, Nat.pow_zero, Nat.mod_one,
      and_true]
    by_cases same : digit b 0 u = digit b 0 v
    · rw [if_pos same, same, update_self]
    · rw [if_neg same, update_of_ne same]
  | succ h ih =>
    obtain ⟨p, c, rfl, below⟩ := slot_succ b at_
    simp only [set, get_node, mod_pow_succ_eq_iff pos (h := h + 1)]
    by_cases same : digit b (h + 1) u = digit b (h + 1) v
    · rw [same, update_self, ih below]
      simp only [true_and]
    · rw [update_of_ne same, if_neg fun both => same both.1]

theorem slot_of_get {a : α} (found : get b (h + 1) v t = some a) :
    ∃ q, slot b (h + 1) v t = some q := by
  induction h generalizing t with
  | zero =>
    cases t with
    | node q c => exact ⟨q, rfl⟩
    | empty => cases found
    | leaf a => cases found
  | succ h ih =>
    cases t with
    | node q c => exact ih found
    | empty => cases found
    | leaf a => cases found

theorem get_congr (pos : 0 < b) (t : Radix α) (same : u % b ^ h = v % b ^ h) :
    get b h u t = get b h v t := by
  induction h generalizing t with
  | zero => rfl
  | succ h ih =>
    obtain ⟨high, low⟩ := (mod_pow_succ_eq_iff pos).mp same
    cases t with
    | empty => rfl
    | leaf a => rfl
    | node q c => rw [get_node, get_node, high, ih _ low]

theorem get_child (pos : 0 < b) {j : Nat} (q : Nat) (c : Nat → Radix α) (inside : j < b)
    (small : v < b ^ h) : get b (h + 1) (j * b ^ h + v) (node q c) = get b h v (c j) := by
  have high : digit b h (j * b ^ h + v) = j := by
    rw [digit, Nat.add_comm, Nat.add_mul_div_right _ _ (Nat.pow_pos pos), Nat.div_eq_of_lt small,
      Nat.zero_add, Nat.mod_eq_of_lt inside]
  rw [get_node, high]
  apply get_congr pos
  rw [Nat.add_comm, Nat.add_mul_mod_self_right]

/-! ## Pages -/

section Pages

variable (b) (f : α → Multiset Nat)
variable {i j q m h v : Nat} {c : Nat → Radix α} {t : Radix α} {a : α} {path : List Nat}

/-- The pages of the nodes, and those that the values stand for. -/
def pages : Radix α → Multiset Nat
  | empty => 0
  | leaf a => f a
  | node q c => q ::ₘ ∑ j ∈ Finset.range b, pages (c j)

@[simp] theorem pages_empty : pages b f empty = 0 := rfl

@[simp] theorem pages_leaf (a : α) : pages b f (leaf a) = f a := rfl

theorem pages_node (q : Nat) (c : Nat → Radix α) :
    pages b f (node q c) = q ::ₘ ∑ j ∈ Finset.range b, pages b f (c j) := rfl

-- a sum over all digits; it is unfolded by `pages_node` only
attribute [irreducible] pages

/-- The pages of the nodes alone. -/
def nodes (t : Radix α) : Multiset Nat := pages b (fun _ => 0) t

variable {b f}
variable (b f) in
/-- The pages of a node but for those of child `i`. -/
def around (q : Nat) (c : Nat → Radix α) (i : Nat) : Multiset Nat :=
  q ::ₘ ∑ j ∈ (Finset.range b).erase i, pages b f (c j)

/-- Exchanging one child changes the pages by that child. -/
theorem pages_update (q : Nat) (c : Nat → Radix α) (inside : i < b) (x : Radix α) :
    pages b f (node q (update c i x)) = pages b f x + around b f q c i := by
  have mem : i ∈ Finset.range b := Finset.mem_range.mpr inside
  have rest : ∑ j ∈ (Finset.range b).erase i, pages b f (update c i x j) =
      ∑ j ∈ (Finset.range b).erase i, pages b f (c j) :=
    Finset.sum_congr rfl fun j other => by rw [update_of_ne (Finset.ne_of_mem_erase other)]
  rw [pages_node, ← Finset.add_sum_erase _ _ mem, rest, update_self, around,
    Multiset.add_cons]

theorem pages_around (q : Nat) (c : Nat → Radix α) (inside : i < b) :
    pages b f (node q c) = pages b f (c i) + around b f q c i := by
  rw [← pages_update q c inside, update_eq_self]

theorem pages_child_le (q : Nat) (c : Nat → Radix α) (inside : j < b) :
    pages b f (c j) ≤ pages b f (node q c) := by
  rw [pages_around q c inside]
  exact Multiset.le_add_right _ _

theorem nodes_le_pages (t : Radix α) : nodes b t ≤ pages b f t := by
  induction t with
  | empty =>
    rw [nodes, pages_empty]
    exact Multiset.zero_le _
  | leaf a =>
    rw [nodes, pages_leaf]
    exact Multiset.zero_le _
  | node q c ih =>
    rw [nodes, pages_node, pages_node]
    exact Multiset.cons_le_cons q (Finset.sum_le_sum fun j _ => ih j)

theorem page_mem (q : Nat) (c : Nat → Radix α) : q ∈ pages b f (node q c) := by
  rw [pages_node]
  exact Multiset.mem_cons_self q _

theorem mem_pages_child (inside : j < b) (found : m ∈ pages b f (c j)) : m ∈ pages b f (node q c) :=
  Multiset.mem_of_le (pages_child_le q c inside) found

theorem nodes_around_le (q : Nat) (c : Nat → Radix α) (i : Nat) :
    around b (fun _ => 0) q c i ≤ around b f q c i :=
  Multiset.cons_le_cons q (Finset.sum_le_sum fun j _ => nodes_le_pages (c j))

theorem page_mem_around (q : Nat) (c : Nat → Radix α) (i : Nat) : q ∈ around b f q c i :=
  Multiset.mem_cons_self q _

theorem mem_around (inside : j < b) (other : j ≠ i) (mem : m ∈ pages b f (c j)) :
    m ∈ around b f q c i :=
  Multiset.mem_cons_of_mem (Multiset.mem_of_le
    (Finset.single_le_sum (f := fun j => pages b f (c j)) (fun _ _ => Multiset.zero_le _)
      (Finset.mem_erase.mpr ⟨other, Finset.mem_range.mpr inside⟩)) mem)

attribute [irreducible] around

theorem pages_set (pos : 0 < b) (x : Radix α) (at_ : slot b (h + 1) v t = some q) :
    pages b f (set b x (h + 1) v t) + pages b f (entry b (h + 1) v t) =
      pages b f t + pages b f x := by
  induction h generalizing t with
  | zero =>
    obtain ⟨c, rfl⟩ := slot_one b at_
    have inside := digit_lt pos 0 v
    rw [set, set, pages_update q c inside, pages_around q c inside, entry, entry, add_right_comm,
      add_comm (pages b f x), add_right_comm]
  | succ h ih =>
    obtain ⟨p, c, rfl, below⟩ := slot_succ b at_
    have inside := digit_lt pos (h + 1) v
    rw [set, pages_update p c inside, pages_around p c inside, entry, add_right_comm, ih below,
      add_right_comm]

theorem slot_mem (pos : 0 < b) (at_ : slot b (h + 1) v t = some q) : q ∈ pages b f t := by
  induction h generalizing t with
  | zero =>
    obtain ⟨c, rfl⟩ := slot_one b at_
    exact page_mem q c
  | succ h ih =>
    obtain ⟨p, c, rfl, below⟩ := slot_succ b at_
    exact mem_pages_child (digit_lt pos (h + 1) v) (ih below)

theorem get_pages_le (pos : 0 < b) (found : get b h v t = some a) : f a ≤ pages b f t := by
  induction h generalizing t with
  | zero =>
    cases t with
    | leaf a' => rw [Option.some.inj found, pages_leaf]
    | empty => cases found
    | node q c => cases found
  | succ h ih =>
    cases t with
    | leaf a' => cases found
    | empty => cases found
    | node q c =>
      exact (ih found).trans (pages_child_le q c (digit_lt pos h v))

/-! ### Trees that use no page twice -/

section

variable (nodup : (pages b f (node q c)).Nodup)
include nodup

theorem nodup_child (inside : j < b) : (pages b f (c j)).Nodup :=
  Multiset.nodup_of_le (pages_child_le q c inside) nodup

theorem not_mem_around (inside : i < b) (mem : m ∈ pages b f (c i)) : m ∉ around b f q c i := by
  rw [pages_around q c inside] at nodup
  exact Multiset.disjoint_left.mp (Multiset.nodup_add.mp nodup).2.2 mem

theorem page_not_mem_child (inside : j < b) : q ∉ pages b f (c j) :=
  fun mem => not_mem_around nodup inside mem (page_mem_around q c j)

theorem not_mem_sibling (inside : i < b) (inside' : j < b) (other : i ≠ j)
    (mem : m ∈ pages b f (c i)) : m ∉ pages b f (c j) :=
  fun mem' => not_mem_around nodup inside mem (mem_around inside' (Ne.symm other) mem')

end

theorem value_not_node (pos : 0 < b) (nodup : (pages b f t).Nodup) (found : get b h v t = some a)
    (mem : m ∈ f a) :
    m ∉ nodes b t := by
  induction h generalizing t with
  | zero =>
    cases t with
    | leaf a' =>
      rw [nodes, pages_leaf]
      exact Multiset.notMem_zero m
    | empty => cases found
    | node q c => cases found
  | succ h ih =>
    cases t with
    | leaf a' => cases found
    | empty => cases found
    | node q c =>
      have inside := digit_lt pos h v
      have here : m ∈ pages b f (c (digit b h v)) :=
        Multiset.mem_of_le (get_pages_le pos found) mem
      rw [nodes, pages_around q c inside, Multiset.mem_add]
      rintro (below | beside)
      · exact ih (nodup_child nodup inside) found below
      · exact not_mem_around nodup inside here (Multiset.mem_of_le (nodes_around_le q c _) beside)

/-- A page that two keys stand for makes them the same key. -/
theorem key_unique (pos : 0 < b) {u : Nat} {a' : α} (nodup : (pages b f t).Nodup)
    (found : get b h u t = some a) (found' : get b h v t = some a') (mem : m ∈ f a)
    (mem' : m ∈ f a') : u % b ^ h = v % b ^ h := by
  induction h generalizing t with
  | zero => rw [Nat.pow_zero, Nat.mod_one, Nat.mod_one]
  | succ h ih =>
    cases t with
    | leaf a' => cases found
    | empty => cases found
    | node q c =>
      rw [get_node] at found found'
      have same : digit b h u = digit b h v := by
        by_contra other
        exact not_mem_sibling nodup (digit_lt pos h u) (digit_lt pos h v) other
          (Multiset.mem_of_le (get_pages_le pos found) mem)
          (Multiset.mem_of_le (get_pages_le pos found') mem')
      rw [← same] at found'
      exact (mod_pow_succ_eq_iff pos).mpr
        ⟨same, ih (nodup_child nodup (digit_lt pos h u)) found found'⟩

/-! ### Paths -/

theorem nodeAt_cases (at_ : nodeAt path t = some m) : ∃ q c, t = node q c ∧
      (path = [] ∧ m = q ∨ ∃ j rest, path = j :: rest ∧ nodeAt rest (c j) = some m) := by
  cases t with
  | empty => cases path <;> cases at_
  | leaf a => cases path <;> cases at_
  | node q c =>
    refine ⟨q, c, rfl, ?_⟩
    cases path with
    | nil => exact .inl ⟨rfl, (Option.some.inj at_).symm⟩
    | cons j rest => exact .inr ⟨j, rest, rfl, at_⟩

theorem nodeAt_mem_nodes (digits : ∀ j ∈ path, j < b) (at_ : nodeAt path t = some m) :
    m ∈ nodes b t := by
  induction path generalizing t with
  | nil =>
    obtain ⟨q, c, rfl, ⟨_, rfl⟩ | ⟨j, rest, bad, _⟩⟩ := nodeAt_cases at_
    · exact page_mem m c
    · cases bad
  | cons j path ih =>
    obtain ⟨q, c, rfl, ⟨bad, _⟩ | ⟨j', rest, same, below⟩⟩ := nodeAt_cases at_
    · cases bad
    · cases same
      exact mem_pages_child (digits j List.mem_cons_self)
        (ih (fun i mem => digits i (List.mem_cons_of_mem j mem)) below)

theorem nodeAt_mem (digits : ∀ j ∈ path, j < b) (at_ : nodeAt path t = some m) : m ∈ pages b f t :=
  Multiset.mem_of_le (nodes_le_pages t) (nodeAt_mem_nodes digits at_)

theorem nodeAt_unique {path' : List Nat} (nodup : (pages b f t).Nodup)
    (digits : ∀ j ∈ path, j < b) (digits' : ∀ j ∈ path', j < b) (at_ : nodeAt path t = some m)
    (at' : nodeAt path' t = some m) : path = path' := by
  induction path generalizing path' t with
  | nil =>
    obtain ⟨q, c, rfl, ⟨_, rfl⟩ | ⟨j, rest, bad, _⟩⟩ := nodeAt_cases at_
    · cases path' with
      | nil => rfl
      | cons j rest =>
        exact absurd (nodeAt_mem (fun i mem => digits' i (List.mem_cons_of_mem j mem)) at')
          (page_not_mem_child nodup (digits' j List.mem_cons_self))
    · cases bad
  | cons j path ih =>
    have inside := digits j List.mem_cons_self
    have low : ∀ i ∈ path, i < b := fun i mem => digits i (List.mem_cons_of_mem j mem)
    obtain ⟨q, c, rfl, ⟨bad, _⟩ | ⟨j', rest, same, below⟩⟩ := nodeAt_cases at_
    · cases bad
    cases same
    cases path' with
    | nil =>
      cases at'
      exact absurd (nodeAt_mem low below) (page_not_mem_child nodup inside)
    | cons i path' =>
      have inside' := digits' i List.mem_cons_self
      have low' : ∀ l ∈ path', l < b := fun l mem => digits' l (List.mem_cons_of_mem i mem)
      have same : j = i := by
        by_contra other
        exact not_mem_sibling nodup inside inside' other (nodeAt_mem low below)
          (nodeAt_mem low' at')
      subst same
      rw [ih (nodup_child nodup inside) low low' below at']

end Pages

/-! ## Trees in memory -/

section Stored

variable (b) (ptr : Nat → Nat) (ok : α → Nat → Prop)
variable {h w q : Nat} {t : Radix α}

/-- The word `w` and the words `rd page index` spell out the tree, which is `h` high. -/
def Stored (rd : Nat → Nat → Nat) : Nat → Nat → Radix α → Prop
  | _, w, empty => w = 0
  | 0, w, leaf a => ok a w
  | h + 1, w, node q c => w = ptr q ∧ ∀ j, j < b → Stored rd h (rd q j) (c j)
  | _, _, _ => False

variable {b ptr ok} {f : α → Multiset Nat} {rd rd' : Nat → Nat → Nat}

@[simp] theorem stored_empty {h w : Nat} : Stored b ptr ok rd h w (empty : Radix α) ↔ w = 0 := by
  cases h <;> rfl

theorem Stored.cases (stored : Stored b ptr ok rd (h + 1) w t) : (t = empty ∧ w = 0) ∨
      ∃ q c, t = node q c ∧ w = ptr q ∧ ∀ j, j < b → Stored b ptr ok rd h (rd q j) (c j) := by
  cases t with
  | empty => exact .inl ⟨rfl, stored⟩
  | leaf a => exact stored.elim
  | node q c => exact .inr ⟨q, c, rfl, stored.1, stored.2⟩

theorem Stored.cases_zero (stored : Stored b ptr ok rd 0 w t) :
    (t = empty ∧ w = 0) ∨ ∃ a, t = leaf a ∧ ok a w := by
  cases t with
  | empty => exact .inl ⟨rfl, stored⟩
  | leaf a => exact .inr ⟨a, rfl, stored⟩
  | node q c => exact stored.elim

/-- Every page of a stored tree is that of a node, or some value stands for it. -/
theorem Stored.page_cases (pos : 0 < b) {m : Nat} (stored : Stored b ptr ok rd h w t)
    (mem : m ∈ pages b f t) :
    (∃ path, (∀ j ∈ path, j < b) ∧ nodeAt path t = some m) ∨
      ∃ v a, v < b ^ h ∧ get b h v t = some a ∧ m ∈ f a := by
  induction h generalizing w t with
  | zero =>
    rcases stored.cases_zero with ⟨rfl, _⟩ | ⟨a, rfl, _⟩
    · rw [pages_empty] at mem
      exact absurd mem (Multiset.notMem_zero m)
    · rw [pages_leaf] at mem
      exact .inr ⟨0, a, Nat.one_pos, rfl, mem⟩
  | succ h ih =>
    rcases stored.cases with ⟨rfl, _⟩ | ⟨q, c, rfl, _, below⟩
    · rw [pages_empty] at mem
      exact absurd mem (Multiset.notMem_zero m)
    rw [pages_node, Multiset.mem_cons, Multiset.mem_sum] at mem
    rcases mem with rfl | ⟨j, inside, mem⟩
    · exact .inl ⟨[], fun j bad => absurd bad List.not_mem_nil, rfl⟩
    have inside := Finset.mem_range.mp inside
    rcases ih (below j inside) mem with ⟨path, digits, at_⟩ | ⟨v, a, small, found, mem⟩
    · refine .inl ⟨j :: path, fun i which => ?_, at_⟩
      rcases List.mem_cons.mp which with rfl | which
      · exact inside
      · exact digits i which
    · refine .inr ⟨j * b ^ h + v, a, ?_, ?_, mem⟩
      · calc j * b ^ h + v < j * b ^ h + b ^ h := Nat.add_lt_add_left small _
          _ = (j + 1) * b ^ h := (Nat.succ_mul j _).symm
          _ ≤ b * b ^ h := Nat.mul_le_mul_right _ inside
          _ = b ^ (h + 1) := (Nat.pow_succ').symm
      · rw [get_child pos q c inside small]
        exact found

theorem sum_range_blocks (g : Nat → Multiset Nat) (n m : Nat) :
    ∑ v ∈ Finset.range (n * m), g v =
      ∑ j ∈ Finset.range n, ∑ u ∈ Finset.range m, g (j * m + u) := by
  induction n with
  | zero => rw [Nat.zero_mul, Finset.sum_range_zero, Finset.sum_range_zero]
  | succ n ih => rw [Nat.succ_mul, Finset.sum_range_add, ih, Finset.sum_range_succ]

theorem Stored.pages_eq (pos : 0 < b) (stored : Stored b ptr ok rd h w t) :
    pages b f t = nodes b t + ∑ v ∈ Finset.range (b ^ h), ((get b h v t).map f).getD 0 := by
  have nothing : ∀ h, pages b f empty = nodes b (empty : Radix α) +
      ∑ v ∈ Finset.range (b ^ h), ((get b h v (empty : Radix α)).map f).getD 0 := fun h => by
    rw [Finset.sum_eq_zero fun v _ => by rw [get_empty]; rfl, nodes, pages_empty, pages_empty,
      add_zero]
  induction h generalizing w t with
  | zero =>
    rcases stored.cases_zero with ⟨rfl, _⟩ | ⟨a, rfl, _⟩
    · exact nothing 0
    · rw [Nat.pow_zero, Finset.sum_range_one, nodes, pages_leaf, pages_leaf, zero_add]
      rfl
  | succ h ih =>
    rcases stored.cases with ⟨rfl, _⟩ | ⟨q, c, rfl, _, below⟩
    · exact nothing (h + 1)
    have each : ∀ j ∈ Finset.range b, pages b f (c j) = nodes b (c j) +
        ∑ v ∈ Finset.range (b ^ h), ((get b (h + 1) (j * b ^ h + v) (node q c)).map f).getD 0 := by
      intro j inside
      have inside := Finset.mem_range.mp inside
      rw [ih (below j inside)]
      refine congrArg (nodes b (c j) + ·) (Finset.sum_congr rfl fun v small => ?_)
      rw [get_child pos q c inside (Finset.mem_range.mp small)]
    rw [pages_node, Finset.sum_congr rfl each, Finset.sum_add_distrib, nodes, pages_node,
      Multiset.cons_add, Nat.pow_succ', sum_range_blocks]
    rfl

theorem Stored.frame (stored : Stored b ptr ok rd h w t)
    (same : ∀ q ∈ pages b f t, ∀ j, j < b → rd' q j = rd q j) : Stored b ptr ok rd' h w t := by
  induction h generalizing w t with
  | zero =>
    rcases stored.cases_zero with ⟨rfl, zero⟩ | ⟨a, rfl, good⟩
    · exact zero
    · exact good
  | succ h ih =>
    rcases stored.cases with ⟨rfl, zero⟩ | ⟨q, c, rfl, word, below⟩
    · exact zero
    · refine ⟨word, fun j inside => ?_⟩
      rw [same q (page_mem q c) j inside]
      exact ih (below j inside) fun p mem => same p (mem_pages_child inside mem)

theorem Stored.entry (pos : 0 < b) {v : Nat} (stored : Stored b ptr ok rd (h + 1) w t)
    (at_ : slot b (h + 1) v t = some q) :
    Stored b ptr ok rd 0 (rd q (digit b 0 v)) (entry b (h + 1) v t) := by
  induction h generalizing w t with
  | zero =>
    obtain ⟨c, rfl⟩ := slot_one b at_
    exact stored.2 _ (digit_lt pos 0 v)
  | succ h ih =>
    obtain ⟨p, c, rfl, below⟩ := slot_succ b at_
    exact ih (stored.2 _ (digit_lt pos (h + 1) v)) below

/-- Exchanging a child, by changing words of other pages than the rest of the tree. -/
theorem Stored.update {i : Nat} {c : Nat → Radix α} {x : Radix α}
    (stored : Stored b ptr ok rd (h + 1) w (node q c))
    (here : ∀ j, j < b → j ≠ i → rd' q j = rd q j) (child : Stored b ptr ok rd' h (rd' q i) x)
    (siblings : ∀ j, j < b → j ≠ i → ∀ p ∈ pages b f (c j), ∀ l, l < b → rd' p l = rd p l) :
    Stored b ptr ok rd' (h + 1) w (node q (update c i x)) := by
  refine ⟨stored.1, fun j inside => ?_⟩
  by_cases same : j = i
  · subst same
    rw [update_self]
    exact child
  · rw [update_of_ne same, here j inside same]
    exact (stored.2 j inside).frame (siblings j inside same)

theorem Stored.set (pos : 0 < b) {v : Nat} {x : Radix α}
    (stored : Stored b ptr ok rd (h + 1) w t) (nodup : (pages b f t).Nodup)
    (at_ : slot b (h + 1) v t = some q)
    (others : ∀ p ∈ pages b f t, p ≠ q → ∀ j, j < b → rd' p j = rd p j)
    (here : ∀ j, j < b → j ≠ digit b 0 v → rd' q j = rd q j)
    (written : Stored b ptr ok rd' 0 (rd' q (digit b 0 v)) x) :
    Stored b ptr ok rd' (h + 1) w (set b x (h + 1) v t) := by
  induction h generalizing w t with
  | zero =>
    obtain ⟨c, rfl⟩ := slot_one b at_
    refine stored.update (f := f) here written fun j inside other p mem => others p
      (mem_pages_child inside mem) ?_
    rintro rfl
    exact page_not_mem_child nodup inside mem
  | succ h ih =>
    obtain ⟨p, c, rfl, below⟩ := slot_succ b at_
    have inside := digit_lt pos (h + 1) v
    have last := slot_mem (f := f) pos below
    have apart : p ≠ q := by
      rintro rfl
      exact page_not_mem_child nodup inside last
    have same := others p (page_mem p c) apart
    refine stored.update (f := f) (fun j low _ => same j low) ?_ fun j low other r mem =>
      others r (mem_pages_child low mem) ?_
    · rw [same _ inside]
      exact ih (stored.2 _ inside) (nodup_child nodup inside) below
        fun r mem => others r (mem_pages_child inside mem)
    · rintro rfl
      exact not_mem_sibling nodup inside low (Ne.symm other) last mem

end Stored

end Radix

end Xv6.Lib
