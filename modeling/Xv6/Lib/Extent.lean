import Mathlib

/-! # Extents

Stretches of an address space that are made of units of a fixed size. A list of extents in
the order of their addresses is `Gapped` if no two of them touch: it cannot be made shorter.
`join` puts an extent before such a list and coalesces it with the first one if they touch.
-/

namespace Xv6.Lib

structure Extent where
  start : Nat
  size : Nat
  deriving Repr, DecidableEq

namespace Extent

variable (unit : Nat)
variable {ys : List Extent} {x z e : Extent} {n : Nat}

/-- The first address after the extent. -/
def stop (e : Extent) : Nat := e.start + unit * e.size

def Apart (x y : Extent) : Prop := x.stop unit ≤ y.start ∨ y.stop unit ≤ x.start

def Gapped (es : List Extent) : Prop := es.Pairwise fun x y => x.stop unit < y.start

def units (es : List Extent) : Nat := (es.map size).sum

def join (x : Extent) : List Extent → List Extent
  | [] => [x]
  | y :: ys => if x.stop unit = y.start then ⟨x.start, x.size + y.size⟩ :: ys else x :: y :: ys

@[simp] theorem units_nil : units [] = 0 := rfl

@[simp] theorem units_cons (e : Extent) (es : List Extent) : units (e :: es) = e.size + units es :=
  rfl

@[simp] theorem units_append (xs ys : List Extent) : units (xs ++ ys) = units xs + units ys := by
  simp [units]

theorem units_perm {xs : List Extent} (perm : xs.Perm ys) : units xs = units ys :=
  (perm.map size).sum_nat

variable {unit}

theorem start_le_stop (e : Extent) : e.start ≤ e.stop unit := Nat.le_add_right _ _

theorem stop_mk (start m n : Nat) : stop unit ⟨start, m + n⟩ = start + unit * m + unit * n := by
  simp only [stop]
  rw [Nat.mul_add, Nat.add_assoc]

theorem Apart.symm {y : Extent} (apart : x.Apart unit y) : y.Apart unit x := Or.symm apart

instance : Std.Symm (Apart unit) := ⟨fun _ _ => Apart.symm⟩

theorem units_join (x : Extent) (ys : List Extent) :
    units (join unit x ys) = x.size + units ys := by
  cases ys with
  | nil => rfl
  | cons y ys =>
    rw [join]
    split
    · simp [Nat.add_assoc]
    · simp

theorem join_eq_cons (unit : Nat) (x : Extent) (ys : List Extent) :
    ∃ n rest, join unit x ys = ⟨x.start, n⟩ :: rest ∧ x.size ≤ n ∧ rest <:+ ys := by
  cases ys with
  | nil => exact ⟨x.size, [], rfl, le_rfl, List.suffix_rfl⟩
  | cons y ys =>
    rw [join]
    split
    · exact ⟨_, ys, rfl, Nat.le_add_right _ _, List.suffix_cons _ _⟩
    · exact ⟨x.size, y :: ys, rfl, le_rfl, List.suffix_rfl⟩

theorem gapped_join (gapped : Gapped unit ys) (before : ∀ y ∈ ys, x.stop unit ≤ y.start) :
    Gapped unit (join unit x ys) := by
  cases ys with
  | nil => simp [join, Gapped]
  | cons y ys =>
    have first := before y List.mem_cons_self
    obtain ⟨far, rest⟩ := List.pairwise_cons.mp gapped
    rw [join]
    split
    · rename_i touch
      refine List.pairwise_cons.mpr ⟨fun z later => ?_, rest⟩
      rw [stop_mk, ← stop, touch]
      exact far z later
    · rename_i apart
      refine List.pairwise_cons.mpr ⟨fun z later => ?_, gapped⟩
      have close : x.stop unit < y.start := Nat.lt_of_le_of_ne first apart
      rcases List.mem_cons.mp later with rfl | later
      · exact close
      · exact Nat.lt_of_lt_of_le close ((start_le_stop y).trans (far z later).le)

/-- What is true of all that is joined and is kept by coalescing is true of the result. -/
theorem forall_join {Q : Extent → Prop}
    (merge : ∀ x y, Q x → Q y → x.stop unit = y.start → Q ⟨x.start, x.size + y.size⟩)
    (first : Q x) (others : ∀ y ∈ ys, Q y) :
    ∀ y ∈ join unit x ys, Q y := by
  cases ys with
  | nil => simpa [join] using first
  | cons y ys =>
    obtain ⟨second, rest⟩ := List.forall_mem_cons.mp others
    rw [join]
    split
    · exact List.forall_mem_cons.mpr ⟨merge x y first second ‹_›, rest⟩
    · exact List.forall_mem_cons.mpr ⟨first, others⟩

/-- Whatever is apart from two extents that touch is apart from the one they make. -/
theorem Apart.merge {y : Extent} (first : x.Apart unit z) (second : y.Apart unit z)
    (touch : x.stop unit = y.start) (solid : 0 < unit * z.size) :
    Apart unit ⟨x.start, x.size + y.size⟩ z := by
  rw [Apart, stop_mk, ← stop, touch]
  simp only [Apart, stop] at first second touch ⊢
  omega

theorem gapped_append {xs : List Extent} : Gapped unit (xs ++ ys) ↔
    Gapped unit xs ∧ Gapped unit ys ∧ ∀ x ∈ xs, ∀ y ∈ ys, x.stop unit < y.start :=
  List.pairwise_append

theorem gapped_cons : Gapped unit (x :: ys) ↔
    (∀ y ∈ ys, x.stop unit < y.start) ∧ Gapped unit ys :=
  List.pairwise_cons

/-- An extent that fits between two neighbours is put there. -/
theorem gapped_insert {p b : Extent} {l r : List Extent} (gapped : Gapped unit (l ++ p :: r))
    (before : p.stop unit ≤ b.start) (after : ∀ e ∈ r, b.stop unit ≤ e.start) :
    Gapped unit (l ++ join unit p (join unit b r)) := by
  obtain ⟨left, right, between⟩ := gapped_append.mp gapped
  obtain ⟨far, rest⟩ := gapped_cons.mp right
  obtain ⟨n, rest', joined, -, inside⟩ := join_eq_cons unit b r
  obtain ⟨n', rest'', joined', -, inside'⟩ := join_eq_cons unit p (join unit b r)
  have close : ∀ e ∈ join unit b r, p.stop unit ≤ e.start := by
    rw [joined]
    intro e later
    rcases List.mem_cons.mp later with rfl | later
    · exact before
    · exact (far e (inside.subset later)).le
  refine gapped_append.mpr ⟨left, gapped_join (gapped_join rest after) close, ?_⟩
  intro x early y later
  rw [joined'] at later
  have first := between x early p List.mem_cons_self
  rcases List.mem_cons.mp later with rfl | later
  · exact first
  · exact Nat.lt_of_lt_of_le first ((start_le_stop p).trans (close y (inside'.subset later)))

/-- What is left of an extent when `n` units are taken from its end. -/
def carve (n : Nat) (e : Extent) : List Extent :=
  if e.size = n then [] else [⟨e.start, e.size - n⟩]

variable (unit) in
/-- The units that are taken. -/
def carved (n : Nat) (e : Extent) : Extent := ⟨e.start + unit * (e.size - n), n⟩

theorem mem_carve (left : x ∈ carve n e) :
    e.size ≠ n ∧ x = ⟨e.start, e.size - n⟩ := by
  unfold carve at left
  split at left
  · cases left
  · exact ⟨‹_›, List.mem_singleton.mp left⟩

theorem units_carve (enough : n ≤ e.size) :
    units (carve n e) + n = e.size := by
  unfold carve
  split
  · simpa using ‹e.size = n›.symm
  · simp only [units_cons, units_nil]
    omega

theorem stop_carved (enough : n ≤ e.size) :
    (carved unit n e).stop unit = e.stop unit := by
  simp only [carved, stop]
  rw [Nat.add_assoc, ← Nat.mul_add, Nat.sub_add_cancel enough]

theorem stop_carve (left : x ∈ carve n e) :
    x.start = e.start ∧ x.stop unit = (carved unit n e).start := by
  obtain ⟨-, rfl⟩ := mem_carve left
  exact ⟨rfl, rfl⟩

theorem carve_le (left : x ∈ carve n e) : x.stop unit ≤ e.stop unit := by
  obtain ⟨-, rfl⟩ := mem_carve left
  exact Nat.add_le_add_left (Nat.mul_le_mul_left _ (Nat.sub_le _ _)) _

theorem gapped_carve {l r : List Extent} (gapped : Gapped unit (l ++ e :: r)) :
    Gapped unit (l ++ (carve n e ++ r)) := by
  obtain ⟨left, right, between⟩ := gapped_append.mp gapped
  obtain ⟨far, rest⟩ := gapped_cons.mp right
  refine gapped_append.mpr ⟨left, gapped_append.mpr ⟨?_, rest, ?_⟩, ?_⟩
  · unfold carve
    split <;> simp [Gapped]
  · exact fun x piece y later => Nat.lt_of_le_of_lt (carve_le piece) (far y later)
  · intro x early y later
    rcases List.mem_append.mp later with piece | later
    · rw [(@stop_carve unit _ _ _ piece).1]
      exact between x early e List.mem_cons_self
    · exact between x early y (List.mem_cons_of_mem _ later)

theorem Apart.carve (apart : z.Apart unit e) (left : x ∈ carve n e) :
    z.Apart unit x := by
  have starts := (@stop_carve unit _ _ _ left).1
  have ends := @carve_le unit _ _ _ left
  exact apart.imp (fun before => starts ▸ before) fun after => ends.trans after

theorem Apart.carved (apart : z.Apart unit e) (enough : n ≤ e.size) :
    z.Apart unit (carved unit n e) := by
  refine apart.imp (fun before => ?_) fun after => ?_
  · exact before.trans (Nat.le_add_right _ _)
  · rwa [stop_carved enough]

end Extent

end Xv6.Lib
