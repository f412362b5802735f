import Mathlib

/-! # Ring buffers with free-running counters

A buffer of `cap` cells, read at one counter and written at another. The counters
only grow, wrap around at `2 ^ w`, and are reduced modulo `cap` when a cell is
addressed. As long as `cap` divides `2 ^ w` the wrap-around cannot be seen: the
buffer is a queue of at most `cap` elements.
-/

namespace Xv6.Lib

/-- Only the cells below `cap` are used. -/
structure Ring (α : Type) (w cap : Nat) where
  data : Nat → α
  head : BitVec w
  tail : BitVec w

namespace Ring

variable {α : Type} {w cap : Nat} (r : Ring α w cap)

/-- The cell at distance `i` from the head. -/
def cell (i : Nat) : Nat := (r.head + BitVec.ofNat w i).toNat % cap

def used : Nat := (r.tail - r.head).toNat

/-- The elements in the order in which they will be read. -/
def contents : List α := (List.range r.used).map fun i => r.data (r.cell i)

def push (x : α) : Ring α w cap :=
  { data := Function.update r.data (r.tail.toNat % cap) x, head := r.head, tail := r.tail + 1 }

/-- The element at the head, and the ring without it. -/
def pop : α × Ring α w cap :=
  (r.data (r.head.toNat % cap), { r with head := r.head + 1 })

/-- The ring without the element that was pushed last. -/
def unpush : Ring α w cap := { r with tail := r.tail - 1 }

@[simp] theorem length_contents : r.contents.length = r.used := by simp [contents]

theorem head_eq_tail_iff : r.head = r.tail ↔ r.used = 0 := by
  constructor
  · intro same
    simp [used, same]
  · intro zero
    have : r.tail - r.head = 0 := BitVec.eq_of_toNat_eq (by simpa [used] using zero)
    exact (sub_eq_zero.mp this).symm

theorem contents_eq_nil_iff : r.contents = [] ↔ r.head = r.tail := by
  rw [head_eq_tail_iff, ← length_contents, List.length_eq_zero_iff]

theorem tail_eq : r.tail = r.head + BitVec.ofNat w r.used := by
  rw [used, BitVec.ofNat_toNat, BitVec.setWidth_eq, add_sub_cancel]

/-- The test for a full buffer, which adds the capacity to the read counter. -/
theorem tail_eq_head_add_iff (small : cap < 2 ^ w) :
    r.tail = r.head + BitVec.ofNat w cap ↔ r.used = cap := by
  constructor
  · intro same
    simp only [used, same, add_sub_cancel_left, BitVec.toNat_ofNat]
    exact Nat.mod_eq_of_lt small
  · intro all
    rw [tail_eq, all]

theorem cell_eq (divides : cap ∣ 2 ^ w) (i : Nat) : r.cell i = (r.head.toNat + i) % cap := by
  simp only [cell, BitVec.toNat_add, BitVec.toNat_ofNat, Nat.add_mod_mod]
  exact Nat.mod_mod_of_dvd _ divides

theorem used_push (small : cap < 2 ^ w) (room : r.used < cap) (x : α) :
    (r.push x).used = r.used + 1 := by
  have next : (r.push x).tail - r.head = BitVec.ofNat w (r.used + 1) := by
    have : (r.push x).tail = r.head + BitVec.ofNat w r.used + 1#w := by
      rw [← tail_eq]
      rfl
    rw [this, BitVec.ofNat_add]
    abel
  have : (r.push x).used = ((r.push x).tail - r.head).toNat := rfl
  rw [this, next, BitVec.toNat_ofNat]
  exact Nat.mod_eq_of_lt (by omega)

theorem used_pop (some_ : r.used ≠ 0) : r.pop.2.used + 1 = r.used := by
  have next : r.tail - (r.head + 1#w) = BitVec.ofNat w (r.used - 1) := by
    have split : BitVec.ofNat w r.used = BitVec.ofNat w (r.used - 1) + 1#w := by
      rw [← BitVec.ofNat_add]
      congr 1
      omega
    rw [r.tail_eq, split]
    abel
  have below : r.used < 2 ^ w := (r.tail - r.head).isLt
  have : r.pop.2.used = (r.tail - (r.head + 1#w)).toNat := rfl
  rw [this, next, BitVec.toNat_ofNat, Nat.mod_eq_of_lt (by omega)]
  omega

theorem cell_ne (divides : cap ∣ 2 ^ w) {i j : Nat} (before : i < j) (near : j < i + cap) :
    r.cell i ≠ r.cell j := by
  rw [cell_eq r divides, cell_eq r divides]
  intro same
  have step : (r.head.toNat + j - (r.head.toNat + i)) % cap = 0 :=
    Nat.sub_mod_eq_zero_of_mod_eq same.symm
  have : r.head.toNat + j - (r.head.toNat + i) = j - i := by omega
  rw [this, Nat.mod_eq_of_lt (by omega)] at step
  omega

theorem tail_cell : r.tail.toNat % cap = r.cell r.used := by
  rw [cell, ← tail_eq]

theorem contents_update {k : Nat} (outside : ∀ i < r.used, r.cell i ≠ k) (x : α) :
    ({ r with data := Function.update r.data k x } : Ring α w cap).contents = r.contents := by
  apply List.map_congr_left
  intro i inside
  exact Function.update_of_ne (outside i (List.mem_range.mp inside)) x r.data

theorem contents_push (divides : cap ∣ 2 ^ w) (small : cap < 2 ^ w) (room : r.used < cap)
    (x : α) : (r.push x).contents = r.contents ++ [x] := by
  rw [contents, used_push r small room, List.range_succ, List.map_append, List.map_singleton]
  congr 1
  · apply r.contents_update
    intro i inside
    rw [tail_cell]
    exact r.cell_ne divides inside (by omega)
  · have here : (r.push x).cell r.used = r.tail.toNat % cap := r.tail_cell.symm
    rw [here]
    simp [push]

theorem contents_pop (some_ : r.used ≠ 0) : r.contents = r.pop.1 :: r.pop.2.contents := by
  rw [contents, ← used_pop r some_, List.range_succ_eq_map, List.map_cons, List.map_map]
  congr 1
  · simp [cell, pop]
  · apply List.map_congr_left
    intro i _
    have shifted : r.cell (i + 1) = r.pop.2.cell i := by
      simp only [cell, pop]
      rw [Nat.add_comm i 1, BitVec.ofNat_add, add_assoc]
      rfl
    simp only [Function.comp_apply, Nat.succ_eq_add_one]
    rw [shifted]
    rfl

theorem used_unpush (some_ : r.used ≠ 0) : r.unpush.used + 1 = r.used := by
  have next : r.tail - 1#w - r.head = BitVec.ofNat w (r.used - 1) := by
    have split : BitVec.ofNat w r.used = BitVec.ofNat w (r.used - 1) + 1#w := by
      rw [← BitVec.ofNat_add]
      congr 1
      omega
    rw [r.tail_eq, split]
    abel
  have below : r.used < 2 ^ w := (r.tail - r.head).isLt
  have : r.unpush.used = (r.tail - 1#w - r.head).toNat := rfl
  rw [this, next, BitVec.toNat_ofNat, Nat.mod_eq_of_lt (by omega)]
  omega

theorem contents_unpush (some_ : r.used ≠ 0) :
    r.contents = r.unpush.contents ++ [r.data ((r.tail - 1).toNat % cap)] := by
  have last : (r.tail - 1#w).toNat % cap = r.cell r.unpush.used := r.unpush.tail_cell
  rw [contents, ← used_unpush r some_, List.range_succ, List.map_append, List.map_singleton]
  congr 3
  exact last.symm

/-! A third counter between head and tail splits the contents. -/

section split

variable (data : Nat → α) {head middle tail : BitVec w}

theorem used_split (fits : (middle - head).toNat + (tail - middle).toNat < 2 ^ w) :
    (tail - head).toNat = (middle - head).toNat + (tail - middle).toNat := by
  have sum : tail - head = (middle - head) + (tail - middle) := by abel
  rw [sum, BitVec.toNat_add, Nat.mod_eq_of_lt fits]

theorem contents_split (fits : (middle - head).toNat + (tail - middle).toNat < 2 ^ w) :
    (⟨data, head, tail⟩ : Ring α w cap).contents = (⟨data, head, middle⟩ : Ring α w cap).contents ++
        (⟨data, middle, tail⟩ : Ring α w cap).contents := by
  simp only [contents, used, used_split fits, List.range_add, List.map_append, List.map_map]
  congr 1
  apply List.map_congr_left
  intro i _
  have shifted : head + BitVec.ofNat w ((middle - head).toNat + i) = middle + BitVec.ofNat w i := by
    rw [BitVec.ofNat_add, BitVec.ofNat_toNat, BitVec.setWidth_eq]
    abel
  simp only [Function.comp_apply, cell, shifted]

end split

end Ring

end Xv6.Lib
