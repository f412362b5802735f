import Mathlib

/-! # Counting references

How many entries of a table name a given thing, and how a change of one entry shows in
sums over the table.
-/

namespace Xv6.Lib

open Function

variable {ι α β M : Type}

theorem sum_update_add [Fintype ι] [DecidableEq ι] [AddCommMonoid M] (g : ι → β → M) (s : ι → β)
    (i : ι) (o : β) :
    ∑ j, g j (update s i o j) + g i (s i) = ∑ j, g j (s j) + g i o := by
  have mem := Finset.mem_univ i
  have rest : ∑ j ∈ Finset.univ.erase i, g j (update s i o j) =
      ∑ j ∈ Finset.univ.erase i, g j (s j) :=
    Finset.sum_congr rfl fun j other => by rw [update_of_ne (Finset.ne_of_mem_erase other)]
  rw [← Finset.add_sum_erase _ _ mem, rest, update_self,
    ← Finset.add_sum_erase (f := fun j => g j (s j)) _ mem, add_right_comm, add_comm (g i o),
    add_right_comm]

/-- How many entries name `a`. -/
def tally [Fintype ι] [DecidableEq α] (s : ι → Option α) (a : α) : Nat :=
  ∑ i, if s i = some a then 1 else 0

theorem tally_update [Fintype ι] [DecidableEq ι] [DecidableEq α] (s : ι → Option α) (i : ι)
    (o : Option α) (a : α) :
    tally (update s i o) a + (if s i = some a then 1 else 0) =
      tally s a + if o = some a then 1 else 0 :=
  sum_update_add (fun _ o => if o = some a then 1 else 0) s i o

theorem tally_pos [Fintype ι] [DecidableEq α] {s : ι → Option α} {i : ι} {a : α}
    (named : s i = some a) : 0 < tally s a := by
  have one := Finset.single_le_sum (f := fun i => if s i = some a then 1 else 0)
    (fun _ _ => Nat.zero_le _) (Finset.mem_univ i)
  simp only [named, if_true] at one
  exact one

theorem tally_eq_zero [Fintype ι] [DecidableEq α] {s : ι → Option α} {a : α}
    (none_ : ∀ i, s i ≠ some a) : tally s a = 0 :=
  Finset.sum_eq_zero fun i _ => if_neg (none_ i)

end Xv6.Lib
