import Xv6.Kernel.Dinode
import Xv6.Lib.Ledger

/-! # The block numbers of an inode

An inode has 12 direct slots, the slot of its indirect block, and the entries of that block.
They are numbered in this order.
-/

namespace Xv6.Kernel

open Lib

abbrev Disk := Nat → Block

/-- `&addrs[NDIRECT]`. -/
def INDIRECT : Fin (NDIRECT + 1) := Fin.last NDIRECT

/-- Entry `j` of an indirect block. -/
def Block.entry (b : Block) (j : Nat) : Nat := b.get (4 * j) 4

def Block.setEntry (b : Block) (j v : Nat) : Block := b.set (4 * j) 4 v

/-- The number in slot `k`. -/
def Dinode.slot (d : Dinode) (disk : Disk) (k : Nat) : Nat :=
  if direct : k < NDIRECT + 1 then d.addr ⟨k, direct⟩
  else if d.addr INDIRECT ≠ 0 ∧ k < NDIRECT + 1 + NINDIRECT then
    (disk (d.addr INDIRECT)).entry (k - (NDIRECT + 1))
  else 0

/-- The slot of file block `bn`. -/
def slotOf (bn : Nat) : Nat := if bn < NDIRECT then bn else bn + 1

/-- The slots that a file of `len` bytes uses. Slot `NDIRECT` is that of the indirect block,
    which comes with the first file block beyond the direct ones. -/
def Needed (len k : Nat) : Prop := (if k ≤ NDIRECT then k else k - 1) * BSIZE < len

instance (len k : Nat) : Decidable (Needed len k) := inferInstanceAs (Decidable (_ < _))

theorem needed_slotOf {len bn : Nat} : Needed len (slotOf bn) ↔ bn * BSIZE < len := by
  rw [Needed, slotOf]
  by_cases direct : bn < NDIRECT
  · rw [if_pos direct, if_pos (by omega)]
  · rw [if_neg direct, if_neg (by omega), Nat.add_sub_cancel]

theorem needed_indirect_iff {len : Nat} : Needed len NDIRECT ↔ NDIRECT * BSIZE < len := by
  rw [Needed, if_pos (Nat.le_refl _)]

/-- Every slot is that of the indirect block or of a file block. -/
theorem eq_indirect_or_slotOf (k : Nat) : k = NDIRECT ∨ ∃ bn, k = slotOf bn := by
  by_cases low : k < NDIRECT
  · exact .inr ⟨k, by rw [slotOf, if_pos low]⟩
  · by_cases same : k = NDIRECT
    · exact .inl same
    · refine .inr ⟨k - 1, ?_⟩
      rw [slotOf, if_neg (by omega)]
      omega

theorem slotOf_ne_indirect (bn : Nat) : slotOf bn ≠ NDIRECT := by
  rw [slotOf]
  split <;> omega

theorem slotOf_inj {a b : Nat} (same : slotOf a = slotOf b) : a = b := by
  simp only [slotOf] at same
  split at same <;> split at same <;> omega

namespace Block

variable {b : Block} {i j v : Nat}

theorem entry_setEntry_self (small : j < NINDIRECT) (fits : v < 2 ^ 32) :
    (b.setEntry j v).entry j = v := by
  have : NINDIRECT = 256 := rfl
  have : BSIZE = 1024 := rfl
  exact get_set_self (by omega) fits

theorem entry_setEntry_of_ne (small : i < NINDIRECT) (other : i ≠ j) :
    (b.setEntry j v).entry i = b.entry i := by
  have : NINDIRECT = 256 := rfl
  have : BSIZE = 1024 := rfl
  exact get_set_of_disjoint (by omega) (by omega)

@[simp] theorem entry_zero (j : Nat) : zero.entry j = 0 := get_zero _ _

end Block

namespace Dinode

variable {d : Dinode} {disk : Disk} {k n b : Nat}

theorem slot_direct (direct : k < NDIRECT + 1) : d.slot disk k = d.addr ⟨k, direct⟩ :=
  dif_pos direct

theorem slot_indirect : d.slot disk NDIRECT = d.addr INDIRECT := slot_direct (Nat.lt_succ_self _)

theorem slot_entry {j : Nat} (small : j < NINDIRECT) (some_ : d.addr INDIRECT ≠ 0) :
    d.slot disk (NDIRECT + 1 + j) = (disk (d.addr INDIRECT)).entry j := by
  rw [slot, dif_neg (by omega), if_pos ⟨some_, by omega⟩, Nat.add_sub_cancel_left]

theorem slot_eq_zero (above : NDIRECT < k) (none_ : d.addr INDIRECT = 0) : d.slot disk k = 0 := by
  rw [slot, dif_neg (by omega), if_neg (by simp [none_])]

theorem slot_beyond (above : NDIRECT + 1 + NINDIRECT ≤ k) : d.slot disk k = 0 := by
  rw [slot, dif_neg (by omega), if_neg (by omega)]

@[simp] theorem slot_zero (disk : Disk) (k : Nat) : zero.slot disk k = 0 := by
  by_cases direct : k < NDIRECT + 1
  · exact slot_direct direct
  · exact slot_eq_zero (by omega) rfl

theorem slot_congr {disk' : Disk}
    (same : d.addr INDIRECT ≠ 0 → disk' (d.addr INDIRECT) = disk (d.addr INDIRECT)) (k : Nat) :
    d.slot disk' k = d.slot disk k := by
  by_cases some_ : d.addr INDIRECT = 0
  · by_cases direct : k < NDIRECT + 1
    · rw [slot_direct direct, slot_direct direct]
    · rw [slot_eq_zero (by omega) some_, slot_eq_zero (by omega) some_]
  · rw [slot, slot, same some_]

theorem slot_setAddr (small : k < NDIRECT) (fits : b < 2 ^ 32) (n : Nat) :
    (d.setAddr ⟨k, by omega⟩ b).slot disk n = if n = k then b else d.slot disk n := by
  have other : INDIRECT ≠ (⟨k, by omega⟩ : Fin (NDIRECT + 1)) := by
    intro same
    have : NDIRECT = k := congrArg Fin.val same
    omega
  have indirect := d.addr_setAddr_of_ne (b := b) other
  by_cases same : n = k
  · subst same
    rw [if_pos rfl, slot_direct (by omega), addr_setAddr_self _ _ fits]
  · rw [if_neg same]
    by_cases direct : n < NDIRECT + 1
    · have apart : (⟨n, direct⟩ : Fin (NDIRECT + 1)) ≠ ⟨k, by omega⟩ := fun equal =>
        same (congrArg Fin.val equal)
      rw [slot_direct direct, slot_direct direct, addr_setAddr_of_ne _ apart]
    · rw [slot, slot, dif_neg direct, dif_neg direct, indirect]

theorem slot_setIndirect (none_ : d.addr INDIRECT = 0) (fits : b < 2 ^ 32)
    (empty : disk b = .zero) (n : Nat) :
    (d.setAddr INDIRECT b).slot disk n = if n = NDIRECT then b else d.slot disk n := by
  have indirect := d.addr_setAddr_self INDIRECT fits
  by_cases same : n = NDIRECT
  · subst same
    rw [if_pos rfl, slot_indirect, indirect]
  · rw [if_neg same]
    by_cases direct : n < NDIRECT + 1
    · have apart : (⟨n, direct⟩ : Fin (NDIRECT + 1)) ≠ INDIRECT := fun equal =>
        same (congrArg Fin.val equal)
      rw [slot_direct direct, slot_direct direct, addr_setAddr_of_ne _ apart]
    · rw [slot_eq_zero (by omega) none_, slot, dif_neg direct, indirect, empty]
      simp

theorem slot_setAny (k : Fin (NDIRECT + 1))
    (empty : d.addr k = 0) (fits : b < 2 ^ 32) (zero : disk b = .zero) (n : Nat) :
    (d.setAddr k b).slot disk n = if n = k then b else d.slot disk n := by
  by_cases direct : k.val < NDIRECT
  · exact slot_setAddr direct fits n
  · obtain rfl : k = INDIRECT := Fin.ext (Nat.le_antisymm (Nat.le_of_lt_succ k.isLt)
      (Nat.le_of_not_lt direct))
    exact slot_setIndirect empty fits zero n

theorem slot_setEntry {j : Nat} (some_ : d.addr INDIRECT ≠ 0) (small : j < NINDIRECT)
    (fits : b < 2 ^ 32) (n : Nat) :
    d.slot (Function.update disk (d.addr INDIRECT) ((disk (d.addr INDIRECT)).setEntry j b)) n =
      if n = NDIRECT + 1 + j then b else d.slot disk n := by
  by_cases direct : n < NDIRECT + 1
  · rw [slot_direct direct, slot_direct direct, if_neg (by omega)]
  · by_cases inside : n < NDIRECT + 1 + NINDIRECT
    · obtain ⟨i, rfl⟩ := Nat.exists_eq_add_of_le (Nat.le_of_not_lt direct)
      rw [slot_entry (by omega) some_, slot_entry (by omega) some_, Function.update_self]
      by_cases same : i = j
      · rw [same, if_pos rfl, Block.entry_setEntry_self small fits]
      · rw [if_neg (by omega), Block.entry_setEntry_of_ne (by omega) same]
    · rw [slot_beyond (by omega), slot_beyond (by omega), if_neg (by omega)]

end Dinode

end Xv6.Kernel
