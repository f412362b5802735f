import Xv6.Lib.Bytes

/-! # Disk blocks

The `BSIZE` bytes of a block, read and written as little-endian fields the way
the kernel reads `struct logheader`, `struct dinode` or a `uint` array over
`bp->data`.
-/

namespace Xv6.Kernel

open Lib Function

def BSIZE : Nat := 1024

def Block := Fin BSIZE → UInt8

namespace Block

variable {off k j i : Nat} {b : Block} {ws : List Nat}

/-- The block as a memory; what lies beyond it reads as zero. -/
def bytes (b : Block) : Bytes := fun i => if inside : i < BSIZE then b ⟨i, inside⟩ else 0

def ofBytes (m : Bytes) : Block := fun i => m i

/-- The block that `bzero` leaves. -/
def zero : Block := fun _ => 0

@[simp] theorem bytes_ofBytes {m : Bytes} {i : Nat} (inside : i < BSIZE) :
    (ofBytes m).bytes i = m i := by
  simp [bytes, ofBytes, inside]

@[simp] theorem bytes_zero (i : Nat) : zero.bytes i = 0 := by
  simp [bytes, zero]

/-- The field of `k` bytes at `off`. -/
def get (b : Block) (off k : Nat) : Nat := b.bytes.getLE off k

def set (b : Block) (off k v : Nat) : Block := ofBytes (b.bytes.setLE off k v)

theorem get_ofBytes {m : Bytes} (inside : off + k ≤ BSIZE) :
    (ofBytes m).get off k = m.getLE off k :=
  Bytes.getLE_congr fun _ _ => bytes_ofBytes (by omega)

theorem get_set_self {v : Nat} (inside : off + k ≤ BSIZE) (fits : v < 256 ^ k) :
    (b.set off k v).get off k = v := by
  rw [set, get_ofBytes inside, Bytes.getLE_setLE_self, Nat.mod_eq_of_lt fits]

theorem get_set_of_disjoint {off' k' v : Nat} (inside : off + k ≤ BSIZE)
    (apart : off + k ≤ off' ∨ off' + k' ≤ off) : (b.set off' k' v).get off k = b.get off k := by
  rw [set, get_ofBytes inside]
  exact Bytes.getLE_splice_of_disjoint apart

theorem get_zero (off k : Nat) : zero.get off k = 0 :=
  Bytes.getLE_zero fun _ _ => bytes_zero _

/-- Store a `uint` array at `off`. -/
def putWords (b : Block) (off : Nat) : List Nat → Block
  | [] => b
  | w :: ws => (b.set off 4 w).putWords (off + 4) ws

/-- The `n` entries of the `uint` array at `off`. -/
def getWords (b : Block) (off : Nat) : Nat → List Nat
  | 0 => []
  | n + 1 => b.get off 4 :: b.getWords (off + 4) n

theorem get_putWords_of_before {at_ : Nat} (inside : at_ + k ≤ BSIZE) (before : at_ + k ≤ off) :
    (b.putWords off ws).get at_ k = b.get at_ k := by
  induction ws generalizing b off with
  | nil => rfl
  | cons w ws ih =>
    rw [putWords, ih (by omega)]
    exact get_set_of_disjoint inside (.inl before)

theorem getWords_putWords (inside : off + 4 * ws.length ≤ BSIZE) (fits : ∀ w ∈ ws, w < 2 ^ 32) :
    (b.putWords off ws).getWords off ws.length = ws := by
  induction ws generalizing b off with
  | nil => rfl
  | cons w ws ih =>
    rw [List.length_cons] at inside
    have first : (b.putWords off (w :: ws)).get off 4 = w := by
      rw [putWords, get_putWords_of_before (by omega) (by omega)]
      exact get_set_self (by omega) (fits w (by simp))
    have rest : (b.putWords off (w :: ws)).getWords (off + 4) ws.length = ws := by
      rw [putWords]
      exact ih (by omega) fun v member => fits v (by simp [member])
    rw [List.length_cons, getWords, first, rest]

theorem get_putWords_of_disjoint {at_ : Nat} (inside : at_ + k ≤ BSIZE)
    (apart : at_ + k ≤ off ∨ off + 4 * ws.length ≤ at_) :
    (b.putWords off ws).get at_ k = b.get at_ k := by
  induction ws generalizing b off with
  | nil => rfl
  | cons w ws ih =>
    rw [List.length_cons] at apart
    rw [putWords, ih (by omega)]
    exact get_set_of_disjoint inside (by omega)

theorem get_putWords {w : Nat} (inside : off + 4 * ws.length ≤ BSIZE) (word : ws[j]? = some w)
    (fits : w < 2 ^ 32) :
    (b.putWords off ws).get (off + 4 * j) 4 = w := by
  induction ws generalizing b off j with
  | nil => simp at word
  | cons v ws ih =>
    rw [List.length_cons] at inside
    cases j with
    | zero =>
      obtain rfl : v = w := by simpa using word
      rw [putWords, Nat.mul_zero, Nat.add_zero, get_putWords_of_before (by omega) (by omega)]
      exact get_set_self (by omega) fits
    | succ j =>
      have rest := @ih (off + 4) j (b.set off 4 v) (by omega) (by simpa using word)
      rw [putWords, show off + 4 * (j + 1) = off + 4 + 4 * j by omega]
      exact rest

/-! ## Bytes and bits -/

/-- Copy the bytes `p` to offset `off`. -/
def put (b : Block) (off : Nat) (p : List UInt8) : Block :=
  ofBytes (b.bytes.splice off p.length fun i => p.getD i 0)

theorem bytes_put_inside {p : List UInt8} (fits : off + p.length ≤ BSIZE) (inside : i < p.length) :
    (b.put off p).bytes (off + i) = p.getD i 0 := by
  rw [put, bytes_ofBytes (by omega), Bytes.splice_inside inside]

theorem bytes_put_outside {p : List UInt8} (small : i < BSIZE)
    (outside : i < off ∨ off + p.length ≤ i) : (b.put off p).bytes i = b.bytes i := by
  rw [put, bytes_ofBytes small, Bytes.splice_outside outside]

/-- `1 << (i % 8)`. -/
def mask (i : Nat) : UInt8 := 1 <<< UInt8.ofNat (i % 8)

/-- Bit `i` of a bitmap block. -/
def bit (b : Block) (i : Nat) : Bool := b.bytes (i / 8) &&& mask i != 0

def setBit (b : Block) (i : Nat) : Block :=
  ofBytes (update b.bytes (i / 8) (b.bytes (i / 8) ||| mask i))

def clearBit (b : Block) (i : Nat) : Block :=
  ofBytes (update b.bytes (i / 8) (b.bytes (i / 8) &&& ~~~ mask i))

theorem toBitVec_mask (i : Nat) : (mask i).toBitVec = BitVec.twoPow 8 (i % 8) := by
  have small := Nat.mod_lt i (show 0 < 8 by decide)
  have all : ∀ k : Fin 8, ((1 : UInt8) <<< UInt8.ofNat k).toBitVec = BitVec.twoPow 8 k := by decide
  exact all ⟨i % 8, small⟩

theorem and_mask (v : UInt8) (i : Nat) : (v &&& mask i != 0) = v.toBitVec.getLsbD (i % 8) := by
  have small := Nat.mod_lt i (show 0 < 8 by decide)
  have bits : (v &&& mask i = 0) ↔ v.toBitVec.getLsbD (i % 8) = false := by
    rw [← UInt8.toBitVec_inj, UInt8.toBitVec_and, toBitVec_mask, BitVec.and_twoPow]
    split
    next set =>
      simp only [set, Bool.true_eq_false, iff_false]
      intro zero
      have top := congrArg (·.getLsbD (i % 8)) zero
      simp [small] at top
    next clear => simpa using clear
  by_cases zero : v &&& mask i = 0
  · rw [bits.mp zero, zero]
    rfl
  · rw [Bool.of_not_eq_false fun clear => zero (bits.mpr clear)]
    simpa using zero

theorem bit_setBit (small : j < 8 * BSIZE) :
    (b.setBit i).bit j = (decide (j = i) || b.bit j) := by
  rw [bit, bit, setBit, bytes_ofBytes (by omega), and_mask, and_mask]
  by_cases byte : j / 8 = i / 8
  · rw [byte, update_self, UInt8.toBitVec_or, toBitVec_mask, BitVec.getLsbD_or,
      BitVec.getLsbD_twoPow, Bool.or_comm]
    have same : (i % 8 = j % 8) ↔ j = i := by omega
    have low := Nat.mod_lt i (show 0 < 8 by decide)
    simp [same, low]
  · have other : j ≠ i := fun same => byte (same ▸ rfl)
    rw [update_of_ne byte]
    simp [other]

theorem bit_clearBit (small : j < 8 * BSIZE) :
    (b.clearBit i).bit j = (decide (j ≠ i) && b.bit j) := by
  rw [bit, bit, clearBit, bytes_ofBytes (by omega), and_mask, and_mask]
  by_cases byte : j / 8 = i / 8
  · have low := Nat.mod_lt j (show 0 < 8 by decide)
    have same : (i % 8 = j % 8) ↔ j = i := by omega
    rw [byte, update_self, UInt8.toBitVec_and, UInt8.toBitVec_not, toBitVec_mask,
      BitVec.getLsbD_and, BitVec.getLsbD_not, BitVec.getLsbD_twoPow, Bool.and_comm]
    have high := Nat.mod_lt i (show 0 < 8 by decide)
    simp [same, low, high]
  · have other : j ≠ i := fun same => byte (same ▸ rfl)
    rw [update_of_ne byte]
    simp [other]

end Block

end Xv6.Kernel
