import Mathlib

/-! # Byte-addressed memory

A memory is a function from addresses to bytes. Integers of `k` bytes are stored
with the least significant byte first. What a store does is said once, by
`splice`; reading back is a lemma about the bytes of a number.
-/

namespace Xv6.Lib

abbrev Bytes := Nat → UInt8

namespace Bytes

variable {m src : Bytes} {a n k : Nat}

/-- The memory `m` with the `n` bytes at `a` replaced by those of `src`. -/
def splice (m : Bytes) (a n : Nat) (src : Bytes) : Bytes :=
  fun i => if a ≤ i ∧ i < a + n then src (i - a) else m i

theorem splice_inside {i : Nat} (inside : i < n) :
    m.splice a n src (a + i) = src i := by
  have inRange : a ≤ a + i ∧ a + i < a + n := by omega
  simp [splice, inRange]

theorem splice_outside {i : Nat} (outside : i < a ∨ a + n ≤ i) :
    m.splice a n src i = m i := by
  have notInRange : ¬ (a ≤ i ∧ i < a + n) := by omega
  simp [splice, notInRange]

/-- The integer stored in the `k` bytes at `a`. -/
def getLE (m : Bytes) (a : Nat) : Nat → Nat
  | 0 => 0
  | k + 1 => (m a).toNat + 256 * getLE m (a + 1) k

/-- The bytes of `v`. -/
def digits (v : Nat) : Bytes := fun i => UInt8.ofNat (v / 256 ^ i)

/-- Store `v` in the `k` bytes at `a`. -/
def setLE (m : Bytes) (a k v : Nat) : Bytes := m.splice a k (digits v)

theorem getLE_lt (m : Bytes) (a k : Nat) : m.getLE a k < 256 ^ k := by
  induction k generalizing a with
  | zero => simp [getLE]
  | succ k ih =>
    have rest := ih (a + 1)
    have first := (m a).toNat_lt
    rw [getLE, Nat.pow_succ]
    omega

theorem getLE_congr {m' : Bytes} (same : ∀ i, i < k → m (a + i) = m' (a + i)) :
    m.getLE a k = m'.getLE a k := by
  induction k generalizing a with
  | zero => rfl
  | succ k ih =>
    have first : m a = m' a := same 0 (Nat.succ_pos k)
    have rest : m.getLE (a + 1) k = m'.getLE (a + 1) k := by
      apply ih
      intro i inside
      have := same (i + 1) (by omega)
      rwa [show a + 1 + i = a + (i + 1) by omega]
    rw [getLE, getLE, first, rest]

theorem getLE_digits {v : Nat} (same : ∀ i, i < k → m (a + i) = digits v i) :
    m.getLE a k = v % 256 ^ k := by
  induction k generalizing a v with
  | zero => simp [getLE, Nat.mod_one]
  | succ k ih =>
    have first : (m a).toNat = v % 256 := by
      have := same 0 (Nat.succ_pos k)
      simp only [Nat.add_zero, digits, Nat.pow_zero, Nat.div_one] at this
      simp [this]
    have rest : m.getLE (a + 1) k = v / 256 % 256 ^ k := by
      apply ih
      intro i inside
      rw [show a + 1 + i = a + (i + 1) by omega, same (i + 1) (by omega), digits, digits,
        Nat.pow_succ', Nat.div_div_eq_div_mul]
    rw [getLE, first, rest, Nat.pow_succ', Nat.mod_mul]

theorem getLE_setLE_self (m : Bytes) (a k v : Nat) : (m.setLE a k v).getLE a k = v % 256 ^ k :=
  getLE_digits fun _ inside => splice_inside inside

/-- A read does not see a store that it does not overlap. -/
theorem getLE_splice_of_disjoint {b : Nat} (apart : a + k ≤ b ∨ b + n ≤ a) :
    (m.splice b n src).getLE a k = m.getLE a k :=
  getLE_congr fun i inside => splice_outside (by omega)

theorem getLE_zero (zero : ∀ i, i < k → m (a + i) = 0) :
    m.getLE a k = 0 := by
  rw [getLE_digits (v := 0), Nat.zero_mod]
  intro i inside
  rw [zero i inside]
  simp [digits]

end Bytes

end Xv6.Lib
