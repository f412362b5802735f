import Mathlib

/-! # memmove

`memmove` of `kernel/string.c` and of `user/ulib.c`. Both copy upwards or downwards,
and choose the direction by different tests.
-/

namespace Xv6.Memmove

open Function

abbrev Memory := BitVec 64 → UInt8

/-- `while(n-- > 0) *d++ = *s++;` -/
def copyUp (mem : Memory) (d s : BitVec 64) : Nat → Memory
  | 0 => mem
  | n + 1 => copyUp (update mem d (mem s)) (d + 1) (s + 1) n

/-- `while(n-- > 0) *--d = *--s;` -/
def copyDown (mem : Memory) (d s : BitVec 64) : Nat → Memory
  | 0 => mem
  | n + 1 => copyDown (update mem (d - 1) (mem (s - 1))) (d - 1) (s - 1) n

namespace Kernel

/-- `n` is a `uint`. -/
def memmove (mem : Memory) (dst src : BitVec 64) (n : BitVec 32) : Memory :=
  if n = 0 then mem
  else
    let len := n.setWidth 64
    if src < dst ∧ src + len > dst then copyDown mem (dst + len) (src + len) n.toNat
    else copyUp mem dst src n.toNat

end Kernel

namespace User

/-- `n` is an `int`. -/
def memmove (mem : Memory) (dst src : BitVec 64) (n : BitVec 32) : Memory :=
  if src > dst then copyUp mem dst src n.toInt.toNat
  else
    let len := n.signExtend 64
    copyDown mem (dst + len) (src + len) n.toInt.toNat

end User

/-- The `n` bytes from `src` on are moved to `dst`, and no other byte changes. -/
structure Moves (mem mem' : Memory) (dst src : BitVec 64) (n : Nat) : Prop where
  copied : ∀ i, i < n → mem' (dst + .ofNat 64 i) = mem (src + .ofNat 64 i)
  kept : ∀ a, (∀ i, i < n → a ≠ dst + .ofNat 64 i) → mem' a = mem a

variable {mem : Memory} {dst src : BitVec 64} {n : Nat}

theorem add_ofNat_inj {p : BitVec 64} {i j : Nat} (room : p.toNat + n < 2 ^ 64) (left : i ≤ n)
    (right : j ≤ n) : p + .ofNat 64 i = p + .ofNat 64 j ↔ i = j := by
  rw [BitVec.add_right_inj, ← BitVec.toNat_inj, BitVec.toNat_ofNat, BitVec.toNat_ofNat]
  omega

theorem succ_add_ofNat (p : BitVec 64) (i : Nat) : p + 1 + .ofNat 64 i = p + .ofNat 64 (i + 1) := by
  rw [BitVec.add_assoc, Nat.add_comm i, BitVec.ofNat_add]
  rfl

/-- Upwards no byte is read after it has been written, unless the target is above
    the source and within it. -/
theorem copyUp_moves (room : dst.toNat + n < 2 ^ 64)
    (apart : ∀ i j, i < j → j < n → dst + .ofNat 64 i ≠ src + .ofNat 64 j) :
    Moves mem (copyUp mem dst src n) dst src n := by
  induction n generalizing mem dst src with
  | zero => exact ⟨fun i none_ => absurd none_ (Nat.not_lt_zero i), fun _ _ => rfl⟩
  | succ n ih =>
    have next : (dst + 1).toNat = dst.toNat + 1 := by
      rw [BitVec.toNat_add, show (1 : BitVec 64).toNat = 1 from rfl]
      omega
    have rest := @ih (update mem dst (mem src)) (dst + 1) (src + 1)
      (by omega) fun i j less inside => by
        rw [succ_add_ofNat, succ_add_ofNat]
        exact apart (i + 1) (j + 1) (by omega) (by omega)
    refine ⟨fun i inside => ?_, fun a outside => ?_⟩
    · cases i with
      | zero =>
        -- the first byte is not written again
        rw [copyUp, BitVec.add_zero, BitVec.add_zero, rest.kept dst, update_self]
        intro i below
        rw [succ_add_ofNat]
        have other := mt (add_ofNat_inj room (Nat.zero_le _) (by omega : i + 1 ≤ n + 1)).mp
          (Nat.succ_ne_zero i).symm
        rwa [BitVec.add_zero] at other
      | succ i =>
        have moved := rest.copied i (Nat.lt_of_succ_lt_succ inside)
        rw [succ_add_ofNat, succ_add_ofNat] at moved
        have unread := apart 0 (i + 1) (Nat.succ_pos i) inside
        rw [BitVec.add_zero] at unread
        rw [copyUp, moved, update_of_ne unread.symm]
    · have first := outside 0 (Nat.succ_pos n)
      rw [BitVec.add_zero] at first
      rw [copyUp, rest.kept a, update_of_ne first]
      intro i below
      rw [succ_add_ofNat]
      exact outside (i + 1) (by omega)

theorem add_ofNat_succ_sub_one (p : BitVec 64) (n : Nat) :
    p + .ofNat 64 (n + 1) - 1 = p + .ofNat 64 n := by
  rw [← succ_add_ofNat, BitVec.add_assoc, BitVec.add_comm 1, ← BitVec.add_assoc,
    BitVec.add_sub_cancel]

/-- Downwards the same holds unless the target is below the source. -/
theorem copyDown_moves (room : dst.toNat + n < 2 ^ 64)
    (apart : ∀ i j, i < j → j < n → src + .ofNat 64 i ≠ dst + .ofNat 64 j) :
    Moves mem (copyDown mem (dst + .ofNat 64 n) (src + .ofNat 64 n) n) dst src n := by
  induction n generalizing mem with
  | zero => exact ⟨fun i none_ => absurd none_ (Nat.not_lt_zero i), fun _ _ => rfl⟩
  | succ n ih =>
    rw [copyDown, add_ofNat_succ_sub_one, add_ofNat_succ_sub_one]
    have rest := @ih (update mem (dst + .ofNat 64 n) (mem (src + .ofNat 64 n))) (by omega)
      fun i j less inside => apart i j less (by omega)
    refine ⟨fun i inside => ?_, fun a outside => ?_⟩
    · rcases Nat.lt_succ_iff_lt_or_eq.mp inside with below | rfl
      · rw [rest.copied i below, update_of_ne (apart i n below (Nat.lt_succ_self n))]
      · -- the last byte is not written again
        rw [rest.kept, update_self]
        intro j below same
        exact absurd ((add_ofNat_inj room (by omega) (by omega)).mp same) (by omega)
    · rw [rest.kept a fun i below => outside i (by omega),
        update_of_ne (outside n (Nat.lt_succ_self n))]

/-- What separates the bytes read from those written, from the order of the ranges. -/
theorem add_ofNat_ne {p q : BitVec 64} {i j : Nat} (room : q.toNat + n < 2 ^ 64) (less : i < j)
    (inside : j < n) (order : p.toNat ≤ q.toNat ∨ q.toNat + n ≤ p.toNat) :
    p + .ofNat 64 i ≠ q + .ofNat 64 j := by
  intro same
  have equal := congrArg BitVec.toNat same
  rw [BitVec.toNat_add, BitVec.toNat_add, BitVec.toNat_ofNat, BitVec.toNat_ofNat] at equal
  omega

theorem Kernel.memmove_eq_moves (n : BitVec 32) (from_ : src.toNat + n.toNat < 2 ^ 64)
    (into : dst.toNat + n.toNat < 2 ^ 64) :
    Moves mem (Kernel.memmove mem dst src n) dst src n.toNat := by
  have len : n.setWidth 64 = .ofNat 64 n.toNat := by
    apply BitVec.eq_of_toNat_eq
    rw [BitVec.toNat_setWidth, BitVec.toNat_ofNat]
  have ends : (src + .ofNat 64 n.toNat).toNat = src.toNat + n.toNat := by
    rw [BitVec.toNat_add, BitVec.toNat_ofNat]
    omega
  unfold Kernel.memmove
  split
  · rename_i none_
    subst none_
    exact ⟨fun i bad => absurd bad (Nat.not_lt_zero i), fun _ _ => rfl⟩
  · simp only [len]
    split
    · rename_i over_
      have below : src.toNat < dst.toNat := over_.1
      exact copyDown_moves into fun i j less inside =>
        add_ofNat_ne into less inside (.inl (Nat.le_of_lt below))
    · rename_i clear
      refine copyUp_moves into fun i j less inside => add_ofNat_ne from_ less inside ?_
      rw [not_and_or, BitVec.not_lt, BitVec.not_lt, BitVec.le_def, BitVec.le_def, ends] at clear
      exact clear

theorem User.memmove_eq_moves (n : BitVec 32) (from_ : src.toNat + n.toInt.toNat < 2 ^ 64)
    (into : dst.toNat + n.toInt.toNat < 2 ^ 64) :
    Moves mem (User.memmove mem dst src n) dst src n.toInt.toNat := by
  unfold User.memmove
  split
  · rename_i above
    have order : dst.toNat < src.toNat := above
    exact copyUp_moves into fun i j less inside =>
      add_ofNat_ne from_ less inside (.inl (Nat.le_of_lt order))
  · rename_i notAbove
    have order : src.toNat ≤ dst.toNat := Nat.not_lt.mp notAbove
    by_cases negative : n.toInt ≤ 0
    · -- the pointers move, and nothing is copied
      rw [Int.toNat_of_nonpos negative]
      exact ⟨fun i bad => absurd bad (Nat.not_lt_zero i), fun _ _ => rfl⟩
    · have len : n.signExtend 64 = .ofNat 64 n.toInt.toNat := by
        apply BitVec.eq_of_toInt_eq
        have small := @BitVec.toInt_lt 32 n
        rw [BitVec.toInt_signExtend_of_le (by decide), BitVec.toInt_ofNat', Int.bmod_eq_of_le] <;>
          omega
      simp only [len]
      exact copyDown_moves into fun i j less inside => add_ofNat_ne into less inside (.inl order)

/-- Both move the bytes, however the two ranges lie. -/
theorem memmove_moves (mem : Memory) (dst src : BitVec 64) (n : BitVec 32) :
    (src.toNat + n.toNat < 2 ^ 64 → dst.toNat + n.toNat < 2 ^ 64 →
      Moves mem (Kernel.memmove mem dst src n) dst src n.toNat) ∧
    (src.toNat + n.toInt.toNat < 2 ^ 64 → dst.toNat + n.toInt.toNat < 2 ^ 64 →
      Moves mem (User.memmove mem dst src n) dst src n.toInt.toNat) :=
  ⟨Kernel.memmove_eq_moves n, User.memmove_eq_moves n⟩

/-- Eight bytes are moved up by three, over themselves. -/
theorem memmove_moves_overlap :
    Moves (fun a => .ofNat a.toNat) (Kernel.memmove (fun a => .ofNat a.toNat) 103 100 8) 103 100 8 ∧
      Moves (fun a => .ofNat a.toNat)
      (User.memmove (fun a => .ofNat a.toNat) 103 100 8) 103 100 8 :=
  ⟨(memmove_moves (fun a => .ofNat a.toNat) 103 100 8).1 (by decide) (by decide),
    (memmove_moves (fun a => .ofNat a.toNat) 103 100 8).2 (by decide) (by decide)⟩

end Xv6.Memmove
