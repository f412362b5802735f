import Xv6.Kernel.Vm

/-! # Pages, words and entries

Arithmetic of the page-table code: indices, page-table entries, and which writes
to memory a page does not see.
-/

namespace Xv6.Kernel

open Lib

variable {pa n perm j w : Nat}

/-! ## Indices -/

/-- The page number of a virtual address. -/
def vpn (va : Nat) : Nat := va / PGSIZE

theorem px_eq (level va : Nat) : px level va = vpn va / 512 ^ level % 512 := by
  have mask : (0x1FF : Nat) = 2 ^ 9 - 1 := by decide
  rw [px, mask, Nat.and_two_pow_sub_one_eq_mod, Nat.shiftRight_eq_div_pow, vpn, PGSIZE,
    Nat.div_div_eq_div_mul, Nat.pow_add, Nat.pow_mul]

theorem px_lt (level va : Nat) : px level va < 512 := by
  rw [px_eq]
  exact Nat.mod_lt _ (by decide)

theorem vpn_lt {va : Nat} (low : va < MAXVA) : vpn va < 2 ^ 26 := by
  unfold vpn PGSIZE
  unfold MAXVA at low
  omega

theorem vpn_mul (v : Nat) : vpn (PGSIZE * v) = v := Nat.mul_div_cancel_left v (by decide)

/-! ## Page-table entries -/

/-- An entry that points to the page-table page `pa`. -/
def pointer (pa : Nat) : Nat := pa2pte pa ||| PTE_V

theorem pa2pte_eq (pa : Nat) : pa2pte pa = pa / PGSIZE * 1024 := by
  rw [pa2pte, Nat.shiftRight_eq_div_pow, Nat.shiftLeft_eq]
  rfl

theorem pa2pte_or {flags : Nat} (low : flags < 1024) :
    pa2pte pa ||| flags = pa / PGSIZE * 1024 + flags := by
  have := Nat.shiftLeft_add_eq_or_of_lt (b := flags) (i := 10) (by simpa using low) (pa >>> 12)
  rw [pa2pte, ← this, ← pa2pte_eq]
  rfl

theorem pte2pa_of_flags {flags : Nat} (aligned : pa % PGSIZE = 0) (low : flags < 1024)
    (small : pa < 2 ^ 64) : pte2pa (pa / PGSIZE * 1024 + flags) = pa := by
  have shifted : (pa / PGSIZE * 1024 + flags) >>> 10 = pa / PGSIZE := by
    rw [Nat.shiftRight_eq_div_pow]
    omega
  rw [pte2pa, shifted, Nat.shiftLeft_eq, u64]
  unfold PGSIZE at *
  omega

theorem and_one_eq (x : Nat) : x &&& PTE_V = x % 2 := by
  rw [PTE_V]
  exact Nat.and_one_is_mod x

theorem pteFlags_eq (x : Nat) : pteFlags x = x % 1024 := by
  rw [pteFlags, show (0x3FF : Nat) = 2 ^ 10 - 1 by decide, Nat.and_two_pow_sub_one_eq_mod]

theorem and_eq_mod_and {c : Nat} (low : c < 2 ^ n) (x : Nat) : x &&& c = (x % 2 ^ n) &&& c := by
  rw [← Nat.and_two_pow_sub_one_eq_mod, Nat.and_assoc, Nat.and_comm (2 ^ n - 1) c,
    Nat.and_two_pow_sub_one_eq_mod, Nat.mod_eq_of_lt low]

/-- An entry that maps a page: valid, readable. -/
structure LeafPte (w : Nat) : Prop where
  small : w < 2 ^ 64
  low : w % 4 = 3

namespace LeafPte

variable {w : Nat}

theorem valid (leaf : LeafPte w) : w &&& PTE_V ≠ 0 := by
  have := leaf.low
  rw [and_one_eq]
  omega

theorem flags_ne (leaf : LeafPte w) : pteFlags w ≠ PTE_V := by
  have := leaf.low
  rw [pteFlags_eq, PTE_V]
  omega

theorem not_pointer (leaf : LeafPte w) : w &&& (PTE_R ||| PTE_W ||| PTE_X) ≠ 0 := by
  intro none_
  have two : w % 2 ^ 2 = 3 := leaf.low
  have sub : w &&& 2 = 0 := by
    have wide : (PTE_R ||| PTE_W ||| PTE_X) &&& 2 = 2 := by decide
    rw [← wide, ← Nat.and_assoc, none_, Nat.zero_and]
  rw [and_eq_mod_and (n := 2) (by decide), two] at sub
  exact absurd sub (by decide)

end LeafPte

/-- The entry that `mappages` stores is a leaf when the permissions let it be read. -/
theorem mapped_eq (low : perm < 1024) :
    pa2pte pa ||| perm ||| PTE_V = pa / PGSIZE * 1024 + (perm ||| PTE_V) := by
  rw [Nat.or_assoc, pa2pte_or]
  exact Nat.or_lt_two_pow (n := 10) low (by decide)

theorem or_valid_mod (readable : perm / 2 % 2 = 1) : (perm ||| PTE_V) % 4 = 3 := by
  have split : (perm ||| PTE_V) % 2 ^ 2 = perm % 2 ^ 2 ||| PTE_V % 2 ^ 2 := Nat.or_mod_two_pow
  have cases_ : perm % 4 = 2 ∨ perm % 4 = 3 := by omega
  change (perm ||| PTE_V) % 2 ^ 2 = 3
  rw [split]
  rcases cases_ with two | three
  · rw [show perm % 2 ^ 2 = 2 from two]
    decide
  · rw [show perm % 2 ^ 2 = 3 from three]
    decide

theorem leafPte_mapped (low : perm < 1024) (readable : perm / 2 % 2 = 1) (small : pa < 2 ^ 56) :
    LeafPte (pa2pte pa ||| perm ||| PTE_V) := by
  have flags : perm ||| PTE_V < 1024 := Nat.or_lt_two_pow (n := 10) low (by decide)
  have bits := or_valid_mod readable
  rw [mapped_eq low]
  constructor
  · unfold PGSIZE
    omega
  · omega

theorem pte2pa_mapped (aligned : pa % PGSIZE = 0) (low : perm < 1024) (small : pa < 2 ^ 56) :
    pte2pa (pa2pte pa ||| perm ||| PTE_V) = pa := by
  rw [mapped_eq low]
  exact pte2pa_of_flags aligned (Nat.or_lt_two_pow (n := 10) low (by decide))
    (Nat.lt_trans small (by decide))

theorem pointer_eq (pa : Nat) : pointer pa = pa / PGSIZE * 1024 + 1 := pa2pte_or (by decide)

theorem pointer_valid (pa : Nat) : pointer pa &&& PTE_V ≠ 0 := by
  rw [and_one_eq, pointer_eq]
  omega

theorem pointer_not_leaf (pa : Nat) : pointer pa &&& (PTE_R ||| PTE_W ||| PTE_X) = 0 := by
  have one : pointer pa % 2 ^ 4 = 1 := by
    rw [pointer_eq]
    omega
  rw [and_eq_mod_and (n := 4) (by decide), one]
  decide

theorem pte2pa_pointer (aligned : pa % PGSIZE = 0) (small : pa < 2 ^ 56) :
    pte2pa (pointer pa) = pa := by
  rw [pointer_eq]
  exact pte2pa_of_flags aligned (by decide) (Nat.lt_trans small (by decide))

theorem pointer_lt (small : pa < 2 ^ 56) : pointer pa < 2 ^ 64 := by
  rw [pointer_eq]
  unfold PGSIZE
  omega

/-! ## Words and pages in memory -/

/-- Entry `j` of the page-table page `q`. -/
def word (mem : Bytes) (q j : Nat) : Nat := mem.getLE (q + 8 * j) 8

/-- The bytes of page `m` are the same. -/
def SamePage (mem mem' : Bytes) (m : Nat) : Prop := ∀ i, i < PGSIZE → mem' (m + i) = mem (m + i)

/-- Nothing outside page `m` has changed. -/
def Within (m : Nat) (mem mem' : Bytes) : Prop := ∀ x, x < m ∨ m + PGSIZE ≤ x → mem' x = mem x

variable {mem mem' mem'' : Bytes} {m q : Nat}

theorem SamePage.refl (mem : Bytes) (m : Nat) : SamePage mem mem m := fun _ _ => rfl

theorem SamePage.trans (first : SamePage mem mem' m) (second : SamePage mem' mem'' m) :
    SamePage mem mem'' m :=
  fun i inside => (second i inside).trans (first i inside)

theorem Within.trans (first : Within m mem mem') (second : Within m mem' mem'') :
    Within m mem mem'' :=
  fun x outside => (second x outside).trans (first x outside)

theorem Within.samePage (within : Within m mem mem') (aligned : m % PGSIZE = 0)
    (aligned' : q % PGSIZE = 0) (other : q ≠ m) : SamePage mem mem' q := by
  intro i inside
  apply within
  unfold PGSIZE at *
  omega

theorem within_splice {a : Nat} {src : Bytes} (low : m ≤ a) (high : a + n ≤ m + PGSIZE) :
    Within m mem (mem.splice a n src) :=
  fun _ outside => Bytes.splice_outside (by omega)

theorem within_page (mem src : Bytes) (m : Nat) : Within m mem (mem.splice m PGSIZE src) :=
  within_splice (Nat.le_refl m) (Nat.le_refl _)

theorem word_of_samePage (same : SamePage mem mem' q) (inside : j < 512) :
    word mem' q j = word mem q j := by
  apply Bytes.getLE_congr
  intro i low
  rw [Nat.add_assoc]
  exact same (8 * j + i) (by unfold PGSIZE; omega)

theorem word_store_self (small : w < 2 ^ 64) :
    word (mem.splice (q + 8 * j) 8 (Bytes.digits w)) q j = w := by
  have read := Bytes.getLE_setLE_self mem (q + 8 * j) 8 w
  rw [Nat.mod_eq_of_lt (by omega)] at read
  exact read

theorem word_store_of_ne {i : Nat} (other : i ≠ j) :
    word (mem.splice (q + 8 * j) 8 (Bytes.digits w)) q i = word mem q i :=
  Bytes.getLE_splice_of_disjoint (by omega)

theorem within_store (inside : j < 512) :
    Within q mem (mem.splice (q + 8 * j) 8 (Bytes.digits w)) :=
  within_splice (by omega) (by unfold PGSIZE; omega)

theorem word_zero (zero : ∀ i, i < PGSIZE → mem (q + i) = 0) (inside : j < 512) :
    word mem q j = 0 := by
  apply Bytes.getLE_zero
  intro i low
  rw [Nat.add_assoc]
  exact zero (8 * j + i) (by unfold PGSIZE; omega)

theorem splice_const_inside {i : Nat} (c : UInt8) (inside : i < n) :
    mem.splice m n (fun _ => c) (m + i) = c :=
  Bytes.splice_inside inside

end Xv6.Kernel
