import Xv6.Kernel.Block

/-! # Inodes

The fields that `struct dinode` of `fs.h` and `struct inode` of `file.h` share, and how
`struct dinode` lies in a block.
-/

namespace Xv6.Kernel

def NDIRECT : Nat := 12

def NINDIRECT : Nat := BSIZE / 4

def MAXFILE : Nat := NDIRECT + NINDIRECT

def ROOTDEV : Nat := 1

def ROOTINO : Nat := 1

/-- Inodes per block: `struct dinode` has 64 bytes. -/
def IPB : Nat := BSIZE / 64

def T_DIR : BitVec 16 := 1

def T_FILE : BitVec 16 := 2

/-- `struct dinode`; a free inode has type 0. -/
structure Dinode where
  type : BitVec 16
  major : BitVec 16
  minor : BitVec 16
  nlink : BitVec 16
  size : BitVec 32
  addrs : Fin (NDIRECT + 1) → BitVec 32
  deriving DecidableEq

namespace Dinode

/-- What `memset(dip, 0, sizeof(*dip))` leaves. -/
def zero : Dinode := ⟨0, 0, 0, 0, 0, fun _ => 0⟩

/-- `addrs[i]`. -/
def addr (d : Dinode) (i : Fin (NDIRECT + 1)) : Nat := (d.addrs i).toNat

/-- `addrs[i] = b`. -/
def setAddr (d : Dinode) (i : Fin (NDIRECT + 1)) (b : Nat) : Dinode :=
  { d with addrs := Function.update d.addrs i (BitVec.ofNat 32 b) }

/-- Inode `i` of a block of inodes. -/
def load (b : Block) (i : Nat) : Dinode where
  type := BitVec.ofNat 16 (b.get (64 * i) 2)
  major := BitVec.ofNat 16 (b.get (64 * i + 2) 2)
  minor := BitVec.ofNat 16 (b.get (64 * i + 4) 2)
  nlink := BitVec.ofNat 16 (b.get (64 * i + 6) 2)
  size := BitVec.ofNat 32 (b.get (64 * i + 8) 4)
  addrs k := BitVec.ofNat 32 (b.get (64 * i + 12 + 4 * k) 4)

/-- Copy the fields to inode `i` of a block. -/
def store (b : Block) (i : Nat) (d : Dinode) : Block :=
  (((((b.set (64 * i) 2 d.type.toNat).set (64 * i + 2) 2 d.major.toNat).set (64 * i + 4) 2
    d.minor.toNat).set (64 * i + 6) 2 d.nlink.toNat).set (64 * i + 8) 4 d.size.toNat).putWords
      (64 * i + 12) (List.ofFn d.addr)

theorem addr_setAddr_self (d : Dinode) (i : Fin (NDIRECT + 1)) {b : Nat} (fits : b < 2 ^ 32) :
    (d.setAddr i b).addr i = b := by
  simp only [addr, setAddr, Function.update_self, BitVec.toNat_ofNat]
  exact Nat.mod_eq_of_lt fits

theorem addr_setAddr_of_ne (d : Dinode) {i j : Fin (NDIRECT + 1)} {b : Nat} (other : j ≠ i) :
    (d.setAddr i b).addr j = d.addr j := by
  simp [addr, setAddr, other]

theorem get_store_of_disjoint {b : Block} {i off k : Nat} {d : Dinode} (inside : off + k ≤ BSIZE)
    (apart : off + k ≤ 64 * i ∨ 64 * i + 64 ≤ off) : (store b i d).get off k = b.get off k := by
  have length : (List.ofFn d.addr).length = 13 := List.length_ofFn
  rw [store, Block.get_putWords_of_disjoint inside (by omega)]
  iterate 5 rw [Block.get_set_of_disjoint inside (by omega)]

theorem load_store_of_ne {b : Block} {i j : Nat} {d : Dinode} (small : j < IPB) (other : j ≠ i) :
    load (store b i d) j = load b j := by
  have room : 64 * j + 64 ≤ BSIZE := by
    have : IPB = 16 := rfl
    have : BSIZE = 1024 := rfl
    omega
  have words : ∀ k : Fin (NDIRECT + 1), (store b i d).get (64 * j + 12 + 4 * k) 4 =
      b.get (64 * j + 12 + 4 * k) 4 := by
    intro k
    have last : k.val < 13 := k.isLt
    exact get_store_of_disjoint (by omega) (by omega)
  simp only [load, words]
  iterate 5 rw [get_store_of_disjoint (by omega) (by omega)]

theorem load_store_self {b : Block} {i : Nat} {d : Dinode} (small : i < IPB) :
    load (store b i d) i = d := by
  have room : 64 * i + 64 ≤ BSIZE := by
    have : IPB = 16 := rfl
    have : BSIZE = 1024 := rfl
    omega
  have length : (List.ofFn d.addr).length = 13 := List.length_ofFn
  have half : ∀ v : BitVec 16, v.toNat < 256 ^ 2 := fun v => v.isLt
  have word : ∀ v : BitVec 32, v.toNat < 256 ^ 4 := fun v => v.isLt
  have addrs : ∀ k : Fin (NDIRECT + 1), (store b i d).get (64 * i + 12 + 4 * k) 4 = d.addr k := by
    intro k
    apply Block.get_putWords (by omega)
    · rw [List.getElem?_ofFn, dif_pos k.isLt]
    · exact (d.addrs k).isLt
  have size : (store b i d).get (64 * i + 8) 4 = d.size.toNat := by
    rw [store, Block.get_putWords_of_disjoint (by omega) (by omega)]
    exact Block.get_set_self (by omega) (word _)
  have nlink : (store b i d).get (64 * i + 6) 2 = d.nlink.toNat := by
    rw [store, Block.get_putWords_of_disjoint (by omega) (by omega),
      Block.get_set_of_disjoint (by omega) (by omega)]
    exact Block.get_set_self (by omega) (half _)
  have minor : (store b i d).get (64 * i + 4) 2 = d.minor.toNat := by
    rw [store, Block.get_putWords_of_disjoint (by omega) (by omega)]
    iterate 2 rw [Block.get_set_of_disjoint (by omega) (by omega)]
    exact Block.get_set_self (by omega) (half _)
  have major : (store b i d).get (64 * i + 2) 2 = d.major.toNat := by
    rw [store, Block.get_putWords_of_disjoint (by omega) (by omega)]
    iterate 3 rw [Block.get_set_of_disjoint (by omega) (by omega)]
    exact Block.get_set_self (by omega) (half _)
  have type : (store b i d).get (64 * i) 2 = d.type.toNat := by
    rw [store, Block.get_putWords_of_disjoint (by omega) (by omega)]
    iterate 4 rw [Block.get_set_of_disjoint (by omega) (by omega)]
    exact Block.get_set_self (by omega) (half _)
  simp only [load, type, major, minor, nlink, size, addrs, addr, BitVec.ofNat_toNat,
    BitVec.setWidth_eq]

end Dinode

end Xv6.Kernel
