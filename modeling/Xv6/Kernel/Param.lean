import Mathlib

/-! # Constants and small types of the kernel

`param.h`, `riscv.h`, `memlayout.h` and `enum procstate`.
-/

namespace Xv6.Kernel

def NPROC : Nat := 64

theorem NPROC_pos : 0 < NPROC := by decide

theorem one_lt_NPROC : 1 < NPROC := by decide

def NOFILE : Nat := 16

def NFILE : Nat := 100

def NINODE : Nat := 50

theorem NINODE_pos : 0 < NINODE := by decide

def MAXARG : Nat := 32

def MAXPATH : Nat := 128

/-- `enum procstate` of `proc.h`. -/
inductive ProcState where
  | unused
  | used
  | sleeping
  | runnable
  | running
  | zombie
  deriving Repr, DecidableEq

def PGSIZE : Nat := 4096

def KERNBASE : Nat := 0x80000000

def PHYSTOP : Nat := KERNBASE + 128 * 1024 * 1024

def MAXVA : Nat := 2 ^ 38

def TRAMPOLINE : Nat := MAXVA - PGSIZE

def TRAPFRAME : Nat := TRAMPOLINE - PGSIZE

/-- A value of type `uint64`. -/
def u64 (x : Nat) : Nat := x % 2 ^ 64

/-- `a - b` of type `uint64`. -/
def sub64 (a b : Nat) : Nat := u64 (a + (2 ^ 64 - u64 b))

def pgRoundDown (a : Nat) : Nat := a / PGSIZE * PGSIZE

def pgRoundUp (sz : Nat) : Nat := pgRoundDown (u64 (sz + (PGSIZE - 1)))

/-- How many of `a`, `a + PGSIZE`, ... lie below `b`. -/
def pagesBetween (a b : Nat) : Nat := (b - a + (PGSIZE - 1)) / PGSIZE

end Xv6.Kernel
