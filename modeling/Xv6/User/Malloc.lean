import Xv6.Lib.Extent
import Xv6.Lib.Machine

/-! # The allocator of user programs

`user/umalloc.c`. The free blocks are in a circular list, linked through the headers that
every block starts with; `base` is a block of size 0 that is always there. Sizes are
`uint` and count headers.

Memory is read and written through headers only, so it is a function from the addresses of
headers. A loop takes fuel and has no result where the fuel does not suffice.
-/

namespace Xv6.User.Malloc

open Lib

/-- `union header`. -/
structure Header where
  ptr : Nat
  size : Nat
  deriving Repr, DecidableEq

/-- `sizeof(Header)`. -/
abbrev headerSize : Nat := 16

structure Heap where
  mem : Nat → Header
  freep : Nat

namespace Heap

def setPtr (h : Heap) (p v : Nat) : Heap :=
  { h with mem := Function.update h.mem p { h.mem p with ptr := v } }

def setSize (h : Heap) (p v : Nat) : Heap :=
  { h with mem := Function.update h.mem p { h.mem p with size := v } }

end Heap

/-- `p + n` for a pointer to a header. -/
def offset (p n : Nat) : Nat := p + headerSize * n

/-- The loop of `free`, from `p` on. -/
def freeLoop (mem : Nat → Header) (bp : Nat) : Nat → Nat → Option Nat
  | 0, _ => none
  | fuel + 1, p =>
      if p < bp ∧ bp < (mem p).ptr then some p
      else if (mem p).ptr ≤ p ∧ (p < bp ∨ bp < (mem p).ptr) then some p
      else freeLoop mem bp fuel (mem p).ptr

/-- `free` after its loop has found `p`: the block goes between `p` and the one after `p`. -/
def freeLink (h : Heap) (bp p : Nat) : Heap :=
  let h :=
    if offset bp (h.mem bp).size = (h.mem p).ptr then
      let h := h.setSize bp (((h.mem bp).size + (h.mem (h.mem p).ptr).size) % 2 ^ 32)
      h.setPtr bp (h.mem (h.mem p).ptr).ptr
    else h.setPtr bp (h.mem p).ptr
  let h :=
    if offset p (h.mem p).size = bp then
      let h := h.setSize p (((h.mem p).size + (h.mem bp).size) % 2 ^ 32)
      h.setPtr p (h.mem bp).ptr
    else h.setPtr p bp
  { h with freep := p }

def free (fuel ap : Nat) (h : Heap) : Option Heap :=
  let bp := ap - headerSize
  (freeLoop h.mem bp fuel h.freep).map (freeLink h bp)

/-- `sbrk`, of an environment with state `σ`: it returns an address, or -1. -/
abbrev Sbrk (σ : Type) : Type := Int → σ → Option (Option Nat × σ)

section

variable {σ : Type} (sbrk : Sbrk σ)

/-- The conversion to the `int` that `sbrk` takes. -/
def intArg (n : Nat) : Int := (BitVec.ofNat 32 n).toInt

/-- `morecore` returns 0 or `freep`. -/
def morecore (fuel nu : Nat) (h : Heap) (s : σ) : Option (Nat × Heap × σ) :=
  let nu := if nu < 4096 then 4096 else nu
  match sbrk (intArg (nu * headerSize)) s with
  | none => none
  | some (none, s) => some (0, h, s)
  | some (some p, s) => (free fuel (p + headerSize) (h.setSize p nu)).map fun h => (h.freep, h, s)

/-- The loop of `malloc`, from `p` on. -/
def mallocLoop (nunits : Nat) : Nat → Nat → Nat → Heap → σ → Option (Nat × Heap × σ)
  | 0, _, _, _, _ => none
  | fuel + 1, prevp, p, h, s =>
      if nunits ≤ (h.mem p).size then
        if (h.mem p).size = nunits then
          some (p + headerSize, { h.setPtr prevp (h.mem p).ptr with freep := prevp }, s)
        else
          let h := h.setSize p ((h.mem p).size - nunits)
          let p := offset p (h.mem p).size
          let h := h.setSize p nunits
          some (p + headerSize, { h with freep := prevp }, s)
      else if p = h.freep then
        match morecore sbrk fuel nunits h s with
        | none => none
        | some (p, h, s) =>
            if p = 0 then some (0, h, s) else mallocLoop nunits fuel p (h.mem p).ptr h s
      else mallocLoop nunits fuel p (h.mem p).ptr h s

/-- The size of a block for `nbytes` bytes. -/
def nunits (nbytes : Nat) : Nat := ((nbytes + headerSize - 1) / headerSize + 1) % 2 ^ 32

/-- The first call of `malloc` makes the list. -/
def initList (base : Nat) (h : Heap) : Heap :=
  if h.freep = 0 then { (h.setPtr base base).setSize base 0 with freep := base } else h

def malloc (base fuel nbytes : Nat) (h : Heap) (s : σ) : Option (Nat × Heap × σ) :=
  let h := initList base h
  mallocLoop sbrk (nunits nbytes) fuel h.freep (h.mem h.freep).ptr h s

end

/-! ## A program that allocates -/

/-- What `sbrk` has returned so far ends at `top` and holds `got` headers; `answers` are
    the results that follow. -/
structure Env where
  top : Nat
  got : Nat
  answers : List (Option Nat)

/-- `sbrk` fails or returns a new region above all earlier ones. -/
def grant : Sbrk Env := fun n env =>
  match env.answers with
  | [] => none
  | none :: rest => some (none, { env with answers := rest })
  | some p :: rest =>
      if env.top ≤ p ∧ 0 < n then
        some (some p,
          { top := p + n.toNat, got := env.got + n.toNat / headerSize, answers := rest })
      else none

structure State where
  heap : Heap
  /-- The blocks that `malloc` has returned and `free` has not got back. -/
  live : List Extent
  top : Nat
  got : Nat

inductive Event where
  /-- `malloc(nbytes)`; `sbrk`, if it is called, gives the answer. -/
  | malloc (fuel nbytes : Nat) (answer : Option Nat)
  | free (fuel ap : Nat)
  /-- The program writes to a block that it has, or to memory it has not got yet. -/
  | write (addr : Nat) (value : Header)
  deriving DecidableEq

inductive Obs where
  | silent
  | returned (ap : Nat)
  deriving Repr, DecidableEq

/-- The program may change what is read as a header at `addr`. -/
def State.Writable (s : State) (addr : Nat) : Prop :=
  s.top ≤ addr ∨ ∃ b ∈ s.live, b.start < addr ∧ addr < b.stop headerSize

instance (s : State) (addr : Nat) : Decidable (s.Writable addr) := by
  unfold State.Writable
  infer_instance

def step (base : Nat) (s : State) : Event → Option (State × Obs)
  | .malloc fuel nbytes answer =>
      -- the size of the block in bytes fits in an int
      if nbytes < 2 ^ 32 ∧ nunits nbytes * headerSize < 2 ^ 31 then
        (malloc grant base fuel nbytes s.heap ⟨s.top, s.got, [answer]⟩).map fun (ap, h, env) =>
          ({ heap := h
             live := if ap = 0 then s.live
               else ⟨ap - headerSize, (h.mem (ap - headerSize)).size⟩ :: s.live
             top := env.top
             got := env.got }, .returned ap)
      else none
  | .free fuel ap =>
      match s.live.find? fun b => b.start + headerSize == ap with
      | none => none
      | some b =>
          (free fuel ap s.heap).map fun h => ({ s with heap := h, live := s.live.erase b }, .silent)
  | .write addr value =>
      if s.Writable addr then
        some ({ s with heap := { s.heap with mem := Function.update s.heap.mem addr value } },
          .silent)
      else none

def machine (base : Nat) : Lib.Machine State Event Obs := ⟨step base⟩

/-- The static variables are zero. -/
def start (mem : Nat → Header) (top : Nat) : State where
  heap := { mem := mem, freep := 0 }
  live := []
  top := top
  got := 0

end Xv6.User.Malloc
