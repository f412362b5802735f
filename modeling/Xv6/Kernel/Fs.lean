import Xv6.Kernel.Slots
import Xv6.Lib.Exec

/-! # Files and directories

`kernel/fs.c` above the buffer cache and the log: the block allocator, the contents of
inodes and directories. There is one device. An inode is passed by its number and the
fields that `struct inode` shares with `struct dinode`; the caller holds its lock, so a
function that changes them returns them.

Block numbers are `int` in `balloc`, so a disk has at most `2 ^ 31` blocks.
-/

namespace Xv6.Kernel.Fs

def BPB : Nat := BSIZE * 8

def DIRSIZ : Nat := 14

/-- The fields of `struct superblock` that `fs.c` reads. The inodes come before the
    bitmap, and the data blocks after it. -/
structure Superblock where
  size : Nat
  ninodes : Nat
  inodestart : Nat
  bmapstart : Nat
  small : size ≤ 2 ^ 31
  ordered : inodestart + ninodes / IPB < bmapstart

namespace Superblock

/-- `BBLOCK(b, sb)`. -/
def bblock (sb : Superblock) (b : Nat) : Nat := b / BPB + sb.bmapstart

/-- `IBLOCK(i, sb)`. -/
def iblock (sb : Superblock) (i : Nat) : Nat := i / IPB + sb.inodestart

/-- The first data block. -/
def nmeta (sb : Superblock) : Nat := sb.bmapstart + (sb.size / BPB + 1)

end Superblock

structure State where
  /-- The blocks as the buffer cache has them. -/
  disk : Disk
  /-- The blocks whose buffers were changed, and those passed to `log_write`. -/
  changed : List Nat
  log : List Nat

inductive Panic where
  | freeingFreeBlock
  | bmapOutOfRange
  | dirlookupNotDir
  | dirlookupRead
  | dirlinkRead
  deriving Repr, DecidableEq

abbrev M := StateT State (Except Panic)

def bread (b : Nat) : M Block := do
  let s ← get
  pure (s.disk b)

/-- `bp->data` becomes `data`. -/
def setData (b : Nat) (data : Block) : M PUnit :=
  modify fun s => { s with disk := Function.update s.disk b data, changed := s.changed ++ [b] }

def logWrite (b : Nat) : M PUnit := modify fun s => { s with log := s.log ++ [b] }

/-! ## Blocks -/

def bzero (bno : Nat) : M PUnit := do
  setData bno .zero
  logWrite bno

/-- The inner loop of `balloc`, over `n` bits. -/
def freeBit (bp : Block) (n : Nat) : Option Nat := (List.range n).find? fun bi => !bp.bit bi

/-- The outer loop of `balloc`, for `turns` turns. -/
def ballocLoop (sb : Superblock) : Nat → Nat → M Nat
  | 0, _ => pure 0
  | turns + 1, b => do
      let bp ← bread (sb.bblock b)
      match freeBit bp (min BPB (sb.size - b)) with
      | some bi => do
          setData (sb.bblock b) (bp.setBit bi)
          logWrite (sb.bblock b)
          bzero (b + bi)
          pure (b + bi)
      | none => ballocLoop sb turns (b + BPB)

/-- 0 when no block is free. -/
def balloc (sb : Superblock) : M Nat := ballocLoop sb ((sb.size + BPB - 1) / BPB) 0

def bfree (sb : Superblock) (b : Nat) : M PUnit := do
  let bp ← bread (sb.bblock b)
  if bp.bit (b % BPB) then do
    setData (sb.bblock b) (bp.clearBit (b % BPB))
    logWrite (sb.bblock b)
  else throw .freeingFreeBlock

/-! ## Inodes -/

/-- The loop of `ialloc`, for at most `turns` turns. -/
def iallocLoop (sb : Superblock) (type : BitVec 16) : Nat → Nat → M (Option Nat)
  | 0, _ => pure none
  | turns + 1, inum =>
      if inum < sb.ninodes then do
        let bp ← bread (sb.iblock inum)
        if (Dinode.load bp (inum % IPB)).type = 0 then do
          setData (sb.iblock inum) (Dinode.store bp (inum % IPB) { Dinode.zero with type })
          logWrite (sb.iblock inum)
          pure (some inum)
        else iallocLoop sb type turns (inum + 1)
      else pure none

/-- The number of the inode that is now allocated, if there is one left. -/
def ialloc (sb : Superblock) (type : BitVec 16) : M (Option Nat) :=
  iallocLoop sb type sb.ninodes 1

def iupdate (sb : Superblock) (inum : Nat) (ip : Dinode) : M PUnit := do
  let bp ← bread (sb.iblock inum)
  setData (sb.iblock inum) (ip.store bp (inum % IPB))
  logWrite (sb.iblock inum)

/-- `ip->addrs[i]`, with a new block if it is 0. -/
def bmapAddr (sb : Superblock) (ip : Dinode) (i : Fin (NDIRECT + 1)) : M (Nat × Dinode) :=
  if ip.addr i = 0 then do
    let addr ← balloc sb
    pure (addr, if addr = 0 then ip else ip.setAddr i addr)
  else pure (ip.addr i, ip)

/-- `a[bn]` for the indirect block `a`, with a new block if it is 0. -/
def bmapEntry (sb : Superblock) (indirect bn : Nat) : M Nat := do
  let a ← bread indirect
  if a.entry bn = 0 then do
    let addr ← balloc sb
    if addr = 0 then pure 0
    else do
      let a ← bread indirect
      setData indirect (a.setEntry bn addr)
      logWrite indirect
      pure addr
  else pure (a.entry bn)

/-- The block of the file, and the inode; 0 when no block is free. -/
def bmap (sb : Superblock) (ip : Dinode) (bn : Nat) : M (Nat × Dinode) :=
  if direct : bn < NDIRECT then bmapAddr sb ip ⟨bn, Nat.lt_succ_of_lt direct⟩
  else if bn - NDIRECT < NINDIRECT then do
    let (indirect, ip) ← bmapAddr sb ip INDIRECT
    if indirect = 0 then pure (0, ip)
    else do
      let addr ← bmapEntry sb indirect (bn - NDIRECT)
      pure (addr, ip)
  else throw .bmapOutOfRange

/-- `if(ip->addrs[i]){ bfree(ip->addrs[i]); ip->addrs[i] = 0; }` -/
def freeAddr (sb : Superblock) (ip : Dinode) (i : Fin (NDIRECT + 1)) : M Dinode :=
  if ip.addr i = 0 then pure ip
  else do
    bfree sb (ip.addr i)
    pure (ip.setAddr i 0)

/-- The first loop of `itrunc`. -/
def freeAddrs (sb : Superblock) : List (Fin (NDIRECT + 1)) → Dinode → M Dinode
  | [], ip => pure ip
  | i :: rest, ip => do
      let ip ← freeAddr sb ip i
      freeAddrs sb rest ip

/-- The second loop of `itrunc`, over the entries of the indirect block. -/
def freeEntries (sb : Superblock) : List Nat → M PUnit
  | [] => pure ⟨⟩
  | b :: rest =>
      if b = 0 then freeEntries sb rest
      else do
        bfree sb b
        freeEntries sb rest

def freeIndirect (sb : Superblock) (ip : Dinode) : M Dinode :=
  if ip.addr INDIRECT = 0 then pure ip
  else do
    let a ← bread (ip.addr INDIRECT)
    freeEntries sb ((List.range NINDIRECT).map a.entry)
    bfree sb (ip.addr INDIRECT)
    pure (ip.setAddr INDIRECT 0)

def itrunc (sb : Superblock) (inum : Nat) (ip : Dinode) : M Dinode := do
  let ip ← freeAddrs sb ((List.finRange NDIRECT).map Fin.castSucc) ip
  let ip ← freeIndirect sb ip
  iupdate sb inum { ip with size := 0 }
  pure { ip with size := 0 }

/-! ## Reading and writing -/

/-- What can be read from a source address on: byte `i`, if it is mapped. -/
abbrev Source := Nat → Option UInt8

/-- The bytes that `either_copyin` stores when it reads `m` bytes from byte `i` of the
    source on, and whether it returns 0. -/
def Source.copyin (src : Source) : Nat → Nat → List UInt8 × Bool
  | _, 0 => ([], true)
  | i, m + 1 =>
      match src i with
      | none => ([], false)
      | some c => (c :: (copyin src (i + 1) m).1, (copyin src (i + 1) m).2)

/-- A kernel address: everything can be read. -/
def Source.kernel (bytes : List UInt8) : Source := fun i => some (bytes.getD i 0)

/-- What can be written from a destination address on. -/
abbrev Dest := Nat → Bool

/-- The bytes that `either_copyout` stores from byte `i` of the destination on, and whether
    it returns 0. -/
def Dest.copyout (dst : Dest) : Nat → List UInt8 → List UInt8 × Bool
  | _, [] => ([], true)
  | i, c :: bytes =>
      if dst i then (c :: (copyout dst (i + 1) bytes).1, (copyout dst (i + 1) bytes).2)
      else ([], false)

def Dest.kernel : Dest := fun _ => true

/-- Bytes `off`, ..., `off + m - 1` of a block. -/
def slice (bp : Block) (off m : Nat) : List UInt8 := (List.range m).map fun i => bp.bytes (off + i)

/-- The loop of `readi`, for at most `rounds` rounds, with what has been delivered. -/
def readiLoop (sb : Superblock) (dst : Dest) (n : Nat) :
    Nat → Dinode → Nat → Nat → List UInt8 → M (Int × List UInt8 × Dinode)
  | 0, ip, _, tot, out => pure (tot, out, ip)
  | rounds + 1, ip, off, tot, out =>
      if tot < n then do
        let (addr, ip) ← bmap sb ip (off / BSIZE)
        if addr = 0 then pure (tot, out, ip)
        else do
          let bp ← bread addr
          let m := min (n - tot) (BSIZE - off % BSIZE)
          let (bytes, ok) := dst.copyout tot (slice bp (off % BSIZE) m)
          if ok then readiLoop sb dst n rounds ip (off + m) (tot + m) (out ++ bytes)
          else pure (-1, out ++ bytes, ip)
      else pure (tot, out, ip)

/-- The value returned, the bytes delivered and the inode. -/
def readi (sb : Superblock) (ip : Dinode) (dst : Dest) (off n : BitVec 32) :
    M (Int × List UInt8 × Dinode) :=
  if off > ip.size ∨ off + n < off then pure (0, [], ip)
  else
    let n := if off + n > ip.size then ip.size - off else n
    readiLoop sb dst n.toNat n.toNat ip off.toNat 0 []

/-- `memmove(bp->data + off, bytes)`. -/
def copyTo (addr off : Nat) (bytes : List UInt8) : M PUnit :=
  if bytes = [] then pure ⟨⟩
  else do
    let bp ← bread addr
    setData addr (bp.put off bytes)

/-- The loop of `writei`, for at most `rounds` rounds. -/
def writeiLoop (sb : Superblock) (src : Source) (n : Nat) :
    Nat → Dinode → Nat → Nat → M (Dinode × Nat × Nat)
  | 0, ip, off, tot => pure (ip, off, tot)
  | rounds + 1, ip, off, tot =>
      if tot < n then do
        let (addr, ip) ← bmap sb ip (off / BSIZE)
        if addr = 0 then pure (ip, off, tot)
        else do
          let m := min (n - tot) (BSIZE - off % BSIZE)
          let (bytes, ok) := src.copyin tot m
          copyTo addr (off % BSIZE) bytes
          if ok then do
            logWrite addr
            writeiLoop sb src n rounds ip (off + m) (tot + m)
          else pure (ip, off, tot)
      else pure (ip, off, tot)

/-- `if(off > ip->size) ip->size = off;` -/
def extend (ip : Dinode) (off : Nat) : Dinode :=
  if off > ip.size.toNat then { ip with size := BitVec.ofNat 32 off } else ip

def writei (sb : Superblock) (inum : Nat) (ip : Dinode) (src : Source) (off n : BitVec 32) :
    M (Int × Dinode) :=
  if off > ip.size ∨ off + n < off then pure (-1, ip)
  else if (off + n).toNat > MAXFILE * BSIZE then pure (-1, ip)
  else do
    let (ip, off, tot) ← writeiLoop sb src n.toNat n.toNat ip off.toNat 0
    iupdate sb inum (extend ip off)
    pure (tot, extend ip off)

/-! ## Directories -/

/-- Beyond its end a string reads as NUL. -/
def strncmp : Nat → List UInt8 → List UInt8 → Int
  | 0, _, _ => 0
  | n + 1, p, q =>
      if p.headD 0 ≠ 0 ∧ p.headD 0 = q.headD 0 then strncmp n p.tail q.tail
      else ((p.headD 0).toNat : Int) - (q.headD 0).toNat

def strncpy : Nat → List UInt8 → List UInt8
  | 0, _ => []
  | n + 1, t => t.headD 0 :: if t.headD 0 ≠ 0 then strncpy n t.tail else List.replicate n 0

def namecmp (s t : List UInt8) : Int := strncmp DIRSIZ s t

/-- `sizeof(struct dirent)`. -/
def DIRENT : Nat := 16

/-- `de.inum` and `de.name` of the bytes of a `struct dirent`. -/
def direntInum (de : List UInt8) : Nat := (de.getD 0 0).toNat + 256 * (de.getD 1 0).toNat

def direntName (de : List UInt8) : List UInt8 := de.drop 2

/-- The bytes of a `struct dirent`. -/
def dirent (inum : Nat) (name : List UInt8) : List UInt8 :=
  UInt8.ofNat inum :: UInt8.ofNat (inum / 256) :: strncpy DIRSIZ name

/-- The loop of `dirlookup`: the inode and the offset of the entry. -/
def dirlookupLoop (sb : Superblock) (name : List UInt8) :
    Nat → Dinode → Nat → M (Option (Nat × Nat) × Dinode)
  | 0, dp, _ => pure (none, dp)
  | rounds + 1, dp, off =>
      if off < dp.size.toNat then do
        let (r, de, dp) ← readi sb dp .kernel (BitVec.ofNat 32 off) (BitVec.ofNat 32 DIRENT)
        if r ≠ DIRENT then throw .dirlookupRead
        else if direntInum de = 0 then dirlookupLoop sb name rounds dp (off + DIRENT)
        else if namecmp name (direntName de) = 0 then pure (some (direntInum de, off), dp)
        else dirlookupLoop sb name rounds dp (off + DIRENT)
      else pure (none, dp)

def dirlookup (sb : Superblock) (dp : Dinode) (name : List UInt8) :
    M (Option (Nat × Nat) × Dinode) :=
  if dp.type = T_DIR then dirlookupLoop sb name (dp.size.toNat / DIRENT + 1) dp 0
  else throw .dirlookupNotDir

/-- The second loop of `dirlink`: the offset of an empty entry, or the end. -/
def emptyEntry (sb : Superblock) : Nat → Dinode → Nat → M (Nat × Dinode)
  | 0, dp, off => pure (off, dp)
  | rounds + 1, dp, off =>
      if off < dp.size.toNat then do
        let (r, de, dp) ← readi sb dp .kernel (BitVec.ofNat 32 off) (BitVec.ofNat 32 DIRENT)
        if r ≠ DIRENT then throw .dirlinkRead
        else if direntInum de = 0 then pure (off, dp)
        else emptyEntry sb rounds dp (off + DIRENT)
      else pure (off, dp)

/-- `dirlink` when the name is not present. -/
def dirlinkNew (sb : Superblock) (dnum : Nat) (dp : Dinode) (name : List UInt8) (inum : Nat) :
    M (Int × Dinode) := do
  let (off, dp) ← emptyEntry sb (dp.size.toNat / DIRENT + 1) dp 0
  let (r, dp) ← writei sb dnum dp (.kernel (dirent inum name)) (BitVec.ofNat 32 off)
    (BitVec.ofNat 32 DIRENT)
  pure (if r = DIRENT then 0 else -1, dp)

def dirlink (sb : Superblock) (dnum : Nat) (dp : Dinode) (name : List UInt8) (inum : Nat) :
    M (Int × Dinode) := do
  let (found, dp) ← dirlookup sb dp name
  if found.isSome then pure (-1, dp) else dirlinkNew sb dnum dp name inum

end Xv6.Kernel.Fs
