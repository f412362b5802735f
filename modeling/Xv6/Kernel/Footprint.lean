import Xv6.Kernel.Nodes
import Xv6.Kernel.Log

/-! # The blocks that a write logs

`filewrite` cuts a write into pieces of at most three blocks, each in a transaction of its own.
A piece touches at most four data blocks, and allocates at most three of them: when it touches
four, the first one is not written from its start, and a file has no hole there. With the
indirect block, the bitmap blocks of what is allocated and the inode this makes `MAXOPBLOCKS`.
-/

namespace Xv6.Kernel.Fs

open Lib
open Log (MAXOPBLOCKS)

/-- `max` in `filewrite`. -/
def maxWrite : Nat := (MAXOPBLOCKS - 1 - 1 - 2) / 2 * BSIZE

/-- What `filewrite` does between `begin_op` and `end_op`, for the bytes from `i` on of the `n`
    bytes that are written; `off` is `f->off`. -/
def filewriteSection (sb : Superblock) (inum : Nat) (ip : Dinode) (src : Source) (n i : Nat)
    (off : BitVec 32) : M (Int × Dinode) := do
  modify fun s => { s with changed := [], log := [] }
  writei sb inum ip (fun x => src (i + x)) off (BitVec.ofNat 32 (min (n - i) maxWrite))

section

variable {sb : Superblock} {s u : State} {ino : Nat → Dinode} {i : Nat} {src : Source}
variable {ip ip' : Dinode} {n off tot' m off' m' k : Nat}

/-- How many blocks of the file the bytes from `off` to `off + n` touch. -/
def touched (off n : Nat) : Nat := (off + n + BSIZE - 1) / BSIZE - off / BSIZE

/-- The distinct blocks among those that the loop of `writei` logs. -/
theorem Written.card_log (written : Written sb ino i src n ip s off 0 m ip' u off' tot' m' k)
    (begun : s.log = []) :
    u.log.toFinset.card ≤ noIndirect ip + (m' - m) + 1 + touched off n := by
  obtain ⟨l, c, maps, log, -, -, count, entries, -⟩ := written.logged
  have cover : u.log.toFinset ⊆ maps.toFinset ∪ {ip'.addr INDIRECT} ∪
      (Finset.Ico (off / BSIZE) ((off + n + BSIZE - 1) / BSIZE)).image
        fun bn => ip'.slot u.disk (slotOf bn) := by
    intro x member
    rw [log, begun, List.nil_append, List.mem_toFinset] at member
    simp only [Finset.mem_union, List.mem_toFinset, Finset.mem_singleton, Finset.mem_image,
      Finset.mem_Ico]
    rcases entries x member with map | ⟨indirect, -⟩ | ⟨bn, first, inside, -, same⟩
    · exact .inl (.inl map)
    · exact .inl (.inr indirect)
    · refine .inr ⟨bn, ⟨first, ?_⟩, same.symm⟩
      unfold BSIZE at *
      omega
  calc u.log.toFinset.card
      ≤ (maps.toFinset ∪ {ip'.addr INDIRECT} ∪ (Finset.Ico (off / BSIZE)
          ((off + n + BSIZE - 1) / BSIZE)).image fun bn => ip'.slot u.disk (slotOf bn)).card :=
        Finset.card_le_card cover
    _ ≤ maps.length + 1 + touched off n := by
        refine (Finset.card_union_le _ _).trans (Nat.add_le_add ?_ ?_)
        · exact (Finset.card_union_le _ _).trans
            (Nat.add_le_add maps.toFinset_card_le (by simp))
        · exact Finset.card_image_le.trans (by simp [touched])
    _ ≤ noIndirect ip + (m' - m) + 1 + touched off n := by omega

/-- The file gets fewer blocks than the write touches, if that does not start a block. -/
theorem Written.new_le (written : Written sb ino i src n ip s off 0 m ip' u off' tot' m' k)
    (covers : off ≤ m * BSIZE) (few : n ≤ 3 * BSIZE) : m' - m + touched off n ≤ 7 := by
  have blocks := written.blocks
  unfold touched
  unfold BSIZE at *
  omega

end

theorem filewriteSection_outcome {sb : Superblock} {s : State} {E : Panic → Prop} {inum : Nat}
    (wf : WellFormed sb s.disk) (src : Source) (n i : Nat) (off : BitVec 32) :
    Outcome (filewriteSection sb inum (inodes sb s.disk inum) src n i off) s E fun _ t =>
      t.log.toFinset.card ≤ MAXOPBLOCKS := by
  have limit : maxWrite = 3 * BSIZE := rfl
  have most : MAXOPBLOCKS = 10 := rfl
  have short : (BitVec.ofNat 32 (min (n - i) maxWrite)).toNat ≤ 3 * BSIZE := by
    rw [BitVec.toNat_ofNat]
    refine (Nat.mod_le _ _).trans ?_
    omega
  rw [filewriteSection]
  refine .bind (.modified ?_)
  refine (@writei_outcome sb ⟨s.disk, [], []⟩ E wf inum (fun x => src (i + x)) off
    (BitVec.ofNat 32 (min (n - i) maxWrite))).mono ?_
  rintro r t (⟨-, rfl, -⟩ | ⟨fits, -, m, ip', u, off', m', k, tot', -, size, written, -, rfl⟩)
  · simp
  · have data := written.card_log rfl
    have new := written.new_le (fits.trans size) short
    have indirect : noIndirect (inodes sb s.disk inum) ≤ 1 := by
      unfold noIndirect
      split <;> omega
    have inode : (u.iupdate sb inum (extend ip' off')).log.toFinset.card ≤
        u.log.toFinset.card + 1 := by
      rw [State.iupdate, List.toFinset_append]
      refine (Finset.card_union_le _ _).trans ?_
      simp
    dsimp only at data
    omega

/-! ## What the file system operations do to inodes -/

/-- The operations of which the system calls are made. Each is done by the holder of the lock of
    the inode, whose copy in memory is the one on the disk. -/
inductive Op where
  | write (i : Nat) (src : Source) (off n : BitVec 32)
  | read (i : Nat) (dst : Dest) (off n : BitVec 32)
  | trunc (i : Nat)
  | alloc (type : BitVec 16)
  /-- `iupdate` after a change of `major`, `minor` and `nlink`. -/
  | update (i : Nat) (major minor nlink : BitVec 16)
  /-- What `iput` does to an inode without links. -/
  | free (i : Nat)

/-- The inode is truncated, and then its type becomes 0. -/
def ifree (sb : Superblock) (i : Nat) (ip : Dinode) : M PUnit := do
  let ip ← itrunc sb i ip
  iupdate sb i { ip with type := 0 }

def Op.run (sb : Superblock) (s : State) : Op → Option (M PUnit)
  | .write i src off n =>
      if (inodes sb s.disk i).type = 0 then none
      else some (do let _ ← writei sb i (inodes sb s.disk i) src off n)
  | .read i dst off n =>
      if (inodes sb s.disk i).type = 0 then none
      else some (do let _ ← readi sb (inodes sb s.disk i) dst off n)
  | .trunc i =>
      if (inodes sb s.disk i).type = 0 then none
      else some (do let _ ← itrunc sb i (inodes sb s.disk i))
  | .alloc type => if type = 0 then none else some (do let _ ← ialloc sb type)
  | .update i major minor nlink =>
      if (inodes sb s.disk i).type = 0 then none
      else some (iupdate sb i { inodes sb s.disk i with major, minor, nlink })
  | .free i =>
      if (inodes sb s.disk i).type = 0 then none else some (ifree sb i (inodes sb s.disk i))

def machine (sb : Superblock) : Machine State Op PUnit where
  step s e :=
    match e.run sb s with
    | none => none
    | some m =>
        match m s with
        | .ok (_, t) => some (t, ⟨⟩)
        | .error _ => none

section

variable {sb : Superblock} {s t : State} {E : Panic → Prop}

theorem ifree_becomes {i : Nat} (wf : WellFormed sb s.disk) (allocated : Allocated sb s.disk i) :
    Outcome (ifree sb i (inodes sb s.disk i)) s E fun _ t => Becomes sb s i .zero .free t := by
  rw [ifree]
  refine .bind ((itrunc_outcome (wf.sound_self i)).mono ?_)
  rintro ip u ⟨rfl, v, rfl, sound, same⟩
  have emptied : Becomes sb s i (truncated (inodes sb s.disk i))
      { nodes sb s.disk i with bytes := [] } (v.iupdate sb i (truncated (inodes sb s.disk i))) :=
    wf.emptied allocated.bounds.1 allocated.bounds.2 (if_neg allocated) sound same rfl
      (slot_truncated _)
  have mine : inodes sb (v.iupdate sb i (truncated (inodes sb s.disk i))).disk i =
      truncated (inodes sb s.disk i) := by
    rw [emptied.inodes, Function.update_self]
  refine iupdate_outcome (emptied.trans (emptied.wellFormed.free_becomes ?_ rfl ?_))
  · rw [Allocated, mine]
    exact allocated
  · intro k
    rw [mine, slot_truncated]

/-- An operation that comes to its end leaves a well-formed file system, and none panics. -/
theorem Op.run_outcome {e : Op} {m : M PUnit} (wf : WellFormed sb s.disk)
    (run : e.run sb s = some m) : Outcome m s E fun _ t => WellFormed sb t.disk := by
  cases e with
  | write i src off n =>
    rw [Op.run] at run
    split at run
    · cases run
    · rename_i allocated
      cases run
      refine .bind ((writei_becomes wf allocated src off n).mono ?_)
      rintro r t ⟨bytes, becomes⟩
      exact .pure becomes.wellFormed
  | read i dst off n =>
    rw [Op.run] at run
    split at run
    · cases run
    · cases run
      obtain ⟨r, out, ran⟩ := readi_eq wf i dst off n
      exact .bind (.of_ok ran (.pure wf))
  | trunc i =>
    rw [Op.run] at run
    split at run
    · cases run
    · rename_i allocated
      cases run
      refine .bind ((itrunc_becomes wf allocated).mono ?_)
      intro ip t becomes
      exact .pure becomes.wellFormed
  | alloc type =>
    rw [Op.run] at run
    split at run
    · cases run
    · rename_i some_
      cases run
      refine .bind ((ialloc_becomes wf some_).mono ?_)
      rintro r t (⟨-, rfl⟩ | ⟨i, -, -, -, -, becomes⟩)
      · exact .pure wf
      · exact .pure becomes.wellFormed
  | update i major minor nlink =>
    rw [Op.run] at run
    split at run
    · cases run
    · rename_i allocated
      cases run
      have becomes := @WellFormed.iupdate_becomes sb s i
        { inodes sb s.disk i with major, minor, nlink } wf allocated allocated rfl rfl
      exact iupdate_outcome (Q := fun _ t => WellFormed sb t.disk) becomes.wellFormed
  | free i =>
    rw [Op.run] at run
    split at run
    · cases run
    · rename_i allocated
      cases run
      exact (ifree_becomes wf allocated).mono fun _ _ becomes => becomes.wellFormed

theorem wellFormed_run {tr : List (Op × PUnit)} (wf : WellFormed sb s.disk)
    (run : (machine sb).Run s tr t) : WellFormed sb t.disk := by
  refine run.always_invariant (fun _ t => WellFormed sb t.disk) wf ?_
  intro pre u e o v _ before taken
  simp only [machine] at taken
  split at taken
  · cases taken
  · rename_i m called
    split at taken
    · rename_i r t ran
      cases taken
      exact (Op.run_outcome (E := fun _ => False) before called).ok ran
    · cases taken

end

/-- Whatever was done to the inodes, a transaction of `filewrite` logs `MAXOPBLOCKS` blocks at
    most. -/
theorem filewriteSection_footprint {sb : Superblock} {s t : State} {tr : List (Op × PUnit)}
    (wf : WellFormed sb s.disk) (run : (machine sb).Run s tr t) (inum : Nat) (src : Source)
    (n i : Nat) (off : BitVec 32) :
    ∃ r u, filewriteSection sb inum (inodes sb t.disk inum) src n i off t = .ok (r, u) ∧
      u.log.toFinset.card ≤ MAXOPBLOCKS :=
  (filewriteSection_outcome (wellFormed_run wf run) src n i off).exists_ok (E := fun _ => False)
    fun _ => id

/-- The file of `oneFile` is truncated and then written to. -/
theorem filewriteSection_footprint_oneFile : ∃ t,
    (machine smallDisk).Run ⟨oneFile, [], []⟩ [(.trunc 1, ⟨⟩)] t ∧
    ∃ r u, filewriteSection smallDisk 1 (inodes smallDisk t.disk 1) (.kernel [97]) 1 0 0 t =
      .ok (r, u) ∧ u.log.toFinset.card ≤ MAXOPBLOCKS := by
  have allocated : Allocated smallDisk oneFile 1 := by
    rw [Allocated, inodes_oneFile]
    decide
  obtain ⟨ip, t, ran, -⟩ := (@itrunc_becomes smallDisk ⟨oneFile, [], []⟩ 1 (fun _ => False)
    wellFormed_oneFile allocated).exists_ok fun _ => id
  have taken : (machine smallDisk).step ⟨oneFile, [], []⟩ (.trunc 1) = some (t, ⟨⟩) := by
    have called : (Op.trunc 1).run smallDisk ⟨oneFile, [], []⟩ =
        some (do let _ ← itrunc smallDisk 1 (inodes smallDisk oneFile 1)) := by
      rw [Op.run, if_neg allocated]
    simp only [machine, called]
    rw [run_bind ran]
    rfl
  have run := Machine.Run.snoc .start taken
  exact ⟨t, run, filewriteSection_footprint wellFormed_oneFile run 1 (.kernel [97]) 1 0 0⟩

end Xv6.Kernel.Fs
