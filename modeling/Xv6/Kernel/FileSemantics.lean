import Xv6.Kernel.FileContent

/-! # Reading and writing files

A well-formed file system: the bitmap, the inodes on the disk and their indirect blocks agree,
and no file has a hole. `writei` keeps it so, whatever happens to it; with a source that can be
read and enough free blocks it replaces the bytes of the file that it is told to, and changes no
other file. `readi` changes nothing.
-/

namespace Xv6.Kernel.Fs

open Lib Function

/-- Inode `i` as it is on the disk. -/
def inodeAt (sb : Superblock) (disk : Disk) (i : Nat) : Dinode :=
  Dinode.load (disk (sb.iblock i)) (i % IPB)

/-- The allocated inodes; the others own nothing. -/
def inodes (sb : Superblock) (disk : Disk) (i : Nat) : Dinode :=
  if 0 < i ∧ i < sb.ninodes ∧ (inodeAt sb disk i).type ≠ 0 then inodeAt sb disk i else .zero

structure WellFormed (sb : Superblock) (disk : Disk) : Prop where
  sound : Sound sb disk (inodes sb disk)
  dense : ∀ i, ∃ m, Dense (inodes sb disk i) disk m ∧ (inodes sb disk i).size.toNat ≤ m * BSIZE

section inodes

variable {sb : Superblock} {disk disk' : Disk} {i : Nat} {ip : Dinode}

/-- `i` is the number of an allocated inode. -/
def Allocated (sb : Superblock) (disk : Disk) (i : Nat) : Prop := (inodes sb disk i).type ≠ 0

theorem Allocated.bounds (allocated : Allocated sb disk i) : 0 < i ∧ i < sb.ninodes := by
  rw [Allocated, inodes] at allocated
  split at allocated
  · rename_i all
    exact ⟨all.1, all.2.1⟩
  · exact absurd rfl allocated

theorem inodes_congr (same : ∀ b, b < sb.bmapstart → disk' b = disk b) :
    inodes sb disk' = inodes sb disk := by
  funext i
  by_cases inside : i < sb.ninodes
  · have equal : inodeAt sb disk' i = inodeAt sb disk i := by
      rw [inodeAt, same _ (Superblock.iblock_lt inside), inodeAt]
    rw [inodes, equal, inodes]
  · rw [inodes, if_neg fun all => inside all.2.1, inodes, if_neg fun all => inside all.2.1]

theorem inodeAt_store_self (sb : Superblock) (disk : Disk) (i : Nat) (ip : Dinode) :
    inodeAt sb (update disk (sb.iblock i) (ip.store (disk (sb.iblock i)) (i % IPB))) i =
      ip := by
  rw [inodeAt, update_self]
  exact Dinode.load_store_self (Nat.mod_lt _ (by decide))

theorem inodeAt_store_of_ne {j : Nat} (other : j ≠ i) :
    inodeAt sb (update disk (sb.iblock i) (ip.store (disk (sb.iblock i)) (i % IPB))) j =
      inodeAt sb disk j := by
  by_cases block : sb.iblock j = sb.iblock i
  · have apart : j % IPB ≠ i % IPB := by
      intro place
      have quotient : j / IPB = i / IPB := Nat.add_right_cancel block
      exact other (by rw [← Nat.div_add_mod j IPB, quotient, place, Nat.div_add_mod])
    rw [inodeAt, block, update_self,
      Dinode.load_store_of_ne (Nat.mod_lt _ (by decide)) apart, inodeAt, block]
  · rw [inodeAt, update_of_ne block, inodeAt]

/-- `iupdate` changes one inode. With type 0 it is not allocated any more. -/
theorem inodes_iupdate (first : 0 < i) (inside : i < sb.ninodes) (ip : Dinode) :
    inodes sb (update disk (sb.iblock i) (ip.store (disk (sb.iblock i)) (i % IPB))) =
      update (inodes sb disk) i (if ip.type = 0 then .zero else ip) := by
  funext j
  by_cases same : j = i
  · subst same
    rw [update_self, inodes, inodeAt_store_self]
    by_cases free : ip.type = 0
    · rw [if_pos free, if_neg fun all => all.2.2 free]
    · rw [if_neg free, if_pos ⟨first, inside, free⟩]
  · rw [update_of_ne same, inodes, inodeAt_store_of_ne same, inodes]

/-- The block of an inode is not one that a slot can hold, and not in the bitmap. -/
theorem Sound.iupdate {ino : Nat → Dinode} (sound : Sound sb disk ino) (inside : i < sb.ninodes)
    (data : Block) : Sound sb (update disk (sb.iblock i) data) ino := by
  have low := Superblock.iblock_lt inside
  have := sb.bmapstart_lt_nmeta
  apply sound.congr
  · intro c start _
    exact update_of_ne (by omega) _ _
  · intro c taken
    have := taken.1
    exact update_of_ne (by omega) _ _

theorem Sound.slot_iupdate {ino : Nat → Dinode} (sound : Sound sb disk ino)
    (inside : i < sb.ninodes) (data : Block) (j n : Nat) :
    (ino j).slot (update disk (sb.iblock i) data) n = (ino j).slot disk n := by
  have low := Superblock.iblock_lt inside
  have := sb.bmapstart_lt_nmeta
  apply sound.slot_congr
  intro c taken
  have := taken.1
  exact update_of_ne (by omega) _ _

end inodes

/-- The state in which `iupdate` returns. -/
def State.iupdate (sb : Superblock) (s : State) (i : Nat) (ip : Dinode) : State where
  disk := update s.disk (sb.iblock i) (ip.store (s.disk (sb.iblock i)) (i % IPB))
  changed := s.changed ++ [sb.iblock i]
  log := s.log ++ [sb.iblock i]

theorem iupdate_outcome {sb : Superblock} {i : Nat} {ip : Dinode} {s : State} {E : Panic → Prop}
    {Q : PUnit → State → Prop} (next : Q ⟨⟩ (s.iupdate sb i ip)) :
    Outcome (iupdate sb i ip) s E Q := next

/-! ## Other files -/

section Frame

variable {sb : Superblock} {disk disk' : Disk} {ino : Nat → Dinode} {i j : Nat} {ip ip' : Dinode}

section

variable (frame : Frame sb ip disk ip' disk') (sound : Sound sb disk (update ino i ip))
  (other : j ≠ i)
include frame sound other

theorem Frame.same_of_ne {k : Nat} (held : (ino j).slot disk k ≠ 0) :
    disk' ((ino j).slot disk k) = disk ((ino j).slot disk k) := by
  have taken := sound.slot_mem (i := j) (k := k)
  rw [update_of_ne other] at taken
  apply frame.others _ (taken held)
  intro n same
  have unique := sound.slot_unique (i := j) (k := k) (j := i) (n := n)
  rw [update_of_ne other, update_self] at unique
  exact other (unique held same.symm).1

theorem Frame.slot_of_ne (k : Nat) :
    (ino j).slot disk' k = (ino j).slot disk k := by
  apply Dinode.slot_congr
  intro some_
  have same := @Frame.same_of_ne _ _ _ _ _ _ _ _ frame sound other NDIRECT
  rw [Dinode.slot_indirect] at same
  exact same some_

theorem Frame.byteAt_of_ne (x : Nat) :
    byteAt (ino j) disk' x = byteAt (ino j) disk x := by
  rw [byteAt, frame.slot_of_ne sound other, byteAt]
  by_cases held : (ino j).slot disk (slotOf (x / BSIZE)) = 0
  · rw [held, frame.low 0 (Nat.zero_lt_of_lt sb.ordered)]
  · rw [frame.same_of_ne sound other held]

theorem Frame.content_of_ne :
    content (ino j) disk' = content (ino j) disk := by
  rw [content, content]
  congr 1
  funext x
  exact frame.byteAt_of_ne sound other x

end

end Frame

/-! ## writei -/

section writei

variable {sb : Superblock} {s t : State} {i : Nat} {src : Source} {E : Panic → Prop}

theorem writei_tests (size off n : BitVec 32) :
    (off > size ∨ off + n < off ∨ (off + n).toNat > MAXFILE * BSIZE ↔
      size.toNat < off.toNat ∨ MAXFILE * BSIZE < off.toNat + n.toNat) := by
  have limit : MAXFILE * BSIZE = 274432 := rfl
  have := off.isLt
  have := n.isLt
  rw [limit, gt_iff_lt, BitVec.lt_def, BitVec.lt_def, BitVec.toNat_add]
  omega

theorem extend_size (ip : Dinode) {off : Nat} (small : off < 2 ^ 32) :
    (extend ip off).size.toNat = max ip.size.toNat off := by
  rw [extend]
  split
  · rename_i larger
    rw [BitVec.toNat_ofNat, Nat.mod_eq_of_lt small]
    omega
  · omega

theorem extend_slot (ip : Dinode) (off : Nat) (disk : Disk) (k : Nat) :
    (extend ip off).slot disk k = ip.slot disk k := by
  rw [extend]
  split <;> rfl

theorem extend_fields (ip : Dinode) (off : Nat) :
    extend ip off = { ip with size := (extend ip off).size } := by
  rw [extend]
  split <;> rfl

theorem extend_type (ip : Dinode) (off : Nat) : (extend ip off).type = ip.type := by
  rw [extend_fields]

/-- The arguments do not fit, or the loop runs and the inode is written back. -/
theorem writei_outcome (wf : WellFormed sb s.disk) (i : Nat) (src : Source) (off n : BitVec 32) :
    Outcome (writei sb i (inodes sb s.disk i) src off n) s E fun r t =>
      (r = (-1, inodes sb s.disk i) ∧ t = s ∧ ((inodes sb s.disk i).size.toNat < off.toNat ∨
        MAXFILE * BSIZE < off.toNat + n.toNat)) ∨
      (off.toNat ≤ (inodes sb s.disk i).size.toNat ∧ off.toNat + n.toNat ≤ MAXFILE * BSIZE ∧
        ∃ m ip' u off' m' k, ∃ tot' : Nat, Dense (inodes sb s.disk i) s.disk m ∧
          (inodes sb s.disk i).size.toNat ≤ m * BSIZE ∧
          Written sb (inodes sb s.disk) i src n.toNat (inodes sb s.disk i) s off.toNat 0 m
            ip' u off' tot' m' k ∧
          r = ((tot' : Int), extend ip' off') ∧ t = u.iupdate sb i (extend ip' off')) := by
  have tests := writei_tests (inodes sb s.disk i).size off n
  obtain ⟨m, dense, size⟩ := wf.dense i
  rw [writei]
  by_cases bad : (inodes sb s.disk i).size.toNat < off.toNat ∨
      MAXFILE * BSIZE < off.toNat + n.toNat
  · rcases tests.mpr bad with first | second | third
    · rw [if_pos (.inl first)]
      exact .pure (.inl ⟨rfl, rfl, bad⟩)
    · rw [if_pos (.inr second)]
      exact .pure (.inl ⟨rfl, rfl, bad⟩)
    · split
      · exact .pure (.inl ⟨rfl, rfl, bad⟩)
      · exact .pure (.inl ⟨rfl, rfl, bad⟩)
  · have fine := tests.not.mpr bad
    rw [not_or, not_or] at fine
    rw [if_neg (not_or.mpr ⟨fine.1, fine.2.1⟩), if_neg fine.2.2]
    have sound : Sound sb s.disk (update (inodes sb s.disk) i (inodes sb s.disk i)) := by
      rw [update_eq_self]
      exact wf.sound
    refine .bind ((writeiLoop_outcome n.toNat sound dense (by omega) (by omega) (Nat.zero_le _)
      (by omega)).mono ?_)
    rintro ⟨ip', off', tot'⟩ u ⟨m', k, written⟩
    exact .inr ⟨by omega, by omega, m, ip', u, off', m', k, tot', dense, size, written, rfl, rfl⟩

variable {ip' : Dinode} {u : State} {n off tot' m off' m' k : Nat}

theorem WellFormed.stored {new : Dinode} (first : 0 < i) (inside : i < sb.ninodes)
    (becomes : (if ip'.type = 0 then Dinode.zero else ip') = new)
    (sound : Sound sb u.disk (update (inodes sb u.disk) i new))
    (dense : ∀ j, ∃ m, Dense (update (inodes sb u.disk) i new j) u.disk m ∧
      (update (inodes sb u.disk) i new j).size.toNat ≤ m * BSIZE) :
    WellFormed sb (u.iupdate sb i ip').disk ∧
      inodes sb (u.iupdate sb i ip').disk = update (inodes sb u.disk) i new := by
  have ino : inodes sb (u.iupdate sb i ip').disk = update (inodes sb u.disk) i new := by
    rw [State.iupdate, inodes_iupdate first inside, becomes]
  refine ⟨⟨?_, fun j => ?_⟩, ino⟩
  · rw [ino]
    exact sound.iupdate inside _
  · obtain ⟨c, holds, covers⟩ := dense j
    rw [ino]
    refine ⟨c, fun bn => ?_, covers⟩
    rw [← holds bn, State.iupdate, sound.slot_iupdate inside]

/-- `writei` leaves a well-formed file system, in which inode `i` is what it returns. -/
theorem Written.wellFormed (wf : WellFormed sb s.disk) (allocated : Allocated sb s.disk i)
    (size : (inodes sb s.disk i).size.toNat ≤ m * BSIZE) (short : off + n ≤ MAXFILE * BSIZE)
    (written : Written sb (inodes sb s.disk) i src n (inodes sb s.disk i) s off 0 m
      ip' u off' tot' m' k) :
    WellFormed sb (u.iupdate sb i (extend ip' off')).disk ∧
      inodes sb (u.iupdate sb i (extend ip' off')).disk =
        update (inodes sb s.disk) i (extend ip' off') := by
  obtain ⟨first, inside⟩ := allocated.bounds
  have sound : Sound sb s.disk (update (inodes sb s.disk) i (inodes sb s.disk i)) := by
    rw [update_eq_self]
    exact wf.sound
  have fields := written.frame.fields
  have type : (extend ip' off').type ≠ 0 := by
    rw [extend_type, fields]
    exact allocated
  have low := inodes_congr written.frame.low
  rw [← low]
  apply WellFormed.stored first inside (if_neg type)
  · rw [low]
    apply written.sound.of_slots
    intro j n
    by_cases here : j = i
    · rw [here, update_self, update_self, extend_slot]
    · rw [update_of_ne here, update_of_ne here]
  · intro j
    rw [low]
    by_cases here : j = i
    · have limit : off' < 2 ^ 32 := by
        have : MAXFILE * BSIZE = 274432 := rfl
        have := written.count
        omega
      have grows := Nat.mul_le_mul_right BSIZE written.blocks.1
      have covers := written.blocks.2.1
      have old : ip'.size = (inodes sb s.disk i).size := by
        rw [fields]
      rw [here, update_self]
      refine ⟨m', fun bn => ?_, ?_⟩
      · rw [extend_slot]
        exact written.dense bn
      · rw [extend_size _ limit, old]
        omega
    · obtain ⟨c, dense, covers⟩ := wf.dense j
      rw [update_of_ne here]
      refine ⟨c, fun bn => ?_, covers⟩
      rw [written.frame.slot_of_ne sound here]
      exact dense bn

end writei

/-! ## Contents -/

section contents

variable {sb : Superblock} {disk : Disk} {ino : Nat → Dinode} {i j x : Nat}

theorem WellFormed.held (wf : WellFormed sb disk) (inside : x < (inodes sb disk i).size.toNat) :
    (inodes sb disk i).slot disk (slotOf (x / BSIZE)) ≠ 0 := by
  obtain ⟨m, dense, size⟩ := wf.dense i
  rw [dense]
  unfold BSIZE at *
  omega

theorem WellFormed.size_le (wf : WellFormed sb disk) (i : Nat) :
    (inodes sb disk i).size.toNat ≤ MAXFILE * BSIZE := by
  obtain ⟨m, dense, size⟩ := wf.dense i
  have few : m ≤ MAXFILE := by
    by_contra many
    refine (dense MAXFILE).mpr (by omega) (Dinode.slot_beyond ?_)
    rw [slotOf_entry (by unfold MAXFILE; omega)]
    unfold MAXFILE
    omega
  exact size.trans (Nat.mul_le_mul_right _ few)

theorem Sound.byteAt_iupdate (sound : Sound sb disk ino) (inside : i < sb.ninodes) (data : Block)
    (held : (ino j).slot disk (slotOf (x / BSIZE)) ≠ 0) :
    byteAt (ino j) (update disk (sb.iblock i) data) x = byteAt (ino j) disk x := by
  have low := Superblock.iblock_lt inside
  have := sb.bmapstart_lt_nmeta
  have := (sound.slot_mem held).1
  rw [byteAt, sound.slot_iupdate inside, update_of_ne (by omega), byteAt]

variable {s u : State} {src : Source} {ip' : Dinode} {n off tot' m off' m' k : Nat}

/-- The bytes of the file that `writei` has written to. -/
theorem Written.byteAt_self (allocated : Allocated sb s.disk i)
    (written : Written sb (inodes sb s.disk) i src n (inodes sb s.disk i) s off 0 m
      ip' u off' tot' m' k) (held : ip'.slot u.disk (slotOf (x / BSIZE)) ≠ 0) :
    byteAt (extend ip' off') (u.iupdate sb i (extend ip' off')).disk x = byteAt ip' u.disk x := by
  have same := @Sound.byteAt_iupdate _ _ _ _ i x written.sound allocated.bounds.2
    ((extend ip' off').store (u.disk (sb.iblock i)) (i % IPB))
  rw [update_self] at same
  rw [← same held, byteAt, byteAt, extend_slot]
  rfl

theorem getElem_content {ip : Dinode} {disk : Disk} (inside : x < ip.size.toNat) :
    (content ip disk)[x]? = some (byteAt ip disk x) := by
  simp [content, inside]

section

variable (wf : WellFormed sb s.disk) (allocated : Allocated sb s.disk i)
include wf allocated

theorem Written.getElem_content (short : off + n ≤ MAXFILE * BSIZE)
    (written : Written sb (inodes sb s.disk) i src n
      (inodes sb s.disk i) s off 0 m ip' u off' tot' m' k)
    (inside : x < (inodes sb s.disk i).size.toNat) :
    (content (extend ip' off') (u.iupdate sb i (extend ip' off')).disk)[x]? =
      some (byteAt ip' u.disk x) := by
  have there := wf.held inside
  have held := written.frame.kept _ there
  have limit : off' < 2 ^ 32 := by
    have : MAXFILE * BSIZE = 274432 := rfl
    have := written.count
    omega
  have fields : ip'.size = (inodes sb s.disk i).size := by
    rw [written.frame.fields]
  rw [← written.byteAt_self allocated (held ▸ there), Fs.getElem_content]
  rw [extend_size ip' limit, fields]
  omega

theorem Written.content_of_ne
    (written : Written sb (inodes sb s.disk) i src n
      (inodes sb s.disk i) s off 0 m ip' u off' tot' m' k)
    (other : j ≠ i) :
    content (inodes sb s.disk j) (u.iupdate sb i (extend ip' off')).disk =
      content (inodes sb s.disk j) s.disk := by
  have sound : Sound sb s.disk (update (inodes sb s.disk) i (inodes sb s.disk i)) := by
    rw [update_eq_self]
    exact wf.sound
  rw [← written.frame.content_of_ne sound other, content, content]
  apply List.map_congr_left
  intro x inside
  have held : (inodes sb s.disk j).slot u.disk (slotOf (x / BSIZE)) ≠ 0 := by
    rw [written.frame.slot_of_ne sound other]
    exact wf.held (List.mem_range.mp inside)
  have same := @Sound.byteAt_iupdate _ _ _ _ j x written.sound allocated.bounds.2
    ((extend ip' off').store (u.disk (sb.iblock i)) (i % IPB))
  rw [update_of_ne other] at same
  exact same held

/-- The new content, when all of the source was read. -/
theorem Written.content_self (fits : off ≤ (inodes sb s.disk i).size.toNat)
    (short : off + n ≤ MAXFILE * BSIZE) {data : List UInt8} (length : data.length = n)
    (read : ∀ x, x < n → src x = some (data.getD x 0))
    (written : Written sb (inodes sb s.disk) i src n
      (inodes sb s.disk i) s off 0 m ip' u off' n m' 0) :
    content (extend ip' off') (u.iupdate sb i (extend ip' off')).disk =
      (content (inodes sb s.disk i) s.disk).take off ++ data ++
        (content (inodes sb s.disk i) s.disk).drop (off + n) := by
  have ends : off' = off + n := by
    have := written.count
    omega
  have limit : off' < 2 ^ 32 := by
    have : MAXFILE * BSIZE = 274432 := rfl
    omega
  have old : ip'.size = (inodes sb s.disk i).size := by
    rw [written.frame.fields]
  have size : (extend ip' off').size.toNat = max (inodes sb s.disk i).size.toNat (off + n) := by
    rw [extend_size _ limit, old, ends]
  -- every byte of the new file is in a block that is there
  have held : ∀ x, x < (extend ip' off').size.toNat → ip'.slot u.disk (slotOf (x / BSIZE)) ≠ 0 := by
    intro x inside
    by_cases before : x < (inodes sb s.disk i).size.toNat
    · rw [written.frame.kept _ (wf.held before)]
      exact wf.held before
    · have covers := written.blocks.2.1
      rw [written.dense]
      rw [size] at inside
      unfold BSIZE at *
      omega
  have total : (content (inodes sb s.disk i) s.disk).length = (inodes sb s.disk i).size.toNat := by
    simp [content]
  have byte : ∀ x, x < (inodes sb s.disk i).size.toNat → (content (inodes sb s.disk i) s.disk)[x]? =
        some (byteAt (inodes sb s.disk i) s.disk x) := by
    intro x inside
    simp [content, inside]
  apply List.ext_getElem?
  intro x
  by_cases inside : x < (extend ip' off').size.toNat
  · have here : (content (extend ip' off') (u.iupdate sb i (extend ip' off')).disk)[x]? =
        some (byteAt ip' u.disk x) := by
      rw [← written.byteAt_self allocated (held x inside)]
      simp [content, inside]
    rw [here]
    by_cases before : x < off
    · have there := wf.held (show x < (inodes sb s.disk i).size.toNat by omega)
      rw [List.append_assoc, List.getElem?_append_left (by simp; omega), List.getElem?_take,
        if_pos before, byte x (by omega), written.rest x there (.inl before)]
    · by_cases middle : x < off + n
      · have copied := written.bytes (x - off) (by omega)
        rw [Nat.zero_add, Nat.add_sub_cancel' (Nat.le_of_not_lt before),
          read _ (by omega)] at copied
        rw [List.getElem?_append_left (by simp; omega), List.getElem?_append_right (by simp; omega),
          List.length_take, total, Nat.min_eq_left fits, ← copied, List.getD_eq_getElem?_getD,
          List.getElem?_eq_getElem (by omega), Option.getD_some]
      · have there := wf.held (show x < (inodes sb s.disk i).size.toNat by omega)
        rw [List.getElem?_append_right (by simp; omega), List.getElem?_drop, List.length_append,
          List.length_take, total, Nat.min_eq_left fits, length,
          Nat.add_sub_cancel' (Nat.le_of_not_lt middle), byte x (by omega),
          written.rest x there (.inr (by omega))]
  · rw [List.getElem?_eq_none (by simpa [content] using Nat.le_of_not_lt inside),
      List.getElem?_eq_none]
    simp only [List.length_append, List.length_take, List.length_drop, total, length]
    omega

end

end contents

/-! ## Enough blocks -/

/-- The slots that the inode has to fill for its file to have `len` bytes. -/
def missing (ip : Dinode) (disk : Disk) (len : Nat) : Finset Nat :=
  (Finset.range (NDIRECT + 1 + NINDIRECT)).filter fun k => Needed len k ∧ ip.slot disk k = 0

/-- There is a free block for each slot that the file needs to have `len` bytes. -/
def Enough (sb : Superblock) (disk : Disk) (ip : Dinode) (len : Nat) : Prop :=
  (missing ip disk len).card ≤ (sb.free disk).card

/-- With enough blocks, `writei` does not stop for want of one. When it does, each block that was
    free is now in a slot that was empty, and one slot is still empty. -/
theorem Written.not_full {sb : Superblock} {s u : State} {i : Nat} {src : Source}
    {ino : Nat → Dinode} {ip ip' : Dinode} {n off tot' m off' m' k : Nat}
    (sound : Sound sb s.disk (update ino i ip)) (short : off + n ≤ MAXFILE * BSIZE)
    (enough : Enough sb s.disk ip (off + n))
    (written : Written sb ino i src n ip s off 0 m ip' u off' tot' m' k) :
    ¬ (tot' < n ∧ Full sb u.disk ∧ m' ≤ off' / BSIZE) := by
  rintro ⟨left, full, beyond⟩
  have count := written.count
  have below := Nat.div_mul_le_self off' BSIZE
  have inFile : off' / BSIZE < MAXFILE := by
    unfold BSIZE at *
    omega
  -- the slot that is still empty
  have empty : ip'.slot u.disk (slotOf (off' / BSIZE)) = 0 := by
    by_contra held
    have := (written.dense _).mp held
    omega
  have mem : slotOf (off' / BSIZE) ∈ missing ip s.disk (off + n) := by
    rw [missing, Finset.mem_filter, Finset.mem_range, needed_slotOf]
    refine ⟨?_, by omega, ?_⟩
    · unfold MAXFILE at inFile
      rw [slotOf]
      split <;> omega
    · by_contra held
      exact held ((written.frame.kept _ held).symm.trans empty)
  have covered : sb.free s.disk ⊆
      ((missing ip s.disk (off + n)).erase (slotOf (off' / BSIZE))).image (ip'.slot u.disk) := by
    intro b free
    obtain ⟨inside, clear⟩ := Finset.mem_filter.mp free
    rw [Finset.mem_range] at inside
    obtain ⟨high, unused⟩ := sound.of_free inside clear
    have taken : b ∈ sb.used u.disk := ⟨high, inside, full b inside⟩
    obtain ⟨⟨j, a⟩, holds, nonzero⟩ := written.sound.ledger.owner taken
    dsimp only at holds
    by_cases own : j = i
    · subst own
      rw [update_self] at holds
      have new : ip.slot s.disk a = 0 := by
        by_contra held
        have old := sound.slot_mem (i := j) (k := a)
        rw [update_self] at old
        rw [written.frame.kept a held] at holds
        exact unused (holds ▸ old held)
      rw [Finset.mem_image]
      refine ⟨a, ?_, holds⟩
      rw [Finset.mem_erase, missing, Finset.mem_filter, Finset.mem_range]
      refine ⟨?_, ?_, ?_, new⟩
      · rintro rfl
        exact nonzero (holds.symm.trans empty)
      · by_contra above
        exact nonzero (holds.symm.trans (Dinode.slot_beyond (Nat.le_of_not_lt above)))
      · rcases eq_indirect_or_slotOf a with rfl | ⟨bn, rfl⟩
        · rw [needed_indirect_iff]
          by_contra low
          rw [Dinode.slot_indirect] at new holds
          have same := written.indirect (by omega)
          exact nonzero (by rw [← holds, same, new])
        · have inFile := (written.dense bn).mp (holds ▸ nonzero)
          have := Nat.mul_le_mul_right BSIZE (show bn + 1 ≤ off' / BSIZE by omega)
          rw [Nat.add_mul] at this
          rw [needed_slotOf]
          omega
    · rw [update_of_ne own, written.frame.slot_of_ne sound own] at holds
      have old := sound.slot_mem (i := j) (k := a)
      rw [update_of_ne own, holds] at old
      exact absurd (old nonzero) unused
  have cards := (Finset.card_le_card covered).trans Finset.card_image_le
  rw [Finset.card_erase_of_mem mem] at cards
  have positive := Finset.card_pos.mpr ⟨_, mem⟩
  rw [Enough] at enough
  omega

/-! ## readi -/

section readi

variable {sb : Superblock} {s : State} {ip : Dinode} {bn : Nat}

theorem bmap_of_held (short : bn < MAXFILE) (held : ip.slot s.disk (slotOf bn) ≠ 0) :
    bmap sb ip bn s = .ok ((ip.slot s.disk (slotOf bn), ip), s) := by
  rw [bmap]
  by_cases direct : bn < NDIRECT
  · have here : ip.slot s.disk (slotOf bn) = ip.addr ⟨bn, Nat.lt_succ_of_lt direct⟩ := by
      rw [slotOf_direct direct, Dinode.slot_direct (Nat.lt_succ_of_lt direct)]
    rw [dif_pos direct, bmapAddr, if_neg (here ▸ held), here]
    rfl
  · have small : bn - NDIRECT < NINDIRECT := by
      unfold MAXFILE at short
      omega
    rw [slotOf_entry direct] at held ⊢
    have some_ : ip.addr INDIRECT ≠ 0 := fun none_ =>
      held (Dinode.slot_eq_zero (by omega) none_)
    rw [Dinode.slot_entry small some_] at held ⊢
    have first : bmapAddr sb ip INDIRECT s = .ok ((ip.addr INDIRECT, ip), s) := by
      rw [bmapAddr, if_neg some_]
      rfl
    have second : bmapEntry sb (ip.addr INDIRECT) (bn - NDIRECT) s =
        .ok ((s.disk (ip.addr INDIRECT)).entry (bn - NDIRECT), s) := by
      have read : bread (ip.addr INDIRECT) s = .ok (s.disk (ip.addr INDIRECT), s) := rfl
      rw [bmapEntry, run_bind read, if_neg held]
      rfl
    rw [dif_neg direct, if_pos small, run_bind first]
    dsimp only
    rw [if_neg some_, run_bind second]
    rfl

theorem Dest.copyout_ok {dst : Dest} {start : Nat} {bytes : List UInt8}
    (writable : ∀ x, x < bytes.length → dst (start + x) = true) :
    dst.copyout start bytes = (bytes, true) := by
  induction bytes generalizing start with
  | nil => rfl
  | cons c bytes ih =>
    have rest : dst.copyout (start + 1) bytes = (bytes, true) := ih fun x inside => by
      rw [Nat.add_assoc, Nat.add_comm 1 x]
      exact writable (x + 1) (by simpa using inside)
    rw [Dest.copyout, if_pos (by simpa using writable 0 (by simp)), rest]

theorem slice_eq (off m : Nat) (room : off % BSIZE + m ≤ BSIZE) :
    slice (s.disk (ip.slot s.disk (slotOf (off / BSIZE)))) (off % BSIZE) m =
      (List.range m).map fun x => byteAt ip s.disk (off + x) := by
  rw [slice]
  apply List.map_congr_left
  intro x inside
  obtain ⟨block, place⟩ := div_mod_add (show off % BSIZE + x < BSIZE by
    have := List.mem_range.mp inside
    omega)
  rw [byteAt, block, place]

/-- `readi` changes nothing, and delivers what the file contains. -/
theorem readiLoop_eq (dst : Dest) (n rounds : Nat) {off tot : Nat} {out : List UInt8}
    (held : ∀ x, off ≤ x → x < off + (n - tot) → ip.slot s.disk (slotOf (x / BSIZE)) ≠ 0)
    (short : off + (n - tot) ≤ MAXFILE * BSIZE) (start : tot ≤ n) (enough : n - tot ≤ rounds) :
    ∃ r out', readiLoop sb dst n rounds ip off tot out s = .ok ((r, out ++ out', ip), s) ∧
      ((∀ x, x < n → dst x = true) → r = n ∧
        out' = (List.range (n - tot)).map fun x => byteAt ip s.disk (off + x)) := by
  induction rounds generalizing off tot out with
  | zero =>
    obtain rfl : tot = n := by omega
    exact ⟨tot, [], by simp [readiLoop], by simp⟩
  | succ rounds ih =>
    rw [readiLoop]
    by_cases left : tot < n
    · have here := held off (Nat.le_refl _) (by omega)
      have inFile : off / BSIZE < MAXFILE := by
        unfold BSIZE at *
        omega
      have read : bread (ip.slot s.disk (slotOf (off / BSIZE))) s =
          .ok (s.disk (ip.slot s.disk (slotOf (off / BSIZE))), s) := rfl
      have inBlock : off % BSIZE < BSIZE := Nat.mod_lt _ (by decide)
      set m := min (n - tot) (BSIZE - off % BSIZE) with mEq
      rw [if_pos left, run_bind (bmap_of_held inFile here)]
      dsimp only
      rw [if_neg here, run_bind read, slice_eq off m (by omega)]
      have writes := @Dest.copyout_ok dst tot
        ((List.range m).map fun x => byteAt ip s.disk (off + x))
      generalize dst.copyout tot ((List.range m).map fun x => byteAt ip s.disk (off + x)) = c
        at writes ⊢
      obtain ⟨bytes, ok⟩ := c
      dsimp only
      cases ok with
      | false =>
        refine ⟨-1, bytes, rfl, fun valid => ?_⟩
        have fine := writes fun x inside => by
          rw [List.length_map, List.length_range] at inside
          exact valid _ (by omega)
        cases fine
      | true =>
        obtain ⟨r, out', ran, delivers⟩ := @ih (off + m) (tot + m) (out ++ bytes)
          (fun x first last => held x (by omega) (by omega)) (by omega) (by omega) (by omega)
        refine ⟨r, bytes ++ out', ?_, fun valid => ?_⟩
        · rw [if_pos rfl, ran, List.append_assoc]
        · obtain ⟨all, rest⟩ := delivers valid
          have fine := writes fun x inside => by
            rw [List.length_map, List.length_range] at inside
            exact valid _ (by omega)
          refine ⟨all, ?_⟩
          rw [rest, (Prod.mk.inj fine).1, show n - tot = m + (n - (tot + m)) by omega,
            List.range_add, List.map_append, List.map_map]
          simp only [Function.comp_def, Nat.add_assoc]
    · obtain rfl : tot = n := by omega
      rw [if_neg left]
      exact ⟨tot, [], by simp, by simp⟩

theorem readi_tests (size off n : BitVec 32) (fits : off.toNat ≤ size.toNat)
    (small : off.toNat + n.toNat < 2 ^ 32) : ¬ (off > size ∨ off + n < off) ∧
      (if off + n > size then size - off else n).toNat = min n.toNat (size.toNat - off.toNat) := by
  have sum : (off + n).toNat = off.toNat + n.toNat := by
    rw [BitVec.toNat_add, Nat.mod_eq_of_lt small]
  refine ⟨?_, ?_⟩
  · rw [gt_iff_lt, BitVec.lt_def, BitVec.lt_def, sum]
    omega
  · split
    · rename_i more
      rw [gt_iff_lt, BitVec.lt_def, sum] at more
      have rest := BitVec.toNat_sub_of_le (BitVec.le_def.mpr fits)
      omega
    · rename_i less
      rw [gt_iff_lt, BitVec.lt_def, sum] at less
      omega

variable {i : Nat}

theorem readi_eq (wf : WellFormed sb s.disk) (i : Nat) (dst : Dest) (off n : BitVec 32) :
    ∃ r out, readi sb (inodes sb s.disk i) dst off n s = .ok ((r, out, inodes sb s.disk i), s) := by
  obtain ⟨m, dense, size⟩ := wf.dense i
  rw [readi]
  split
  · exact ⟨0, [], rfl⟩
  · rename_i fine
    rw [not_or] at fine
    have fits : off.toNat ≤ (inodes sb s.disk i).size.toNat := by
      have := fine.1
      rw [gt_iff_lt, BitVec.lt_def] at this
      omega
    have small : off.toNat + n.toNat < 2 ^ 32 := by
      have := fine.2
      have := off.isLt
      have := n.isLt
      rw [BitVec.lt_def, BitVec.toNat_add] at *
      omega
    have bound := (readi_tests _ off n fits small).2
    have all := wf.size_le i
    obtain ⟨r, out, ran, -⟩ := @readiLoop_eq sb s (inodes sb s.disk i) dst
      (if off + n > (inodes sb s.disk i).size then (inodes sb s.disk i).size - off else n).toNat _
      off.toNat 0 [] (fun x first last => wf.held (by omega)) (by omega) (Nat.zero_le _)
      (Nat.le_refl _)
    exact ⟨r, out, ran⟩

theorem content_slice (ip : Dinode) (disk : Disk) (off n : Nat) :
    (List.range (min n (ip.size.toNat - off))).map (fun x => byteAt ip disk (off + x)) =
      ((content ip disk).drop off).take n := by
  apply List.ext_getElem?
  intro x
  rw [List.getElem?_take, List.getElem?_drop]
  by_cases inside : x < min n (ip.size.toNat - off)
  · have less : off + x < ip.size.toNat := by omega
    rw [if_pos (by omega)]
    simp [content, inside, less]
  · rw [List.getElem?_eq_none (by rw [List.length_map, List.length_range]; omega)]
    split
    · rw [List.getElem?_eq_none]
      simp only [content, List.length_map, List.length_range]
      omega
    · rfl

theorem readi_content (wf : WellFormed sb s.disk) {dst : Dest} {off n : BitVec 32}
    (fits : off.toNat ≤ (inodes sb s.disk i).size.toNat) (small : off.toNat + n.toNat < 2 ^ 32)
    (valid : ∀ x, x < n.toNat → dst x = true) :
    readi sb (inodes sb s.disk i) dst off n s =
      .ok (((min n.toNat ((inodes sb s.disk i).size.toNat - off.toNat) : Nat),
        ((content (inodes sb s.disk i) s.disk).drop off.toNat).take n.toNat,
        inodes sb s.disk i), s) := by
  obtain ⟨fine, bound⟩ := readi_tests (inodes sb s.disk i).size off n fits small
  have all := wf.size_le i
  rw [readi, if_neg fine]
  generalize (if off + n > (inodes sb s.disk i).size then (inodes sb s.disk i).size - off else n) =
    c
    at bound ⊢
  obtain ⟨r, out, ran, delivers⟩ := @readiLoop_eq sb s (inodes sb s.disk i) dst c.toNat c.toNat
    off.toNat 0 [] (fun x first last => wf.held (by omega)) (by omega) (Nat.zero_le _)
    (Nat.le_refl _)
  obtain ⟨rfl, rfl⟩ := delivers fun x inside => valid x (by omega)
  rw [ran, bound, List.nil_append, Nat.sub_zero, content_slice]

end readi

/-! ## A file is a sequence of bytes -/

/-- `readi` and `writei` treat inode `i` as a sequence of bytes. -/
structure FileSemantics (sb : Superblock) (s : State) (i : Nat) : Prop where
  writei : ∀ (src : Source) (off n : BitVec 32) (data : List UInt8),
    off.toNat ≤ (inodes sb s.disk i).size.toNat → off.toNat + n.toNat ≤ MAXFILE * BSIZE →
    data.length = n.toNat → (∀ x, x < n.toNat → src x = some (data.getD x 0)) →
    Enough sb s.disk (inodes sb s.disk i) (off.toNat + n.toNat) →
    ∃ t, Fs.writei sb i (inodes sb s.disk i) src off n s =
        .ok (((n.toNat : Int), inodes sb t.disk i), t) ∧
      content (inodes sb t.disk i) t.disk =
        (content (inodes sb s.disk i) s.disk).take off.toNat ++ data ++
          (content (inodes sb s.disk i) s.disk).drop (off.toNat + n.toNat) ∧
      (∀ j, j ≠ i → inodes sb t.disk j = inodes sb s.disk j ∧
        content (inodes sb t.disk j) t.disk = content (inodes sb s.disk j) s.disk) ∧
      WellFormed sb t.disk
  readi : ∀ (dst : Dest) (off n : BitVec 32), off.toNat ≤ (inodes sb s.disk i).size.toNat →
    off.toNat + n.toNat < 2 ^ 32 → (∀ x, x < n.toNat → dst x = true) →
    Fs.readi sb (inodes sb s.disk i) dst off n s =
      .ok (((min n.toNat ((inodes sb s.disk i).size.toNat - off.toNat) : Nat),
        ((content (inodes sb s.disk i) s.disk).drop off.toNat).take n.toNat,
        inodes sb s.disk i), s)
  /-- `bmap` is not called out of range, whatever the arguments are. -/
  inRange : ∀ (src : Source) (dst : Dest) (off n : BitVec 32),
    Fs.writei sb i (inodes sb s.disk i) src off n s ≠ .error .bmapOutOfRange ∧
    Fs.readi sb (inodes sb s.disk i) dst off n s ≠ .error .bmapOutOfRange

theorem fileSemantics {sb : Superblock} {s : State} {i : Nat} (wf : WellFormed sb s.disk)
    (allocated : Allocated sb s.disk i) : FileSemantics sb s i where
  writei src off n data fits short length read enough := by
    have sound : Sound sb s.disk (Function.update (inodes sb s.disk) i (inodes sb s.disk i)) := by
      rw [Function.update_eq_self]
      exact wf.sound
    obtain ⟨r, t, ran, outcome⟩ :=
      (writei_outcome wf i src off n).exists_ok (E := fun _ => False) fun _ => id
    rcases outcome with
      ⟨-, -, bad⟩ | ⟨-, -, m, ip', u, off', m', k, tot', dense, size, written, rfl, rfl⟩
    · omega
    · obtain ⟨rfl, rfl⟩ : tot' = n.toNat ∧ k = 0 := by
        rcases written.ends with done | ⟨left, -, full, beyond⟩ | ⟨less, -, missing, -⟩
        · exact done
        · exact absurd ⟨left, full, beyond⟩ (written.not_full sound short enough)
        · rw [read _ less] at missing
          cases missing
      obtain ⟨wf', ino⟩ := written.wellFormed wf allocated size short
      have mine : inodes sb (u.iupdate sb i (extend ip' off')).disk i = extend ip' off' := by
        rw [ino, Function.update_self]
      refine ⟨_, mine.symm ▸ ran, ?_, ?_, wf'⟩
      · rw [mine]
        exact written.content_self wf allocated fits short length read
      · intro j other
        have same : inodes sb (u.iupdate sb i (extend ip' off')).disk j = inodes sb s.disk j := by
          rw [ino, Function.update_of_ne other]
        refine ⟨same, ?_⟩
        rw [same]
        exact written.content_of_ne wf allocated other
  readi dst off n fits small valid := readi_content wf fits small valid
  inRange src dst off n := by
    obtain ⟨r, t, wrote, -⟩ :=
      (writei_outcome wf i src off n).exists_ok (E := fun _ => False) fun _ => id
    obtain ⟨r', out, read⟩ := readi_eq wf i dst off n
    rw [wrote, read]
    exact ⟨nofun, nofun⟩

/-! ## A small disk -/

/-- Four blocks of metadata, one of them with the inodes and one with the bitmap. -/
def smallDisk : Superblock := ⟨20, 2, 2, 3, by decide, by decide⟩

/-- Inode 1 is an empty file, and no data block is in use. -/
def oneFile : Disk := fun b =>
  if b = 2 then Dinode.store .zero 1 { Dinode.zero with type := T_FILE }
  else if b = 3 then (List.range 4).foldl Block.setBit .zero else .zero

theorem inodes_oneFile (i : Nat) :
    inodes smallDisk oneFile i = if i = 1 then { Dinode.zero with type := T_FILE } else .zero := by
  have block : oneFile (smallDisk.iblock 1) =
      Dinode.store .zero (1 % IPB) { Dinode.zero with type := T_FILE } := if_pos (by decide)
  have here : inodeAt smallDisk oneFile 1 = { Dinode.zero with type := T_FILE } := by
    rw [inodeAt, block]
    exact Dinode.load_store_self (by decide)
  by_cases first : i = 1
  · rw [first, inodes, here]
    rfl
  · rw [inodes, if_neg, if_neg first]
    rintro ⟨positive, inside, -⟩
    have : smallDisk.ninodes = 2 := rfl
    omega

theorem bit_oneFile {b : Nat} (inside : b < 20) : smallDisk.bit oneFile b = decide (b < 4) := by
  have all : ∀ b : Fin 20, smallDisk.bit oneFile b = decide (b.val < 4) := by decide +kernel
  exact all ⟨b, inside⟩

theorem wellFormed_oneFile : WellFormed smallDisk oneFile := by
  have data : smallDisk.nmeta = 4 ∧ smallDisk.size = 20 := ⟨rfl, rfl⟩
  have slots : ∀ i k, (inodes smallDisk oneFile i).slot oneFile k = 0 := by
    intro i k
    rw [inodes_oneFile]
    split
    · exact Dinode.slot_zero oneFile k
    · exact Dinode.slot_zero oneFile k
  refine ⟨⟨fun b low inside => ?_, ?_⟩, fun i => ⟨0, ?_, ?_⟩⟩
  · rw [bit_oneFile (by omega)]
    simpa [data.1] using low
  · have none_ : smallDisk.used oneFile = ∅ := by
      apply Set.eq_empty_of_forall_notMem
      rintro b ⟨high, inside, taken⟩
      rw [bit_oneFile (by omega), decide_eq_true_eq] at taken
      omega
    rw [none_]
    exact Ledger.empty fun x => slots x.1 x.2
  · intro bn
    simp [slots]
  · rw [inodes_oneFile]
    split <;> rfl

/-- Three bytes are written to the empty file. -/
theorem fileSemantics_oneFile : ∃ t, writei smallDisk 1 (inodes smallDisk oneFile 1)
      (.kernel [97, 98, 99]) 0 3 ⟨oneFile, [], []⟩ =
        .ok (((3 : Nat), inodes smallDisk t.disk 1), t) ∧
    content (inodes smallDisk t.disk 1) t.disk = [97, 98, 99] := by
  have empty : content (inodes smallDisk oneFile 1) oneFile = [] := by
    rw [inodes_oneFile]
    rfl
  have enough : Enough smallDisk oneFile (inodes smallDisk oneFile 1) 3 := by
    have few : (missing (inodes smallDisk oneFile 1) oneFile 3).card ≤ 1 := by
      have first : ∀ k, Needed 3 k → k = 0 := by
        intro k needs
        rw [Needed] at needs
        by_cases low : k ≤ NDIRECT
        · rw [if_pos low] at needs
          unfold BSIZE at needs
          omega
        · rw [if_neg low] at needs
          unfold BSIZE NDIRECT at *
          omega
      apply Finset.card_le_one.mpr
      intro a inA b inB
      rw [first a (Finset.mem_filter.mp inA).2.1, first b (Finset.mem_filter.mp inB).2.1]
    have some_ : 0 < (smallDisk.free oneFile).card := by
      apply Finset.card_pos.mpr
      refine ⟨4, Finset.mem_filter.mpr ⟨by decide, ?_⟩⟩
      rw [bit_oneFile (by decide)]
      rfl
    rw [Enough]
    omega
  have allocated : Allocated smallDisk oneFile 1 := by
    rw [Allocated, inodes_oneFile]
    decide
  obtain ⟨t, wrote, new, -⟩ := (fileSemantics (s := ⟨oneFile, [], []⟩) wellFormed_oneFile
    allocated).writei (.kernel [97, 98, 99]) 0 3 [97, 98, 99] (Nat.zero_le _) (by decide) rfl
    (fun _ _ => rfl) enough
  refine ⟨t, wrote, ?_⟩
  rw [new, empty]
  rfl

end Xv6.Kernel.Fs
