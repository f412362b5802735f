import Xv6.Kernel.Nodes
import Xv6.Lib.SlotMap

/-! # Directories

A directory is a map from names to inode numbers, in slots of 16 bytes. Two names are the same
when they agree in their first `DIRSIZ` bytes, up to a NUL: that is what `strncmp` tests and
what `strncpy` keeps. `dirlookup` searches the map, and `dirlink` adds to it or leaves it as it
is, also when there is no block for the new entry.
-/

namespace Xv6.Kernel.Fs

open Lib

/-! ## Names -/

/-- What counts of a name. -/
def key (name : List UInt8) : List UInt8 := (name.take DIRSIZ).takeWhile (· ≠ 0)

/-- `"."` and `".."`. -/
def dot : List UInt8 := [46]

def dotdot : List UInt8 := [46, 46]

theorem takeWhile_take_succ (n : Nat) (p : List UInt8) : (p.take (n + 1)).takeWhile (· ≠ 0) =
      if p.headD 0 = 0 then [] else p.headD 0 :: (p.tail.take n).takeWhile (· ≠ 0) := by
  cases p with
  | nil => simp
  | cons c p => by_cases zero : c = 0 <;> simp [zero]

theorem strncmp_eq_zero_iff (n : Nat) (p q : List UInt8) :
    strncmp n p q = 0 ↔ (p.take n).takeWhile (· ≠ 0) = (q.take n).takeWhile (· ≠ 0) := by
  induction n generalizing p q with
  | zero => simp [strncmp]
  | succ n ih =>
    rw [strncmp, takeWhile_take_succ, takeWhile_take_succ]
    by_cases zero : p.headD 0 = 0
    · rw [if_neg fun both => both.1 zero, if_pos zero, zero]
      by_cases also : q.headD 0 = 0
      · rw [if_pos also, also]
        simp
      · rw [if_neg also]
        have some_ : (q.headD 0).toNat ≠ 0 := fun none_ => also (UInt8.toNat_inj.mp none_)
        simp only [UInt8.toNat_zero, reduceCtorEq, iff_false]
        omega
    · rw [if_neg zero]
      by_cases same : p.headD 0 = q.headD 0
      · rw [if_pos ⟨zero, same⟩, ih, ← same, if_neg zero]
        simp
      · have bytes : (p.headD 0).toNat ≠ (q.headD 0).toNat := fun equal =>
          same (UInt8.toNat_inj.mp equal)
        rw [if_neg fun both => same both.2]
        split
        · simp only [reduceCtorEq, iff_false]
          omega
        · simp only [List.cons.injEq, same, false_and, iff_false]
          omega

theorem namecmp_eq_zero_iff (s t : List UInt8) : namecmp s t = 0 ↔ key s = key t :=
  strncmp_eq_zero_iff DIRSIZ s t

@[simp] theorem length_strncpy (n : Nat) (t : List UInt8) : (strncpy n t).length = n := by
  induction n generalizing t with
  | zero => rfl
  | succ n ih =>
    rw [strncpy]
    split
    · rw [List.length_cons, ih]
    · simp

theorem takeWhile_strncpy (n : Nat) (t : List UInt8) :
    (strncpy n t).takeWhile (· ≠ 0) = (t.take n).takeWhile (· ≠ 0) := by
  induction n generalizing t with
  | zero => simp [strncpy]
  | succ n ih =>
    rw [strncpy, takeWhile_take_succ]
    by_cases zero : t.headD 0 = 0
    · rw [if_pos zero, zero, List.takeWhile_cons_of_neg (by simp)]
    · rw [if_pos zero, if_neg zero, List.takeWhile_cons_of_pos (by simpa using zero), ih]

theorem key_strncpy (name : List UInt8) : key (strncpy DIRSIZ name) = key name := by
  rw [key, List.take_of_length_le (by simp), takeWhile_strncpy, key]

/-! ## Entries -/

/-- An entry with inode number 0 is empty. -/
def entryOf (de : List UInt8) : Option (List UInt8 × Nat) :=
  if direntInum de = 0 then none else some (key (direntName de), direntInum de)

/-- The entries of a directory with these bytes. -/
def entries (bytes : List UInt8) : SlotMap (List UInt8) Nat :=
  (List.range (bytes.length / DIRENT)).map fun k => entryOf ((bytes.drop (DIRENT * k)).take DIRENT)

@[simp] theorem length_dirent (inum : Nat) (name : List UInt8) :
    (dirent inum name).length = DIRENT := by
  simp [dirent, DIRENT, DIRSIZ]

theorem direntInum_dirent {inum : Nat} (small : inum < 2 ^ 16) (name : List UInt8) :
    direntInum (dirent inum name) = inum := by
  simp only [direntInum, dirent, List.getD_cons_zero, List.getD_cons_succ, UInt8.toNat_ofNat']
  omega

theorem entryOf_dirent {inum : Nat} (some_ : 0 < inum) (small : inum < 2 ^ 16)
    (name : List UInt8) : entryOf (dirent inum name) = some (key name, inum) := by
  rw [entryOf, direntInum_dirent small, if_neg (by omega)]
  congr 2
  exact key_strncpy name

theorem entryOf_zeros : entryOf (List.replicate DIRENT 0) = none := by decide

section entries

variable {bytes rest de : List UInt8} {k : Nat}

@[simp] theorem length_entries (bytes : List UInt8) :
    (entries bytes).length = bytes.length / DIRENT := by
  simp [entries]

theorem getElem?_entries (inside : k < bytes.length / DIRENT) :
    (entries bytes)[k]? = some (entryOf ((bytes.drop (DIRENT * k)).take DIRENT)) := by
  simp [entries, inside]

theorem entries_append (aligned : DIRENT ∣ bytes.length) :
    entries (bytes ++ rest) = entries bytes ++ entries rest := by
  obtain ⟨n, length⟩ := aligned
  have width : 0 < DIRENT := by decide
  have total : (bytes ++ rest).length / DIRENT = n + rest.length / DIRENT := by
    rw [List.length_append, length, Nat.mul_add_div width]
  have first : bytes.length / DIRENT = n := by
    rw [length, Nat.mul_div_cancel_left _ width]
  rw [entries, total, List.range_add, List.map_append, entries, first, entries, List.map_map]
  congr 1
  · apply List.map_congr_left
    intro k member
    have small : DIRENT * (k + 1) ≤ bytes.length := by
      rw [length]
      exact Nat.mul_le_mul_left _ (List.mem_range.mp member)
    rw [Nat.mul_succ] at small
    rw [List.drop_append_of_le_length (by omega), List.take_append_of_le_length]
    rw [List.length_drop]
    omega
  · apply List.map_congr_left
    intro k _
    rw [Function.comp_apply, Nat.mul_add, ← length, ← List.drop_drop, List.drop_left]

theorem entries_singleton (length : de.length = DIRENT) : entries de = [entryOf de] := by
  have all : (de.drop (DIRENT * 0)).take DIRENT = de := List.take_of_length_le (by simp [length])
  rw [entries, length, Nat.div_self (by decide), List.range_one, List.map_singleton, all]

theorem entries_split (inside : DIRENT * k ≤ bytes.length) :
    entries bytes = entries (bytes.take (DIRENT * k)) ++ entries (bytes.drop (DIRENT * k)) ∧
      (entries (bytes.take (DIRENT * k))).length = k := by
  have length : (bytes.take (DIRENT * k)).length = DIRENT * k := by
    rw [List.length_take, Nat.min_eq_left inside]
  have both := @entries_append (bytes.take (DIRENT * k)) (bytes.drop (DIRENT * k))
    (by rw [length]; exact Nat.dvd_mul_right _ _)
  rw [List.take_append_drop] at both
  exact ⟨both, by rw [length_entries, length, Nat.mul_div_cancel_left _ (by decide)]⟩

theorem entries_take (inside : DIRENT * k ≤ bytes.length) :
    entries (bytes.take (DIRENT * k)) = (entries bytes).take k := by
  obtain ⟨both, length⟩ := entries_split inside
  rw [both, List.take_left' length]

theorem entries_drop (k : Nat) (bytes : List UInt8) :
    entries (bytes.drop (DIRENT * k)) = (entries bytes).drop k := by
  by_cases inside : DIRENT * k ≤ bytes.length
  · obtain ⟨both, length⟩ := entries_split inside
    rw [both, List.drop_left' length]
  · rw [List.drop_eq_nil_of_le (by omega), List.drop_eq_nil_of_le]
    · rfl
    · rw [length_entries]
      exact Nat.div_le_of_le_mul (by omega)

theorem entries_splice (inside : DIRENT * k ≤ bytes.length) (length : de.length = DIRENT) :
    entries (bytes.take (DIRENT * k) ++ de ++ bytes.drop (DIRENT * k + DIRENT)) =
      (entries bytes).put k (entryOf de) := by
  have first : (bytes.take (DIRENT * k)).length = DIRENT * k := by
    rw [List.length_take, Nat.min_eq_left inside]
  rw [entries_append, entries_append, entries_take inside, entries_singleton length,
    show DIRENT * k + DIRENT = DIRENT * (k + 1) from rfl, entries_drop, SlotMap.put]
  · rw [first]
    exact Nat.dvd_mul_right _ _
  · rw [List.length_append, first, length]
    exact Nat.dvd_add (Nat.dvd_mul_right _ _) (Nat.dvd_refl _)

end entries

/-! ## dirlookup and dirlink -/

section

variable {sb : Superblock} {s t u : State} {d k : Nat} {E : Panic → Prop}

/-- What `dirlookup` returns: the inode number and the offset of the entry. -/
def lookup (bytes name : List UInt8) : Option (Nat × Nat) :=
  ((entries bytes).find (key name)).map fun x => (x.1, DIRENT * x.2)

/-- `d` is a directory, with whole entries. -/
structure IsDir (sb : Superblock) (disk : Disk) (d : Nat) : Prop where
  type : (nodes sb disk d).type = T_DIR
  aligned : DIRENT ∣ (nodes sb disk d).bytes.length

theorem IsDir.allocated {disk : Disk} (dir : IsDir sb disk d) : Allocated sb disk d := by
  have type := dir.type
  rw [nodes_type] at type
  rw [Allocated, type]
  decide

theorem readi_entry (wf : WellFormed sb s.disk) (dir : IsDir sb s.disk d)
    (inside : DIRENT * k < (inodes sb s.disk d).size.toNat) :
    readi sb (inodes sb s.disk d) .kernel (BitVec.ofNat 32 (DIRENT * k))
      (BitVec.ofNat 32 DIRENT) s =
      .ok (((DIRENT : Nat), ((nodes sb s.disk d).bytes.drop (DIRENT * k)).take DIRENT,
        inodes sb s.disk d), s) := by
  have all := wf.size_le d
  have limit : MAXFILE * BSIZE = 274432 := rfl
  have width : DIRENT = 16 := rfl
  have aligned := dir.aligned
  rw [nodes, node, length_content] at aligned
  have off : (BitVec.ofNat 32 (DIRENT * k)).toNat = DIRENT * k := by
    rw [BitVec.toNat_ofNat, Nat.mod_eq_of_lt (by omega)]
  have n : (BitVec.ofNat 32 DIRENT).toNat = DIRENT := rfl
  have whole : DIRENT * k + DIRENT ≤ (inodes sb s.disk d).size.toNat := by
    obtain ⟨n, same⟩ := aligned
    rw [same] at inside ⊢
    exact Nat.mul_le_mul_left DIRENT (Nat.lt_of_mul_lt_mul_left inside)
  have read := @readi_content sb s d wf .kernel (BitVec.ofNat 32 (DIRENT * k))
    (BitVec.ofNat 32 DIRENT) (by omega) (by omega) fun _ _ => rfl
  rw [off, n, Nat.min_eq_left (by omega)] at read
  exact read

theorem IsDir.count (dir : IsDir sb s.disk d) : ∃ n, (inodes sb s.disk d).size.toNat = DIRENT * n ∧
      (nodes sb s.disk d).bytes.length / DIRENT = n := by
  have length : (nodes sb s.disk d).bytes.length = (inodes sb s.disk d).size.toNat :=
    length_content _ _
  obtain ⟨n, same⟩ := dir.aligned
  exact ⟨n, by rw [← length, same], by rw [same, Nat.mul_div_cancel_left _ (by decide)]⟩

theorem drop_entries {bytes : List UInt8} (inside : k < bytes.length / DIRENT) :
    (entries bytes).drop k =
      entryOf ((bytes.drop (DIRENT * k)).take DIRENT) :: (entries bytes).drop (k + 1) := by
  rw [List.drop_eq_getElem_cons (by simpa using inside)]
  congr 1
  rw [← Option.some_inj, ← List.getElem?_eq_getElem, getElem?_entries inside]

section

variable (wf : WellFormed sb s.disk) (dir : IsDir sb s.disk d)
include wf dir

theorem dirlookupLoop_eq (name : List UInt8) (rounds : Nat)
    (enough : (nodes sb s.disk d).bytes.length / DIRENT < rounds + k) :
    dirlookupLoop sb name rounds (inodes sb s.disk d) (DIRENT * k) s =
      .ok (((SlotMap.findFrom (key name) k ((entries (nodes sb s.disk d).bytes).drop k)).map
        fun x => (x.1, DIRENT * x.2), inodes sb s.disk d), s) := by
  obtain ⟨n, size, count⟩ := dir.count
  have width : 0 < DIRENT := by decide
  -- beyond the end nothing is left to search
  have past : ∀ k, n ≤ k → (entries (nodes sb s.disk d).bytes).drop k = [] := fun k beyond =>
    List.drop_eq_nil_of_le (by rwa [length_entries, count])
  rw [count] at enough
  induction rounds generalizing k with
  | zero =>
    rw [past k (by omega)]
    rfl
  | succ rounds ih =>
    rw [dirlookupLoop]
    by_cases inside : k < n
    · have next := @ih (k + 1) (by omega)
      have small : DIRENT * k < (inodes sb s.disk d).size.toNat := by
        rw [size]
        exact Nat.mul_lt_mul_of_pos_left inside width
      rw [if_pos small, run_bind (readi_entry wf dir small), drop_entries (by rwa [count])]
      dsimp only
      rw [if_neg (by simp)]
      by_cases empty : direntInum (((nodes sb s.disk d).bytes.drop (DIRENT * k)).take DIRENT) = 0
      · rw [if_pos empty, entryOf, if_pos empty, SlotMap.findFrom]
        exact next
      · rw [if_neg empty, entryOf, if_neg empty, SlotMap.findFrom]
        by_cases same : key name =
            key (direntName (((nodes sb s.disk d).bytes.drop (DIRENT * k)).take DIRENT))
        · rw [if_pos ((namecmp_eq_zero_iff _ _).mpr same), if_pos same]
          rfl
        · rw [if_neg ((namecmp_eq_zero_iff _ _).not.mpr same), if_neg same]
          exact next
    · rw [if_neg, past k (by omega)]
      · rfl
      · rw [size]
        exact fun small => inside (Nat.lt_of_mul_lt_mul_left small)

/-- `dirlookup` is a search in the map, and changes nothing. -/
theorem dirlookup_eq (name : List UInt8) :
    dirlookup sb (inodes sb s.disk d) name s =
      .ok ((lookup (nodes sb s.disk d).bytes name, inodes sb s.disk d), s) := by
  have type : (inodes sb s.disk d).type = T_DIR := dir.type
  have length : (nodes sb s.disk d).bytes.length = (inodes sb s.disk d).size.toNat :=
    length_content _ _
  rw [dirlookup, if_pos type, ← length]
  exact @dirlookupLoop_eq sb s d 0 wf dir name _ (by omega)

/-- The second loop of `dirlink` finds an empty entry, or the end. -/
theorem emptyEntry_eq (rounds : Nat)
    (enough : (nodes sb s.disk d).bytes.length / DIRENT < rounds + k)
    (le : k ≤ (nodes sb s.disk d).bytes.length / DIRENT) :
    ∃ m, emptyEntry sb rounds (inodes sb s.disk d) (DIRENT * k) s =
        .ok ((DIRENT * m, inodes sb s.disk d), s) ∧
      (entries (nodes sb s.disk d).bytes).Vacant m := by
  obtain ⟨n, size, count⟩ := dir.count
  have width : 0 < DIRENT := by decide
  rw [count] at enough le
  induction rounds generalizing k with
  | zero => exact ⟨k, rfl, .inl (by rw [length_entries, count]; omega)⟩
  | succ rounds ih =>
    rw [emptyEntry]
    by_cases inside : k < n
    · have small : DIRENT * k < (inodes sb s.disk d).size.toNat := by
        rw [size]
        exact Nat.mul_lt_mul_of_pos_left inside width
      rw [if_pos small, run_bind (readi_entry wf dir small)]
      dsimp only
      rw [if_neg (by simp)]
      by_cases empty : direntInum (((nodes sb s.disk d).bytes.drop (DIRENT * k)).take DIRENT) = 0
      · rw [if_pos empty]
        refine ⟨k, rfl, .inr ?_⟩
        rw [getElem?_entries (by rwa [count]), entryOf, if_pos empty]
      · rw [if_neg empty]
        exact @ih (k + 1) (by omega) (by omega)
    · rw [if_neg]
      · exact ⟨k, rfl, .inl (by rw [length_entries, count]; omega)⟩
      · rw [size]
        exact fun small => inside (Nat.lt_of_mul_lt_mul_left small)

/-- Writing an entry fails at most for a new one that starts a block, and then changes nothing. -/
theorem writei_entry {de : List UInt8} (length : de.length = DIRENT)
    (le : k ≤ (entries (nodes sb s.disk d).bytes).length) :
    Outcome (writei sb d (inodes sb s.disk d) (.kernel de) (BitVec.ofNat 32 (DIRENT * k))
      (BitVec.ofNat 32 DIRENT)) s E fun r t => ∃ bytes,
        Becomes sb s d r.2 { nodes sb s.disk d with bytes } t ∧ DIRENT ∣ bytes.length ∧
        (r.1 = DIRENT ∧ entries bytes = (entries (nodes sb s.disk d).bytes).put k (entryOf de) ∨
        r.1 ≠ DIRENT ∧ bytes = (nodes sb s.disk d).bytes ∧
          k = (entries (nodes sb s.disk d).bytes).length ∧
          (nodes sb s.disk d).bytes.length % BSIZE = 0) := by
  obtain ⟨c, total, count⟩ := dir.count
  have allocated := dir.allocated
  have all := wf.size_le d
  have limit : MAXFILE * BSIZE = 274432 := rfl
  have width : DIRENT = 16 := rfl
  have bytes : (nodes sb s.disk d).bytes = content (inodes sb s.disk d) s.disk := rfl
  rw [length_entries, count] at le
  have off : (BitVec.ofNat 32 (DIRENT * k)).toNat = DIRENT * k := by
    rw [BitVec.toNat_ofNat, Nat.mod_eq_of_lt]
    have := Nat.mul_le_mul_left DIRENT le
    omega
  have n : (BitVec.ofNat 32 DIRENT).toNat = DIRENT := rfl
  have fits := Nat.mul_le_mul_left DIRENT le
  refine (writei_outcome wf d (.kernel de) _ _).mono ?_
  rintro r t
    (⟨rfl, rfl, bad⟩ | ⟨-, short, m, ip', u, off', m', y, tot', -, size, written, rfl, rfl⟩)
  · rw [off, n, limit] at bad
    refine ⟨_, .refl wf, dir.aligned, .inr ⟨by simp only; decide, rfl, ?_, ?_⟩⟩
    · rw [length_entries, count]
      rw [limit, total] at all
      unfold DIRENT at *
      omega
    · rw [bytes, length_content, total]
      rw [limit, total] at all
      unfold DIRENT BSIZE at *
      omega
  · rw [off, n] at short written
    -- the source can be read, so there is no room in the last block, or all is written
    rcases written.ends with ⟨rfl, rfl⟩ | ⟨left, rfl, -, beyond⟩ | ⟨-, -, missing, -⟩
    · refine ⟨_, written.becomes wf allocated size short, ?_, .inl ⟨rfl, ?_⟩⟩
      all_goals
        rw [written.content_self wf allocated (by omega) short length fun _ _ => rfl, ← bytes]
      · rw [List.length_append, List.length_append, length, List.length_take, List.length_drop,
          bytes, length_content, total]
        unfold DIRENT at *
        omega
      · exact entries_splice (by rw [bytes, length_content, total]; exact fits) length
    · have placed := written.count
      have covers := written.blocks
      have none_ : tot' = 0 := by
        unfold DIRENT BSIZE at *
        omega
      subst none_
      have same : content (extend ip' off') (u.iupdate sb d (extend ip' off')).disk =
          (nodes sb s.disk d).bytes := by
        have old : ip'.size = (inodes sb s.disk d).size := by
          rw [written.frame.fields]
        have grown : (extend ip' off').size.toNat = (inodes sb s.disk d).size.toNat := by
          rw [extend_size _ (by omega), old]
          omega
        apply List.ext_getElem?
        intro x
        by_cases inside : x < (inodes sb s.disk d).size.toNat
        · rw [written.getElem_content wf allocated short inside, bytes,
            Fs.getElem_content inside, written.rest x (wf.held inside) (by omega)]
        · rw [List.getElem?_eq_none, List.getElem?_eq_none]
          · rw [bytes, length_content]
            omega
          · rw [length_content, grown]
            omega
      rw [total] at size
      refine ⟨_, written.becomes wf allocated (total ▸ size) short, ?_,
        .inr ⟨by simp only; decide, same, ?_, ?_⟩⟩
      · rw [same]
        exact dir.aligned
      · rw [length_entries, count]
        unfold DIRENT BSIZE at *
        omega
      · rw [bytes, length_content, total]
        unfold DIRENT BSIZE at *
        omega
    · cases missing

variable (sb s d) in
/-- A name that is not there is added, or nothing changes for want of a block. -/
def Linked (name : List UInt8) (inum : Nat) (r : Int × Dinode) (t : State) : Prop :=
  ∃ bytes, Becomes sb s d r.2 { nodes sb s.disk d with bytes } t ∧ DIRENT ∣ bytes.length ∧
    ((r.1 = 0 ∧ ∃ k, (entries (nodes sb s.disk d).bytes).Vacant k ∧
      entries bytes = (entries (nodes sb s.disk d).bytes).put k (entryOf (dirent inum name))) ∨
    (r.1 = -1 ∧ bytes = (nodes sb s.disk d).bytes ∧
      (nodes sb s.disk d).bytes.length % BSIZE = 0))

theorem dirlinkNew_outcome (name : List UInt8) (inum : Nat) :
    Outcome (dirlinkNew sb d (inodes sb s.disk d) name inum) s E (Linked sb s d name inum) := by
  have length : (nodes sb s.disk d).bytes.length = (inodes sb s.disk d).size.toNat :=
    length_content _ _
  obtain ⟨k, ran, vacant⟩ := @emptyEntry_eq sb s d 0 wf dir
    ((nodes sb s.disk d).bytes.length / DIRENT + 1) (by omega) (Nat.zero_le _)
  rw [dirlinkNew, ← length]
  refine .bind (.of_ok ran ?_)
  refine .bind ((writei_entry wf dir (length_dirent inum name) vacant.le).mono ?_)
  rintro ⟨r, dp⟩ t ⟨bytes, becomes, aligned, written | ⟨short, same, -, whole⟩⟩
  · exact ⟨bytes, becomes, aligned, .inl ⟨if_pos written.1, k, vacant, written.2⟩⟩
  · exact ⟨bytes, becomes, aligned, .inr ⟨if_neg short, same, whole⟩⟩

/-- `dirlink` refuses a name that is there, and otherwise adds it or changes nothing. -/
theorem dirlink_outcome (name : List UInt8) (inum : Nat) :
    Outcome (dirlink sb d (inodes sb s.disk d) name inum) s E fun r t =>
      ((entries (nodes sb s.disk d).bytes).find (key name) ≠ none ∧
        r = (-1, inodes sb s.disk d) ∧ t = s) ∨
      ((entries (nodes sb s.disk d).bytes).find (key name) = none ∧
        Linked sb s d name inum r t) := by
  rw [dirlink]
  refine .bind (.of_ok (dirlookup_eq wf dir name) ?_)
  dsimp only
  rw [lookup, Option.isSome_map]
  cases found : (entries (nodes sb s.disk d).bytes).find (key name) with
  | some pair => exact .pure (.inl ⟨nofun, rfl, rfl⟩)
  | none =>
    rw [if_neg (by simp)]
    exact (dirlinkNew_outcome wf dir name inum).mono fun r t how => .inr ⟨rfl, how⟩

end

end

/-! ## A directory is a map -/

/-- `dirlookup` returns `r`, and changes nothing. -/
def Finds (sb : Superblock) (s : State) (d : Nat) (name : List UInt8) (r : Option (Nat × Nat)) :
    Prop :=
  dirlookup sb (inodes sb s.disk d) name s = .ok ((r, inodes sb s.disk d), s)

/-- A directory whose names are unique. -/
structure Directory (sb : Superblock) (disk : Disk) (d : Nat) : Prop extends IsDir sb disk d where
  unique : (entries (nodes sb disk d).bytes).Unique

/-- The first two entries are `.` and `..`, and name the inodes `i` and `j`. -/
def Dots (sb : Superblock) (disk : Disk) (d i j : Nat) : Prop :=
  (entries (nodes sb disk d).bytes).Holds 0 (key dot) i ∧
  (entries (nodes sb disk d).bytes).Holds 1 (key dotdot) j

/-- The operations on a directory are those of a map; a name is refused although it is not
    there only where the directory needs another block for it. -/
structure DirectoryMap (sb : Superblock) (s : State) (d : Nat) : Prop where
  finds : ∀ name, ∃ r, Finds sb s d name r
  present : ∀ name r inum, Finds sb s d name (some r) →
    dirlink sb d (inodes sb s.disk d) name inum s = .ok ((-1, inodes sb s.disk d), s)
  link : ∀ name inum, Finds sb s d name none → 0 < inum → inum < 2 ^ 16 →
    ∃ r t, dirlink sb d (inodes sb s.disk d) name inum s = .ok ((r, inodes sb t.disk d), t) ∧
      (r = 0 ∧ (∀ name', key name' = key name → ∃ off, Finds sb t d name' (some (inum, off))) ∧
          (∀ name' r', key name' ≠ key name → Finds sb s d name' r' → Finds sb t d name' r') ∨
        r = -1 ∧ (nodes sb t.disk d).bytes = (nodes sb s.disk d).bytes ∧
          (nodes sb s.disk d).bytes.length % BSIZE = 0) ∧
      WellFormed sb t.disk ∧ Directory sb t.disk d ∧
      ∀ i j, Dots sb s.disk d i j → Dots sb t.disk d i j
  /-- What `unlink` does to the entry that it has found. -/
  unlink : ∀ name inum off, Finds sb s d name (some (inum, off)) →
    ∃ t, writei sb d (inodes sb s.disk d) (.kernel (List.replicate DIRENT 0)) (BitVec.ofNat 32 off)
        (BitVec.ofNat 32 DIRENT) s = .ok (((DIRENT : Nat), inodes sb t.disk d), t) ∧
      (∀ name', key name' = key name → Finds sb t d name' none) ∧
      (∀ name' r', key name' ≠ key name → Finds sb s d name' r' → Finds sb t d name' r') ∧
      WellFormed sb t.disk ∧ Directory sb t.disk d ∧
      ∀ i j, namecmp name dot ≠ 0 → namecmp name dotdot ≠ 0 →
        Dots sb s.disk d i j → Dots sb t.disk d i j

section

variable {sb : Superblock} {s t : State} {d : Nat}

theorem finds_iff (wf : WellFormed sb s.disk) (dir : IsDir sb s.disk d) {name : List UInt8}
    {r : Option (Nat × Nat)} :
    Finds sb s d name r ↔ lookup (nodes sb s.disk d).bytes name = r := by
  rw [Finds, dirlookup_eq wf dir]
  simp

theorem lookup_eq_none_iff {bytes name : List UInt8} :
    lookup bytes name = none ↔ (entries bytes).find (key name) = none := by
  rw [lookup, Option.map_eq_none_iff]

theorem lookup_eq_some_iff {bytes name : List UInt8} {inum off : Nat} :
    lookup bytes name = some (inum, off) ↔
      ∃ k, (entries bytes).find (key name) = some (inum, k) ∧ off = DIRENT * k := by
  rw [lookup, Option.map_eq_some_iff]
  refine ⟨?_, ?_⟩
  · rintro ⟨⟨v, k⟩, found, same⟩
    simp only [Prod.mk.injEq] at same
    exact ⟨k, by rw [found, same.1], same.2.symm⟩
  · rintro ⟨k, found, rfl⟩
    exact ⟨(inum, k), found, rfl⟩

theorem Dots.put {i j k : Nat} {x : Option (List UInt8 × Nat)} (dots : Dots sb s.disk d i j)
    (le : k ≤ (entries (nodes sb s.disk d).bytes).length) (first : k ≠ 0) (second : k ≠ 1)
    (put : entries (nodes sb t.disk d).bytes = (entries (nodes sb s.disk d).bytes).put k x) :
    Dots sb t.disk d i j := by
  rw [Dots, put, SlotMap.holds_put_of_ne le first.symm, SlotMap.holds_put_of_ne le second.symm]
  exact dots

theorem directoryMap (wf : WellFormed sb s.disk) (dir : Directory sb s.disk d) :
    DirectoryMap sb s d where
  finds name := ⟨_, dirlookup_eq wf dir.toIsDir name⟩
  present name r inum found := by
    rw [finds_iff wf dir.toIsDir] at found
    obtain ⟨r', t, ran, outcome⟩ :=
      (dirlink_outcome wf dir.toIsDir name inum).exists_ok (E := fun _ => False) fun _ => id
    rcases outcome with ⟨-, rfl, rfl⟩ | ⟨none_, -⟩
    · exact ran
    · rw [lookup_eq_none_iff.mpr none_] at found
      cases found
  link name inum absent some_ small := by
    rw [finds_iff wf dir.toIsDir, lookup_eq_none_iff] at absent
    obtain ⟨⟨r, dp⟩, t, ran, outcome⟩ :=
      (dirlink_outcome wf dir.toIsDir name inum).exists_ok (E := fun _ => False) fun _ => id
    rcases outcome with ⟨there, -⟩ | ⟨-, bytes, becomes, aligned, how⟩
    · exact absurd absent there
    · dsimp only at becomes how
      have mine : inodes sb t.disk d = dp := by
        rw [becomes.inodes, Function.update_self]
      have now : nodes sb t.disk d = { nodes sb s.disk d with bytes } := by
        rw [becomes.nodes, Function.update_self]
      have isDir : IsDir sb t.disk d := ⟨by rw [now]; exact dir.type, by rwa [now]⟩
      rw [entryOf_dirent some_ small] at how
      refine ⟨r, t, mine.symm ▸ ran, ?_, becomes.wellFormed, ?_⟩
      · rcases how with ⟨rfl, k, vacant, put⟩ | ⟨rfl, same, whole⟩
        · have all := dir.unique.find_put_some absent vacant inum
          refine .inl ⟨rfl, fun name' equal => ⟨DIRENT * k, ?_⟩, fun name' r' other before => ?_⟩
          · rw [finds_iff becomes.wellFormed isDir, lookup_eq_some_iff, now, put]
            exact ⟨k, by rw [all, if_pos equal], rfl⟩
          · rw [finds_iff wf dir.toIsDir] at before
            rw [finds_iff becomes.wellFormed isDir, ← before, lookup, now, put, all, if_neg other,
              lookup]
        · exact .inr ⟨rfl, by rw [now]; exact same, whole⟩
      · rcases how with ⟨rfl, k, vacant, put⟩ | ⟨rfl, same, -⟩
        · refine ⟨⟨isDir, ?_⟩, fun i j dots => ?_⟩
          · rw [now, put]
            exact dir.unique.put_some vacant.le (SlotMap.find_eq_none_iff.mp absent) inum
          · -- the first two entries are not empty, and not the end
            refine dots.put vacant.le ?_ ?_ (by rw [now, put])
            · rintro rfl
              exact vacant.not_holds dots.1
            · rintro rfl
              exact vacant.not_holds dots.2
        · refine ⟨⟨isDir, ?_⟩, fun i j dots => ?_⟩
          · rw [now, same]
            exact dir.unique
          · rw [Dots, now, same]
            exact dots
  unlink name inum off found := by
    rw [finds_iff wf dir.toIsDir, lookup_eq_some_iff] at found
    obtain ⟨k, found, rfl⟩ := found
    have holds := SlotMap.find_eq_some found
    obtain ⟨⟨r, dp⟩, t, ran, bytes, becomes, aligned, how⟩ :=
      (@writei_entry sb s d k _ wf dir.toIsDir (List.replicate DIRENT 0) List.length_replicate
        (Nat.le_of_lt holds.lt)).exists_ok (E := fun _ => False) fun _ => id
    dsimp only at becomes how
    have mine : inodes sb t.disk d = dp := by
      rw [becomes.inodes, Function.update_self]
    have now : nodes sb t.disk d = { nodes sb s.disk d with bytes } := by
      rw [becomes.nodes, Function.update_self]
    have isDir : IsDir sb t.disk d := ⟨by rw [now]; exact dir.type, by rwa [now]⟩
    rcases how with ⟨rfl, put⟩ | ⟨-, -, beyond⟩
    · rw [entryOf_zeros] at put
      have all := dir.unique.find_put_none found
      refine ⟨t, mine.symm ▸ ran, fun name' equal => ?_, fun name' r' other before => ?_,
        becomes.wellFormed, ⟨isDir, ?_⟩, fun i j first second dots => ?_⟩
      · rw [finds_iff becomes.wellFormed isDir, lookup_eq_none_iff, now, put, all, if_pos equal]
      · rw [finds_iff wf dir.toIsDir] at before
        rw [finds_iff becomes.wellFormed isDir, ← before, lookup, now, put, all, if_neg other,
          lookup]
      · rw [now, put]
        exact dir.unique.put_none (Nat.le_of_lt holds.lt)
      · rw [ne_eq, namecmp_eq_zero_iff] at first second
        refine dots.put (Nat.le_of_lt holds.lt) ?_ ?_ (by rw [now, put])
        · rintro rfl
          exact first (holds.eq dots.1).1
        · rintro rfl
          exact second (holds.eq dots.2).1
    · exact absurd holds.lt (by omega)

end

/-- The file of `oneFile` is made an empty directory. -/
def emptyDir : State :=
  State.iupdate smallDisk ⟨oneFile, [], []⟩ 1 { Dinode.zero with type := T_DIR, nlink := 1 }

theorem becomes_emptyDir :
    Becomes smallDisk ⟨oneFile, [], []⟩ 1 { Dinode.zero with type := T_DIR, nlink := 1 }
      ⟨T_DIR, 0, 0, 1, []⟩ emptyDir := by
  have before := inodes_oneFile 1
  rw [if_pos rfl] at before
  have bytes : (nodes smallDisk oneFile 1).bytes = [] := by
    rw [nodes, before]
    rfl
  have allocated : Allocated smallDisk oneFile 1 := by
    rw [Allocated, before]
    decide
  have becomes := @WellFormed.iupdate_becomes smallDisk ⟨oneFile, [], []⟩ 1
    { Dinode.zero with type := T_DIR, nlink := 1 } wellFormed_oneFile allocated (by decide)
    (by rw [before]) (by rw [before])
  rw [bytes] at becomes
  exact becomes

/-- The entries of a directory with one name beside `.` and `..`. -/
def threeNames : List UInt8 := dirent 1 dot ++ dirent 1 dotdot ++ dirent 1 [97]

theorem entries_threeNames :
    entries threeNames = [some (dot, 1), some (dotdot, 1), some ([97], 1)] := by decide

theorem unique_threeNames : (entries threeNames).Unique := by
  rw [entries_threeNames]
  intro i j k v w first second
  have inside : i < 3 := first.lt
  have inside' : j < 3 := second.lt
  interval_cases i <;> cases first <;> interval_cases j <;> first | rfl | cases second

/-- They are written to the empty directory. -/
theorem becomes_threeNames : ∃ s ip,
    Becomes smallDisk emptyDir 1 ip ⟨T_DIR, 0, 0, 1, threeNames⟩ s := by
  have wf := becomes_emptyDir.wellFormed
  have now : nodes smallDisk emptyDir.disk 1 = ⟨T_DIR, 0, 0, 1, []⟩ := by
    rw [becomes_emptyDir.nodes, Function.update_self]
  have inode :
      inodes smallDisk emptyDir.disk 1 = { Dinode.zero with type := T_DIR, nlink := 1 } := by
    rw [becomes_emptyDir.inodes, Function.update_self]
  have allocated : Allocated smallDisk emptyDir.disk 1 := by
    rw [Allocated, inode]
    decide
  have value : (writei smallDisk 1 (inodes smallDisk emptyDir.disk 1) (.kernel threeNames) 0 48
      emptyDir).toOption.map (fun r => r.1.1) = some 48 := by decide +kernel
  obtain ⟨r, t, ran, outcome⟩ := (writei_outcome wf 1 (.kernel threeNames) 0 48).exists_ok
    (E := fun _ => False) fun _ => id
  rw [ran] at value
  have all : r.1 = 48 := Option.some.inj value
  rcases outcome with
    ⟨rfl, -⟩ | ⟨-, short, m, ip', u, off', m', y, tot', -, size, written, rfl, rfl⟩
  · cases all
  · obtain rfl : tot' = 48 := Int.ofNat.inj all
    have length : (48 : BitVec 32).toNat = 48 := rfl
    rcases written.ends with ⟨-, rfl⟩ | ⟨left, -⟩ | ⟨left, -⟩
    · have whole := written.content_self wf allocated (Nat.zero_le _) short rfl fun _ _ => rfl
      have before : content (inodes smallDisk emptyDir.disk 1) emptyDir.disk = [] :=
        congrArg Node.bytes now
      rw [before, List.take_nil, List.drop_nil, List.nil_append, List.append_nil] at whole
      have becomes := written.becomes wf allocated size short
      rw [whole, now] at becomes
      exact ⟨_, _, becomes⟩
    · omega
    · omega

theorem directoryMap_threeNames : ∃ s, DirectoryMap smallDisk s 1 ∧
    Finds smallDisk s 1 [97] (some (1, 32)) ∧ Dots smallDisk s.disk 1 1 1 ∧
    (∃ t off, dirlink smallDisk 1 (inodes smallDisk s.disk 1) [98] 1 s =
        .ok ((0, inodes smallDisk t.disk 1), t) ∧ Finds smallDisk t 1 [98] (some (1, off)) ∧
      Finds smallDisk t 1 [97] (some (1, 32)) ∧ Dots smallDisk t.disk 1 1 1) ∧
    ∃ t, writei smallDisk 1 (inodes smallDisk s.disk 1)
      (.kernel (List.replicate DIRENT 0)) 32 16 s =
        .ok ((16, inodes smallDisk t.disk 1), t) ∧ Finds smallDisk t 1 [97] none ∧
      Dots smallDisk t.disk 1 1 1 := by
  obtain ⟨s, ip, becomes⟩ := becomes_threeNames
  have now : nodes smallDisk s.disk 1 = ⟨T_DIR, 0, 0, 1, threeNames⟩ := by
    rw [becomes.nodes, Function.update_self]
  have isDir : IsDir smallDisk s.disk 1 := ⟨by rw [now], by rw [now]; decide⟩
  have map := directoryMap becomes.wellFormed ⟨isDir, by rw [now]; exact unique_threeNames⟩
  have found : Finds smallDisk s 1 [97] (some (1, 32)) := by
    rw [finds_iff becomes.wellFormed isDir, now]
    decide
  have absent : Finds smallDisk s 1 [98] none := by
    rw [finds_iff becomes.wellFormed isDir, now]
    decide
  have dots : Dots smallDisk s.disk 1 1 1 := by
    rw [Dots, now, entries_threeNames]
    exact ⟨rfl, rfl⟩
  refine ⟨s, map, found, dots, ?_, ?_⟩
  · obtain ⟨r, t, ran, how, -, -, kept⟩ := map.link [98] 1 absent (by decide) (by decide)
    rcases how with ⟨rfl, same, others⟩ | ⟨-, -, whole⟩
    · obtain ⟨off, there⟩ := same [98] rfl
      exact ⟨t, off, ran, there, others [97] _ (by decide) found, kept 1 1 dots⟩
    · rw [now] at whole
      exact absurd whole (by decide)
  · obtain ⟨t, ran, gone, -, -, -, kept⟩ := map.unlink [97] 1 32 found
    exact ⟨t, ran, gone [97] rfl, kept 1 1 (by decide) (by decide) dots⟩

end Xv6.Kernel.Fs
