import Xv6.Kernel.Fs

/-! # Which blocks are in use

The bitmap says which blocks are in use: all of the metadata, and each data block that some
slot of some inode holds. `balloc`, `bmap` and `bfree` keep this while they change the bitmap,
the inode and its indirect block one after the other.
-/

namespace Xv6.Kernel.Fs

open Lib Function

namespace Superblock

/-- The bit of block `b` in the bitmap. -/
def bit (sb : Superblock) (disk : Disk) (b : Nat) : Bool := (disk (sb.bblock b)).bit (b % BPB)

/-- The data blocks that are in use. -/
def used (sb : Superblock) (disk : Disk) : Set Nat :=
  {b | sb.nmeta ≤ b ∧ b < sb.size ∧ sb.bit disk b = true}

/-- The blocks that `balloc` can hand out. -/
def free (sb : Superblock) (disk : Disk) : Finset Nat :=
  (Finset.range sb.size).filter fun b => sb.bit disk b = false

variable {sb : Superblock} {disk disk' : Disk} {b c i : Nat}

theorem bblock_bounds (inside : b < sb.size) :
    sb.bmapstart ≤ sb.bblock b ∧ sb.bblock b < sb.nmeta := by
  have le : b / BPB ≤ sb.size / BPB := Nat.div_le_div_right (Nat.le_of_lt inside)
  rw [bblock, nmeta, Nat.add_comm]
  exact ⟨Nat.le_add_right _ _, Nat.add_lt_add_left (Nat.lt_succ_of_le le) _⟩

theorem iblock_lt (inside : i < sb.ninodes) : sb.iblock i < sb.bmapstart := by
  have le : i / IPB ≤ sb.ninodes / IPB := Nat.div_le_div_right (Nat.le_of_lt inside)
  have := sb.ordered
  unfold iblock
  omega

theorem nmeta_pos (sb : Superblock) : 0 < sb.nmeta := by
  rw [nmeta]
  exact Nat.add_pos_right _ (Nat.succ_pos _)

theorem bmapstart_lt_nmeta (sb : Superblock) : sb.bmapstart < sb.nmeta :=
  Nat.lt_add_of_pos_right (Nat.succ_pos _)

theorem bit_congr (same : disk' (sb.bblock b) = disk (sb.bblock b)) :
    sb.bit disk' b = sb.bit disk b := by
  rw [bit, bit, same]

theorem used_congr (same : ∀ c, sb.bmapstart ≤ c → c < sb.nmeta → disk' c = disk c) :
    sb.used disk' = sb.used disk := by
  ext b
  have bits : b < sb.size → sb.bit disk' b = sb.bit disk b := fun inside =>
    bit_congr (same _ (bblock_bounds inside).1 (bblock_bounds inside).2)
  constructor
  · rintro ⟨high, inside, taken⟩
    exact ⟨high, inside, bits inside ▸ taken⟩
  · rintro ⟨high, inside, taken⟩
    exact ⟨high, inside, (bits inside).trans taken⟩

/-- Two blocks with their bits at the same place of the bitmap. -/
theorem eq_of_place (block : sb.bblock c = sb.bblock b) (place : c % BPB = b % BPB) : c = b := by
  have quotient : c / BPB = b / BPB := by
    unfold bblock at block
    omega
  rw [← Nat.div_add_mod c BPB, ← Nat.div_add_mod b BPB, quotient, place]

theorem bit_setBit (disk : Disk) (b c : Nat) :
    sb.bit (update disk (sb.bblock b) ((disk (sb.bblock b)).setBit (b % BPB))) c =
      (decide (c = b) || sb.bit disk c) := by
  have low : c % BPB < 8 * BSIZE := Nat.mod_lt c (by decide)
  by_cases block : sb.bblock c = sb.bblock b
  · rw [bit, bit, block, update_self, Block.bit_setBit low]
    have same : c % BPB = b % BPB ↔ c = b := ⟨eq_of_place block, fun equal => equal ▸ rfl⟩
    simp only [same]
  · have other : c ≠ b := fun same => block (same ▸ rfl)
    rw [bit, bit, update_of_ne block]
    simp [other]

theorem bit_clearBit (disk : Disk) (b c : Nat) :
    sb.bit (update disk (sb.bblock b) ((disk (sb.bblock b)).clearBit (b % BPB))) c =
      (decide (c ≠ b) && sb.bit disk c) := by
  have low : c % BPB < 8 * BSIZE := Nat.mod_lt c (by decide)
  by_cases block : sb.bblock c = sb.bblock b
  · rw [bit, bit, block, update_self, Block.bit_clearBit low]
    have same : c % BPB = b % BPB ↔ c = b := ⟨eq_of_place block, fun equal => equal ▸ rfl⟩
    simp only [ne_eq, same]
  · have other : c ≠ b := fun same => block (same ▸ rfl)
    rw [bit, bit, update_of_ne block]
    simp [other]

end Superblock

/-- The bitmap has the metadata and the blocks of the inodes `ino`, each of which is in one
    slot. -/
structure Sound (sb : Superblock) (disk : Disk) (ino : Nat → Dinode) : Prop where
  metadata : ∀ b, b < sb.nmeta → b < sb.size → sb.bit disk b = true
  ledger : Ledger (fun x : Nat × Nat => (ino x.1).slot disk x.2) (sb.used disk)

namespace Sound

variable {sb : Superblock} {disk disk' : Disk} {ino ino' : Nat → Dinode} {i j k n b : Nat}

section

variable (h : Sound sb disk ino)
include h

theorem slot_mem (held : (ino i).slot disk k ≠ 0) :
    (ino i).slot disk k ∈ sb.used disk :=
  @Ledger.mem _ _ _ h.ledger (i, k) held

theorem slot_unique (held : (ino i).slot disk k ≠ 0)
    (same : (ino i).slot disk k = (ino j).slot disk n) : i = j ∧ k = n :=
  Prod.mk.inj (@Ledger.unique _ _ _ h.ledger (i, k) (j, n) held same)

theorem slot_congr (same : ∀ c ∈ sb.used disk, disk' c = disk c) (j n : Nat) :
    (ino j).slot disk' n = (ino j).slot disk n := by
  apply Dinode.slot_congr
  intro some_
  have held : (ino j).slot disk NDIRECT ≠ 0 := by
    rw [Dinode.slot_indirect]
    exact some_
  have taken := h.slot_mem held
  rw [Dinode.slot_indirect] at taken
  exact same _ taken

theorem of_slots (slots : ∀ j n, (ino' j).slot disk n = (ino j).slot disk n) :
    Sound sb disk ino' where
  metadata := h.metadata
  ledger := by
    simpa only [slots] using h.ledger

theorem of_free (inside : b < sb.size) (free : sb.bit disk b = false) :
    sb.nmeta ≤ b ∧ b ∉ sb.used disk := by
  refine ⟨?_, fun taken => ?_⟩
  · by_contra low
    rw [h.metadata b (by omega) inside] at free
    cases free
  · rw [taken.2.2] at free
    cases free

theorem congr (bitmap : ∀ c, sb.bmapstart ≤ c → c < sb.nmeta → disk' c = disk c)
    (same : ∀ c ∈ sb.used disk, disk' c = disk c) : Sound sb disk' ino where
  metadata b low inside := by
    have place := Superblock.bblock_bounds inside
    rw [Superblock.bit_congr (bitmap _ place.1 place.2)]
    exact h.metadata b low inside
  ledger := by
    rw [Superblock.used_congr bitmap]
    simpa only [h.slot_congr same] using h.ledger

theorem claim (inside : b < sb.size) (free : sb.bit disk b = false)
    (empty : (ino i).slot disk k = 0)
    (bits : ∀ c, c < sb.size → sb.bit disk' c = (decide (c = b) || sb.bit disk c))
    (slots : ∀ j n, (ino' j).slot disk' n = if (j, n) = (i, k) then b else (ino j).slot disk n) :
    Sound sb disk' ino' where
  metadata c low small := by
    rw [bits c small, h.metadata c low small, Bool.or_true]
  ledger := by
    obtain ⟨high, fresh⟩ := h.of_free inside free
    have more : sb.used disk' = insert b (sb.used disk) := by
      ext c
      rw [Set.mem_insert_iff]
      constructor
      · rintro ⟨data, small, taken⟩
        rw [bits c small, Bool.or_eq_true, decide_eq_true_eq] at taken
        exact taken.imp_right fun old => ⟨data, small, old⟩
      · rintro (rfl | ⟨data, small, old⟩)
        · exact ⟨high, inside, by simp [bits c inside]⟩
        · exact ⟨data, small, by simp [bits c small, old]⟩
    have update : (fun x : Nat × Nat => (ino' x.1).slot disk' x.2) =
        update (fun x : Nat × Nat => (ino x.1).slot disk x.2) (i, k) b := by
      funext x
      rw [update_apply]
      exact slots x.1 x.2
    rw [update, more]
    have := sb.nmeta_pos
    exact h.ledger.claim empty fresh (by omega)

end

end Sound

/-! ## balloc -/

/-- The state in which `balloc` returns `b`. -/
def State.allocate (sb : Superblock) (s : State) (b : Nat) : State where
  disk := update
    (update s.disk (sb.bblock b) ((s.disk (sb.bblock b)).setBit (b % BPB))) b .zero
  changed := s.changed ++ [sb.bblock b, b]
  log := s.log ++ [sb.bblock b, b]

/-- What `balloc` does. -/
inductive Balloc (sb : Superblock) (s : State) : Nat → State → Prop where
  | full (taken : ∀ b, b < sb.size → sb.bit s.disk b = true) : Balloc sb s 0 s
  | found {b : Nat} (inside : b < sb.size) (free : sb.bit s.disk b = false) :
      Balloc sb s b (s.allocate sb b)

theorem freeBit_eq_some {bp : Block} {n bi : Nat} (found : freeBit bp n = some bi) :
    bi < n ∧ bp.bit bi = false := by
  refine ⟨by simpa using List.mem_of_find?_eq_some found, ?_⟩
  simpa using List.find?_some found

theorem freeBit_eq_none {bp : Block} {n : Nat} (none_ : freeBit bp n = none) {bi : Nat}
    (inside : bi < n) : bp.bit bi = true := by
  have all := List.find?_eq_none.mp none_ bi (by simpa using inside)
  simpa using all

section balloc

variable {sb : Superblock} {s : State} {E : Panic → Prop}

theorem ballocLoop_outcome (turns start : Nat) (aligned : start % BPB = 0)
    (last : sb.size ≤ start + turns * BPB)
    (below : ∀ b, b < start → b < sb.size → sb.bit s.disk b = true) :
    Outcome (ballocLoop sb turns start) s E fun b t => Balloc sb s b t := by
  induction turns generalizing start with
  | zero => exact .pure (.full fun b inside => below b (by omega) inside)
  | succ turns ih =>
    have width : 0 < BPB := by decide
    rw [ballocLoop]
    refine .bind (.bind (.get (.pure ?_)))
    split
    · rename_i bi found
      obtain ⟨inside, clear⟩ := freeBit_eq_some found
      have small : bi < BPB := by omega
      -- the bit lies in the block that was read
      have quotient : (start + bi) / BPB = start / BPB := by
        have whole := Nat.div_add_mod start BPB
        rw [aligned, Nat.add_zero] at whole
        conv_lhs => rw [← whole, Nat.mul_add_div width, Nat.div_eq_of_lt small, Nat.add_zero]
      have place : (start + bi) % BPB = bi := by
        rw [Nat.add_mod, aligned, Nat.zero_add, Nat.mod_mod, Nat.mod_eq_of_lt small]
      have block : sb.bblock (start + bi) = sb.bblock start := by
        rw [Superblock.bblock, quotient, Superblock.bblock]
      have free : sb.bit s.disk (start + bi) = false := by
        rw [Superblock.bit, block, place]
        exact clear
      have done : Balloc sb s (start + bi) _ := .found (by omega) free
      rw [State.allocate, block, place] at done
      refine .bind
        (.modified (.bind (.modified (.bind (.bind (.modified (.modified (.pure ?_))))))))
      simpa using done
    · rename_i none_
      apply ih (start + BPB) (by rw [Nat.add_mod_right]; exact aligned)
      · rw [Nat.succ_mul] at last
        omega
      · intro b low inside
        by_cases before : b < start
        · exact below b before inside
        · have set_ := @freeBit_eq_none _ _ none_ (b - start) (by omega)
          have quotient : b / BPB = start / BPB := by
            have whole := Nat.div_add_mod start BPB
            rw [aligned, Nat.add_zero] at whole
            rw [show b = BPB * (start / BPB) + (b - start) by omega, Nat.mul_add_div width,
              Nat.div_eq_of_lt (show b - start < BPB by omega), Nat.add_zero]
          have place : b % BPB = b - start := by
            have whole := Nat.div_add_mod b BPB
            have whole' := Nat.div_add_mod start BPB
            rw [quotient] at whole
            omega
          rw [Superblock.bit, Superblock.bblock, quotient, place]
          exact set_

theorem balloc_outcome : Outcome (balloc sb) s E fun b t => Balloc sb s b t := by
  apply ballocLoop_outcome _ 0 (Nat.zero_mod _)
  · have width : BPB = 8192 := rfl
    rw [width]
    omega
  · intro b low
    omega

end balloc

section allocate

variable {sb : Superblock} {s : State} {ino : Nat → Dinode} {b c : Nat}

@[simp] theorem allocate_self : (s.allocate sb b).disk b = .zero := update_self ..

/-- A new block changes the bitmap, and no block that was in use. -/
theorem allocate_of_ne (inside : b < sb.size) (other : c ≠ b)
    (apart : c < sb.bmapstart ∨ sb.nmeta ≤ c) : (s.allocate sb b).disk c = s.disk c := by
  have place := Superblock.bblock_bounds inside
  exact (update_of_ne other _ _).trans (update_of_ne (by omega) _ _)

theorem bit_allocate (high : sb.nmeta ≤ b) (small : c < sb.size) :
    sb.bit (s.allocate sb b).disk c = (decide (c = b) || sb.bit s.disk c) := by
  have place := Superblock.bblock_bounds small
  rw [← Superblock.bit_setBit]
  exact Superblock.bit_congr (update_of_ne (by omega) _ _)

theorem Sound.allocate_used (sound : Sound sb s.disk ino) (inside : b < sb.size)
    (free : sb.bit s.disk b = false) :
    ∀ c ∈ sb.used s.disk, (s.allocate sb b).disk c = s.disk c := by
  intro c taken
  have other : c ≠ b := by
    rintro rfl
    exact (sound.of_free inside free).2 taken
  exact allocate_of_ne inside other (.inr taken.1)

end allocate

/-! ## bmap -/

/-- From `s` to `t` each change of a block was passed to `log_write`; they are `more`. -/
def Logs (more : List Nat) (s t : State) : Prop :=
  t.log = s.log ++ more ∧ t.changed = s.changed ++ more

theorem Logs.refl (s : State) : Logs [] s s := by
  simp [Logs]

theorem Logs.trans {s t u : State} {more more' : List Nat} (first : Logs more s t)
    (second : Logs more' t u) : Logs (more ++ more') s u := by
  simp [Logs, first.1, first.2, second.1, second.2]

/-- No block is free. -/
def Full (sb : Superblock) (disk : Disk) : Prop := ∀ b, b < sb.size → sb.bit disk b = true

/-- How an inode goes from `ip` on `disk` to `ip'` on `disk'` when it gets more blocks and the
    contents of its own may change. -/
structure Frame (sb : Superblock) (ip : Dinode) (disk : Disk) (ip' : Dinode)
    (disk' : Disk) : Prop where
  fields : ip' = { ip with addrs := ip'.addrs }
  kept : ∀ k, ip.slot disk k ≠ 0 → ip'.slot disk' k = ip.slot disk k
  fresh : ∀ k, ip.slot disk k = 0 → ip'.slot disk' k ∉ sb.used disk
  others : ∀ b ∈ sb.used disk, (∀ k, ip.slot disk k ≠ b) → disk' b = disk b
  low : ∀ b, b < sb.bmapstart → disk' b = disk b
  used : sb.used disk ⊆ sb.used disk'

/-- The contents stay as well. -/
structure Grown (sb : Superblock) (ip : Dinode) (disk : Disk) (ip' : Dinode)
    (disk' : Disk) : Prop
    extends Frame sb ip disk ip' disk' where
  data : ∀ b ∈ sb.used disk, b ≠ ip.addr INDIRECT → disk' b = disk b

theorem zero_not_mem_used (sb : Superblock) (disk : Disk) : 0 ∉ sb.used disk := fun taken =>
  absurd taken.1 (Nat.not_le_of_gt sb.nmeta_pos)

namespace Frame

variable {sb : Superblock} {ip ip' ip'' : Dinode} {disk disk' disk'' : Disk}

theorem refl (sb : Superblock) (ip : Dinode) (disk : Disk) : Frame sb ip disk ip disk where
  fields := rfl
  kept _ _ := rfl
  fresh k empty := by
    rw [empty]
    exact zero_not_mem_used sb disk
  others _ _ _ := rfl
  low _ _ := rfl
  used := Set.Subset.rfl

theorem slot_ne (frame : Frame sb ip disk ip' disk') {b k : Nat} (taken : b ∈ sb.used disk)
    (other : ip.slot disk k ≠ b) : ip'.slot disk' k ≠ b := by
  by_cases empty : ip.slot disk k = 0
  · rintro rfl
    exact frame.fresh k empty taken
  · rw [frame.kept k empty]
    exact other

theorem trans (first : Frame sb ip disk ip' disk') (second : Frame sb ip' disk' ip'' disk'') :
    Frame sb ip disk ip'' disk'' where
  fields := by
    rw [second.fields, first.fields]
  kept k held := by
    have same := first.kept k held
    rw [second.kept k (same ▸ held), same]
  fresh k empty := by
    by_cases still : ip'.slot disk' k = 0
    · exact fun taken => second.fresh k still (first.used taken)
    · rw [second.kept k still]
      exact first.fresh k empty
  others b taken apart := by
    rw [second.others b (first.used taken) fun k => first.slot_ne taken (apart k)]
    exact first.others b taken apart
  low b below := (second.low b below).trans (first.low b below)
  used := first.used.trans second.used

end Frame

namespace Grown

variable {sb : Superblock} {ip ip' ip'' : Dinode} {disk disk' disk'' : Disk}

theorem refl (sb : Superblock) (ip : Dinode) (disk : Disk) : Grown sb ip disk ip disk :=
  ⟨.refl sb ip disk, fun _ _ _ => rfl⟩

theorem trans (first : Grown sb ip disk ip' disk') (second : Grown sb ip' disk' ip'' disk'') :
    Grown sb ip disk ip'' disk'' := by
  refine ⟨first.toFrame.trans second.toFrame, fun b taken other => ?_⟩
  have apart := @Frame.slot_ne _ _ _ _ _ first.toFrame b NDIRECT taken
  rw [Dinode.slot_indirect, Dinode.slot_indirect] at apart
  rw [second.data b (first.used taken) (apart other.symm).symm, first.data b taken other]

theorem of_data (fields : ip' = { ip with addrs := ip'.addrs })
    (kept : ∀ k, ip.slot disk k ≠ 0 → ip'.slot disk' k = ip.slot disk k)
    (fresh : ∀ k, ip.slot disk k = 0 → ip'.slot disk' k ∉ sb.used disk)
    (data : ∀ b ∈ sb.used disk, b ≠ ip.addr INDIRECT → disk' b = disk b)
    (low : ∀ b, b < sb.bmapstart → disk' b = disk b)
    (used : sb.used disk ⊆ sb.used disk') : Grown sb ip disk ip' disk' := by
  refine ⟨⟨fields, kept, fresh, fun b taken apart => data b taken ?_, low, used⟩, data⟩
  rintro rfl
  exact apart NDIRECT Dinode.slot_indirect

end Grown

/-- 1 if the inode has no indirect block. -/
def noIndirect (ip : Dinode) : Nat := if ip.addr INDIRECT = 0 then 1 else 0

/-- What `bmap` leaves when it returns `addr` for file block `bn`. A block of the bitmap is
    logged for each block that is allocated. -/
structure Mapped (sb : Superblock) (ino : Nat → Dinode) (i : Nat) (ip : Dinode) (s : State)
    (bn addr : Nat) (ip' : Dinode) (t : State) : Prop where
  sound : Sound sb t.disk (update ino i ip')
  grown : Grown sb ip s.disk ip' t.disk
  slots : ∀ c, ip'.slot t.disk (slotOf c) = if c = bn then addr else ip.slot s.disk (slotOf c)
  full : addr = 0 → Full sb t.disk
  indirect : bn < NDIRECT → ip'.addr INDIRECT = ip.addr INDIRECT
  logged : ∃ more maps : List Nat, Logs more s t ∧ (∀ x ∈ maps, x < sb.nmeta) ∧
    (∀ x ∈ more, x ∈ maps ∨ (x = ip'.addr INDIRECT ∧ x ≠ 0) ∨
      (x = addr ∧ ip.slot s.disk (slotOf bn) = 0)) ∧
    (ip.slot s.disk (slotOf bn) = 0 → addr ≠ 0 → addr ∈ more) ∧
    maps.length + noIndirect ip' ≤
      noIndirect ip + if ip.slot s.disk (slotOf bn) = 0 ∧ addr ≠ 0 then 1 else 0

section bmap

variable {sb : Superblock} {s : State} {E : Panic → Prop} {ino : Nat → Dinode} {i : Nat}
  {ip : Dinode}

theorem slot_update {disk disk' : Disk} {ip' : Dinode} {k b : Nat}
    (own : ∀ n, ip'.slot disk' n = if n = k then b else ip.slot disk n)
    (others : ∀ j n, j ≠ i → (ino j).slot disk' n = (ino j).slot disk n) (j n : Nat) :
    (update ino i ip' j).slot disk' n =
      if (j, n) = (i, k) then b else (update ino i ip j).slot disk n := by
  by_cases same : j = i
  · subst same
    simp [own]
  · simp [same, others j n same]

section

variable (sound : Sound sb s.disk (update ino i ip))
include sound

theorem bmapAddr_found {b : Nat} (k : Fin (NDIRECT + 1)) (empty : ip.addr k = 0)
    (inside : b < sb.size) (free : sb.bit s.disk b = false) :
    Sound sb (s.allocate sb b).disk (update ino i (ip.setAddr k b)) ∧
      Grown sb ip s.disk (ip.setAddr k b) (s.allocate sb b).disk ∧
      ∀ n, (ip.setAddr k b).slot (s.allocate sb b).disk n = if n = k then b
        else ip.slot s.disk n := by
  have small : b < 2 ^ 32 := by
    have := sb.small
    omega
  obtain ⟨high, fresh⟩ := sound.of_free inside free
  have old := sound.slot_congr (sound.allocate_used inside free)
  have mine : ∀ n, ip.slot (s.allocate sb b).disk n = ip.slot s.disk n := fun n => by
    simpa using old i n
  have blank : ip.slot s.disk k = 0 := by
    rw [Dinode.slot_direct k.isLt]
    exact empty
  have slots : ∀ n, (ip.setAddr k b).slot (s.allocate sb b).disk n =
      if n = k then b else ip.slot s.disk n := by
    intro n
    rw [Dinode.slot_setAny k empty small allocate_self, mine]
  have bits : ∀ c, c < sb.size → sb.bit (s.allocate sb b).disk c =
      (decide (c = b) || sb.bit s.disk c) := fun c small => bit_allocate high small
  refine ⟨?_, ?_, slots⟩
  · apply sound.claim inside free (i := i) (k := k) (by simpa using blank) bits
    apply slot_update slots
    intro j n other
    simpa [other] using old j n
  · apply Grown.of_data
    · rfl
    · intro n held
      rw [slots, if_neg]
      rintro rfl
      exact held blank
    · intro n none_
      rw [slots]
      split
      · exact fresh
      · rw [none_]
        exact zero_not_mem_used sb s.disk
    · exact fun c taken _ => sound.allocate_used inside free c taken
    · intro c below
      have := sb.bmapstart_lt_nmeta
      exact allocate_of_ne inside (by omega) (.inl below)
    · rintro c ⟨data, small, taken⟩
      exact ⟨data, small, by rw [bits c small, taken, Bool.or_true]⟩

theorem bmapAddr_outcome (k : Fin (NDIRECT + 1)) :
    Outcome (bmapAddr sb ip k) s E fun r t =>
      Sound sb t.disk (update ino i r.2) ∧ Grown sb ip s.disk r.2 t.disk ∧
      (∀ n, r.2.slot t.disk n = if n = k then r.1 else ip.slot s.disk n) ∧
      (r.1 = 0 → Full sb t.disk) ∧
      Logs (if ip.addr k = 0 ∧ r.1 ≠ 0 then [sb.bblock r.1, r.1] else []) s t := by
  have here : ip.slot s.disk k = ip.addr k := Dinode.slot_direct k.isLt
  have same : ∀ n, ip.slot s.disk n = if n = k then ip.addr k else ip.slot s.disk n := by
    intro n
    split
    · rename_i equal
      rw [equal, here]
    · rfl
  rw [bmapAddr]
  by_cases empty : ip.addr k = 0
  · rw [if_pos empty]
    refine .bind (balloc_outcome.mono ?_)
    rintro b t (⟨taken⟩ | ⟨inside, free⟩)
    · refine .pure ⟨sound, .refl sb ip s.disk, ?_, fun _ => taken, ?_⟩
      · intro n
        have old := same n
        rw [empty] at old
        simpa only [if_true] using old
      · simpa using Logs.refl s
    · obtain ⟨high, -⟩ := sound.of_free inside free
      have nonzero : b ≠ 0 := by
        have := sb.nmeta_pos
        omega
      obtain ⟨sound', grown, slots⟩ := bmapAddr_found sound k empty inside free
      rw [if_neg nonzero]
      refine .pure ⟨sound', grown, slots, fun zero => absurd zero nonzero, ?_⟩
      rw [if_pos ⟨empty, nonzero⟩]
      exact ⟨rfl, rfl⟩
  · rw [if_neg empty]
    refine .pure ⟨sound, .refl sb ip s.disk, same, fun zero => absurd zero empty, ?_⟩
    rw [if_neg fun both => empty both.1]
    exact .refl s

theorem bmapEntry_outcome {j : Nat} (some_ : ip.addr INDIRECT ≠ 0) (small : j < NINDIRECT) :
    Outcome (bmapEntry sb (ip.addr INDIRECT) j) s E fun b t =>
      Sound sb t.disk (update ino i ip) ∧ Grown sb ip s.disk ip t.disk ∧
      (∀ n, ip.slot t.disk n = if n = NDIRECT + 1 + j then b else ip.slot s.disk n) ∧
      (b = 0 → Full sb t.disk) ∧
      Logs (if ip.slot s.disk (NDIRECT + 1 + j) = 0 ∧ b ≠ 0 then
        [sb.bblock b, b, ip.addr INDIRECT] else []) s t := by
  have here : ip.slot s.disk (NDIRECT + 1 + j) = (s.disk (ip.addr INDIRECT)).entry j :=
    Dinode.slot_entry small some_
  have same : ∀ n, ip.slot s.disk n =
      if n = NDIRECT + 1 + j then (s.disk (ip.addr INDIRECT)).entry j else ip.slot s.disk n := by
    intro n
    split
    · rename_i equal
      rw [equal, here]
    · rfl
  rw [bmapEntry]
  refine .bind (.bind (.get (.pure ?_)))
  by_cases empty : (s.disk (ip.addr INDIRECT)).entry j = 0
  · rw [if_pos empty]
    refine .bind (balloc_outcome.mono ?_)
    rintro b t (⟨taken⟩ | ⟨inside, free⟩)
    · refine .pure ⟨sound, .refl sb ip s.disk, ?_, fun _ => taken, ?_⟩
      · rw [empty] at same
        exact same
      · simpa using Logs.refl s
    · obtain ⟨high, fresh⟩ := sound.of_free inside free
      have nonzero : b ≠ 0 := by
        have := sb.nmeta_pos
        omega
      have limit : b < 2 ^ 32 := by
        have := sb.small
        omega
      -- the indirect block is in use, so `balloc` leaves it alone
      have taken : ip.addr INDIRECT ∈ sb.used s.disk := by
        have mem := sound.slot_mem (i := i) (k := NDIRECT)
        rw [update_self, Dinode.slot_indirect] at mem
        exact mem some_
      have untouched := sound.allocate_used inside free
      have old := sound.slot_congr untouched
      have mine : ∀ n, ip.slot (s.allocate sb b).disk n = ip.slot s.disk n := fun n => by
        simpa using old i n
      have slots : ∀ n, ip.slot (update (s.allocate sb b).disk (ip.addr INDIRECT)
          (((s.allocate sb b).disk (ip.addr INDIRECT)).setEntry j b)) n =
          if n = NDIRECT + 1 + j then b else ip.slot s.disk n := by
        intro n
        rw [Dinode.slot_setEntry some_ small limit, mine]
      have bits : ∀ c, c < sb.size → sb.bit (update (s.allocate sb b).disk
          (ip.addr INDIRECT) (((s.allocate sb b).disk (ip.addr INDIRECT)).setEntry j b)) c =
          (decide (c = b) || sb.bit s.disk c) := by
        intro c lower
        rw [← bit_allocate high lower]
        have := (Superblock.bblock_bounds lower).2
        have := taken.1
        exact Superblock.bit_congr (update_of_ne (by omega) _ _)
      rw [if_neg nonzero]
      refine .bind (.bind (.get (.pure ?_)))
      refine .bind (.modified (.bind (.modified (.pure ⟨?_, ?_, slots, ?_, ?_⟩))))
      · apply sound.claim inside free (i := i) (k := NDIRECT + 1 + j) (by simpa [here] using empty)
          bits
        apply slot_update slots
        intro a n other
        have theirs := old a n
        rw [update_of_ne other] at theirs
        rw [← theirs]
        apply Dinode.slot_congr
        intro used
        apply update_of_ne
        intro equal
        have clash := sound.slot_unique (i := a) (k := NDIRECT) (j := i) (n := NDIRECT)
        rw [update_of_ne other, update_self, Dinode.slot_indirect,
          Dinode.slot_indirect] at clash
        exact other (clash used equal).1
      · apply Grown.of_data
        · rfl
        · intro n held
          rw [slots, if_neg]
          rintro rfl
          rw [here] at held
          exact held empty
        · intro n none_
          rw [slots]
          split
          · exact fresh
          · rw [none_]
            exact zero_not_mem_used sb s.disk
        · intro c used other
          exact (update_of_ne other _ _).trans (untouched c used)
        · intro c below
          have := sb.bmapstart_lt_nmeta
          have := taken.1
          refine (update_of_ne (by omega) _ _).trans ?_
          exact allocate_of_ne inside (by omega) (.inl below)
        · rintro c ⟨data, lower, set_⟩
          exact ⟨data, lower, by rw [bits c lower, set_, Bool.or_true]⟩
      · exact fun zero => absurd zero nonzero
      · rw [if_pos ⟨here.trans empty, nonzero⟩]
        simp [Logs, State.allocate]
  · rw [if_neg empty]
    refine .pure ⟨sound, .refl sb ip s.disk, same, fun zero => absurd zero empty, ?_⟩
    rw [if_neg fun both => empty (here ▸ both.1)]
    exact .refl s

end

theorem slotOf_direct {bn : Nat} (direct : bn < NDIRECT) : slotOf bn = bn := if_pos direct

theorem slotOf_entry {bn : Nat} (direct : ¬ bn < NDIRECT) :
    slotOf bn = NDIRECT + 1 + (bn - NDIRECT) := by
  rw [slotOf, if_neg direct]
  omega

section

variable (sound : Sound sb s.disk (update ino i ip))
include sound

theorem bmap_direct {bn : Nat} (direct : bn < NDIRECT) :
    Outcome (bmap sb ip bn) s E fun r t => Mapped sb ino i ip s bn r.1 r.2 t := by
  have here : ip.slot s.disk (slotOf bn) = ip.addr ⟨bn, Nat.lt_succ_of_lt direct⟩ := by
    rw [slotOf_direct direct, Dinode.slot_direct (Nat.lt_succ_of_lt direct)]
  rw [bmap, dif_pos direct]
  refine (bmapAddr_outcome sound _).mono ?_
  rintro ⟨addr, ip'⟩ t ⟨sound', grown, slots, full, logs⟩
  have place : ∀ c, slotOf c = bn ↔ c = bn := by
    intro c
    constructor
    · intro same
      exact slotOf_inj (same.trans (slotOf_direct direct).symm)
    · rintro rfl
      exact slotOf_direct direct
  have same : ip'.addr INDIRECT = ip.addr INDIRECT := by
    rw [← @Dinode.slot_indirect _ t.disk, slots, Dinode.slot_indirect, if_neg]
    intro equal
    have : NDIRECT = bn := equal
    omega
  refine ⟨sound', grown, ?_, full, fun _ => same, _,
    if ip.slot s.disk (slotOf bn) = 0 ∧ addr ≠ 0 then [sb.bblock addr] else [], logs, ?_, ?_, ?_,
    ?_⟩
  · intro c
    rw [slots]
    simp only [place]
  · intro x member
    split at member
    · rename_i new
      have taken := sound'.slot_mem (i := i) (k := bn)
      rw [update_self, slots, if_pos rfl] at taken
      rw [List.mem_singleton.mp member]
      exact (Superblock.bblock_bounds (taken new.2).2.1).2
    · cases member
  · intro x logged
    split at logged
    · rename_i new
      rw [here, if_pos new]
      rcases List.mem_pair.mp logged with map | block
      · exact .inl (by simp [map])
      · exact .inr (.inr ⟨block, new.1⟩)
    · cases logged
  · intro empty nonzero
    have new : ip.addr ⟨bn, Nat.lt_succ_of_lt direct⟩ = 0 ∧ addr ≠ 0 :=
      ⟨here.symm.trans empty, nonzero⟩
    simp [new]
  · rw [noIndirect, noIndirect, same, Nat.add_comm]
    refine Nat.add_le_add_left ?_ _
    split
    · exact Nat.le_refl 1
    · exact Nat.zero_le _

theorem bmap_indirect {bn : Nat} (direct : ¬ bn < NDIRECT) (short : bn < MAXFILE) :
    Outcome (bmap sb ip bn) s E fun r t => Mapped sb ino i ip s bn r.1 r.2 t := by
  have small : bn - NDIRECT < NINDIRECT := by
    unfold MAXFILE at short
    omega
  have place := slotOf_entry direct
  rw [bmap, dif_neg direct, if_pos small]
  refine .bind ((bmapAddr_outcome sound INDIRECT).mono ?_)
  rintro ⟨ind, ip'⟩ t ⟨sound', grown, slots, full, logs⟩
  dsimp only at sound' grown slots full logs ⊢
  have addr : ip'.addr INDIRECT = ind := by
    rw [← @Dinode.slot_indirect _ t.disk, slots]
    exact if_pos rfl
  -- the first step changes the slot of the indirect block only
  have files : ∀ c, ip'.slot t.disk (slotOf c) = ip.slot s.disk (slotOf c) := fun c => by
    rw [slots, if_neg]
    exact slotOf_ne_indirect c
  by_cases none_ : ind = 0
  · rw [if_pos none_]
    have missing : ip.addr INDIRECT = 0 := by
      by_contra some_
      have same := grown.kept NDIRECT
      rw [Dinode.slot_indirect, Dinode.slot_indirect, addr, none_] at same
      exact some_ (same some_).symm
    refine .pure ⟨sound', grown, ?_, fun _ => full none_, fun low => absurd low direct, [], [], ?_,
      by simp, by simp, fun _ nonzero => absurd rfl nonzero, ?_⟩
    · intro c
      rw [files]
      split
      · rename_i same
        rw [same, place]
        exact Dinode.slot_eq_zero (by omega) missing
      · rfl
    · simpa [none_] using logs
    · simp only [noIndirect, addr, none_, missing, List.length_nil]
      omega
  · rw [if_neg none_, ← addr]
    have some_ : ip'.addr INDIRECT ≠ 0 := by
      rw [addr]
      exact none_
    refine .bind ((bmapEntry_outcome sound' some_ small).mono ?_)
    rintro b u ⟨sound'', grown', slots', full', logs'⟩
    refine .pure ⟨sound'', grown.trans grown', ?_, full', fun low => absurd low direct, _,
      [sb.bblock ind].take (noIndirect ip) ++ (if ip.slot s.disk (slotOf bn) = 0 ∧ b ≠ 0 then
        [sb.bblock b] else []), logs.trans logs', ?_, ?_, ?_, ?_⟩
    · intro c
      have same : slotOf c = NDIRECT + 1 + (bn - NDIRECT) ↔ c = bn := by
        rw [← place]
        exact ⟨fun equal => slotOf_inj equal, fun equal => by rw [equal]⟩
      rw [slots', files]
      simp only [same]
    · intro x member
      rcases List.mem_append.mp member with first | second
      · have taken := sound'.slot_mem (i := i) (k := NDIRECT)
        rw [update_self, Dinode.slot_indirect, addr] at taken
        rw [List.mem_singleton.mp (List.mem_of_mem_take first)]
        exact (Superblock.bblock_bounds (taken none_).2.1).2
      · split at second
        · rename_i new
          have taken := sound''.slot_mem (i := i) (k := NDIRECT + 1 + (bn - NDIRECT))
          rw [update_self, slots', if_pos rfl] at taken
          rw [List.mem_singleton.mp second]
          exact (Superblock.bblock_bounds (taken new.2).2.1).2
        · cases second
    · rw [← place, files]
      intro x logged
      rcases List.mem_append.mp logged with first | second
      · split at first
        · rename_i new
          rw [noIndirect, if_pos new.1]
          rcases List.mem_pair.mp first with map | block
          · exact .inl (by simp [map])
          · exact .inr (.inl ⟨block.trans addr.symm, block ▸ none_⟩)
        · cases first
      · split at second
        · rename_i new
          rw [if_pos new]
          simp only [List.mem_cons, List.not_mem_nil, or_false] at second
          rcases second with map | data | indirect
          · exact .inl (by simp [map])
          · exact .inr (.inr ⟨data, new.1⟩)
          · exact .inr (.inl ⟨indirect, indirect ▸ some_⟩)
        · cases second
    · intro empty nonzero
      have new : ip.slot s.disk (slotOf bn) = 0 ∧ b ≠ 0 := ⟨empty, nonzero⟩
      rw [← place, files]
      simp [new]
    · have zero : noIndirect ip' = 0 := if_neg some_
      rw [zero, List.length_append, Nat.add_zero]
      refine Nat.add_le_add (by simp) ?_
      split
      · exact Nat.le_refl 1
      · exact Nat.zero_le _

theorem bmap_outcome {bn : Nat} (short : bn < MAXFILE) :
    Outcome (bmap sb ip bn) s E fun r t => Mapped sb ino i ip s bn r.1 r.2 t := by
  by_cases direct : bn < NDIRECT
  · exact bmap_direct sound direct
  · exact bmap_indirect sound direct short

end

end bmap

end Xv6.Kernel.Fs
