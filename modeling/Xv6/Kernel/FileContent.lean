import Xv6.Kernel.FsSound

/-! # The contents of files

An inode stands for a sequence of bytes, which lie in the blocks of its slots. A file has no
holes: its first blocks are there, at least as many as its size takes. `writei` keeps this
whether it gets to its end or stops, because the disk is full or the source cannot be read.
-/

namespace Xv6.Kernel.Fs

open Lib Function

/-- The byte at `off` of the file. -/
def byteAt (ip : Dinode) (disk : Disk) (off : Nat) : UInt8 :=
  (disk (ip.slot disk (slotOf (off / BSIZE)))).bytes (off % BSIZE)

/-- The file as a sequence of bytes. -/
def content (ip : Dinode) (disk : Disk) : List UInt8 :=
  (List.range ip.size.toNat).map (byteAt ip disk)

/-- The file has its first `m` blocks, and no other. -/
def Dense (ip : Dinode) (disk : Disk) (m : Nat) : Prop :=
  ∀ bn, ip.slot disk (slotOf bn) ≠ 0 ↔ bn < m

namespace Source

variable {src : Source} {i m : Nat}

/-- `either_copyin` copies up to the first byte that cannot be read. -/
theorem copyin_spec (src : Source) (i m : Nat) : (src.copyin i m).1.length ≤ m ∧
    (∀ x, x < (src.copyin i m).1.length → src (i + x) = some ((src.copyin i m).1.getD x 0)) ∧
    ((src.copyin i m).2 = true → (src.copyin i m).1.length = m) ∧
    ((src.copyin i m).2 = false → (src.copyin i m).1.length < m ∧
      src (i + (src.copyin i m).1.length) = none) := by
  induction m generalizing i with
  | zero => simp [copyin]
  | succ m ih =>
    rw [copyin]
    cases here : src i with
    | none => simp [here]
    | some c =>
      obtain ⟨short, bytes, whole, stopped⟩ := ih (i + 1)
      refine ⟨by simpa using short, ?_, ?_, ?_⟩
      · intro x inside
        cases x with
        | zero => simpa using here
        | succ x =>
          have next := bytes x (by simpa using inside)
          rw [show i + (x + 1) = i + 1 + x by omega]
          simpa using next
      · intro ok
        simpa using whole ok
      · intro bad
        obtain ⟨less, missing⟩ := stopped bad
        refine ⟨by simpa using less, ?_⟩
        rw [List.length_cons, show i + ((src.copyin (i + 1) m).1.length + 1) =
          i + 1 + (src.copyin (i + 1) m).1.length by omega]
        exact missing

end Source

/-! ## A data block is written -/

section

variable {sb : Superblock} {disk : Disk} {ino : Nat → Dinode} {i bn : Nat}

section

variable (sound : Sound sb disk ino) (held : (ino i).slot disk (slotOf bn) ≠ 0)
include sound held

theorem Sound.slot_setData (data : Block) (j n : Nat) :
    (ino j).slot (update disk ((ino i).slot disk (slotOf bn)) data) n = (ino j).slot disk n := by
  apply Dinode.slot_congr
  intro _
  apply update_of_ne
  intro same
  rw [← @Dinode.slot_indirect _ disk] at same
  exact slotOf_ne_indirect bn (sound.slot_unique held same.symm).2

theorem Sound.setData (data : Block) :
    Sound sb (update disk ((ino i).slot disk (slotOf bn)) data) ino := by
  have high := (sound.slot_mem held).1
  have bitmap : ∀ c, sb.bmapstart ≤ c → c < sb.nmeta →
      update disk ((ino i).slot disk (slotOf bn)) data c = disk c := fun c _ low =>
    update_of_ne (by omega) _ _
  constructor
  · intro b low inside
    have place := Superblock.bblock_bounds inside
    rw [Superblock.bit_congr (bitmap _ place.1 place.2)]
    exact sound.metadata b low inside
  · rw [Superblock.used_congr bitmap]
    simpa only [sound.slot_setData held] using sound.ledger

/-- What the bytes `p`, written to file block `bn` from `at_` on, do to the bytes of a file. -/
theorem Sound.byteAt_put {p : List UInt8} {at_ : Nat} (room : at_ + p.length ≤ BSIZE) {j x : Nat}
    (there : (ino j).slot disk (slotOf (x / BSIZE)) ≠ 0) :
    byteAt (ino j) (update disk ((ino i).slot disk (slotOf bn))
      ((disk ((ino i).slot disk (slotOf bn))).put at_ p)) x =
      if j = i ∧ x / BSIZE = bn ∧ at_ ≤ x % BSIZE ∧ x % BSIZE < at_ + p.length then
        p.getD (x % BSIZE - at_) 0 else byteAt (ino j) disk x := by
  have inBlock : x % BSIZE < BSIZE := Nat.mod_lt x (by decide)
  rw [byteAt, sound.slot_setData held]
  by_cases here : j = i ∧ x / BSIZE = bn
  · obtain ⟨rfl, rfl⟩ := here
    rw [update_self]
    by_cases inside : at_ ≤ x % BSIZE ∧ x % BSIZE < at_ + p.length
    · rw [if_pos ⟨rfl, rfl, inside⟩]
      have byte := @Block.bytes_put_inside at_ (x % BSIZE - at_)
        (disk ((ino j).slot disk (slotOf (x / BSIZE)))) p room (by omega)
      rwa [Nat.add_sub_cancel' inside.1] at byte
    · rw [if_neg fun all => inside all.2.2]
      exact Block.bytes_put_outside inBlock (by omega)
  · rw [if_neg fun all => here ⟨all.1, all.2.1⟩, update_of_ne, byteAt]
    intro same
    have equal := sound.slot_unique there same
    exact here ⟨equal.1, slotOf_inj equal.2⟩

end

end

/-! ## One round of writei -/

/-- What a round of `writei` leaves that copies the bytes `p` to the block of `off`. The file
    had `m` blocks and has `m'`. -/
structure Chunk (sb : Superblock) (ino : Nat → Dinode) (i : Nat) (ip : Dinode) (s : State)
    (off m : Nat) (p : List UInt8) (ip' : Dinode) (t : State) (m' : Nat) : Prop where
  sound : Sound sb t.disk (update ino i ip')
  frame : Frame sb ip s.disk ip' t.disk
  dense : Dense ip' t.disk m'
  indirect : off / BSIZE < NDIRECT → ip'.addr INDIRECT = ip.addr INDIRECT
  bytes : ∀ x, x < p.length → byteAt ip' t.disk (off + x) = p.getD x 0
  rest : ∀ x, ip.slot s.disk (slotOf (x / BSIZE)) ≠ 0 → x < off ∨ off + p.length ≤ x →
    byteAt ip' t.disk x = byteAt ip s.disk x
  logged : ∃ more maps : List Nat, t.log = s.log ++ more ∧
    t.changed = s.changed ++ more ++
      (if p = [] then [] else [ip'.slot t.disk (slotOf (off / BSIZE))]) ∧
    (∀ x ∈ maps, x < sb.nmeta) ∧ maps.length + noIndirect ip' ≤ noIndirect ip + (m' - m) ∧
    (∀ x ∈ more, x ∈ maps ∨ (x = ip'.addr INDIRECT ∧ x ≠ 0) ∨
      (m ≤ off / BSIZE ∧ x = ip'.slot t.disk (slotOf (off / BSIZE)))) ∧
    (m ≤ off / BSIZE → ip'.slot t.disk (slotOf (off / BSIZE)) ∈ more)

section Mapped

variable {sb : Superblock} {ino : Nat → Dinode} {i : Nat} {ip ip' : Dinode} {s t : State}
variable {bn addr m : Nat}

theorem Mapped.byteAt (mapped : Mapped sb ino i ip s bn addr ip' t)
    (sound : Sound sb s.disk (update ino i ip)) {x : Nat}
    (there : ip.slot s.disk (slotOf (x / BSIZE)) ≠ 0) :
    byteAt ip' t.disk x = byteAt ip s.disk x := by
  have taken := sound.slot_mem (i := i) (k := slotOf (x / BSIZE))
  have unique := sound.slot_unique (i := i) (k := slotOf (x / BSIZE)) (j := i) (n := NDIRECT)
  rw [update_self] at taken unique
  rw [Fs.byteAt, mapped.grown.kept _ there, mapped.grown.data _ (taken there), Fs.byteAt]
  rw [← @Dinode.slot_indirect _ s.disk]
  exact fun same => slotOf_ne_indirect _ (unique there same).2

/-- Without a free block, the next block of the file is missing. -/
theorem Mapped.next (mapped : Mapped sb ino i ip s bn 0 ip' t) (dense : Dense ip s.disk m) :
    m ≤ bn ∧ Dense ip' t.disk m := by
  have missing : ¬ bn < m := by
    intro below
    have held := (dense bn).mpr below
    have kept := mapped.grown.kept _ held
    rw [mapped.slots, if_pos rfl] at kept
    exact held kept.symm
  refine ⟨Nat.le_of_not_lt missing, fun c => ?_⟩
  rw [mapped.slots]
  split
  · rename_i same
    rw [same]
    simpa using missing
  · exact dense c

theorem Mapped.dense (mapped : Mapped sb ino i ip s bn addr ip' t) (nonzero : addr ≠ 0)
    (dense : Dense ip s.disk m) (le : bn ≤ m) : Dense ip' t.disk (max m (bn + 1)) := by
  intro c
  rw [mapped.slots]
  split
  · rename_i same
    simp only [same, ne_eq, nonzero, not_false_eq_true, true_iff]
    omega
  · rename_i other
    rw [dense c]
    omega

end Mapped

section writei

variable {sb : Superblock} {ino : Nat → Dinode} {i : Nat} {ip ip' : Dinode} {s t : State}
variable {E : Panic → Prop} {off m : Nat} {p : List UInt8}

theorem div_mod_add {x : Nat} (room : off % BSIZE + x < BSIZE) :
    (off + x) / BSIZE = off / BSIZE ∧ (off + x) % BSIZE = off % BSIZE + x := by
  unfold BSIZE at *
  omega

theorem div_lt_of_le {n tot k : Nat} (low : off + (n - tot) ≤ k * BSIZE) (left : tot < n) :
    off / BSIZE < k := by
  unfold BSIZE at *
  omega

theorem copyTo_outcome {addr : Nat} (sound : Sound sb s.disk (update ino i ip))
    (mapped : Mapped sb ino i ip s (off / BSIZE) addr ip' t) (nonzero : addr ≠ 0)
    (dense : Dense ip s.disk m) (le : off ≤ m * BSIZE) (room : off % BSIZE + p.length ≤ BSIZE) :
    Outcome (copyTo addr (off % BSIZE) p) t E fun _ u =>
      Chunk sb ino i ip s off m p ip' u (max m (off / BSIZE + 1)) ∧
      ip'.slot u.disk (slotOf (off / BSIZE)) = addr := by
  have below : off / BSIZE ≤ m := by
    unfold BSIZE at *
    omega
  have slot : ip'.slot t.disk (slotOf (off / BSIZE)) = addr := by
    rw [mapped.slots, if_pos rfl]
  have dense' := mapped.dense nonzero dense below
  obtain ⟨more, maps, logs, low, entries, found, count⟩ := mapped.logged
  have found' : m ≤ off / BSIZE → addr ∈ more := by
    intro new
    refine found ?_ nonzero
    by_contra held
    exact absurd ((dense _).mp held) (Nat.not_lt.mpr new)
  have count' : maps.length + noIndirect ip' ≤ noIndirect ip + (max m (off / BSIZE + 1) - m) := by
    have empty := (dense (off / BSIZE)).not
    split at count
    · rename_i new
      rw [ne_eq, not_not] at empty
      have := empty.mp new.1
      omega
    · omega
  have entries' : ∀ x ∈ more, x ∈ maps ∨ (x = ip'.addr INDIRECT ∧ x ≠ 0) ∨
      (m ≤ off / BSIZE ∧ x = addr) := by
    intro x member
    refine (entries x member).imp_right (Or.imp_right ?_)
    rintro ⟨same, zero⟩
    have empty := (dense (off / BSIZE)).not
    rw [ne_eq, not_not] at empty
    exact ⟨Nat.le_of_not_lt (empty.mp zero), same⟩
  have old : ∀ x, ip.slot s.disk (slotOf (x / BSIZE)) ≠ 0 →
      byteAt ip' t.disk x = byteAt ip s.disk x := fun x there => mapped.byteAt sound there
  rw [copyTo]
  by_cases nothing : p = []
  · subst nothing
    rw [if_pos rfl]
    refine .pure ⟨⟨mapped.sound, mapped.grown.toFrame, dense', mapped.indirect, by simp,
      fun x there _ => old x there,
      more, maps, logs.1, by simpa using logs.2, low, count', ?_⟩, slot⟩
    rw [slot]
    exact ⟨entries', found'⟩
  · rw [if_neg nothing]
    refine .bind (.bind (.get (.pure (.modified ?_))))
    have held : (update ino i ip' i).slot t.disk (slotOf (off / BSIZE)) ≠ 0 := by
      rw [update_self, slot]
      exact nonzero
    have slots := mapped.sound.slot_setData held ((t.disk addr).put (off % BSIZE) p)
    have sound' := mapped.sound.setData held ((t.disk addr).put (off % BSIZE) p)
    have put := fun x => @Sound.byteAt_put _ _ _ _ _ mapped.sound held p (off % BSIZE) room i x
    rw [update_self, slot] at slots sound' put
    have mine : ∀ k, ip'.slot (update t.disk addr ((t.disk addr).put (off % BSIZE) p)) k =
        ip'.slot t.disk k := fun k => by
      simpa using slots i k
    have taken : addr ∈ sb.used t.disk := by
      have := mapped.sound.slot_mem held
      rwa [update_self, slot] at this
    refine ⟨⟨sound', ?_, ?_, mapped.indirect, ?_, ?_, more, maps, logs.1, ?_, low, count', ?_⟩,
      (mine _).trans slot⟩
    · apply mapped.grown.toFrame.trans
      constructor
      · rfl
      · exact fun k _ => mine k
      · intro k empty
        rw [mine, empty]
        exact zero_not_mem_used sb t.disk
      · intro b _ apart
        exact update_of_ne (fun same => apart _ (slot.trans same.symm)) _ _
      · intro b below
        have := taken.1
        have := sb.bmapstart_lt_nmeta
        exact update_of_ne (by omega) _ _
      · have bitmap : ∀ c, sb.bmapstart ≤ c → c < sb.nmeta →
            update t.disk addr ((t.disk addr).put (off % BSIZE) p) c = t.disk c :=
          fun c _ lower => update_of_ne (by have := taken.1; omega) _ _
        exact (Superblock.used_congr bitmap).ge
    · intro c
      rw [mine]
      exact dense' c
    · intro x inside
      obtain ⟨block, place⟩ := div_mod_add (show off % BSIZE + x < BSIZE by omega)
      have there : ip'.slot t.disk (slotOf ((off + x) / BSIZE)) ≠ 0 := by
        rw [block, slot]
        exact nonzero
      rw [put (off + x) there, if_pos ⟨rfl, block, by omega, by omega⟩, place,
        Nat.add_sub_cancel_left]
    · intro x there outside
      have kept := mapped.grown.kept _ there
      rw [put x (kept ▸ there), if_neg, old x there]
      rintro ⟨-, block, first, last⟩
      have left := Nat.div_add_mod x BSIZE
      have right := Nat.div_add_mod off BSIZE
      rw [block] at left
      omega
    · rw [if_neg nothing, mine, slot, ← logs.2]
    · rw [mine, slot]
      exact ⟨entries', found'⟩

end writei

/-! ## The loop of writei -/

/-- What the loop of `writei` leaves. It starts at `off` and `tot` and ends at `off'` and `tot'`;
    `k` bytes beyond `off'` were copied when the source could not be read. The file had
    `m` blocks and has `m'`. -/
structure Written (sb : Superblock) (ino : Nat → Dinode) (i : Nat) (src : Source) (n : Nat)
    (ip : Dinode) (s : State) (off tot m : Nat) (ip' : Dinode) (t : State) (off' tot' m' k : Nat) :
    Prop where
  sound : Sound sb t.disk (update ino i ip')
  frame : Frame sb ip s.disk ip' t.disk
  dense : Dense ip' t.disk m'
  blocks : m ≤ m' ∧ off' ≤ m' * BSIZE ∧ (m' = m ∨ m' * BSIZE < off + (n - tot) + BSIZE)
  indirect : off + (n - tot) ≤ NDIRECT * BSIZE → ip'.addr INDIRECT = ip.addr INDIRECT
  count : tot ≤ tot' ∧ tot' ≤ n ∧ off' = off + (tot' - tot)
  bytes : ∀ x, x < tot' - tot + k → src (tot + x) = some (byteAt ip' t.disk (off + x))
  rest : ∀ x, ip.slot s.disk (slotOf (x / BSIZE)) ≠ 0 → x < off ∨ off' + k ≤ x →
    byteAt ip' t.disk x = byteAt ip s.disk x
  ends : tot' = n ∧ k = 0 ∨
    (tot' < n ∧ k = 0 ∧ Full sb t.disk ∧ m' ≤ off' / BSIZE) ∨
    (tot' + k < n ∧ off' % BSIZE + k < BSIZE ∧ src (tot' + k) = none ∧ off' / BSIZE < m' ∧
      (tot' = tot ∨ off' % BSIZE = 0))
  logged : ∃ l c maps : List Nat, t.log = s.log ++ l ∧ t.changed = s.changed ++ c ∧
    (∀ x ∈ maps, x < sb.nmeta) ∧ maps.length + noIndirect ip' ≤ noIndirect ip + (m' - m) ∧
    (∀ x ∈ l, x ∈ maps ∨ (x = ip'.addr INDIRECT ∧ x ≠ 0) ∨ ∃ bn, off / BSIZE ≤ bn ∧
      bn * BSIZE < off + (n - tot) ∧ (bn * BSIZE < off' ∧ off < off' ∨ m ≤ bn) ∧
      x = ip'.slot t.disk (slotOf bn)) ∧
    (∀ x ∈ c, x ∈ l ∨ (0 < k ∧ x = ip'.slot t.disk (slotOf (off' / BSIZE)))) ∧
    (0 < k → ip'.slot t.disk (slotOf (off' / BSIZE)) ∈ c) ∧
    ∀ bn, m ≤ bn → bn < m' → ip'.slot t.disk (slotOf bn) ∈ l

namespace Written

variable {sb : Superblock} {ino : Nat → Dinode} {i n : Nat} {src : Source}
variable {ip ip' ip'' : Dinode} {s t u : State} {off tot m m' : Nat}

theorem done (sound : Sound sb s.disk (update ino i ip)) (dense : Dense ip s.disk m)
    (le : off ≤ m * BSIZE) (all : tot = n) :
    Written sb ino i src n ip s off tot m ip s off tot m 0 where
  sound := sound
  frame := .refl sb ip s.disk
  dense := dense
  blocks := ⟨Nat.le_refl m, le, .inl rfl⟩
  indirect _ := rfl
  count := by omega
  bytes x inside := by omega
  rest _ _ _ := rfl
  ends := .inl ⟨all, rfl⟩
  logged := ⟨[], [], [], by simp, by simp, by simp, by simp, by simp, by simp, by simp, by omega⟩

theorem full (sound : Sound sb s.disk (update ino i ip)) (dense : Dense ip s.disk m)
    (le : off ≤ m * BSIZE) (left : tot < n) (mapped : Mapped sb ino i ip s (off / BSIZE) 0 ip' t) :
    Written sb ino i src n ip s off tot m ip' t off tot m 0 where
  sound := mapped.sound
  frame := mapped.grown.toFrame
  dense := (mapped.next dense).2
  blocks := ⟨Nat.le_refl m, le, .inl rfl⟩
  indirect low := mapped.indirect (div_lt_of_le low left)
  count := by omega
  bytes x inside := by omega
  rest x there _ := mapped.byteAt sound there
  ends := .inr (.inl ⟨left, rfl, mapped.full rfl, (mapped.next dense).1⟩)
  logged := by
    obtain ⟨more, maps, logs, low, entries, -, count⟩ := mapped.logged
    obtain ⟨new, -⟩ := mapped.next dense
    refine ⟨more, more, maps, logs.1, logs.2, low, ?_, ?_, fun x member => .inl member, by simp,
      by omega⟩
    · simpa using count
    · intro x member
      refine (entries x member).imp_right (Or.imp_right ?_)
      rintro ⟨same, -⟩
      refine ⟨off / BSIZE, Nat.le_refl _, ?_, .inr new, ?_⟩
      · have := Nat.div_mul_le_self off BSIZE
        omega
      · rw [same, mapped.slots, if_pos rfl]

theorem fault {p : List UInt8} (chunk : Chunk sb ino i ip s off m p ip' t (max m (off / BSIZE + 1)))
    (le : off ≤ m * BSIZE) (short : tot + p.length < n) (room : off % BSIZE + p.length < BSIZE)
    (read : ∀ x, x < p.length → src (tot + x) = some (p.getD x 0))
    (missing : src (tot + p.length) = none) :
    Written sb ino i src n ip s off tot m ip' t off tot (max m (off / BSIZE + 1)) p.length where
  sound := chunk.sound
  frame := chunk.frame
  dense := chunk.dense
  blocks := by
    have := Nat.div_add_mod off BSIZE
    refine ⟨Nat.le_max_left _ _, ?_, ?_⟩
    · exact le.trans (Nat.mul_le_mul_right _ (Nat.le_max_left _ _))
    · by_cases old : off / BSIZE + 1 ≤ m
      · exact .inl (Nat.max_eq_left old)
      · rw [Nat.max_eq_right (Nat.le_of_not_le old), Nat.add_mul, Nat.mul_comm, Nat.one_mul]
        exact .inr (by omega)
  indirect low := chunk.indirect (div_lt_of_le low (by omega))
  count := by omega
  bytes x inside := by
    rw [Nat.sub_self, Nat.zero_add] at inside
    rw [read x inside, chunk.bytes x inside]
  rest := chunk.rest
  ends := .inr (.inr ⟨short, room, missing, by omega, .inl rfl⟩)
  logged := by
    obtain ⟨more, maps, log, changed, low, count, entries, found⟩ := chunk.logged
    refine ⟨more, _, maps, log, changed.trans (List.append_assoc ..), low, count, ?_, ?_, ?_, ?_⟩
    · intro x member
      refine (entries x member).imp_right (Or.imp_right ?_)
      rintro ⟨new, same⟩
      refine ⟨off / BSIZE, Nat.le_refl _, ?_, .inr new, same⟩
      have := Nat.div_mul_le_self off BSIZE
      omega
    · intro x member
      refine (List.mem_append.mp member).imp_right fun last => ?_
      split at last
      · cases last
      · rename_i some_
        exact ⟨List.length_pos_iff.mpr some_, List.mem_singleton.mp last⟩
    · intro some_
      rw [if_neg (List.length_pos_iff.mp some_)]
      simp
    · intro bn old new
      have below : off / BSIZE ≤ m := by
        unfold BSIZE at *
        omega
      obtain rfl : bn = off / BSIZE := by omega
      exact found old

theorem cons {p : List UInt8} {off' tot' m'' k : Nat} (chunk : Chunk sb ino i ip s off m p ip' t m')
    (rest : Written sb ino i src n ip' { t with log := t.log ++
      [ip'.slot t.disk (slotOf (off / BSIZE))] } (off + p.length) (tot + p.length) m'
      ip'' u off' tot' m'' k)
    (le : off ≤ m * BSIZE) (blocks : m' = max m (off / BSIZE + 1)) (some_ : p ≠ [])
    (fits : tot + p.length ≤ n) (room : off % BSIZE + p.length ≤ BSIZE)
    (whole : tot + p.length = n ∨ off % BSIZE + p.length = BSIZE)
    (read : ∀ x, x < p.length → src (tot + x) = some (p.getD x 0)) :
    Written sb ino i src n ip s off tot m ip'' u off' tot' m'' k := by
  have positive : 0 < p.length := List.length_pos_iff.mpr some_
  obtain ⟨grows, covers, limit⟩ := rest.blocks
  obtain ⟨first, last, offset⟩ := rest.count
  have split := Nat.div_add_mod off BSIZE
  have below := Nat.div_mul_le_self off BSIZE
  -- what the first round has written stays
  have kept : ∀ c, ip'.slot t.disk (slotOf c) ≠ 0 →
      ip''.slot u.disk (slotOf c) = ip'.slot t.disk (slotOf c) := fun c => rest.frame.kept _
  have here : ip'.slot t.disk (slotOf (off / BSIZE)) ≠ 0 := (chunk.dense _).mpr (by omega)
  refine ⟨rest.sound, chunk.frame.trans rest.frame, rest.dense, ?_, ?_, by omega, ?_, ?_, ?_, ?_⟩
  · refine ⟨by omega, covers, ?_⟩
    rcases limit with same | small
    · by_cases old : off / BSIZE + 1 ≤ m
      · exact .inl (by omega)
      · have new : m'' = off / BSIZE + 1 := by omega
        rw [new, Nat.add_mul, Nat.mul_comm, Nat.one_mul]
        exact .inr (by omega)
    · exact .inr (by omega)
  · intro low
    rw [rest.indirect (by omega)]
    exact chunk.indirect (div_lt_of_le low (by omega))
  · intro x inside
    by_cases mine : x < p.length
    · obtain ⟨block, -⟩ := @div_mod_add off x (by omega)
      rw [read x mine, rest.rest (off + x) (by rw [block]; exact here) (by omega),
        chunk.bytes x mine]
    · have later := rest.bytes (x - p.length) (by omega)
      rw [show tot + p.length + (x - p.length) = tot + x by omega,
        show off + p.length + (x - p.length) = off + x by omega] at later
      exact later
  · intro x there outside
    have still := chunk.frame.kept _ there
    rw [rest.rest x (still ▸ there) (by omega), chunk.rest x there (by omega)]
  · rcases rest.ends with all | full | ⟨less, inBlock, missing, present, start⟩
    · exact .inl all
    · exact .inr (.inl full)
    · refine .inr (.inr ⟨less, inBlock, missing, present, .inr ?_⟩)
      rcases start with same | aligned
      · -- the source ends in the second round, which starts a block
        have : off' = off + p.length := by omega
        have : off % BSIZE + p.length = BSIZE := by omega
        rw [show off' = BSIZE * (off / BSIZE + 1) by rw [Nat.mul_add]; omega]
        exact Nat.mul_mod_right _ _
      · exact aligned
  · obtain ⟨more, maps, log, changed, low, count, entries, found⟩ := chunk.logged
    obtain ⟨l, c, maps', log', changed', low', count', entries', logged, copied, found'⟩ :=
      rest.logged
    rw [if_neg some_] at changed
    refine ⟨more ++ [ip'.slot t.disk (slotOf (off / BSIZE))] ++ l,
      more ++ [ip'.slot t.disk (slotOf (off / BSIZE))] ++ c, maps ++ maps', ?_, ?_, ?_, ?_, ?_, ?_,
      ?_, ?_⟩
    · rw [log', log]
      simp
    · rw [changed', changed]
      simp
    · intro x member
      exact (List.mem_append.mp member).elim (low x) (low' x)
    · rw [List.length_append]
      omega
    · intro x member
      rcases List.mem_append.mp member with mine | later
      · rcases List.mem_append.mp mine with found | written
        · rcases entries x found with map | ⟨same, nonzero⟩ | ⟨new, same⟩
          · exact .inl (List.mem_append_left _ map)
          · have still := rest.frame.kept NDIRECT
            rw [Dinode.slot_indirect, Dinode.slot_indirect] at still
            exact .inr (.inl ⟨same.trans (still (same ▸ nonzero)).symm, nonzero⟩)
          · exact .inr (.inr ⟨off / BSIZE, Nat.le_refl _, by omega, .inr new,
              same.trans (kept _ here).symm⟩)
        · rw [List.mem_singleton] at written
          exact .inr (.inr ⟨off / BSIZE, Nat.le_refl _, by omega, .inl ⟨by omega, by omega⟩,
            written.trans (kept _ here).symm⟩)
      · rcases entries' x later with map | indirect | ⟨bn, first, inside, logged, same⟩
        · exact .inl (List.mem_append_right _ map)
        · exact .inr (.inl indirect)
        · have := Nat.div_le_div_right (c := BSIZE) (Nat.le_add_right off p.length)
          exact .inr (.inr ⟨bn, by omega, by omega, by omega, same⟩)
    · intro x member
      rcases List.mem_append.mp member with mine | later
      · exact .inl (List.mem_append_left _ mine)
      · exact (logged x later).imp_left (List.mem_append_right _)
    · exact fun some_ => List.mem_append_right _ (copied some_)
    · intro bn old new
      by_cases first : bn < m'
      · have near : off / BSIZE ≤ m := by
          unfold BSIZE at *
          omega
        obtain rfl : bn = off / BSIZE := by omega
        rw [kept _ here]
        exact List.mem_append_left _ (List.mem_append_right _ (List.mem_singleton_self _))
      · exact List.mem_append_right _ (found' bn (Nat.le_of_not_lt first) new)

end Written

section writei

variable {sb : Superblock} {ino : Nat → Dinode} {i n : Nat} {src : Source} {E : Panic → Prop}

theorem writeiLoop_outcome (rounds : Nat) {ip : Dinode} {s : State} {off tot m : Nat}
    (sound : Sound sb s.disk (update ino i ip)) (dense : Dense ip s.disk m)
    (le : off ≤ m * BSIZE) (short : off + (n - tot) ≤ MAXFILE * BSIZE) (start : tot ≤ n)
    (enough : n - tot ≤ rounds) :
    Outcome (writeiLoop sb src n rounds ip off tot) s E fun r t =>
      ∃ m' k, Written sb ino i src n ip s off tot m r.1 t r.2.1 r.2.2 m' k := by
  induction rounds generalizing ip s off tot m with
  | zero => exact .pure ⟨m, 0, .done sound dense le (by omega)⟩
  | succ rounds ih =>
    rw [writeiLoop]
    by_cases left : tot < n
    · have inFile : off / BSIZE < MAXFILE := by
        unfold BSIZE at *
        omega
      have inBlock : off % BSIZE < BSIZE := Nat.mod_lt _ (by decide)
      rw [if_pos left]
      refine .bind ((bmap_outcome sound inFile).mono ?_)
      rintro ⟨addr, ip'⟩ t mapped
      dsimp only at mapped ⊢
      by_cases none_ : addr = 0
      · subst none_
        rw [if_pos rfl]
        exact .pure ⟨m, 0, .full sound dense le left mapped⟩
      · rw [if_neg none_]
        have copied := src.copyin_spec tot (min (n - tot) (BSIZE - off % BSIZE))
        generalize src.copyin tot (min (n - tot) (BSIZE - off % BSIZE)) = r at copied ⊢
        obtain ⟨p, ok⟩ := r
        obtain ⟨length, read, whole, stopped⟩ := copied
        dsimp only at length read whole stopped ⊢
        refine .bind ((copyTo_outcome sound mapped none_ dense le (by omega)).mono ?_)
        rintro - u ⟨chunk, slot⟩
        cases ok with
        | false =>
          obtain ⟨less, missing⟩ := stopped rfl
          exact .pure ⟨_, _, .fault chunk le (by omega) (by omega) read missing⟩
        | true =>
          have all := whole rfl
          have some_ : p ≠ [] := List.length_pos_iff.mp (by omega)
          have covers : off + p.length ≤ max m (off / BSIZE + 1) * BSIZE := by
            have split := Nat.div_add_mod off BSIZE
            refine le_trans ?_ (Nat.mul_le_mul_right _ (Nat.le_max_right _ _))
            rw [Nat.add_mul, Nat.mul_comm, Nat.one_mul]
            omega
          simp only [if_true, ← all, ← slot]
          refine .bind (.modified ((ih (s := { u with log := u.log ++ [_] }) chunk.sound
            chunk.dense covers ?_ ?_ ?_).mono ?_))
          · omega
          · omega
          · have := List.length_pos_iff.mpr some_
            omega
          · rintro r v ⟨m', k, rest⟩
            exact ⟨m', k, .cons chunk rest le rfl some_ (by omega) (by omega) (by omega) read⟩
    · rw [if_neg left]
      exact .pure ⟨m, 0, .done sound dense le (by omega)⟩

end writei

end Xv6.Kernel.Fs
