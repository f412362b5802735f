import Xv6.Kernel.FsTrunc

/-! # Files without their blocks

What is left of the inodes when the block numbers are forgotten: for each number the fields and
the bytes of its file. The operations on inodes keep the file system well formed and change
one node each, whether or not they can do all that they are asked to.
-/

namespace Xv6.Kernel.Fs

open Lib Function

/-- An inode and its content. -/
structure Node where
  type : BitVec 16
  major : BitVec 16
  minor : BitVec 16
  nlink : BitVec 16
  bytes : List UInt8
  deriving DecidableEq

/-- An inode that is not allocated. -/
def Node.free : Node := ⟨0, 0, 0, 0, []⟩

def node (ip : Dinode) (disk : Disk) : Node :=
  ⟨ip.type, ip.major, ip.minor, ip.nlink, content ip disk⟩

def nodes (sb : Superblock) (disk : Disk) (i : Nat) : Node := node (inodes sb disk i) disk

section

variable {sb : Superblock} {disk disk' : Disk} {s t u : State} {i j : Nat} {ip ip' : Dinode}
variable {E : Panic → Prop}

@[simp] theorem nodes_type (sb : Superblock) (disk : Disk) (i : Nat) :
    (nodes sb disk i).type = (inodes sb disk i).type := rfl

@[simp] theorem length_content (ip : Dinode) (disk : Disk) :
    (content ip disk).length = ip.size.toNat := by
  simp [content]

theorem content_congr (same : ∀ x, x < ip.size.toNat → byteAt ip disk' x = byteAt ip disk x) :
    content ip disk' = content ip disk :=
  List.map_congr_left fun x inside => same x (List.mem_range.mp inside)

/-- In `t` inode `i` has become `ip`, with which its node is `n`; nothing else has changed. -/
structure Becomes (sb : Superblock) (s : State) (i : Nat) (ip : Dinode) (n : Node) (t : State) :
    Prop where
  wellFormed : WellFormed sb t.disk
  inodes : inodes sb t.disk = update (inodes sb s.disk) i ip
  nodes : nodes sb t.disk = update (nodes sb s.disk) i n

theorem Becomes.refl (wf : WellFormed sb s.disk) :
    Becomes sb s i (Fs.inodes sb s.disk i) (Fs.nodes sb s.disk i) s where
  wellFormed := wf
  inodes := (update_eq_self _ _).symm
  nodes := (update_eq_self _ _).symm

theorem Becomes.trans {n n' : Node} (first : Becomes sb s i ip n t)
    (second : Becomes sb t i ip' n' u) : Becomes sb s i ip' n' u where
  wellFormed := second.wellFormed
  inodes := by rw [second.inodes, first.inodes, update_idem]
  nodes := by rw [second.nodes, first.nodes, update_idem]

/-- The inode `ip'` goes to the disk. In `u` the other nodes are those of `s`. -/
theorem Becomes.stored {new : Dinode} (first : 0 < i) (inside : i < sb.ninodes)
    (becomes : (if ip'.type = 0 then Dinode.zero else ip') = new)
    (same : Fs.inodes sb u.disk = Fs.inodes sb s.disk)
    (others : ∀ j, j ≠ i → Fs.nodes sb u.disk j = Fs.nodes sb s.disk j)
    (sound : Sound sb u.disk (update (Fs.inodes sb u.disk) i new))
    (dense : ∀ j, ∃ m, Dense (update (Fs.inodes sb u.disk) i new j) u.disk m ∧
      (update (Fs.inodes sb u.disk) i new j).size.toNat ≤ m * BSIZE) :
    Becomes sb s i new (node new u.disk) (u.iupdate sb i ip') := by
  obtain ⟨wf, ino⟩ := WellFormed.stored first inside becomes sound dense
  refine ⟨wf, by rw [ino, same], ?_⟩
  -- a byte of a file is in a block that is there, so not in the block of the inode
  have bytes : ∀ j, content (update (Fs.inodes sb u.disk) i new j)
      (u.iupdate sb i ip').disk = content (update (Fs.inodes sb u.disk) i new j) u.disk := by
    intro j
    obtain ⟨m, holds, covers⟩ := dense j
    apply content_congr
    intro x small
    apply sound.byteAt_iupdate inside
    rw [holds]
    unfold BSIZE at *
    omega
  funext j
  have there := bytes j
  rw [Fs.nodes, ino]
  by_cases here : j = i
  · subst here
    rw [update_self] at there ⊢
    rw [update_self, node, there, node]
  · rw [update_of_ne here] at there ⊢
    rw [update_of_ne here, ← others j here, node, there, Fs.nodes, node]

/-! ## The operations -/

variable {src : Source} {n off tot' m off' m' k : Nat}

theorem WellFormed.sound_self (wf : WellFormed sb disk) (i : Nat) :
    Sound sb disk (update (Fs.inodes sb disk) i (Fs.inodes sb disk i)) := by
  rw [update_eq_self]
  exact wf.sound

section

variable (wf : WellFormed sb s.disk)
include wf

theorem Written.becomes (allocated : Allocated sb s.disk i)
    (size : (Fs.inodes sb s.disk i).size.toNat ≤ m * BSIZE) (short : off + n ≤ MAXFILE * BSIZE)
    (written : Written sb (Fs.inodes sb s.disk) i src n
      (Fs.inodes sb s.disk i) s off 0 m ip' u off' tot' m' k) :
    Becomes sb s i (extend ip' off') { Fs.nodes sb s.disk i with
      bytes := content (extend ip' off') (u.iupdate sb i (extend ip' off')).disk }
      (u.iupdate sb i (extend ip' off')) := by
  obtain ⟨wf', ino⟩ := written.wellFormed wf allocated size short
  have fields := written.frame.fields
  refine ⟨wf', ino, ?_⟩
  funext j
  rw [Fs.nodes, ino]
  by_cases here : j = i
  · subst here
    rw [update_self, update_self, node]
    congr 1
    all_goals
      rw [extend_fields, fields]
      rfl
  · rw [update_of_ne here, update_of_ne here, node,
      written.content_of_ne wf allocated here, Fs.nodes, node]

theorem writei_becomes (allocated : Allocated sb s.disk i) (src : Source) (off n : BitVec 32) :
    Outcome (writei sb i (Fs.inodes sb s.disk i) src off n) s E fun r t =>
      ∃ bytes, Becomes sb s i r.2 { Fs.nodes sb s.disk i with bytes } t := by
  refine (writei_outcome wf i src off n).mono ?_
  rintro r t (⟨rfl, rfl, -⟩ | ⟨-, short, m, ip', u, off', m', k, tot', -, size, written, rfl, rfl⟩)
  · exact ⟨_, .refl wf⟩
  · exact ⟨_, written.becomes wf allocated size short⟩

/-- Fields that say nothing about the content are changed. -/
theorem WellFormed.iupdate_becomes (allocated : Allocated sb s.disk i) (type : ip.type ≠ 0)
    (size : ip.size = (Fs.inodes sb s.disk i).size)
    (addrs : ip.addrs = (Fs.inodes sb s.disk i).addrs) :
    Becomes sb s i ip ⟨ip.type, ip.major, ip.minor, ip.nlink, (Fs.nodes sb s.disk i).bytes⟩
      (s.iupdate sb i ip) := by
  obtain ⟨first, inside⟩ := allocated.bounds
  have slots : ∀ k, ip.slot s.disk k = (Fs.inodes sb s.disk i).slot s.disk k := by
    intro k
    rw [Dinode.slot, Dinode.slot, Dinode.addr, Dinode.addr, addrs]
    simp only [Dinode.addr, addrs]
  have bytes : content ip s.disk = content (Fs.inodes sb s.disk i) s.disk := by
    rw [content, content, size]
    congr 1
    funext x
    rw [byteAt, slots, byteAt]
  have becomes := @Becomes.stored sb s s i ip ip first inside (if_neg type) rfl (fun _ _ => rfl)
    ((wf.sound_self i).of_slots ?_) ?_
  · rw [node, bytes] at becomes
    exact becomes
  · intro j n
    by_cases here : j = i
    · rw [here, update_self, update_self, slots]
    · rw [update_of_ne here, update_of_ne here]
  · intro j
    obtain ⟨c, dense, covers⟩ := wf.dense j
    by_cases here : j = i
    · subst here
      rw [update_self, size]
      refine ⟨c, fun bn => ?_, covers⟩
      rw [slots]
      exact dense bn
    · rw [update_of_ne here]
      exact ⟨c, dense, covers⟩

/-- An inode without blocks goes to the disk; in `u` no block but of the bitmap has changed. -/
theorem WellFormed.emptied {new : Dinode} (first : 0 < i) (inside : i < sb.ninodes)
    (becomes : (if ip'.type = 0 then Dinode.zero else ip') = new)
    (sound : Sound sb u.disk (update (Fs.inodes sb s.disk) i new))
    (same : ∀ c, c < sb.bmapstart ∨ sb.nmeta ≤ c → u.disk c = s.disk c) (size : new.size = 0)
    (empty : ∀ disk k, new.slot disk k = 0) :
    Becomes sb s i new ⟨new.type, new.major, new.minor, new.nlink, []⟩ (u.iupdate sb i ip') := by
  have ino := inodes_congr fun b low => same b (.inl low)
  -- the other inodes have their slots and their bytes
  have slots : ∀ j n, (Fs.inodes sb s.disk j).slot u.disk n =
      (Fs.inodes sb s.disk j).slot s.disk n := by
    intro j n
    apply wf.sound.slot_congr
    intro c taken
    exact same c (.inr taken.1)
  have others : ∀ j, Fs.nodes sb u.disk j = Fs.nodes sb s.disk j := by
    intro j
    have bytes :
        content (Fs.inodes sb s.disk j) u.disk = content (Fs.inodes sb s.disk j) s.disk := by
      apply content_congr
      intro x small
      rw [byteAt, slots, byteAt, same _ (.inr (wf.sound.slot_mem (wf.held small)).1)]
    rw [Fs.nodes, ino, node, bytes, Fs.nodes, node]
  have bytes : content new u.disk = [] := by
    rw [content, size]
    rfl
  have stored := @Becomes.stored sb s u i ip' new first inside becomes ino (fun j _ => others j)
    (by rwa [ino]) ?_
  · rw [node, bytes] at stored
    exact stored
  · intro j
    rw [ino]
    by_cases here : j = i
    · rw [here, update_self, size]
      refine ⟨0, fun bn => ?_, Nat.le_refl _⟩
      rw [empty]
      omega
    · obtain ⟨c, dense, covers⟩ := wf.dense j
      rw [update_of_ne here]
      refine ⟨c, fun bn => ?_, covers⟩
      rw [slots]
      exact dense bn

theorem itrunc_becomes (allocated : Allocated sb s.disk i) :
    Outcome (itrunc sb i (Fs.inodes sb s.disk i)) s E fun ip t =>
      Becomes sb s i ip { Fs.nodes sb s.disk i with bytes := [] } t := by
  obtain ⟨first, inside⟩ := allocated.bounds
  refine (itrunc_outcome (wf.sound_self i)).mono ?_
  rintro ip t ⟨rfl, u, rfl, sound, same⟩
  exact wf.emptied first inside (if_neg allocated) sound same rfl (slot_truncated _)

theorem WellFormed.free_becomes (allocated : Allocated sb s.disk i) (type : ip.type = 0)
    (empty : ∀ k, (Fs.inodes sb s.disk i).slot s.disk k = 0) :
    Becomes sb s i .zero .free (s.iupdate sb i ip) := by
  obtain ⟨first, inside⟩ := allocated.bounds
  apply wf.emptied first inside (if_pos type) _ (fun _ _ => rfl) rfl Dinode.slot_zero
  apply (wf.sound_self i).of_slots
  intro j n
  by_cases here : j = i
  · rw [here, update_self, update_self, empty, Dinode.slot_zero]
  · rw [update_of_ne here, update_of_ne here]

theorem WellFormed.alloc_becomes (first : 0 < i) (inside : i < sb.ninodes)
    (free : (inodeAt sb s.disk i).type = 0) {type : BitVec 16} (some_ : type ≠ 0) :
    Becomes sb s i { Dinode.zero with type } ⟨type, 0, 0, 0, []⟩
      (s.iupdate sb i { Dinode.zero with type }) := by
  have before : Fs.inodes sb s.disk i = .zero := by
    rw [Fs.inodes, if_neg fun all => all.2.2 free]
  have none_ : ∀ disk k, ({ Dinode.zero with type } : Dinode).slot disk k = 0 := by
    intro disk k
    have same := Dinode.slot_zero disk k
    rwa [Dinode.slot] at same ⊢
  apply wf.emptied first inside (if_neg some_) _ (fun _ _ => rfl) rfl none_
  apply (wf.sound_self i).of_slots
  intro j n
  by_cases here : j = i
  · rw [here, update_self, update_self, before, none_, Dinode.slot_zero]
  · rw [update_of_ne here, update_of_ne here]

theorem iallocLoop_becomes {type : BitVec 16} (some_ : type ≠ 0) (turns : Nat) {inum : Nat}
    (first : 0 < inum) :
    Outcome (iallocLoop sb type turns inum) s E fun r t => (r = none ∧ t = s) ∨
      ∃ i, r = some i ∧ 0 < i ∧ i < sb.ninodes ∧ (Fs.nodes sb s.disk i).type = 0 ∧
        Becomes sb s i { Dinode.zero with type } ⟨type, 0, 0, 0, []⟩ t := by
  induction turns generalizing inum with
  | zero => exact .pure (.inl ⟨rfl, rfl⟩)
  | succ turns ih =>
    rw [iallocLoop]
    split
    · rename_i inside
      refine .bind (.bind (.get (.pure ?_)))
      split
      · rename_i free
        have before : (Fs.nodes sb s.disk inum).type = 0 := by
          rw [nodes_type, Fs.inodes, if_neg fun all => all.2.2 free]
          rfl
        exact .inr ⟨inum, rfl, first, inside, before, wf.alloc_becomes first inside free some_⟩
      · exact ih (Nat.succ_pos inum)
    · exact .pure (.inl ⟨rfl, rfl⟩)

theorem ialloc_becomes {type : BitVec 16} (some_ : type ≠ 0) :
    Outcome (ialloc sb type) s E fun r t => (r = none ∧ t = s) ∨
      ∃ i, r = some i ∧ 0 < i ∧ i < sb.ninodes ∧ (Fs.nodes sb s.disk i).type = 0 ∧
        Becomes sb s i { Dinode.zero with type } ⟨type, 0, 0, 0, []⟩ t :=
  iallocLoop_becomes wf some_ sb.ninodes Nat.one_pos

end

end

end Xv6.Kernel.Fs
