import Xv6.Kernel.FileSemantics

/-! # Freeing the blocks of a file

`itrunc` clears the bit of every block that the inode holds: the direct ones, those in the
entries of its indirect block, and the indirect block itself. Each bit is set when `bfree` gets
to it, because no block is in two slots.
-/

namespace Xv6.Kernel.Fs

open Lib Function

/-- From `s` to `t` the blocks among `bs` were freed; 0 stands for none. -/
structure Freed (sb : Superblock) (s t : State) (bs : List Nat) : Prop where
  bits : ∀ c, c < sb.size → c ≠ 0 →
    (sb.bit t.disk c = true ↔ c ∉ bs ∧ sb.bit s.disk c = true)
  zero : sb.bit t.disk 0 = sb.bit s.disk 0
  same : ∀ c, c < sb.bmapstart ∨ sb.nmeta ≤ c → t.disk c = s.disk c

/-- The blocks are in use and none comes twice; 0 stands for none. -/
def Freeable (sb : Superblock) (disk : Disk) (bs : List Nat) : Prop :=
  (bs.filter (· ≠ 0)).Nodup ∧ ∀ b ∈ bs, b ≠ 0 → b < sb.size ∧ sb.bit disk b = true

section

variable {sb : Superblock} {s t u : State} {E : Panic → Prop} {b : Nat} {bs bs' : List Nat}
variable {k : Fin (NDIRECT + 1)}

theorem Freed.nil (sb : Superblock) (s : State) : Freed sb s s [] :=
  ⟨by simp, rfl, fun _ _ => rfl⟩

theorem Freed.zeros (sb : Superblock) (s : State) (none_ : ∀ b ∈ bs, b = 0) : Freed sb s s bs := by
  refine ⟨fun c _ nonzero => ?_, rfl, fun _ _ => rfl⟩
  have apart : c ∉ bs := fun member => nonzero (none_ c member)
  simp [apart]

theorem Freed.append (first : Freed sb s t bs) (second : Freed sb t u bs') :
    Freed sb s u (bs ++ bs') where
  bits c inside nonzero := by
    rw [second.bits c inside nonzero, first.bits c inside nonzero, List.mem_append, not_or]
    tauto
  zero := second.zero.trans first.zero
  same c apart := (second.same c apart).trans (first.same c apart)

theorem Freeable.after (all : Freeable sb s.disk (bs ++ bs')) (freed : Freed sb s t bs) :
    Freeable sb t.disk bs' := by
  obtain ⟨nodup, taken⟩ := all
  rw [List.filter_append, List.nodup_append] at nodup
  refine ⟨nodup.2.1, fun b member nonzero => ?_⟩
  obtain ⟨inside, bit⟩ := taken b (List.mem_append_right _ member) nonzero
  refine ⟨inside, (freed.bits b inside nonzero).mpr ⟨fun early => ?_, bit⟩⟩
  have real : decide (b ≠ 0) = true := by simpa using nonzero
  exact nodup.2.2 b (List.mem_filter.mpr ⟨early, real⟩) b (List.mem_filter.mpr ⟨member, real⟩) rfl

theorem Freeable.left {disk : Disk} (all : Freeable sb disk (bs ++ bs')) : Freeable sb disk bs := by
  obtain ⟨nodup, taken⟩ := all
  rw [List.filter_append, List.nodup_append] at nodup
  exact ⟨nodup.1, fun b member => taken b (List.mem_append_left _ member)⟩

theorem bfree_outcome (nonzero : b ≠ 0) (inside : b < sb.size) (taken : sb.bit s.disk b = true) :
    Outcome (bfree sb b) s E fun _ t => Freed sb s t [b] := by
  have place := Superblock.bblock_bounds inside
  rw [Superblock.bit] at taken
  rw [bfree]
  refine .bind (.bind (.get (.pure ?_)))
  rw [if_pos taken]
  refine .bind (.modified (.modified ⟨fun c _ _ => ?_, ?_, fun c apart => ?_⟩))
  · rw [Superblock.bit_clearBit]
    simp
  · rw [Superblock.bit_clearBit]
    simp [nonzero.symm]
  · exact update_of_ne (by omega) _ _

theorem freeEntries_outcome (bs : List Nat) (all : Freeable sb s.disk bs) :
    Outcome (freeEntries sb bs) s E fun _ t => Freed sb s t bs := by
  induction bs generalizing s with
  | nil => exact .pure (.nil sb s)
  | cons b rest ih =>
    rw [freeEntries]
    by_cases zero : b = 0
    · rw [if_pos zero]
      have none_ : Freed sb s s [b] := .zeros sb s (by simp [zero])
      exact (ih (Freeable.after all none_)).mono fun _ t freed => none_.append freed
    · rw [if_neg zero]
      obtain ⟨inside, bit⟩ := all.2 b (by simp) zero
      refine .bind ((bfree_outcome zero inside bit).mono fun _ t first => ?_)
      exact (ih (Freeable.after all first)).mono fun _ u freed => first.append freed

/-! ## The addresses of the inode -/

/-- The inode without the addresses `ks`. -/
def dropAddrs (ip : Dinode) (ks : List (Fin (NDIRECT + 1))) : Dinode :=
  { ip with addrs := fun k => if k ∈ ks then 0 else ip.addrs k }

theorem setAddr_zero : ip.setAddr k 0 = dropAddrs ip [k] := by
  rw [Dinode.setAddr, dropAddrs]
  congr 1
  funext j
  simp [update_apply]

theorem dropAddrs_of_zero (empty : ip.addr k = 0) :
    dropAddrs ip [k] = ip := by
  rw [dropAddrs]
  congr 1
  funext j
  split
  · rename_i same
    rw [List.mem_singleton.mp same]
    exact BitVec.eq_of_toNat_eq (by simpa [Dinode.addr] using empty.symm)
  · rfl

theorem dropAddrs_cons (ip : Dinode) (k : Fin (NDIRECT + 1)) (rest : List (Fin (NDIRECT + 1))) :
    dropAddrs (dropAddrs ip [k]) rest = dropAddrs ip (k :: rest) := by
  simp only [dropAddrs]
  congr 1
  funext j
  by_cases first : j = k <;> by_cases later : j ∈ rest <;> simp [first, later]

theorem addr_dropAddrs (ip : Dinode) (ks : List (Fin (NDIRECT + 1))) (k : Fin (NDIRECT + 1)) :
    (dropAddrs ip ks).addr k = if k ∈ ks then 0 else ip.addr k := by
  rw [Dinode.addr, dropAddrs]
  dsimp only
  split <;> rfl

theorem freeAddr_outcome
    (taken : ip.addr k ≠ 0 → ip.addr k < sb.size ∧ sb.bit s.disk (ip.addr k) = true) :
    Outcome (freeAddr sb ip k) s E fun ip' t =>
      Freed sb s t [ip.addr k] ∧ ip' = dropAddrs ip [k] := by
  rw [freeAddr]
  by_cases empty : ip.addr k = 0
  · rw [if_pos empty]
    exact .pure ⟨.zeros sb s (by simp [empty]), (dropAddrs_of_zero empty).symm⟩
  · rw [if_neg empty]
    obtain ⟨inside, bit⟩ := taken empty
    exact .bind ((bfree_outcome empty inside bit).mono fun _ t freed =>
      .pure ⟨freed, setAddr_zero⟩)

theorem freeAddrs_outcome (ks : List (Fin (NDIRECT + 1))) (distinct : ks.Nodup)
    (all : Freeable sb s.disk (ks.map ip.addr)) :
    Outcome (freeAddrs sb ks ip) s E fun ip' t =>
      Freed sb s t (ks.map ip.addr) ∧ ip' = dropAddrs ip ks := by
  induction ks generalizing s ip with
  | nil => exact .pure ⟨.nil sb s, rfl⟩
  | cons k rest ih =>
    obtain ⟨fresh, distinct'⟩ := List.nodup_cons.mp distinct
    rw [freeAddrs]
    refine .bind ((freeAddr_outcome (all.2 _ (by simp))).mono ?_)
    rintro ip' t ⟨first, rfl⟩
    have same : rest.map (dropAddrs ip [k]).addr = rest.map ip.addr := by
      apply List.map_congr_left
      intro j member
      have other : j ≠ k := fun equal => fresh (equal ▸ member)
      simp [addr_dropAddrs, other]
    have left : Freeable sb t.disk (rest.map (dropAddrs ip [k]).addr) := by
      rw [same]
      exact Freeable.after all first
    refine (ih distinct' left).mono ?_
    rintro ip'' u ⟨freed, rfl⟩
    rw [same] at freed
    exact ⟨first.append freed, dropAddrs_cons ip k rest⟩

theorem freeIndirect_outcome
    (all : Freeable sb s.disk (((List.range NINDIRECT).map fun j =>
      ip.slot s.disk (NDIRECT + 1 + j)) ++ [ip.addr INDIRECT])) :
    Outcome (freeIndirect sb ip) s E fun ip' t =>
      Freed sb s t (((List.range NINDIRECT).map fun j => ip.slot s.disk (NDIRECT + 1 + j)) ++
        [ip.addr INDIRECT]) ∧ ip' = dropAddrs ip [INDIRECT] := by
  rw [freeIndirect]
  by_cases none_ : ip.addr INDIRECT = 0
  · rw [if_pos none_]
    refine .pure ⟨.zeros sb s ?_, (dropAddrs_of_zero none_).symm⟩
    intro b member
    rcases List.mem_append.mp member with entry | indirect
    · obtain ⟨j, -, rfl⟩ := List.mem_map.mp entry
      exact Dinode.slot_eq_zero (by omega) none_
    · rw [List.mem_singleton.mp indirect, none_]
  · rw [if_neg none_]
    have entries : (List.range NINDIRECT).map (fun j => ip.slot s.disk (NDIRECT + 1 + j)) =
        (List.range NINDIRECT).map (s.disk (ip.addr INDIRECT)).entry := by
      apply List.map_congr_left
      intro j inside
      exact Dinode.slot_entry (List.mem_range.mp inside) none_
    rw [entries] at all ⊢
    refine .bind (.bind (.get (.pure (.bind ?_))))
    refine (freeEntries_outcome _ all.left).mono fun _ t first => ?_
    obtain ⟨inside, bit⟩ := (Freeable.after all first).2 _ (by simp) none_
    exact .bind ((bfree_outcome none_ inside bit).mono fun _ u second =>
      .pure ⟨first.append second, setAddr_zero⟩)

/-! ## itrunc -/

/-- The slots in the order in which `itrunc` frees them. -/
def truncOrder : List Nat :=
  List.range NDIRECT ++ ((List.range NINDIRECT).map (NDIRECT + 1 + ·) ++ [NDIRECT])

theorem truncOrder_nodup : truncOrder.Nodup := by
  rw [truncOrder, List.nodup_append, List.nodup_append]
  refine ⟨List.nodup_range, ⟨List.nodup_range.map fun a b same => by simpa using same, by simp, ?_⟩,
    ?_⟩
  · intro a inA b inB
    obtain ⟨j, -, rfl⟩ := List.mem_map.mp inA
    rw [List.mem_singleton.mp inB]
    omega
  · intro a inA b inB
    rw [List.mem_range] at inA
    rcases List.mem_append.mp inB with entry | indirect
    · obtain ⟨j, -, rfl⟩ := List.mem_map.mp entry
      omega
    · rw [List.mem_singleton.mp indirect]
      omega

theorem mem_truncOrder {k : Nat} : k ∈ truncOrder ↔ k < NDIRECT + 1 + NINDIRECT := by
  rw [truncOrder, List.mem_append, List.mem_append, List.mem_range, List.mem_singleton]
  constructor
  · rintro (direct | entry | indirect)
    · omega
    · obtain ⟨j, inside, rfl⟩ := List.mem_map.mp entry
      rw [List.mem_range] at inside
      omega
    · omega
  · intro inside
    by_cases direct : k < NDIRECT
    · exact .inl direct
    · by_cases indirect : k = NDIRECT
      · exact .inr (.inr indirect)
      · refine .inr (.inl (List.mem_map.mpr ⟨k - (NDIRECT + 1), ?_, by omega⟩))
        rw [List.mem_range]
        omega

/-- The inode after `itrunc`. -/
def truncated (ip : Dinode) : Dinode := { ip with size := 0, addrs := fun _ => 0 }

@[simp] theorem slot_truncated (ip : Dinode) (disk : Disk) (k : Nat) :
    (truncated ip).slot disk k = 0 := by
  by_cases direct : k < NDIRECT + 1
  · exact Dinode.slot_direct direct
  · exact Dinode.slot_eq_zero (by omega) rfl

variable {ino : Nat → Dinode} {i : Nat} {ip : Dinode}

section

variable (sound : Sound sb s.disk (update ino i ip))
include sound

theorem Sound.freeable :
    Freeable sb s.disk (truncOrder.map (ip.slot s.disk)) := by
  have taken : ∀ k, ip.slot s.disk k ≠ 0 → ip.slot s.disk k ∈ sb.used s.disk := fun k => by
    have mem := sound.slot_mem (i := i) (k := k)
    rwa [update_self] at mem
  have unique : ∀ k n, ip.slot s.disk k ≠ 0 → ip.slot s.disk k = ip.slot s.disk n → k = n := by
    intro k n held same
    have equal := sound.slot_unique (i := i) (k := k) (j := i) (n := n)
    rw [update_self] at equal
    exact (equal held same).2
  refine ⟨?_, ?_⟩
  · rw [List.filter_map]
    refine (truncOrder_nodup.filter _).map_on fun a inA b _ same => ?_
    have held := (List.mem_filter.mp inA).2
    exact unique a b (by simpa using held) same
  · intro b member nonzero
    obtain ⟨k, -, rfl⟩ := List.mem_map.mp member
    exact ⟨(taken k nonzero).2.1, (taken k nonzero).2.2⟩

/-- The blocks of the inode are free, and nothing else has changed but the inode. -/
theorem Sound.truncate (freed : Freed sb s t (truncOrder.map (ip.slot s.disk))) :
    Sound sb t.disk (update ino i (truncated ip)) := by
  have high : ∀ c ∈ sb.used s.disk, t.disk c = s.disk c := fun c taken =>
    freed.same c (.inr taken.1)
  have mine : ∀ k, ip.slot s.disk k ≠ 0 → ip.slot s.disk k ∈ sb.used s.disk := fun k => by
    have mem := sound.slot_mem (i := i) (k := k)
    rwa [update_self] at mem
  constructor
  · intro b low inside
    have old := sound.metadata b low inside
    by_cases zero : b = 0
    · subst zero
      exact freed.zero.trans old
    · refine (freed.bits b inside zero).mpr ⟨fun member => ?_, old⟩
      obtain ⟨k, -, rfl⟩ := List.mem_map.mp member
      have := (mine k zero).1
      omega
  · refine sound.ledger.release (fun x => x.1 = i) ?_ ?_ ?_
    · rintro ⟨j, k⟩ rfl
      simp
    · rintro ⟨j, k⟩ other
      have old := sound.slot_congr high j k
      rw [update_of_ne other] at old
      simpa [update_of_ne other] using old
    · intro b
      have positive := sb.nmeta_pos
      constructor
      · rintro ⟨data, inside, bit⟩
        obtain ⟨apart, old⟩ := (freed.bits b inside (by omega)).mp bit
        refine ⟨⟨data, inside, old⟩, ?_⟩
        rintro ⟨j, k⟩ rfl same
        rw [update_self] at same
        apply apart
        rw [List.mem_map]
        refine ⟨k, mem_truncOrder.mpr ?_, same⟩
        by_contra beyond
        rw [Dinode.slot_beyond (Nat.le_of_not_lt beyond)] at same
        omega
      · rintro ⟨⟨data, inside, old⟩, apart⟩
        refine ⟨data, inside, (freed.bits b inside (by omega)).mpr ⟨fun member => ?_, old⟩⟩
        obtain ⟨k, -, same⟩ := List.mem_map.mp member
        exact apart (i, k) rfl (by simpa using same)

theorem itrunc_outcome :
    Outcome (itrunc sb i ip) s E fun ip' t => ip' = truncated ip ∧ ∃ u : State,
      t = u.iupdate sb i (truncated ip) ∧ Sound sb u.disk (update ino i (truncated ip)) ∧
      ∀ c, c < sb.bmapstart ∨ sb.nmeta ≤ c → u.disk c = s.disk c := by
  have direct : ((List.finRange NDIRECT).map Fin.castSucc).map ip.addr =
      (List.range NDIRECT).map (ip.slot s.disk) := by
    rw [← List.map_coe_finRange_eq_range, List.map_map, List.map_map]
    apply List.map_congr_left
    intro k _
    exact (Dinode.slot_direct (Nat.lt_succ_of_lt k.isLt)).symm
  have all := sound.freeable
  rw [truncOrder, List.map_append, List.map_append, List.map_map, ← direct] at all
  have distinct : ((List.finRange NDIRECT).map Fin.castSucc).Nodup :=
    (List.nodup_finRange NDIRECT).map (Fin.castSucc_injective _)
  rw [itrunc]
  refine .bind ((freeAddrs_outcome _ distinct all.left).mono ?_)
  rintro ip' t ⟨first, rfl⟩
  -- the indirect block is still there
  have indirect : (dropAddrs ip ((List.finRange NDIRECT).map Fin.castSucc)).addr INDIRECT =
      ip.addr INDIRECT := by
    rw [addr_dropAddrs, if_neg]
    intro member
    obtain ⟨k, -, same⟩ := List.mem_map.mp member
    exact absurd same (Fin.castSucc_lt_last k).ne
  have entries : ∀ j, (dropAddrs ip ((List.finRange NDIRECT).map Fin.castSucc)).slot t.disk
      (NDIRECT + 1 + j) = ip.slot s.disk (NDIRECT + 1 + j) := by
    intro j
    have old := @Sound.slot_congr _ _ t.disk _ sound (fun c taken => first.same c (.inr taken.1)) i
      (NDIRECT + 1 + j)
    rw [update_self] at old
    rw [← old, Dinode.slot, Dinode.slot, dif_neg (by omega), dif_neg (by omega), indirect]
  have rest := Freeable.after all first
  rw [List.map_singleton, Dinode.slot_indirect] at rest
  have freed := @freeIndirect_outcome sb t E
    (dropAddrs ip ((List.finRange NDIRECT).map Fin.castSucc))
  simp only [entries, indirect] at freed
  refine .bind ((freed rest).mono ?_)
  rintro ip' u ⟨second, rfl⟩
  have whole : Freed sb s u (truncOrder.map (ip.slot s.disk)) := by
    have both := first.append second
    rw [direct] at both
    rwa [truncOrder, List.map_append, List.map_append, List.map_map, List.map_singleton,
      Dinode.slot_indirect]
  have none_ :
      (dropAddrs (dropAddrs ip ((List.finRange NDIRECT).map Fin.castSucc)) [INDIRECT]).addrs =
      fun _ => 0 := by
    funext k
    by_cases top : k = INDIRECT
    · simp [dropAddrs, top]
    · obtain ⟨j, rfl⟩ := Fin.exists_castSucc_eq.mpr top
      simp [dropAddrs]
  have last : { dropAddrs (dropAddrs ip ((List.finRange NDIRECT).map Fin.castSucc)) [INDIRECT] with
      size := 0 } = truncated ip := by
    rw [truncated, ← none_]
    rfl
  rw [last]
  exact .bind (iupdate_outcome (.pure ⟨rfl, u, rfl, sound.truncate whole, whole.same⟩))

end

end

end Xv6.Kernel.Fs
