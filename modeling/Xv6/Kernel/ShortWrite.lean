import Xv6.Kernel.FileSemantics
import Xv6.Kernel.UserCopy

/-! # Writes that stop early

When `either_copyin` fails inside a block, `copyin` has already copied what it could read, and
`writei` leaves the loop without `log_write` and without counting those bytes. What `writei`
reports is the whole truth unless that happens in a block that the file already had.
-/

namespace Xv6.Kernel.Fs

open Lib PageMap

/-! ## The source in user memory -/

/-- What `copyin` can read from `va` on. -/
def userSource (mem : Bytes) (root va : Nat) : Source := fun i =>
  if userFrame mem root (va + i) = 0 then none else some (mem (physical mem root (va + i)))

/-- There is one way to copy up to the first byte that cannot be read. -/
theorem Source.copyin_unique {src : Source} {i m : Nat} {bytes : List UInt8} {ok : Bool}
    (short : bytes.length ≤ m) (read : ∀ x, x < bytes.length → src (i + x) = bytes[x]?)
    (whole : ok = true → bytes.length = m)
    (stopped : ok = false → bytes.length < m ∧ src (i + bytes.length) = none) :
    src.copyin i m = (bytes, ok) := by
  obtain ⟨short', read', whole', stopped'⟩ := src.copyin_spec i m
  generalize src.copyin i m = c at short' read' whole' stopped' ⊢
  obtain ⟨bytes', ok'⟩ := c
  dsimp only at short' read' whole' stopped'
  have length : bytes'.length = bytes.length := by
    rcases Nat.lt_trichotomy bytes'.length bytes.length with less | same | more
    · have here := read _ less
      rw [List.getElem?_eq_getElem less] at here
      cases ok' with
      | true => have := whole' rfl; omega
      | false => rw [(stopped' rfl).2] at here; cases here
    · exact same
    · have here := read' _ more
      cases ok with
      | true => have := whole rfl; omega
      | false => rw [(stopped rfl).2] at here; cases here
  have same : bytes' = bytes := by
    apply List.ext_getElem length
    intro x inside inside'
    have left := read' x inside
    rw [read x inside', List.getElem?_eq_getElem inside', List.getD_eq_getElem _ _ inside] at left
    exact (Option.some.inj left).symm
  subst same
  cases ok with
  | true =>
    cases ok' with
    | true => rfl
    | false =>
      have := whole rfl
      have := (stopped' rfl).1
      omega
  | false =>
    cases ok' with
    | true =>
      have := whole' rfl
      have := (stopped rfl).1
      omega
    | false => rfl

theorem copyin_userSource {k : KState} {root : Nat} (table : UserTable k.mem root) (va i m : Nat) :
    Kernel.copyin root (va + i) m k = .ok ((userSource k.mem root va).copyin i m, k) := by
  obtain ⟨bytes, ok, ran, copied⟩ := table.frames.copyinLoop ⟨table, .refl _ root⟩ (va + i)
    (Nat.le_refl m) []
  have same : (userSource k.mem root va).copyin i m = (bytes, ok) := by
    apply Source.copyin_unique copied.short _ copied.whole
    · intro bad
      obtain ⟨less, missing⟩ := copied.stopped bad
      rw [userSource, ← Nat.add_assoc, if_pos missing]
      exact ⟨less, rfl⟩
    · intro x inside
      obtain ⟨byte, here⟩ := copied.byte x inside
      rw [userSource, here, ← Nat.add_assoc, if_neg byte]
      rfl
  rw [same]
  exact ran

theorem copyin_userSource_textPage : ∃ (b : Boot smallKernel) (k₁ k : KState) (root : Nat),
    uvmcreate b.k = .ok (root, k₁) ∧
      uvmalloc smallKernel root 0 PGSIZE (flags2perm 1) k₁ = .ok (PGSIZE, k) ∧
      UserTable k.mem root ∧
      Kernel.copyin root (0 + 8) 16 k = .ok ((userSource k.mem root 0).copyin 8 16, k) := by
  obtain ⟨b, k₁, k, root, pte, created, grown, ⟨free, t, holds, table⟩, -⟩ := exists_textPage
  have user := userTable_of_table holds table
  exact ⟨b, k₁, k, root, created, grown, user, copyin_userSource user 0 8 16⟩

/-! ## What a short write leaves -/

/-- The first byte that cannot be read is neither the first of the source nor the first of a
    block, and the file has that block. -/
def FaultsInside (ip : Dinode) (disk : Disk) (src : Source) (off n : Nat) : Prop :=
  ∃ f, f < n ∧ src f = none ∧ (∀ x, x < f → src x ≠ none) ∧ 0 < f ∧ (off + f) % BSIZE ≠ 0 ∧
    ip.slot disk (slotOf ((off + f) / BSIZE)) ≠ 0

section

variable {sb : Superblock} {s u : State} {i : Nat} {src : Source} {ip' : Dinode}
variable {n off tot' m off' m' k : Nat}

/-- A fault inside a block that the file had is where the loop stops. -/
theorem Written.faultsInside_iff (dense : Dense (inodes sb s.disk i) s.disk m)
    (written : Written sb (inodes sb s.disk) i src n (inodes sb s.disk i) s off 0 m
      ip' u off' tot' m' k) :
    FaultsInside (inodes sb s.disk i) s.disk src off n ↔ 0 < k ∧ off' / BSIZE < m := by
  have count := written.count
  have readable : ∀ x, x < tot' + k → src x ≠ none := by
    intro x inside missing
    have byte := written.bytes x (by omega)
    rw [Nat.zero_add, missing] at byte
    cases byte
  constructor
  · rintro ⟨f, less, missing, before, positive, unaligned, held⟩
    have after : tot' + k ≤ f := by
      by_contra early
      exact readable f (by omega) missing
    have old := (dense _).mp held
    rcases written.ends with ⟨all, none_⟩ | ⟨left, none_, -, beyond⟩ | ⟨-, room, stop, -, start⟩
    · omega
    · -- the disk is full before the fault, in a block that the file did not have
      have := Nat.div_le_div_right (c := BSIZE) (show off' ≤ off + f by omega)
      have := written.blocks.1
      omega
    · have same : f = tot' + k := by
        by_contra other
        exact before _ (by omega) stop
      have place := div_mod_add room
      rw [show off + f = off' + k by omega] at unaligned old
      rw [place.2] at unaligned
      rw [place.1] at old
      refine ⟨?_, old⟩
      by_contra zero
      omega
  · rintro ⟨some_, old⟩
    rcases written.ends with ⟨-, none_⟩ | ⟨-, none_, -⟩ | ⟨less, room, stop, -, -⟩
    · omega
    · omega
    · have place := div_mod_add room
      refine ⟨tot' + k, less, stop, readable, by omega, ?_, ?_⟩
      · rw [show off + (tot' + k) = off' + k by omega, place.2]
        omega
      · rw [show off + (tot' + k) = off' + k by omega, place.1, dense]
        exact old

/-- The block that such a fault leaves half written is not in the log. -/
theorem Written.not_logged (inside : i < sb.ninodes) (begun : s.log = [])
    (written : Written sb (inodes sb s.disk) i src n (inodes sb s.disk i) s off 0 m
      ip' u off' tot' m' k) (some_ : 0 < k) (old : off' / BSIZE < m) :
    ip'.slot u.disk (slotOf (off' / BSIZE)) ∉ (u.iupdate sb i (extend ip' off')).log := by
  have count := written.count
  obtain ⟨l, c, maps, log, -, low, -, entries, -⟩ := written.logged
  have held : ip'.slot u.disk (slotOf (off' / BSIZE)) ≠ 0 :=
    (written.dense _).mpr (by have := written.blocks.1; omega)
  have taken := written.sound.slot_mem (i := i) (k := slotOf (off' / BSIZE))
  have unique := fun n => @Sound.slot_unique _ _ _ i i (slotOf (off' / BSIZE)) n written.sound
  rw [Function.update_self] at taken unique
  have high := (taken held).1
  rw [State.iupdate, log, begun, List.nil_append, List.mem_append, List.mem_singleton, not_or]
  constructor
  · intro logged
    rcases entries _ logged with map | ⟨indirect, -⟩ | ⟨bn, -, -, done, same⟩
    · have := low _ map
      omega
    · rw [← @Dinode.slot_indirect _ u.disk] at indirect
      exact slotOf_ne_indirect _ (unique _ held indirect).2
    · obtain rfl := slotOf_inj (unique _ held same).2
      rcases written.ends with ⟨-, none_⟩ | ⟨-, none_, -⟩ | ⟨-, -, -, -, start⟩
      · omega
      · omega
      · have := Nat.div_add_mod off' BSIZE
        rw [Nat.mul_comm] at this
        omega
  · have := Superblock.iblock_lt inside
    have := sb.bmapstart_lt_nmeta
    omega

end

/-- A write that returns `r` has changed nothing from `off + r` on, and all that it has changed
    is in the log. -/
def ReportsAll (ip : Dinode) (disk : Disk) (ip' : Dinode) (t : State) (off r : Nat) : Prop :=
  (∀ x, off + r ≤ x → x < ip.size.toNat → (content ip' t.disk)[x]? = (content ip disk)[x]?) ∧
    ∀ b ∈ t.changed, b ∈ t.log

theorem shortWrite_reportsAll_iff {sb : Superblock} {s t : State} {i : Nat} {src : Source}
    {off n : BitVec 32} {r : Nat} {ip' : Dinode} (wf : WellFormed sb s.disk)
    (allocated : Allocated sb s.disk i) (begun : s.changed = [] ∧ s.log = [])
    (ran : writei sb i (inodes sb s.disk i) src off n s = .ok (((r : Int), ip'), t)) :
    ReportsAll (inodes sb s.disk i) s.disk ip' t off.toNat r ↔
      ¬ FaultsInside (inodes sb s.disk i) s.disk src off.toNat n.toNat := by
  have outcome := (@writei_outcome sb s (fun _ => False) wf i src off n).ok ran
  rcases outcome with
    ⟨bad, -⟩ | ⟨fits, most, m, ip, u, off', m', k, tot', dense, size, written, same, rfl⟩
  · cases (Prod.mk.inj bad).1
  obtain ⟨equal, rfl⟩ := Prod.mk.inj same
  obtain rfl : r = tot' := Int.ofNat.inj equal
  have count := written.count
  obtain ⟨l, c, maps, log, changed, -, -, -, logged, copied, found⟩ := written.logged
  rw [written.faultsInside_iff dense]
  constructor
  · rintro ⟨-, all⟩ ⟨some_, old⟩
    apply written.not_logged allocated.bounds.2 begun.2 some_ old
    apply all
    rw [State.iupdate, changed]
    exact List.mem_append_left _ (List.mem_append_right _ (copied some_))
  · intro fine
    -- bytes that were copied and not counted are in a new block
    have new : 0 < k → m ≤ off' / BSIZE := fun some_ => by
      by_contra old
      exact fine ⟨some_, by omega⟩
    refine ⟨?_, ?_⟩
    · intro x after inside
      have there := wf.held inside
      have now := written.getElem_content wf allocated most inside
      rw [now, getElem_content inside, written.rest x there (.inr ?_)]
      rcases Nat.eq_zero_or_pos k with none_ | some_
      · omega
      · have := new some_
        unfold BSIZE at *
        omega
    · intro b member
      rw [State.iupdate, changed, begun.1, List.nil_append] at member
      rw [State.iupdate, log, begun.2, List.nil_append]
      rcases List.mem_append.mp member with data | inode
      · apply List.mem_append_left
        rcases logged b data with done | ⟨some_, rfl⟩
        · exact done
        · apply found _ (new some_)
          rcases written.ends with ⟨-, none_⟩ | ⟨-, none_, -⟩ | ⟨-, -, -, inside, -⟩
          · omega
          · omega
          · exact inside
      · exact List.mem_append_right _ inode

/-! ## A source that ends in the first block -/

/-- The file has three bytes. -/
def abcFile : Disk :=
  match writei smallDisk 1 (inodes smallDisk oneFile 1) (.kernel [97, 98, 99]) 0 3
    ⟨oneFile, [], []⟩ with
  | .ok (_, t) => t.disk
  | .error _ => oneFile

/-- One byte, and then a page that is not mapped. -/
def oneByte : Source := fun i => if i = 0 then some 120 else none

theorem wellFormed_abcFile : WellFormed smallDisk abcFile := by
  have allocated : Allocated smallDisk oneFile 1 := by
    rw [Allocated, inodes_oneFile]
    decide
  obtain ⟨r, t, ran, outcome⟩ := (@writei_outcome smallDisk ⟨oneFile, [], []⟩ (fun _ => False)
    wellFormed_oneFile 1 (.kernel [97, 98, 99]) 0 3).exists_ok fun _ => id
  have same : abcFile = t.disk := by
    rw [abcFile, ran]
  rw [same]
  rcases outcome with
    ⟨-, rfl, -⟩ | ⟨-, short, m, ip, u, off', m', k, tot', -, size, written, -, rfl⟩
  · exact wellFormed_oneFile
  · have kept := @Written.wellFormed smallDisk ⟨oneFile, [], []⟩ 1 _ ip u 3 0 tot' m off' m' k
      wellFormed_oneFile allocated size short written
    exact kept.1

/-- What can be seen of a write to `abcFile`: the value returned, the first byte, and the blocks
    changed and logged. -/
def seen (src : Source) : Option (Int × Option UInt8 × List Nat × List Nat) :=
  (writei smallDisk 1 (inodes smallDisk abcFile 1) src 0 2 ⟨abcFile, [], []⟩).toOption.map
    fun (r, t) => (r.1, (content r.2 t.disk)[0]?, t.changed, t.log)

theorem exists_of_seen {src : Source} {r : Int} {byte : Option UInt8} {changed log : List Nat}
    (ran : seen src = some (r, byte, changed, log)) :
    ∃ ip' t, writei smallDisk 1 (inodes smallDisk abcFile 1) src 0 2 ⟨abcFile, [], []⟩ =
      .ok ((r, ip'), t) ∧ (content ip' t.disk)[0]? = byte ∧ t.changed = changed ∧ t.log = log := by
  rw [seen, Option.map_eq_some_iff] at ran
  obtain ⟨⟨⟨r', ip'⟩, t⟩, done, same⟩ := ran
  cases same
  refine ⟨ip', t, ?_, rfl, rfl, rfl⟩
  cases result : writei smallDisk 1 (inodes smallDisk abcFile 1) src 0 2 ⟨abcFile, [], []⟩ with
  | error e =>
    rw [result] at done
    cases done
  | ok pair =>
    rw [result] at done
    cases done
    rfl

theorem allocated_abcFile : Allocated smallDisk abcFile 1 := by
  rw [Allocated]
  decide +kernel

/-- A source whose first page is not mapped changes nothing but the inode. -/
theorem reportsAll_nothing : ∃ ip' t,
    writei smallDisk 1 (inodes smallDisk abcFile 1) (fun _ => none) 0 2 ⟨abcFile, [], []⟩ =
      .ok (((0 : Nat), ip'), t) ∧
    ReportsAll (inodes smallDisk abcFile 1) abcFile ip' t 0 0 := by
  have ran : seen (fun _ => none) = some (0, some 97, [2], [2]) := by decide +kernel
  obtain ⟨ip', t, done, -⟩ := exists_of_seen ran
  refine ⟨ip', t, done, (@shortWrite_reportsAll_iff smallDisk ⟨abcFile, [], []⟩ t 1 _ 0 2 0 ip'
    wellFormed_abcFile allocated_abcFile ⟨rfl, rfl⟩ done).mpr ?_⟩
  rintro ⟨f, -, -, before, positive, -⟩
  exact before 0 positive rfl

/-- The write returns 0. It has changed the first byte of the file, in a block that is not in
    the log. -/
theorem not_reportsAll_oneByte : WellFormed smallDisk abcFile ∧ Allocated smallDisk abcFile 1 ∧
    ∃ ip' t, writei smallDisk 1 (inodes smallDisk abcFile 1) oneByte 0 2 ⟨abcFile, [], []⟩ =
        .ok (((0 : Nat), ip'), t) ∧
      (content (inodes smallDisk abcFile 1) abcFile)[0]? = some 97 ∧
      (content ip' t.disk)[0]? = some 120 ∧ 4 ∈ t.changed ∧ 4 ∉ t.log ∧
      ¬ ReportsAll (inodes smallDisk abcFile 1) abcFile ip' t 0 0 := by
  have ran : seen oneByte = some (0, some 120, [4, 2], [2]) := by decide +kernel
  have old : (content (inodes smallDisk abcFile 1) abcFile)[0]? = some 97 := by decide +kernel
  obtain ⟨ip', t, done, byte, changed, log⟩ := exists_of_seen ran
  have inChanged : 4 ∈ t.changed := by simp [changed]
  have notLogged : 4 ∉ t.log := by simp [log]
  exact ⟨wellFormed_abcFile, allocated_abcFile, ip', t, done, old, byte, inChanged, notLogged,
    fun all => notLogged (all.2 4 inChanged)⟩

end Xv6.Kernel.Fs
