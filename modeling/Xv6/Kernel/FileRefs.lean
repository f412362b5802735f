import Xv6.Kernel.PageLedger
import Xv6.Kernel.Proc
import Xv6.Lib.Tally

/-! # References to files and pipes

`ref` of an open file is the number of descriptors that name it, and of references
that a system call holds on its way (`float`). A pipe's page is held as long as one of
its two files is open; the flags in the page say which.
-/

namespace Xv6.Kernel

open Lib Function

variable {x : File}

/-- All descriptors of all processes. -/
abbrev Slots := Fin NPROC × Fin NOFILE → Option (Fin NFILE)

def KState.slots (k : KState) : Slots := fun x => (k.procs x.1).ofile x.2

/-- The file is the writing or the reading end of the pipe at `m`. -/
structure File.IsEnd (x : File) (m : Nat) (w : Bool) : Prop where
  type : x.type = .pipe
  pipe : x.pipe = m
  writable : x.writable = w

theorem File.IsEnd.unique {m q : Nat} {w v : Bool} (first : x.IsEnd m w) (second : x.IsEnd q v) :
    q = m ∧ v = w :=
  ⟨second.pipe.symm.trans first.pipe, second.writable.symm.trans first.writable⟩

theorem File.not_isEnd (none_ : x.type = .none) (m : Nat) (w : Bool) : ¬x.IsEnd m w :=
  fun isEnd => FileType.noConfusion (isEnd.type.symm.trans none_)

theorem File.isEnd_congr {y : File} (type : x.type = y.type) (pipe : x.pipe = y.pipe)
    (writable : x.writable = y.writable) (m : Nat) (w : Bool) : x.IsEnd m w ↔ y.IsEnd m w :=
  ⟨fun ⟨a, b, c⟩ => ⟨type ▸ a, pipe ▸ b, writable ▸ c⟩,
    fun ⟨a, b, c⟩ => ⟨type ▸ a, pipe ▸ b, writable ▸ c⟩⟩

/-- Where the page of a pipe says whether an end is open. -/
def flagAt (m : Nat) (w : Bool) : Nat := m + if w then PI_WRITEOPEN else PI_READOPEN

structure FilesOk (slots : Slots) (files : Fin NFILE → File) (mem : Bytes)
    (float : Fin NFILE → Nat) (pipes : Multiset Nat) : Prop where
  count : ∀ f, (files f).ref = tally slots f + float f
  unused : ∀ f, (files f).ref = 0 → (files f).type = .none
  live : ∀ m w f, (files f).IsEnd m w → m ∈ pipes
  held : ∀ m ∈ pipes, ∃ w f, (files f).IsEnd m w
  single : ∀ m w f g, (files f).IsEnd m w → (files g).IsEnd m w → f = g
  opened : ∀ m ∈ pipes, ∀ w, mem.getLE (flagAt m w) 4 ≠ 0 ↔ ∃ f, (files f).IsEnd m w
  oneWay : ∀ f, (files f).type = .pipe → (files f).readable = !(files f).writable
  flag : ∀ m ∈ pipes, ∀ w, mem.getLE (flagAt m w) 4 ≤ 1

/-- Pages move and files change, and nothing else in the kernel does. -/
structure FileMove (k k' : KState) (free : List Nat) (pipes : Multiset Nat) (free' : List Nat)
    (pipes' : Multiset Nat) : Prop extends Moved k k' free pipes free' pipes' where
  procs : k'.procs = k.procs
  initproc : k'.initproc = k.initproc
  nextpid : k'.nextpid = k.nextpid

section Files

variable {L : Layout} {k k' k'' : KState} {free free' free'' : List Nat}
  {pipes pipes' pipes'' : Multiset Nat} {slots : Slots} {files files' : Fin NFILE → File}
  {mem mem' : Bytes} {float : Fin NFILE → Nat} {m : Nat} {w : Bool} {f : Fin NFILE}
variable {float' : Fin NFILE → Nat} {x : File}

theorem FileMove.refl (chain : Chain k.mem k.freelist free) : FileMove k k free pipes free pipes :=
  ⟨(Exchange.refl chain).toMoved, rfl, rfl, rfl⟩

theorem FileMove.trans (first : FileMove k k' free pipes free' pipes')
    (second : FileMove k' k'' free' pipes' free'' pipes'') :
    FileMove k k'' free pipes free'' pipes'' :=
  ⟨first.toMoved.trans second.toMoved, second.procs.trans first.procs,
    second.initproc.trans first.initproc, second.nextpid.trans first.nextpid⟩

theorem FileMove.of_files (ok : Holds L k free pipes) (files : Fin NFILE → File) :
    FileMove k { k with files := files } free pipes free pipes :=
  ⟨⟨ok.chain, rfl, fun m _ _ _ => SamePage.refl _ m⟩, rfl, rfl, rfl⟩

theorem Holds.fileMove (ok : Holds L k free pipes) (move : FileMove k k' free pipes free' pipes') :
    Holds L k' free' pipes' :=
  ok.moved move.toMoved

theorem FileMove.of_exchange (exchange : Exchange k k' free pipes free' pipes') :
    FileMove k k' free pipes free' pipes' :=
  ⟨exchange.toMoved, exchange.procs, exchange.initproc, exchange.nextpid⟩

theorem getLE_of_samePage {i : Nat} (same : SamePage mem mem' m) (inside : i + 4 ≤ PGSIZE) :
    mem'.getLE (m + i) 4 = mem.getLE (m + i) 4 := by
  apply Bytes.getLE_congr
  intro j low
  rw [Nat.add_assoc]
  exact same (i + j) (by omega)

theorem flag_of_samePage (same : SamePage mem mem' m) (w : Bool) :
    mem'.getLE (flagAt m w) 4 = mem.getLE (flagAt m w) 4 := by
  rw [flagAt]
  apply getLE_of_samePage same
  cases w <;> decide

theorem FilesOk.frame (ok : FilesOk slots files mem float pipes)
    (same : ∀ m ∈ pipes, SamePage mem mem' m) : FilesOk slots files mem' float pipes :=
  { ok with
    opened := fun m inside w => by
      rw [flag_of_samePage (same m inside) w]
      exact ok.opened m inside w
    flag := fun m inside w => by
      rw [flag_of_samePage (same m inside) w]
      exact ok.flag m inside w }

theorem FilesOk.recount {slots' : Slots} (ok : FilesOk slots files mem float pipes)
    (same : ∀ f, tally slots' f + float' f = tally slots f + float f) :
    FilesOk slots' files mem float' pipes :=
  { ok with
    count := fun f => by
      rw [ok.count f]
      have := same f
      omega }

theorem modifyFile_run (f : Fin NFILE) (g : File → File) (k : KState) : modifyFile f g k =
      .ok ((), { k with files := update k.files f (g (k.files f)) }) := by
  have same : (fun h => if h = f then g (k.files h) else k.files h) =
      update k.files f (g (k.files f)) := by
    funext h
    by_cases equal : h = f
    · rw [equal, if_pos rfl, update_self]
    · rw [if_neg equal, update_of_ne equal]
  rw [← same]
  rfl

theorem getFile_run (f : Fin NFILE) (k : KState) : getFile f k = .ok (k.files f, k) := rfl

theorem FilesOk.touch (ok : FilesOk slots files mem float pipes)
    (count : x.ref = tally slots f + float' f) (others : ∀ g, g ≠ f → float' g = float g)
    (unused : x.ref = 0 → x.type = .none) (ends : ∀ m w, x.IsEnd m w ↔ (files f).IsEnd m w)
    (oneWay : x.type = .pipe → x.readable = !x.writable) :
    FilesOk slots (update files f x) mem float' pipes := by
  have same : ∀ m w g, (update files f x g).IsEnd m w ↔ (files g).IsEnd m w := by
    intro m w g
    by_cases equal : g = f
    · rw [equal, update_self, ends]
    · rw [update_of_ne equal]
  refine ⟨fun g => ?_, fun g => ?_, ?_, ?_, ?_, ?_, fun g => ?_, ok.flag⟩
  · by_cases equal : g = f
    · rw [equal, update_self, count]
    · rw [update_of_ne equal, others g equal, ok.count g]
  · by_cases equal : g = f
    · rw [equal, update_self]
      exact unused
    · rw [update_of_ne equal]
      exact ok.unused g
  · simp only [same]
    exact ok.live
  · simp only [same]
    exact ok.held
  · simp only [same]
    exact ok.single
  · simp only [same]
    exact ok.opened
  · by_cases equal : g = f
    · rw [equal, update_self]
      exact oneWay
    · rw [update_of_ne equal]
      exact ok.oneWay g

/-- Closing an end of a pipe: its flag is cleared, and a pipe without ends is gone. -/
theorem FilesOk.closeEnd (ok : FilesOk slots files mem float pipes)
    (count : x.ref = tally slots f + float' f) (others : ∀ g, g ≠ f → float' g = float g)
    (none_ : x.type = .none) (end_ : (files f).IsEnd m w)
    (cleared : m ∈ pipes' → mem'.getLE (flagAt m w) 4 = 0)
    (kept : m ∈ pipes' → mem'.getLE (flagAt m !w) 4 = mem.getLE (flagAt m !w) 4)
    (same : ∀ q ∈ pipes, q ≠ m → SamePage mem mem' q)
    (after : pipes = (if mem.getLE (flagAt m !w) 4 = 0 then {m} else 0) + pipes')
    (nodup : pipes.Nodup) :
    FilesOk slots (update files f x) mem' float' pipes' := by
  have ends : ∀ q v g, (update files f x g).IsEnd q v ↔ g ≠ f ∧ (files g).IsEnd q v := by
    intro q v g
    by_cases equal : g = f
    · rw [equal, update_self]
      exact ⟨fun isEnd => absurd isEnd (File.not_isEnd none_ q v), fun both => absurd rfl both.1⟩
    · rw [update_of_ne equal]
      exact ⟨fun isEnd => ⟨equal, isEnd⟩, And.right⟩
  have inside : m ∈ pipes := ok.live m w f end_
  -- the other end keeps the pipe
  have stays : m ∈ pipes' ↔ ∃ g, (files g).IsEnd m !w := by
    rw [← ok.opened m inside (!w)]
    split at after
    · rename_i zero
      have gone : m ∉ pipes' := by
        rw [after, Multiset.singleton_add, Multiset.nodup_cons] at nodup
        exact nodup.1
      exact ⟨fun mem => absurd mem gone, fun nonzero => absurd zero nonzero⟩
    · rename_i nonzero
      rw [zero_add] at after
      exact ⟨fun _ => nonzero, fun _ => after ▸ inside⟩
  have elsewhere : ∀ q, q ≠ m → (q ∈ pipes' ↔ q ∈ pipes) := by
    intro q other
    rw [after, Multiset.mem_add]
    split
    · rw [Multiset.mem_singleton]
      exact ⟨.inr, fun both => both.resolve_left other⟩
    · exact ⟨.inr, fun both => both.resolve_left (Multiset.notMem_zero q)⟩
  have apart : ∀ q v g, (files g).IsEnd q v → (q ≠ m ∨ v = !w) → g ≠ f := by
    rintro q v g isEnd differs rfl
    rcases differs with other | flipped
    · exact other (isEnd.pipe.symm.trans end_.pipe)
    · have same : v = w := isEnd.writable.symm.trans end_.writable
      rw [flipped] at same
      exact absurd same (Bool.not_ne_self w)
  have flip : ∀ v, v = w ∨ v = !w := by
    intro v
    cases v <;> cases w <;> decide
  refine ⟨fun g => ?_, fun g => ?_, fun q v g isEnd => ?_, fun q mem => ?_,
    fun q v g h first second => ?_, fun q mem v => ?_, fun g => ?_, fun q mem v => ?_⟩
  · by_cases equal : g = f
    · rw [equal, update_self, count]
    · rw [update_of_ne equal, others g equal, ok.count g]
  · by_cases equal : g = f
    · rw [equal, update_self]
      exact fun _ => none_
    · rw [update_of_ne equal]
      exact ok.unused g
  · obtain ⟨other, isEnd⟩ := (ends q v g).mp isEnd
    by_cases equal : q = m
    · subst equal
      rcases flip v with rfl | rfl
      · exact absurd (ok.single q v g f isEnd end_) other
      · exact stays.mpr ⟨g, isEnd⟩
    · exact (elsewhere q equal).mpr (ok.live q v g isEnd)
  · simp only [ends]
    by_cases equal : q = m
    · subst equal
      obtain ⟨g, isEnd⟩ := stays.mp mem
      exact ⟨!w, g, apart q _ g isEnd (.inr rfl), isEnd⟩
    · obtain ⟨v, g, isEnd⟩ := ok.held q ((elsewhere q equal).mp mem)
      exact ⟨v, g, apart q v g isEnd (.inl equal), isEnd⟩
  · exact ok.single q v g h ((ends q v g).mp first).2 ((ends q v h).mp second).2
  · simp only [ends]
    by_cases equal : q = m
    · subst equal
      rcases flip v with rfl | rfl
      · refine ⟨fun nonzero => absurd (cleared mem) nonzero, ?_⟩
        rintro ⟨g, other, isEnd⟩
        exact absurd (ok.single q v g f isEnd end_) other
      · rw [kept mem, ok.opened q inside]
        exact ⟨fun ⟨g, isEnd⟩ => ⟨g, apart q _ g isEnd (.inr rfl), isEnd⟩,
          fun ⟨g, _, isEnd⟩ => ⟨g, isEnd⟩⟩
    · have there := (elsewhere q equal).mp mem
      rw [flag_of_samePage (same q there equal) v, ok.opened q there]
      exact ⟨fun ⟨g, isEnd⟩ => ⟨g, apart q v g isEnd (.inl equal), isEnd⟩,
        fun ⟨g, _, isEnd⟩ => ⟨g, isEnd⟩⟩
  · by_cases equal : g = f
    · rw [equal, update_self, none_]
      exact fun bad => FileType.noConfusion bad
    · rw [update_of_ne equal]
      exact ok.oneWay g
  · by_cases equal : q = m
    · subst equal
      rcases flip v with rfl | rfl
      · rw [cleared mem]
        exact Nat.zero_le 1
      · rw [kept mem]
        exact ok.flag q inside _
    · have there := (elsewhere q equal).mp mem
      rw [flag_of_samePage (same q there equal) v]
      exact ok.flag q there v

/-! ## pipeclose and fileclose -/

theorem within_flag (m : Nat) (w : Bool) (v : Nat) (mem : Bytes) :
    Within m mem (mem.splice (flagAt m w) 4 (Bytes.digits v)) := by
  apply within_splice
  · exact Nat.le_add_right _ _
  · rw [flagAt]
    cases w <;> unfold PI_READOPEN PI_WRITEOPEN PGSIZE <;> simp

theorem flag_cleared (m : Nat) (w : Bool) (mem : Bytes) :
    (mem.splice (flagAt m w) 4 (Bytes.digits 0)).getLE (flagAt m w) 4 = 0 :=
  Bytes.getLE_setLE_self mem (flagAt m w) 4 0

theorem flag_kept (m : Nat) (w : Bool) (v : Nat) (mem : Bytes) :
    (mem.splice (flagAt m w) 4 (Bytes.digits v)).getLE (flagAt m !w) 4 =
      mem.getLE (flagAt m !w) 4 := by
  apply Bytes.getLE_splice_of_disjoint
  rw [flagAt, flagAt]
  cases w <;> unfold PI_READOPEN PI_WRITEOPEN <;> simp

theorem flagAt_true (m : Nat) : flagAt m true = m + PI_WRITEOPEN := by rw [flagAt, if_pos rfl]

theorem flagAt_false (m : Nat) : flagAt m false = m + PI_READOPEN := by
  rw [flagAt, if_neg Bool.false_ne_true]

theorem load32_run (a : Nat) (k : KState) : load32 a k = .ok (k.mem.getLE a 4, k) := rfl

theorem store32_run (a v : Nat) (k : KState) :
    store32 a v k = .ok ((), { k with mem := k.mem.splice a 4 (Bytes.digits v) }) := rfl

theorem pipeclose_run (m : Nat) (w : Bool) (k : KState) : pipeclose L m w k =
      (if k.mem.getLE (flagAt m !w) 4 = 0 then kfree L m else pure ())
        { k with mem := k.mem.splice (flagAt m w) 4 (Bytes.digits 0) } := by
  have cleared := flag_cleared m w k.mem
  rw [pipeclose, ← flag_kept m w 0 k.mem]
  cases w with
  | true =>
    simp only [if_true, ← flagAt_true, ← flagAt_false, Bool.not_true]
    rw [run_bind (store32_run _ 0 k), run_bind (load32_run _ _), run_bind (load32_run _ _)]
    simp only [cleared, and_true]
  | false =>
    simp only [Bool.false_eq_true, if_false, ← flagAt_true, ← flagAt_false, Bool.not_false]
    rw [run_bind (store32_run _ 0 k), run_bind (load32_run _ _), run_bind (load32_run _ _)]
    simp only [cleared, true_and]

theorem pipeclose_spec (w : Bool) (ok : Holds L k free pipes) (inside : m ∈ pipes) :
    ∃ k' free' pipes', pipeclose L m w k = .ok ((), k') ∧
      Exchange k k' free pipes free' pipes' ∧
      pipes = (if k.mem.getLE (flagAt m !w) 4 = 0 then {m} else 0) + pipes' ∧
      (m ∈ pipes' → k'.mem.getLE (flagAt m w) 4 = 0 ∧
        k'.mem.getLE (flagAt m !w) 4 = k.mem.getLE (flagAt m !w) 4) ∧
      ∀ q ∈ pipes, q ≠ m → SamePage k.mem k'.mem q := by
  have page := ok.held_page inside
  have within := within_flag m w 0 k.mem
  have written := Exchange.write ok inside within
  have same : ∀ q ∈ pipes, q ≠ m → SamePage k.mem _ q := fun q mem other =>
    within.samePage page.aligned (ok.held_page mem).aligned other
  rw [pipeclose_run]
  by_cases last : k.mem.getLE (flagAt m !w) 4 = 0
  · simp only [if_pos last]
    have ok₁ := ok.exchange written
    obtain ⟨rest, split⟩ := Multiset.exists_cons_of_mem inside
    rw [← Multiset.singleton_add] at split
    rw [split] at ok₁ written
    obtain ⟨k', freed, released⟩ := kfree_spec ok₁.left
    have gone : m ∉ rest := by
      have nodup := ok.held_nodup
      rw [split, Multiset.singleton_add, Multiset.nodup_cons] at nodup
      exact nodup.1
    refine ⟨k', m :: free, rest, freed, ?_, split, fun mem => absurd mem gone,
      fun q mem other => ?_⟩
    · rw [split]
      exact written.trans ((released.beside rest).congr rfl (zero_add rest))
    · have mem' : q ∈ rest := by
        rw [split, Multiset.singleton_add, Multiset.mem_cons] at mem
        exact mem.resolve_left other
      exact (same q mem other).trans (released.samePage ok₁ mem')
  · simp only [if_neg last]
    exact ⟨_, free, pipes, rfl, written, (zero_add pipes).symm,
      fun _ => ⟨flag_cleared m w k.mem, flag_kept m w 0 k.mem⟩, same⟩

/-- `fileclose` gives up a reference that is not a descriptor's. -/
theorem fileclose_spec (ok : Holds L k free pipes)
    (files : FilesOk slots k.files k.mem float pipes) (mine : 0 < float f) :
    ∃ k' free' pipes', fileclose L f k = .ok ((), k') ∧
      FileMove k k' free pipes free' pipes' ∧
      FilesOk slots k'.files k'.mem (update float f (float f - 1)) pipes' := by
  have count := files.count f
  have others : ∀ g, g ≠ f → update float f (float f - 1) g = float g := fun g other =>
    update_of_ne other _ _
  rw [fileclose, run_bind (getFile_run f k)]
  have positive : ¬(k.files f).ref < 1 := by omega
  simp only [if_neg positive]
  rw [run_bind (modifyFile_run f _ k)]
  by_cases more : (k.files f).ref - 1 > 0
  · simp only [if_pos more]
    refine ⟨_, free, pipes, rfl, ⟨⟨ok.chain, rfl, fun m _ _ _ => SamePage.refl _ m⟩, rfl, rfl, rfl⟩,
      files.touch ?_ others (fun zero => ?_) (File.isEnd_congr rfl rfl rfl) (files.oneWay f)⟩
    · change (k.files f).ref - 1 = _
      rw [update_self]
      omega
    · exact absurd (show (k.files f).ref - 1 = 0 from zero) (by omega)
  · simp only [if_neg more]
    rw [run_bind (modifyFile_run f _ _)]
    have alone : (0 : Int) = tally slots f + (update float f (float f - 1) f : Nat) := by
      rw [update_self]
      omega
    simp only [update_self, update_idem]
    by_cases pipe : (k.files f).type = .pipe
    · simp only [if_pos pipe]
      have end_ : (k.files f).IsEnd (k.files f).pipe (k.files f).writable := ⟨pipe, rfl, rfl⟩
      have inside := files.live _ _ _ end_
      obtain ⟨k', free', pipes', ran, exchange, after, flags, same⟩ :=
        pipeclose_spec (k := { k with files := update k.files f _ })
          (k.files f).writable ⟨ok.chain, ok.nodup, ok.page⟩ inside
      refine ⟨k', free', pipes', ran, ⟨⟨exchange.chain, exchange.conserved, exchange.frame⟩,
        exchange.procs, exchange.initproc, exchange.nextpid⟩, ?_⟩
      rw [exchange.files]
      exact files.closeEnd alone others rfl end_ (fun mem => (flags mem).1)
        (fun mem => (flags mem).2) same after ok.held_nodup
    · simp only [if_neg pipe]
      have closed : FilesOk slots (update k.files f { k.files f with ref := 0, type := .none })
          k.mem (update float f (float f - 1)) pipes := by
        refine files.touch alone others (fun _ => rfl) (fun m w => ?_)
          fun bad => FileType.noConfusion bad
        exact ⟨fun isEnd => absurd isEnd (File.not_isEnd rfl m w),
          fun isEnd => absurd isEnd.type pipe⟩
      -- the inode of the file is given back too, if it has one
      split
      · exact ⟨_, free, pipes, rfl,
          ⟨⟨ok.chain, rfl, fun m _ _ _ => SamePage.refl _ m⟩, rfl, rfl, rfl⟩, closed⟩
      · exact ⟨_, free, pipes, rfl,
          ⟨⟨ok.chain, rfl, fun m _ _ _ => SamePage.refl _ m⟩, rfl, rfl, rfl⟩, closed⟩

/-! ## filealloc and filedup -/

/-- One more reference to `f`. -/
def addRef (float : Fin NFILE → Nat) (f : Fin NFILE) : Fin NFILE → Nat :=
  update float f (float f + 1)

theorem addRef_sub (float : Fin NFILE → Nat) (f : Fin NFILE) :
    update (addRef float f) f (addRef float f f - 1) = float := by
  rw [addRef, update_self, update_idem, Nat.add_sub_cancel,
    update_eq_self]

theorem addRef_pos (float : Fin NFILE → Nat) (f : Fin NFILE) : 0 < addRef float f f := by
  rw [addRef, update_self]
  exact Nat.succ_pos _

theorem FilesOk.incr (ok : FilesOk slots files mem float pipes)
    (more : x.ref = (files f).ref + 1) (type : x.type = (files f).type)
    (pipe : x.pipe = (files f).pipe) (writable : x.writable = (files f).writable)
    (readable : x.readable = (files f).readable) :
    FilesOk slots (update files f x) mem (addRef float f) pipes := by
  refine ok.touch ?_ (fun g other => update_of_ne other _ _) (fun zero => ?_)
    (File.isEnd_congr type pipe writable) (by rw [type, readable, writable]; exact ok.oneWay f)
  · rw [more, ok.count f, addRef, update_self]
    omega
  · have := ok.count f
    omega

theorem filealloc_spec (ok : Holds L k free pipes)
    (files : FilesOk slots k.files k.mem float pipes) :
    filealloc k = .ok (none, k) ∨
      ∃ f k', filealloc k = .ok (some f, k') ∧ (k.files f).ref = 0 ∧ (k'.files f).type = .none ∧
        (∀ g, g ≠ f → k'.files g = k.files g) ∧ FileMove k k' free pipes free pipes ∧
        FilesOk slots k'.files k'.mem (addRef float f) pipes := by
  rw [filealloc, run_get_bind]
  cases found : (List.finRange NFILE).find? fun f => (k.files f).ref = 0 with
  | none => exact .inl rfl
  | some f =>
    have zero : (k.files f).ref = 0 := by
      have := List.find?_some found
      simpa using this
    refine .inr ⟨f, _, run_bind (modifyFile_run f _ k), zero, ?_,
      fun g other => update_of_ne other _ _, .of_files ok _,
      files.incr (by rw [zero]; rfl) rfl rfl rfl rfl⟩
    simp only [update_self]
    exact files.unused f zero

theorem filedup_run (files : FilesOk slots k.files k.mem float pipes) (used : 0 < (k.files f).ref) :
    filedup f k = .ok ((), { k with
        files := update k.files f { k.files f with ref := (k.files f).ref + 1 } }) ∧
      FilesOk slots (update k.files f { k.files f with ref := (k.files f).ref + 1 }) k.mem
        (addRef float f) pipes := by
  refine ⟨?_, files.incr rfl rfl rfl rfl rfl⟩
  rw [filedup, run_bind (getFile_run f k)]
  have positive : ¬(k.files f).ref < 1 := by omega
  simp only [if_neg positive]
  exact modifyFile_run f _ k

theorem filedup_spec (ok : Holds L k free pipes) (files : FilesOk slots k.files k.mem float pipes)
    (used : 0 < (k.files f).ref) :
    ∃ k', filedup f k = .ok ((), k') ∧ FileMove k k' free pipes free pipes ∧
      FilesOk slots k'.files k'.mem (addRef float f) pipes :=
  ⟨_, (filedup_run files used).1, .of_files ok _, (filedup_run files used).2⟩

/-! ## pipealloc -/

/-- The memory after `pipealloc` has filled in the page. -/
def pipeMem (mem : Bytes) (m : Nat) : Bytes :=
  (((((mem.splice (m + PI_READOPEN) 4 (Bytes.digits 1)).splice (m + PI_WRITEOPEN) 4
    (Bytes.digits 1)).splice (m + PI_NWRITE) 4 (Bytes.digits 0)).splice (m + PI_NREAD) 4
    (Bytes.digits 0)).splice m 4 (Bytes.digits 0)).splice (m + 16) 8 (Bytes.digits 0)

theorem within_pipeMem (mem : Bytes) (m : Nat) : Within m mem (pipeMem mem m) := by
  have part : ∀ (mem : Bytes) (i n v : Nat), i + n ≤ PGSIZE →
      Within m mem (mem.splice (m + i) n (Bytes.digits v)) := fun mem i n v low =>
    within_splice (Nat.le_add_right m i) (by omega)
  exact (((((part _ _ _ _ (by decide)).trans (part _ _ _ _ (by decide))).trans
    (part _ _ _ _ (by decide))).trans (part _ _ _ _ (by decide))).trans
    (part _ 0 _ _ (by decide))).trans (part _ _ _ _ (by decide))

theorem flag_pipeMem (mem : Bytes) (m : Nat) (w : Bool) :
    (pipeMem mem m).getLE (flagAt m w) 4 = 1 := by
  have offsets : PI_NREAD = 536 ∧ PI_NWRITE = 540 ∧ PI_READOPEN = 544 ∧ PI_WRITEOPEN = 548 := by
    decide
  rw [pipeMem]
  cases w with
  | true =>
    rw [flagAt_true, Bytes.getLE_splice_of_disjoint, Bytes.getLE_splice_of_disjoint,
      Bytes.getLE_splice_of_disjoint, Bytes.getLE_splice_of_disjoint]
    · have read := Bytes.getLE_setLE_self (mem.splice (m + PI_READOPEN) 4 (Bytes.digits 1))
        (m + PI_WRITEOPEN) 4 1
      rw [Bytes.setLE] at read
      exact read.trans rfl
    all_goals omega
  | false =>
    rw [flagAt_false, Bytes.getLE_splice_of_disjoint, Bytes.getLE_splice_of_disjoint,
      Bytes.getLE_splice_of_disjoint, Bytes.getLE_splice_of_disjoint,
      Bytes.getLE_splice_of_disjoint]
    · have read := Bytes.getLE_setLE_self mem (m + PI_READOPEN) 4 1
      rw [Bytes.setLE] at read
      exact read.trans rfl
    all_goals omega

theorem FilesOk.openPipe {y : File} {g : Fin NFILE} (ok : FilesOk slots files mem float pipes)
    (fresh : m ∉ pipes) (other : g ≠ f) (none_ : (files f).type = .none)
    (none' : (files g).type = .none) (reader : x.IsEnd m false) (writer : y.IsEnd m true)
    (ref : x.ref = (files f).ref) (ref' : y.ref = (files g).ref) (used : x.ref ≠ 0)
    (used' : y.ref ≠ 0) (readable : x.readable = true) (readable' : y.readable = false)
    (flags : ∀ w, mem'.getLE (flagAt m w) 4 = 1) (same : ∀ q ∈ pipes, SamePage mem mem' q) :
    FilesOk slots (update (update files f x) g y) mem' float (m ::ₘ pipes) := by
  have ends : ∀ q v h, (update (update files f x) g y h).IsEnd q v ↔
      (q = m ∧ h = if v then g else f) ∨ (q ≠ m ∧ (files h).IsEnd q v) := by
    intro q v h
    by_cases isWriter : h = g
    · rw [isWriter, update_self]
      constructor
      · intro isEnd
        obtain ⟨rfl, rfl⟩ := writer.unique isEnd
        exact .inl ⟨rfl, rfl⟩
      · rintro (⟨rfl, here⟩ | ⟨_, isEnd⟩)
        · cases v with
          | true => exact writer
          | false => exact absurd here other
        · exact absurd isEnd (File.not_isEnd none' q v)
    · rw [update_of_ne isWriter]
      by_cases isReader : h = f
      · rw [isReader, update_self]
        constructor
        · intro isEnd
          obtain ⟨rfl, rfl⟩ := reader.unique isEnd
          exact .inl ⟨rfl, rfl⟩
        · rintro (⟨rfl, here⟩ | ⟨_, isEnd⟩)
          · cases v with
            | true => exact absurd here.symm other
            | false => exact reader
          · exact absurd isEnd (File.not_isEnd none_ q v)
      · rw [update_of_ne isReader]
        constructor
        · refine fun isEnd => .inr ⟨?_, isEnd⟩
          rintro rfl
          exact fresh (ok.live q v h isEnd)
        · rintro (⟨_, here⟩ | ⟨_, isEnd⟩)
          · cases v with
            | true => exact absurd here isWriter
            | false => exact absurd here isReader
          · exact isEnd
  refine ⟨fun h => ?_, fun h => ?_, fun q v h isEnd => ?_, fun q mem => ?_,
    fun q v h h' first second => ?_, fun q mem v => ?_, fun h => ?_, fun q mem v => ?_⟩
  · rw [← ok.count h]
    by_cases isWriter : h = g
    · rw [isWriter, update_self, ref']
    · rw [update_of_ne isWriter]
      by_cases isReader : h = f
      · rw [isReader, update_self, ref]
      · rw [update_of_ne isReader]
  · by_cases isWriter : h = g
    · rw [isWriter, update_self]
      exact fun zero => absurd zero used'
    · rw [update_of_ne isWriter]
      by_cases isReader : h = f
      · rw [isReader, update_self]
        exact fun zero => absurd zero used
      · rw [update_of_ne isReader]
        exact ok.unused h
  · rcases (ends q v h).mp isEnd with ⟨rfl, _⟩ | ⟨_, isEnd⟩
    · exact Multiset.mem_cons_self q pipes
    · exact Multiset.mem_cons_of_mem (ok.live q v h isEnd)
  · simp only [ends]
    rcases Multiset.mem_cons.mp mem with rfl | inside
    · exact ⟨false, f, .inl ⟨rfl, rfl⟩⟩
    · obtain ⟨v, h, isEnd⟩ := ok.held q inside
      exact ⟨v, h, .inr ⟨fun same => fresh (same ▸ inside), isEnd⟩⟩
  · rcases (ends q v h).mp first with ⟨rfl, rfl⟩ | ⟨apart, isEnd⟩
    · rcases (ends q v h').mp second with ⟨_, rfl⟩ | ⟨apart, _⟩
      · rfl
      · exact absurd rfl apart
    · rcases (ends q v h').mp second with ⟨rfl, _⟩ | ⟨_, isEnd'⟩
      · exact absurd rfl apart
      · exact ok.single q v h h' isEnd isEnd'
  · simp only [ends]
    rcases Multiset.mem_cons.mp mem with rfl | inside
    · rw [flags v]
      exact ⟨fun _ => ⟨_, .inl ⟨rfl, rfl⟩⟩, fun _ => Nat.one_ne_zero⟩
    · have apart : q ≠ m := fun same => fresh (same ▸ inside)
      rw [flag_of_samePage (same q inside) v, ok.opened q inside v]
      exact ⟨fun ⟨h, isEnd⟩ => ⟨h, .inr ⟨apart, isEnd⟩⟩,
        fun ⟨h, cases_⟩ => ⟨h, (cases_.resolve_left fun both => apart both.1).2⟩⟩
  · by_cases isWriter : h = g
    · rw [isWriter, update_self, readable', writer.writable]
      exact fun _ => rfl
    · rw [update_of_ne isWriter]
      by_cases isReader : h = f
      · rw [isReader, update_self, readable, reader.writable]
        exact fun _ => rfl
      · rw [update_of_ne isReader]
        exact ok.oneWay h
  · rcases Multiset.mem_cons.mp mem with rfl | inside
    · rw [flags v]
    · rw [flag_of_samePage (same q inside) v]
      exact ok.flag q inside v

theorem fileclose_addRef (ok : Holds L k free pipes)
    (files : FilesOk slots k.files k.mem (addRef float f) pipes) :
    ∃ k' free' pipes', fileclose L f k = .ok ((), k') ∧ FileMove k k' free pipes free' pipes' ∧
      FilesOk slots k'.files k'.mem float pipes' := by
  obtain ⟨k', free', pipes', ran, move, files'⟩ := fileclose_spec ok files (addRef_pos float f)
  rw [addRef_sub] at files'
  exact ⟨k', free', pipes', ran, move, files'⟩

theorem addRef_comm (float : Fin NFILE → Nat) (f g : Fin NFILE) :
    addRef (addRef float f) g = addRef (addRef float g) f := by
  by_cases same : g = f
  · rw [same]
  have other : g ≠ f := same
  rw [addRef, addRef, addRef, addRef, update_of_ne other, update_of_ne other.symm,
    update_comm other]

theorem pipealloc_spec (ok : Holds L k free pipes)
    (files : FilesOk slots k.files k.mem float pipes) :
    (∃ k' free' pipes', pipealloc L k = .ok (none, k') ∧ FileMove k k' free pipes free' pipes' ∧
        FilesOk slots k'.files k'.mem float pipes') ∨
      ∃ f g k' free' pipes', pipealloc L k = .ok (some (f, g), k') ∧
        FileMove k k' free pipes free' pipes' ∧
        FilesOk slots k'.files k'.mem (addRef (addRef float f) g) pipes' := by
  rw [pipealloc]
  rcases filealloc_spec ok files with none_ | ⟨f, k₁, first, _, typeF, _, move₁, files₁⟩
  · rw [run_bind none_]
    exact .inl ⟨k, free, pipes, rfl, .refl ok.chain, files⟩
  have ok₁ := ok.fileMove move₁
  rw [run_bind first]
  rcases filealloc_spec ok₁ files₁ with none_ | ⟨g, k₂, second, zero, typeG, kept, move₂, files₂⟩
  · simp only
    rw [run_bind none_]
    obtain ⟨k', free', pipes', ran, move, files'⟩ := fileclose_addRef ok₁ files₁
    exact .inl ⟨k', free', pipes', run_bind ran, move₁.trans move, files'⟩
  have move := move₁.trans move₂
  have ok₂ := ok₁.fileMove move₂
  have other : g ≠ f := by
    rintro rfl
    have := files₁.count g
    have := addRef_pos float g
    omega
  simp only
  rw [run_bind second]
  simp only
  rcases kalloc_spec (ok₂.mono (Multiset.zero_le _)) with
    ⟨rfl, out⟩ | ⟨m, rest, k₃, rfl, got, taken⟩
  · rw [run_bind out]
    simp only [if_true]
    rw [addRef_comm float f g] at files₂
    obtain ⟨k₃, free₃, pipes₃, ran₃, move₃, files₃⟩ := fileclose_addRef ok₂ files₂
    obtain ⟨k', free', pipes', ran, move', files'⟩ := fileclose_addRef (ok₂.fileMove move₃) files₃
    refine .inl ⟨k', free', pipes', ?_, (move.trans move₃).trans move', files'⟩
    rw [run_bind ran₃]
    exact run_bind ran
  · have page := ok₂.free_page (m := m) List.mem_cons_self
    have fresh : m ∉ pipes := fun mem => ok₂.not_free mem List.mem_cons_self
    have ok₂' : Holds L k₂ (m :: rest) (0 + pipes) := (zero_add pipes).symm ▸ ok₂
    have exchange := (taken.beside pipes).congr (zero_add pipes) (Multiset.singleton_add m pipes)
    have ok₃ := ok₂.exchange exchange
    have filled := Exchange.write ok₃ (Multiset.mem_cons_self m pipes) (within_pipeMem k₃.mem m)
    have same : ∀ q ∈ pipes, SamePage k₂.mem (pipeMem k₃.mem m) q := fun q mem =>
      (taken.samePage ok₂' mem).trans ((within_pipeMem k₃.mem m).samePage page.aligned
        (ok₂.held_page mem).aligned fun equal => fresh (equal ▸ mem))
    have used : ∀ h, 0 < addRef (addRef float f) g h → (k₂.files h).ref ≠ 0 := fun h pos => by
      have := files₂.count h
      omega
    have usedF := used f (by
      rw [addRef_comm float f g]
      exact addRef_pos _ f)
    have usedG := used g (addRef_pos _ g)
    rw [run_bind got]
    simp only [if_neg page.ne_zero]
    have opened : FilesOk slots (update (update k₂.files f
          { k₂.files f with type := .pipe, readable := true, writable := false, pipe := m }) g
          { k₂.files g with type := .pipe, readable := false, writable := true, pipe := m })
        (pipeMem k₃.mem m) (addRef (addRef float f) g) (m ::ₘ pipes) :=
      files₂.openPipe fresh other ((congrArg File.type (kept f other.symm)).trans typeF) typeG
        ⟨rfl, rfl, rfl⟩ ⟨rfl, rfl, rfl⟩ rfl rfl usedF usedG rfl rfl (flag_pipeMem k₃.mem m) same
    refine .inr ⟨f, g, { k₃ with mem := pipeMem k₃.mem m, files := _ }, rest, m ::ₘ pipes, ?_, ?_,
      opened⟩
    · rw [run_bind (store32_run _ _ _), run_bind (store32_run _ _ _), run_bind (store32_run _ _ _),
        run_bind (store32_run _ _ _), run_bind (store32_run _ _ _),
        run_bind (show store64 (m + 16) 0 _ = .ok ((), _) from rfl),
        run_bind (modifyFile_run _ _ _), run_bind (modifyFile_run _ _ _)]
      simp only [taken.files, update_of_ne other]
      rfl
    · have whole := (FileMove.of_exchange exchange).trans (.of_exchange filled)
      exact move.trans (whole.trans (.of_files (ok₃.exchange filled) _))

end Files

end Xv6.Kernel
