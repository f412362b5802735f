import Xv6.Kernel.PageOwners

/-! # Open files and descriptors

What the account of files says between system calls: `ref` is the number of descriptors,
the flags of a pipe are its open ends, and a pipe's page is free once both are closed.
-/

namespace Xv6.Kernel

open Lib

/-- The file is open and is an end of the pipe at `m`. -/
def File.OpenEnd (x : File) (m : Nat) : Prop := 0 < x.ref ∧ x.type = .pipe ∧ x.pipe = m

/-- An end of the pipe at `m` is open. -/
def KState.LivePipe (k : KState) (m : Nat) : Prop := ∃ f, (k.files f).OpenEnd m

/-- The page at `m` is on the free list, once. -/
def KState.FreeOnce (k : KState) (m : Nat) : Prop := ∃! i, freeNth k.mem k.freelist i = m

structure FilesCounted (k : KState) : Prop where
  ref : ∀ f, (k.files f).ref = tally k.slots f
  readopen : ∀ m, k.LivePipe m → (k.mem.getLE (m + PI_READOPEN) 4 = 1 ↔
    ∃ f, (k.files f).OpenEnd m ∧ (k.files f).readable = true)
  writeopen : ∀ m, k.LivePipe m → (k.mem.getLE (m + PI_WRITEOPEN) 4 = 1 ↔
    ∃ f, (k.files f).OpenEnd m ∧ (k.files f).writable = true)
  /-- The page of a pipe is not freed while an end is open. -/
  kept : ∀ m, k.LivePipe m → ∀ i, freeNth k.mem k.freelist i ≠ m

section

variable {L : Layout} {fixed : Multiset Nat} {k : KState} {g : Ghost} {m : Nat} {s s' : State}
  {e : Event} {o : Obs}

section

variable (inv : Inv L fixed k g 0 fun _ => 0)
include inv

theorem Inv.openEnd_iff (f : Fin NFILE) :
    (k.files f).OpenEnd m ↔ ∃ w, (k.files f).IsEnd m w := by
  constructor
  · rintro ⟨-, type, pipe⟩
    exact ⟨_, type, pipe, rfl⟩
  · rintro ⟨w, isEnd⟩
    refine ⟨?_, isEnd.type, isEnd.pipe⟩
    have count := inv.files.count f
    have used : (k.files f).ref ≠ 0 := fun zero =>
      FileType.noConfusion ((inv.files.unused f zero).symm.trans isEnd.type)
    omega

theorem Inv.livePipe_iff : k.LivePipe m ↔ m ∈ g.pipes := by
  rw [KState.LivePipe]
  simp only [inv.openEnd_iff]
  constructor
  · rintro ⟨f, w, isEnd⟩
    exact inv.files.live m w f isEnd
  · intro mem
    obtain ⟨w, f, isEnd⟩ := inv.files.held m mem
    exact ⟨f, w, isEnd⟩

theorem Inv.flag_iff (live : k.LivePipe m) (w : Bool) :
    k.mem.getLE (flagAt m w) 4 = 1 ↔ ∃ f, (k.files f).OpenEnd m ∧ (k.files f).writable = w := by
  have inside := inv.livePipe_iff.mp live
  have small := inv.files.flag m inside w
  have opened := inv.files.opened m inside w
  simp only [inv.openEnd_iff]
  constructor
  · intro one
    obtain ⟨f, isEnd⟩ := opened.mp (by omega)
    exact ⟨f, ⟨w, isEnd⟩, isEnd.writable⟩
  · rintro ⟨f, ⟨v, isEnd⟩, writable⟩
    have nonzero := opened.mpr ⟨f, isEnd.type, isEnd.pipe, writable⟩
    omega

theorem Inv.filesCounted : FilesCounted k where
  ref f := by
    rw [inv.files.count f]
    exact Int.add_zero _
  readopen m live := by
    rw [← flagAt_false, inv.flag_iff live]
    refine exists_congr fun f => and_congr_right fun isOpen => ?_
    rw [inv.files.oneWay f isOpen.2.1, Bool.not_eq_true']
  writeopen m live := by
    rw [← flagAt_true, inv.flag_iff live]
  kept m live i same := by
    have inside := inv.livePipe_iff.mp live
    have page := inv.pipesHolds.held_page inside
    rw [freeNth_eq inv.chain fun q mem => inv.holds.free_page mem] at same
    refine inv.pipesHolds.not_free inside ?_
    rw [List.getD_eq_getElem?_getD] at same
    cases found : g.free[i]? with
    | none =>
      rw [found] at same
      exact absurd same.symm page.ne_zero
    | some q =>
      rw [found, Option.getD_some] at same
      exact same ▸ List.mem_of_getElem? found

theorem Inv.freeOnce (mem : m ∈ g.free) : k.FreeOnce m := by
  have page := inv.holds.free_page mem
  have nodup : g.free.Nodup := Multiset.coe_nodup.mp (Multiset.nodup_add.mp inv.holds.nodup).1
  have read : ∀ i, freeNth k.mem k.freelist i = m ↔ g.free[i]? = some m := fun i => by
    rw [freeNth_eq inv.chain fun q mem => inv.holds.free_page mem, List.getD_eq_getElem?_getD]
    cases g.free[i]? with
    | none => simp [page.ne_zero.symm]
    | some q => simp
  obtain ⟨i, found⟩ := List.mem_iff_getElem?.mp mem
  refine ⟨i, (read i).mpr found, fun j same => ?_⟩
  have found' := (read j).mp same
  obtain ⟨inside, -⟩ := List.getElem?_eq_some_iff.mp found'
  exact (List.getElem?_inj inside nodup).mp (found'.trans found.symm)

end

theorem filesCounted_of_run (b : Boot L) {tr : List (Event × Obs)}
    (run : (machine L).Run b.state tr s) :
    FilesCounted s.k ∧ (s.panicked ≠ some "filedup" ∧ s.panicked ≠ some "fileclose") ∧
      ∀ e s' o, step L s e = some (s', o) → ∀ m, s.k.LivePipe m →
        s'.k.LivePipe m ∨ s'.k.FreeOnce m := by
  obtain ⟨g, settled⟩ := b.settled.run run
  refine ⟨settled.inv.filesCounted, ?_, fun e s' o taken m live => ?_⟩
  · rcases settled.panicked with none_ | init
    · rw [none_]
      exact ⟨nofun, nofun⟩
    · rw [init]
      decide
  · obtain ⟨g', after, drops⟩ := settled.step taken
    rcases drops m (settled.inv.livePipe_iff.mp live) with piped | free_
    · exact .inl (after.inv.livePipe_iff.mpr piped)
    · exact .inr (after.inv.freeOnce free_)

end

/-- The first process makes a pipe. -/
theorem filesCounted_pipeRun : ∃ (b : Boot smallKernel) (tr : List (Event × Obs)) (s : State)
    (p : Fin NPROC), (machine smallKernel).Run b.state tr s ∧
      tr.map Prod.fst = [.userinit, .schedule p .running, .pipe p 0] ∧ FilesCounted s.k := by
  obtain ⟨b, s, p, run, first⟩ := exists_runningRun
  have running := first.running
  have quiet := first.quiet
  obtain ⟨s', o, taken⟩ : ∃ s' o, step smallKernel s (.pipe p 0) = some (s', o) := by
    simp only [step, quiet, Option.isSome_none, Bool.false_eq_true, if_false, Event.caller,
      Option.all_some, running, decide_true, if_true, perform]
    exact ⟨_, _, rfl⟩
  have whole := run.snoc taken
  exact ⟨b, _, s', p, whole, rfl, (filesCounted_of_run b whole).1⟩

end Xv6.Kernel
