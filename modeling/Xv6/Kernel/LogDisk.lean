import Xv6.Kernel.LogSteps

/-! # What is on disk while the log works

The argument is about two disks: the one that the committed transactions lead to,
and the newest one, which has all updates. Before the header is written the home
blocks hold the first; the log blocks and the pinned buffers hold the second.
Whatever the point that was reached, `recover_from_log` leads to the first.
-/

namespace Xv6.Kernel.Log

open Lib Function

variable {sb : Superblock} {b : Nat} {s : State}

/-! ## Recovery -/

theorem readHead_writeHead {data : Block} {lh : List Nat} (short : lh.length ≤ LOGSIZE)
    (fits : ∀ b ∈ lh, b < 2 ^ 32) : readHead (writeHead data lh) = lh := by
  have small : lh.length ≤ 30 := short
  have room : 4 + 4 * lh.length ≤ BSIZE := by unfold BSIZE; omega
  have n : (writeHead data lh).get 0 4 = lh.length := by
    rw [writeHead, Block.putWords, Block.get_putWords_of_before (by unfold BSIZE; omega) (by omega)]
    exact Block.get_set_self (by unfold BSIZE; omega) (by omega)
  have value : (int32 lh.length).toNat = lh.length := by
    rw [int32, BitVec.toInt_eq_toNat_of_lt (by simp; omega)]
    simp
    omega
  rw [readHead, n, value]
  exact Block.getWords_putWords room fits

theorem Home.ne_logstart (home : Home sb b) : b ≠ sb.logstart := by
  have header := sb.header
  have outside := home.2
  omega

theorem Home.ne_log {j : Nat} (home : Home sb b) (inLog : j + 1 < sb.nlog) :
    b ≠ sb.logstart + j + 1 := by
  have outside := home.2
  omega

/-- What `recover_from_log` needs to find to arrive at `target`: a header whose
    blocks have their contents in the log, and all other home blocks in place. -/
structure Recoverable (sb : Superblock) (d target : Disk) : Prop where
  home : ∀ b ∈ readHead (d sb.logstart), Home sb b
  short : (readHead (d sb.logstart)).length ≤ LOGSIZE
  room : readHead (d sb.logstart) = [] ∨ (readHead (d sb.logstart)).length + 1 ≤ sb.nlog
  saved : ∀ j b, (readHead (d sb.logstart))[j]? = some b → d (sb.logstart + j + 1) = target b
  rest : ∀ b, Home sb b → b ∉ readHead (d sb.logstart) → d b = target b

theorem installTrans_eq {bs : List Nat} {tail : Nat} {d : Disk} (home : ∀ b ∈ bs, Home sb b)
    (room : bs = [] ∨ tail + bs.length + 1 ≤ sb.nlog) :
    installTrans sb bs tail d = redo (fun j => d (sb.logstart + j + 1)) bs tail d := by
  -- the copies are read from the disk that the loop writes; home blocks are not log blocks
  suffices same : ∀ (copies : Nat → Block), (∀ j, tail ≤ j → j + 1 < sb.nlog →
      d (sb.logstart + j + 1) = copies j) → installTrans sb bs tail d = redo copies bs tail d from
    same _ fun _ _ _ => rfl
  induction bs generalizing tail d with
  | nil => exact fun _ _ => rfl
  | cons b bs ih =>
    intro copies read
    replace room : tail + (bs.length + 1) + 1 ≤ sb.nlog := by simpa using room
    rw [installTrans, redo, read tail (Nat.le_refl tail) (by omega)]
    apply ih
    · exact fun c member => home c (by simp [member])
    · exact .inr (by omega)
    · intro j later inLog
      rw [update_of_ne, read j (by omega) inLog]
      have := (home b (by simp)).2
      omega

theorem recoverFromLog_eq {d target : Disk} (good : Recoverable sb d target) (home : Home sb b) :
    recoverFromLog sb d b = target b := by
  rw [recoverFromLog, update_of_ne home.ne_logstart, installTrans_eq good.home
    (good.room.imp_right fun room => by omega), redo_eq target]
  · split
    · rfl
    · exact good.rest b home ‹_›
  · intro j c found
    rw [Nat.zero_add]
    exact good.saved j c found

namespace Recoverable

variable {sb : Superblock} {d target : Disk}
variable {j : Nat}

/-- A new header block decides what recovery has to find. -/
theorem of_head {lh : List Nat} {block : Block} (head : readHead block = lh)
    (home : ∀ b ∈ lh, Home sb b) (short : lh.length ≤ LOGSIZE)
    (room : lh = [] ∨ lh.length + 1 ≤ sb.nlog)
    (saved : ∀ j b, lh[j]? = some b → d (sb.logstart + j + 1) = target b)
    (rest : ∀ b, Home sb b → b ∉ lh → d b = target b) :
    Recoverable sb (update d sb.logstart block) target := by
  have now : readHead (update d sb.logstart block sb.logstart) = lh := by
    rw [update_self, head]
  refine ⟨by rwa [now], by rwa [now], by rwa [now], ?_, ?_⟩
  · intro j b found
    rw [now] at found
    rw [update_of_ne (by omega)]
    exact saved j b found
  · intro b home absent
    rw [now] at absent
    rw [update_of_ne home.ne_logstart]
    exact rest b home absent

/-- Writing a log block changes nothing while the header is empty. -/
theorem write_log (good : Recoverable sb d target) (empty : readHead (d sb.logstart) = [])
    (inLog : j + 1 < sb.nlog) (data : Block) :
    Recoverable sb (update d (sb.logstart + j + 1) data) target := by
  have same : update d (sb.logstart + j + 1) data sb.logstart = d sb.logstart :=
    update_of_ne (by omega) _ _
  rw [← same] at empty
  refine ⟨by simp [empty], by simp [empty], .inl empty, by simp [empty], ?_⟩
  intro b home _
  rw [update_of_ne (home.ne_log inLog)]
  exact good.rest b home (by rw [← same, empty]; simp)

theorem inLog (good : Recoverable sb d target) {b : Nat}
    (found : (readHead (d sb.logstart))[j]? = some b) : j + 1 < sb.nlog := by
  obtain ⟨inside, -⟩ := List.getElem?_eq_some_iff.mp found
  rcases good.room with empty | room
  · simp [empty] at inside
  · omega

/-- Installing a block brings it into place and spoils nothing. -/
theorem install (good : Recoverable sb d target) {b : Nat}
    (found : (readHead (d sb.logstart))[j]? = some b) :
    Recoverable sb (update d b (d (sb.logstart + j + 1))) target := by
  have member : b ∈ readHead (d sb.logstart) := List.mem_of_getElem? found
  have home := good.home b member
  have same : update d b (d (sb.logstart + j + 1)) sb.logstart = d sb.logstart :=
    update_of_ne (Ne.symm home.ne_logstart) _ _
  refine ⟨?_, ?_, ?_, ?_, ?_⟩ <;> rw [same]
  · exact good.home
  · exact good.short
  · exact good.room
  · intro k c entry
    rw [update_of_ne (Ne.symm (home.ne_log (good.inLog entry)))]
    exact good.saved k c entry
  · intro c atHome absent
    have other : c ≠ b := fun same => absent (same ▸ member)
    rw [update_of_ne other]
    exact good.rest c atHome absent

end Recoverable

/-! ## The invariant -/

/-- The blocks whose buffer may differ from the disk. -/
def Pc.dirty (lh : List Nat) : Pc → List Nat
  | .idle | .writeLog _ | .writeHead => lh
  | .install tail => lh.drop tail
  | .clear | .finish | .boot | .recover _ | .recoverClear | .panicked => []

/-- The first `tail` blocks of the transaction are in the log. -/
def Logged (sb : Superblock) (s : State) (tail : Nat) (target : Disk) : Prop :=
  ∀ j b, j < tail → s.lh[j]? = some b → s.disk (sb.logstart + j + 1) = target b

/-- The first `tail` blocks of the transaction are in place. -/
def Installed (s : State) (tail : Nat) (target : Disk) : Prop :=
  ∀ j b, j < tail → s.lh[j]? = some b → s.disk b = target b

/-- The two disks of the argument. -/
structure View where
  committed : Disk
  newest : Disk

/-- A log that keeps whole disks: what the code's log stands for. -/
def View.after (v : View) : Event × Obs → View
  | (_, .panic _) => { v with newest := v.committed }
  | (.logWrite _ b data, _) => { v with newest := update v.newest b data }
  | (_, .committed) => { v with committed := v.newest }
  | (.crash, _) => { v with newest := v.committed }
  | _ => v

/-- What has been written so far, by the point that was reached. -/
def Progress (sb : Superblock) (s : State) (v : View) : Prop :=
  match s.pc with
  | .idle => readHead (s.disk sb.logstart) = []
  | .writeLog tail => readHead (s.disk sb.logstart) = [] ∧ Logged sb s tail v.newest
  | .writeHead => readHead (s.disk sb.logstart) = [] ∧ Logged sb s s.lh.length v.newest
  | .install tail | .recover tail =>
      readHead (s.disk sb.logstart) = s.lh ∧ Installed s tail v.committed ∧ v.newest = v.committed
  | .clear | .recoverClear =>
      readHead (s.disk sb.logstart) = s.lh ∧ Installed s s.lh.length v.committed ∧
        v.newest = v.committed
  | .finish => readHead (s.disk sb.logstart) = [] ∧ s.lh = []
  | .boot => s.lh = [] ∧ v.newest = v.committed
  | .panicked => True

structure Live (sb : Superblock) (s : State) (v : View) : Prop where
  recoverable : Recoverable sb s.disk v.committed
  progress : Progress sb s v
  dirty : ∀ b ∈ s.pc.dirty s.lh, s.cache b = some (v.newest b) ∧ 0 < s.pins b
  clean : ∀ b, b ∉ s.pc.dirty s.lh → ∀ d, s.cache b = some d → d = s.disk b
  nodup : (s.pc.dirty s.lh).Nodup
  home : ∀ b ∈ s.lh, Home sb b
  short : s.lh.length ≤ LOGSIZE
  room : s.lh = [] ∨ s.lh.length + 1 ≤ sb.nlog
  rest : ∀ b, b ∉ s.lh → v.newest b = v.committed b

namespace Live

variable {sb : Superblock} {s t : State} {v : View}
variable {b : Nat}

theorem bread_dirty (live : Live sb s v) (member : b ∈ s.pc.dirty s.lh) :
    s.bread b = v.newest b := by
  simp [State.bread, (live.dirty b member).1]

theorem bread_clean (live : Live sb s v) (absent : b ∉ s.pc.dirty s.lh) :
    s.bread b = s.disk b := by
  cases cached : s.cache b with
  | none => simp [State.bread, cached]
  | some d => simp [State.bread, cached, live.clean b absent d cached]

theorem dirty_subset {pc : Pc} {lh : List Nat} (member : b ∈ pc.dirty lh) : b ∈ lh := by
  cases pc with
  | idle | writeLog | writeHead => exact member
  | install => exact List.mem_of_mem_drop member
  | clear | finish | boot | recover | recoverClear | panicked => cases member

section

variable (live : Live sb s v)
include live

variable {b tail : Nat}

theorem logstart_clean : sb.logstart ∉ s.pc.dirty s.lh :=
  fun member => (live.home _ (dirty_subset member)).ne_logstart rfl

theorem log_clean {j : Nat} (inLog : j + 1 < sb.nlog) :
    sb.logstart + j + 1 ∉ s.pc.dirty s.lh :=
  fun member => (live.home _ (dirty_subset member)).ne_log inLog rfl

theorem inLog {j : Nat} (found : s.lh[j]? = some b) : j + 1 < sb.nlog := by
  obtain ⟨inside, -⟩ := List.getElem?_eq_some_iff.mp found
  rcases live.room with empty | room
  · simp [empty] at inside
  · omega

theorem moved (disk : t.disk = s.disk) (cache : t.cache = s.cache) (pins : t.pins = s.pins)
    (lh : t.lh = s.lh) (dirty : t.pc.dirty t.lh = s.pc.dirty s.lh) (progress : Progress sb t v) :
    Live sb t v where
  recoverable := by rw [disk]; exact live.recoverable
  progress := progress
  dirty := by rw [dirty, cache, pins]; exact live.dirty
  clean := by rw [dirty, cache, disk]; exact live.clean
  nodup := by rw [dirty]; exact live.nodup
  home := by rw [lh]; exact live.home
  short := by rw [lh]; exact live.short
  room := by rw [lh]; exact live.room
  rest := by rw [lh]; exact live.rest

theorem fill (b : Nat) : Live sb (s.fill b) v where
  recoverable := live.recoverable
  progress := live.progress
  dirty c member := by
    refine ⟨?_, (live.dirty c member).2⟩
    by_cases same : c = b
    · subst same
      simp [State.fill, live.bread_dirty member]
    · simp [State.fill, same, (live.dirty c member).1]
  clean c absent d cached := by
    by_cases same : c = b
    · subst same
      simp only [State.fill, update_self, Option.some.injEq] at cached
      exact cached ▸ live.bread_clean absent
    · simp only [State.fill, update_of_ne same] at cached
      exact live.clean c absent d cached
  nodup := live.nodup
  home := live.home
  short := live.short
  room := live.room
  rest := live.rest

theorem evict (free : s.pins b = 0) :
    Live sb { s with cache := update s.cache b none } v where
  recoverable := live.recoverable
  progress := live.progress
  dirty c member := by
    have other : c ≠ b := fun same => by
      have := (live.dirty c member).2
      rw [same, free] at this
      exact Nat.lt_irrefl 0 this
    simpa [other] using live.dirty c member
  clean c absent d cached := by
    by_cases same : c = b
    · simp [same] at cached
    · simp only [update_of_ne same] at cached
      exact live.clean c absent d cached
  nodup := live.nodup
  home := live.home
  short := live.short
  room := live.room
  rest := live.rest

theorem absorb (at_ : s.pc = .idle) (member : b ∈ s.lh) (data : Block) :
    Live sb { s with cache := update s.cache b (some data) }
      { v with newest := update v.newest b data } where
  recoverable := live.recoverable
  progress := by simpa [Progress, at_] using live.progress
  dirty c inside := by
    by_cases same : c = b
    · subst same
      simpa using (live.dirty c inside).2
    · simpa [same] using live.dirty c inside
  clean c absent d cached := by
    have other : c ≠ b := fun same => absent (by simpa only [at_, same, Pc.dirty] using member)
    simp only [update_of_ne other] at cached
    exact live.clean c absent d cached
  nodup := live.nodup
  home := live.home
  short := live.short
  room := live.room
  rest c absent := by
    have other : c ≠ b := fun same => absent (same ▸ member)
    simpa [other] using live.rest c absent

theorem append (at_ : s.pc = .idle) (home : Home sb b) (short : s.lh.length < LOGSIZE)
    (room : (s.lh.length : Int) < sb.nlog - 1) (absent : b ∉ s.lh) (data : Block) :
    Live sb
      { s with
        cache := update s.cache b (some data)
        pins := update s.pins b (s.pins b + 1)
        lh := s.lh ++ [b] }
      { v with newest := update v.newest b data } where
  recoverable := live.recoverable
  progress := by simpa [Progress, at_] using live.progress
  dirty c inside := by
    by_cases same : c = b
    · simp [same]
    · have old : c ∈ s.pc.dirty s.lh := by simpa [at_, Pc.dirty, same] using inside
      simpa [same] using live.dirty c old
  clean c untouched d cached := by
    simp only [at_, Pc.dirty] at untouched
    have other : c ≠ b := fun same => untouched (by simp [same])
    have clean : c ∉ s.pc.dirty s.lh := fun old => untouched (by simp [dirty_subset old])
    simp only [update_of_ne other] at cached
    exact live.clean c clean d cached
  nodup := by
    have old := live.nodup
    simp only [at_, Pc.dirty] at old ⊢
    refine List.nodup_append.mpr ⟨old, by simp, fun c inside d new same => ?_⟩
    exact absent (List.mem_singleton.mp new ▸ same ▸ inside)
  home c inside := by
    rcases List.mem_append.mp inside with old | new
    · exact live.home c old
    · exact List.mem_singleton.mp new ▸ home
  short := by
    rw [List.length_append]
    exact short
  room := by
    refine .inr ?_
    rw [List.length_append, List.length_singleton]
    omega
  rest c untouched := by
    rw [List.mem_append, List.mem_singleton, not_or] at untouched
    simpa [untouched.2] using live.rest c untouched.1

theorem write (at_ : s.pc = .writeLog tail) (found : s.lh[tail]? = some b) :
    Live sb { s.bwrite (sb.logstart + tail + 1) (v.newest b) with pc := .writeLog (tail + 1) }
      v := by
  have inLog := live.inLog found
  have progress := live.progress
  simp only [Progress, at_] at progress
  have apart {c : Nat} (member : c ∈ s.lh) : c ≠ sb.logstart + tail + 1 :=
    (live.home c member).ne_log inLog
  constructor
  case recoverable => exact live.recoverable.write_log progress.1 inLog _
  case progress =>
    refine ⟨?_, ?_⟩
    · simp only [State.bwrite, update_of_ne (show sb.logstart ≠ sb.logstart + tail + 1 by
        omega)]
      exact progress.1
    · intro j c before entry
      simp only [State.bwrite]
      by_cases last : j = tail
      · subst last
        rw [update_self, Option.some.inj (found.symm.trans entry)]
      · rw [update_of_ne (by omega)]
        exact progress.2 j c (by omega) entry
  case dirty =>
    intro c member
    simp only [Pc.dirty, State.bwrite_lh] at member
    have old := live.dirty c (by simpa only [at_, Pc.dirty] using member)
    simpa [apart member] using old
  case clean =>
    intro c absent d cached
    simp only [Pc.dirty, State.bwrite_lh, State.bwrite_cache] at absent cached
    simp only [State.bwrite_disk]
    by_cases same : c = sb.logstart + tail + 1
    · subst same
      simpa using cached.symm
    · rw [update_of_ne same] at cached ⊢
      exact live.clean c (by simpa only [at_, Pc.dirty] using absent) d cached
  case nodup => simpa only [at_, Pc.dirty, State.bwrite_lh] using live.nodup
  case home => exact live.home
  case short => exact live.short
  case room => exact live.room
  case rest => exact live.rest

/-- The header block is written from the in-memory header; the buffers of other
    blocks stay as they are. -/
theorem clean_head (block : Block) {pc : Pc} {lh : List Nat}
    (same : pc.dirty lh = s.pc.dirty s.lh) :
    (∀ b ∈ pc.dirty lh, (s.bwrite sb.logstart block).cache b = some (v.newest b) ∧ 0 < s.pins b) ∧
      (∀ b, b ∉ pc.dirty lh → ∀ d, (s.bwrite sb.logstart block).cache b = some d →
        d = (s.bwrite sb.logstart block).disk b) := by
  constructor
  · intro b member
    rw [same] at member
    have apart := (live.home b (dirty_subset member)).ne_logstart
    simpa [State.bwrite, apart] using live.dirty b member
  · intro b absent d cached
    rw [same] at absent
    simp only [State.bwrite] at cached ⊢
    by_cases here : b = sb.logstart
    · subst here
      simpa using cached.symm
    · rw [update_of_ne here] at cached ⊢
      exact live.clean b absent d cached

theorem head (at_ : s.pc = .writeHead) (block : Block) (encodes : readHead block = s.lh) :
    Live sb { s.bwrite sb.logstart block with pc := .install 0 }
      { v with committed := v.newest } := by
  have progress := live.progress
  simp only [Progress, at_] at progress
  have same : (Pc.install 0).dirty s.lh = s.pc.dirty s.lh := by simp [at_, Pc.dirty]
  obtain ⟨dirty, clean⟩ := live.clean_head block same
  constructor
  case recoverable =>
    refine .of_head encodes live.home live.short live.room ?_ ?_
    · intro j b found
      obtain ⟨inside, -⟩ := List.getElem?_eq_some_iff.mp found
      exact progress.2 j b inside found
    · intro b home absent
      have old := live.recoverable.rest b home (by simp [progress.1])
      exact old.trans (live.rest b absent).symm
  case progress =>
    refine ⟨?_, fun j b before => absurd before (Nat.not_lt_zero j), rfl⟩
    simp [State.bwrite, encodes]
  case dirty => exact dirty
  case clean => exact clean
  case nodup => simpa only [same, State.bwrite_lh] using live.nodup
  case home => exact live.home
  case short => exact live.short
  case room => exact live.room
  case rest => exact fun _ _ => rfl

/-- Both loops of `install_trans` end with every block in place. -/
theorem all_in_place (encodes : readHead (s.disk sb.logstart) = s.lh)
    (installed : Installed s s.lh.length v.committed) (home : Home sb b) :
    s.disk b = v.committed b := by
  by_cases member : b ∈ s.lh
  · obtain ⟨j, inside, found⟩ := List.getElem_of_mem member
    exact installed j b inside (List.getElem?_eq_some_iff.mpr ⟨inside, found⟩)
  · exact live.recoverable.rest b home (encodes.symm ▸ member)

theorem clear (encodes : readHead (s.disk sb.logstart) = s.lh)
    (installed : Installed s s.lh.length v.committed) (same : v.newest = v.committed)
    (none_ : s.pc.dirty s.lh = []) (block : Block) (empty : readHead block = []) (pc : Pc)
    (after : pc = .finish ∨ pc = .idle) :
    Live sb { s.bwrite sb.logstart block with lh := [], pc := pc } v := by
  have clean_ : pc.dirty [] = [] := by rcases after with rfl | rfl <;> rfl
  obtain ⟨dirty, clean⟩ := live.clean_head block (clean_.trans none_.symm)
  constructor
  case recoverable =>
    refine .of_head empty (by simp) (by simp) (.inl rfl) (by simp) ?_
    exact fun b home _ => live.all_in_place encodes installed home
  case progress =>
    rcases after with rfl | rfl <;> simp [Progress, State.bwrite, empty]
  case dirty => exact dirty
  case clean => exact clean
  case nodup => simp [clean_]
  case home => simp
  case short => simp
  case room => exact .inl rfl
  case rest => exact fun b _ => by rw [same]

theorem installs (found : s.lh[tail]? = some b) (encodes : readHead (s.disk sb.logstart) = s.lh)
    (installed : Installed s tail v.committed) (t : State) (lh : t.lh = s.lh)
    (disk : t.disk = update s.disk b (s.disk (sb.logstart + tail + 1))) :
    Recoverable sb t.disk v.committed ∧ readHead (t.disk sb.logstart) = t.lh ∧
      Installed t (tail + 1) v.committed := by
  have entry : (readHead (s.disk sb.logstart))[tail]? = some b := encodes ▸ found
  have home := live.home b (List.mem_of_getElem? found)
  have value := live.recoverable.saved tail b entry
  refine ⟨disk ▸ live.recoverable.install entry, ?_, ?_⟩
  · rw [disk, update_of_ne (Ne.symm home.ne_logstart), lh, encodes]
  · intro j c before later
    rw [lh] at later
    rw [disk]
    by_cases same : c = b
    · rw [same, update_self, value]
    · rw [update_of_ne same]
      have notLast : j ≠ tail := fun last => same (by
        rw [last, found] at later
        exact (Option.some.inj later).symm)
      exact installed j c (by omega) later

theorem install (at_ : s.pc = .install tail) (found : s.lh[tail]? = some b) :
    Live sb
      { (s.bwrite b (s.disk (sb.logstart + tail + 1))).bunpin b with pc := .install (tail + 1) }
      v := by
  have progress := live.progress
  simp only [Progress, at_] at progress
  obtain ⟨inside, entry⟩ := List.getElem?_eq_some_iff.mp found
  have split : s.lh.drop tail = b :: s.lh.drop (tail + 1) := by
    rw [List.drop_eq_getElem_cons inside, entry]
  have nodup := live.nodup
  simp only [at_, Pc.dirty, split, List.nodup_cons] at nodup
  have old (c : Nat) : c ∈ s.pc.dirty s.lh ↔ c = b ∨ c ∈ s.lh.drop (tail + 1) := by
    simp only [at_, Pc.dirty, split, List.mem_cons]
  obtain ⟨recoverable, encodes, installed⟩ := live.installs found progress.1 progress.2.1
    { (s.bwrite b (s.disk (sb.logstart + tail + 1))).bunpin b with pc := .install (tail + 1) }
    rfl rfl
  constructor
  case recoverable => exact recoverable
  case progress => exact ⟨encodes, installed, progress.2.2⟩
  case dirty =>
    intro c member
    simp only [Pc.dirty, State.bunpin_lh, State.bwrite_lh] at member
    have other : c ≠ b := fun same => nodup.1 (same ▸ member)
    simpa [State.bunpin, other] using live.dirty c ((old c).mpr (.inr member))
  case clean =>
    intro c absent d cached
    simp only [Pc.dirty, State.bunpin_lh, State.bwrite_lh, State.bunpin_cache,
      State.bwrite_cache] at absent cached
    simp only [State.bunpin_disk, State.bwrite_disk]
    by_cases same : c = b
    · subst same
      simpa using cached.symm
    · rw [update_of_ne same] at cached ⊢
      exact live.clean c (fun member => ((old c).mp member).elim same absent) d cached
  case nodup => exact nodup.2
  case home => exact live.home
  case short => exact live.short
  case room => exact live.room
  case rest => exact live.rest

theorem recover (at_ : s.pc = .recover tail) (found : s.lh[tail]? = some b) :
    Live sb { s.bwrite b (s.disk (sb.logstart + tail + 1)) with pc := .recover (tail + 1) } v := by
  have progress := live.progress
  simp only [Progress, at_] at progress
  obtain ⟨recoverable, encodes, installed⟩ := live.installs found progress.1 progress.2.1
    { s.bwrite b (s.disk (sb.logstart + tail + 1)) with pc := .recover (tail + 1) } rfl rfl
  constructor
  case recoverable => exact recoverable
  case progress => exact ⟨encodes, installed, progress.2.2⟩
  case dirty => exact fun c member => by cases member
  case clean =>
    intro c _ d cached
    simp only [State.bwrite_cache] at cached
    simp only [State.bwrite_disk]
    by_cases same : c = b
    · subst same
      simpa using cached.symm
    · rw [update_of_ne same] at cached ⊢
      exact live.clean c (by simp [at_, Pc.dirty]) d cached
  case nodup => exact List.nodup_nil
  case home => exact live.home
  case short => exact live.short
  case room => exact live.room
  case rest => exact live.rest

theorem boot (at_ : s.pc = .boot) :
    Live sb { s with lh := readHead (s.disk sb.logstart), pc := .recover 0 } v := by
  have progress := live.progress
  simp only [Progress, at_] at progress
  constructor
  case recoverable => exact live.recoverable
  case progress => exact ⟨rfl, fun j b before => absurd before (Nat.not_lt_zero j), progress.2⟩
  case dirty => exact fun c member => by cases member
  case clean => exact fun c _ => live.clean c (by simp [at_, Pc.dirty])
  case nodup => exact List.nodup_nil
  case home => exact live.recoverable.home
  case short => exact live.recoverable.short
  case room => exact live.recoverable.room
  case rest => exact fun b _ => by rw [progress.2]

end

theorem powerOn {d : Disk} {committed : Disk} (good : Recoverable sb d committed) (n : Nat) :
    Live sb (powerOn d n) ⟨committed, committed⟩ where
  recoverable := good
  progress := ⟨rfl, rfl⟩
  dirty c member := by cases member
  clean c _ d cached := by cases cached
  nodup := List.nodup_nil
  home b member := by cases member
  short := Nat.zero_le _
  room := .inl rfl
  rest _ _ := rfl

/-- Every step of the log does to the two disks what its event says, until a panic. -/
theorem keep {e : Event} {o : Obs} (live : Live sb s v) (control : Control s)
    (moved : Trans sb s e t o) :
    Recoverable sb t.disk (v.after (e, o)).committed ∧
      (t.pc ≠ .panicked → Live sb t (v.after (e, o))) := by
  suffices either : (t.pc = .panicked ∧ t.disk = s.disk ∧
      (v.after (e, o)).committed = v.committed) ∨ Live sb t (v.after (e, o)) by
    rcases either with ⟨stop, disk, same⟩ | live'
    · exact ⟨by rw [disk, same]; exact live.recoverable, fun go => absurd stop go⟩
    · exact ⟨live'.recoverable, fun _ => live'⟩
  have progress := live.progress
  have headOf (lh : List Nat) (short : lh.length ≤ LOGSIZE) (home : ∀ b ∈ lh, Home sb b)
      (block : Block) : readHead (writeHead block lh) = lh :=
    readHead_writeHead short fun b member => (home b member).1
  cases moved with
  | full | outside | endCommitting => exact .inl ⟨rfl, rfl, rfl⟩
  | beginOp => exact .inr (live.moved rfl rfl rfl rfl rfl live.progress)
  | absorb inside _ _ _ member => exact .inr (live.absorb (control.idle inside) member _)
  | append inside home short room absent =>
    exact .inr (live.append (control.idle inside) home short room absent _)
  | endStart inside =>
    have at_ := control.idle inside
    simp only [Progress, at_] at progress
    refine .inr (live.moved rfl rfl rfl rfl (by simp [at_, Pc.dirty]) ⟨progress, ?_⟩)
    exact fun j b before => absurd before (Nat.not_lt_zero j)
  | endEmpty inside _ _ none_ =>
    have at_ := control.idle inside
    simp only [Progress, at_] at progress
    exact .inr (live.moved rfl rfl rfl rfl (by simp [at_, Pc.dirty, none_]) ⟨progress, none_⟩)
  | endMore => exact .inr (live.moved rfl rfl rfl rfl rfl live.progress)
  | write at_ found =>
    rw [live.bread_dirty (by simpa [at_, Pc.dirty] using List.mem_of_getElem? found)]
    exact .inr ((live.fill _).write at_ found)
  | written at_ done =>
    simp only [Progress, at_] at progress
    refine .inr (live.moved rfl rfl rfl rfl (by simp [at_, Pc.dirty]) ⟨progress.1, ?_⟩)
    exact fun j b before => progress.2 j b (by simp only at before; omega)
  | head at_ => exact .inr (live.head at_ _ (headOf _ live.short live.home _))
  | install at_ found =>
    rw [live.bread_clean (live.log_clean (live.inLog found))]
    exact .inr ((live.fill _).install at_ found)
  | installed at_ done =>
    simp only [Progress, at_] at progress
    refine .inr (live.moved rfl rfl rfl rfl ?_ ⟨progress.1, ?_, progress.2.2⟩)
    · simp [at_, Pc.dirty, List.drop_eq_nil_of_le done]
    · exact fun j b before => progress.2.1 j b (by simp only at before; omega)
  | clear at_ =>
    simp only [Progress, at_] at progress
    exact .inr (live.clear progress.1 progress.2.1 progress.2.2 (by simp [at_, Pc.dirty]) _
      (headOf [] (by simp) (by simp) _) .finish (.inl rfl))
  | finish at_ =>
    simp only [Progress, at_] at progress
    exact .inr (live.moved rfl rfl rfl rfl (by simp [at_, Pc.dirty, progress.2]) progress.1)
  | boot at_ =>
    rw [live.bread_clean live.logstart_clean]
    exact .inr ((live.fill _).boot at_)
  | recover at_ found =>
    rw [live.bread_clean (live.log_clean (live.inLog found))]
    exact .inr ((live.fill _).recover at_ found)
  | recovered at_ done =>
    simp only [Progress, at_] at progress
    refine .inr (live.moved rfl rfl rfl rfl (by simp [at_, Pc.dirty])
      ⟨progress.1, ?_, progress.2.2⟩)
    exact fun j b before => progress.2.1 j b (by simp only at before; omega)
  | recoverClear at_ =>
    simp only [Progress, at_] at progress
    exact .inr (live.clear progress.1 progress.2.1 progress.2.2 (by simp [at_, Pc.dirty]) _
      (headOf [] (by simp) (by simp) _) .idle (.inr rfl))
  | bread => exact .inr (live.fill _)
  | evict free => exact .inr (live.evict free)
  | crash => exact .inr (Live.powerOn live.recoverable _)

end Live

/-! ## An undisturbed boot -/

/-- The cache agrees with the disk. -/
def Coherent (s : State) : Prop := ∀ b d, s.cache b = some d → d = s.disk b

theorem Coherent.bread (coherent : Coherent s) (b : Nat) : s.bread b = s.disk b := by
  cases cached : s.cache b with
  | none => simp [State.bread, cached]
  | some d => simp [State.bread, cached, coherent b d cached]

theorem Coherent.fill (coherent : Coherent s) (b : Nat) : Coherent (s.fill b) := by
  intro c d cached
  simp only [State.fill] at cached ⊢
  by_cases same : c = b
  · subst same
    simp only [update_self, Option.some.injEq] at cached
    exact cached ▸ coherent.bread c
  · rw [update_of_ne same] at cached
    exact coherent c d cached

theorem Coherent.bwrite (coherent : Coherent s) (b : Nat) (data : Block) :
    Coherent (s.bwrite b data) := by
  intro c d cached
  simp only [State.bwrite] at cached ⊢
  by_cases same : c = b
  · subst same
    simpa using cached.symm
  · rw [update_of_ne same] at cached ⊢
    exact coherent c d cached

/-- The loop of `install_trans(1)`, run to its end, and the last write. -/
theorem run_recover {tail : Nat} (at_ : s.pc = .recover tail) (coherent : Coherent s) :
    ∃ tr t, (machine sb).Run s tr t ∧ (∀ x ∈ tr, x = (.next, .silent)) ∧ t.pc = .idle ∧
      t.disk = update (installTrans sb (s.lh.drop tail) tail s.disk) sb.logstart
        (writeHead (installTrans sb (s.lh.drop tail) tail s.disk sb.logstart) []) := by
  generalize todo : s.lh.drop tail = bs
  induction bs generalizing s tail with
  | nil =>
    have ended : s.lh[tail]? = none := by
      rw [List.getElem?_eq_none_iff, ← List.drop_eq_nil_iff]
      exact todo
    refine ⟨[(.next, .silent), (.next, .silent)],
      { s.bwrite sb.logstart (writeHead (s.bread sb.logstart) []) with lh := [], pc := .idle },
      .cons (t := { s with pc := .recoverClear }) ?_ (.cons rfl .start), by simp, rfl, ?_⟩
    · simp only [machine, step, next, at_, ended]
    · simp only [State.bwrite_disk, installTrans, coherent.bread]
  | cons b bs ih =>
    have entry : s.lh[tail]? = some b := by
      rw [← List.head?_drop, todo]
      rfl
    have rest : s.lh.drop (tail + 1) = bs := by
      rw [← List.tail_drop, todo]
      rfl
    obtain ⟨tr, t, run, all, idle, disk⟩ := @ih
      { (s.fill (sb.logstart + tail + 1)).bwrite b (s.bread (sb.logstart + tail + 1)) with
        pc := .recover (tail + 1) }
      (tail + 1) rfl ((coherent.fill _).bwrite _ _) rest
    refine ⟨(.next, .silent) :: tr, t, .cons ?_ run, by simpa using all, idle, ?_⟩
    · simp only [machine, step, next, at_, entry]
    · rw [disk]
      simp only [State.bwrite_disk, State.fill_disk, coherent.bread, installTrans]

/-- A boot that no crash interrupts does to the disk what `recoverFromLog` says, if the header
    is one that a run leaves. -/
theorem run_recoverFromLog (sb : Superblock) (d : Disk) (n : Nat) :
    ∃ tr t, (machine sb).Run (powerOn d n) tr t ∧ (∀ x ∈ tr, x = (.next, .silent)) ∧
      t.pc = .idle ∧ t.disk = recoverFromLog sb d := by
  have cold : Coherent (powerOn d n) := fun b x cached => by cases cached
  obtain ⟨tr, t, run, all, idle, disk⟩ := @run_recover sb
    { (powerOn d n).fill sb.logstart with
      lh := readHead ((powerOn d n).bread sb.logstart), pc := .recover 0 } 0 rfl (cold.fill _)
  exact ⟨(.next, .silent) :: tr, t, .cons rfl run, by simpa using all, idle, disk⟩

end Xv6.Kernel.Log
