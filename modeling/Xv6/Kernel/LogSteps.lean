import Xv6.Kernel.Log
import Xv6.Lib.Redo

/-! # What the steps of the log do

The transitions of the log, each with its guard, and the control invariant: while
a transaction commits no operation is between `begin_op` and `end_op`, so
`log_write` only happens when nobody commits.
-/

namespace Xv6.Kernel.Log

open Function

namespace State

@[simp] theorem fill_disk (s : State) (b : Nat) : (s.fill b).disk = s.disk := rfl

@[simp] theorem bwrite_disk (s : State) (b : Nat) (data : Block) :
    (s.bwrite b data).disk = update s.disk b data := rfl

@[simp] theorem bwrite_cache (s : State) (b : Nat) (data : Block) :
    (s.bwrite b data).cache = update s.cache b (some data) := rfl

@[simp] theorem bwrite_lh (s : State) (b : Nat) (data : Block) : (s.bwrite b data).lh = s.lh := rfl

@[simp] theorem bwrite_pins (s : State) (b : Nat) (data : Block) :
    (s.bwrite b data).pins = s.pins := rfl

@[simp] theorem bunpin_disk (s : State) (b : Nat) : (s.bunpin b).disk = s.disk := rfl

@[simp] theorem bunpin_cache (s : State) (b : Nat) : (s.bunpin b).cache = s.cache := rfl

@[simp] theorem bunpin_lh (s : State) (b : Nat) : (s.bunpin b).lh = s.lh := rfl

end State

inductive Trans (sb : Superblock) (s : State) : Event → State → Obs → Prop where
  | beginOp : s.pc.up = true → s.committing = false →
      (s.lh.length : Int) + (s.outstanding + 1) * MAXOPBLOCKS ≤ LOGSIZE →
      Trans sb s .beginOp
        { s with
          outstanding := s.outstanding + 1
          ops := s.ops ++ [s.nextOp]
          nextOp := s.nextOp + 1 } .silent
  | full {op b : Nat} {data : Block} : op ∈ s.ops → Home sb b →
      s.lh.length ≥ LOGSIZE ∨ (s.lh.length : Int) ≥ sb.nlog - 1 →
      Trans sb s (.logWrite op b data)
        { s with cache := update s.cache b (some data), ops := [], pc := .panicked }
        (.panic "too big a transaction")
  | outside {op b : Nat} {data : Block} : op ∈ s.ops → Home sb b → s.outstanding < 1 →
      Trans sb s (.logWrite op b data)
        { s with cache := update s.cache b (some data), ops := [], pc := .panicked }
        (.panic "log_write outside of trans")
  | absorb {op b : Nat} {data : Block} : op ∈ s.ops → Home sb b →
      s.lh.length < LOGSIZE → (s.lh.length : Int) < sb.nlog - 1 → b ∈ s.lh →
      Trans sb s (.logWrite op b data)
        { s with cache := update s.cache b (some data) } .silent
  | append {op b : Nat} {data : Block} : op ∈ s.ops → Home sb b →
      s.lh.length < LOGSIZE → (s.lh.length : Int) < sb.nlog - 1 → b ∉ s.lh →
      Trans sb s (.logWrite op b data)
        { s with
          cache := update s.cache b (some data)
          pins := update s.pins b (s.pins b + 1)
          lh := s.lh ++ [b] } .silent
  | endCommitting {op : Nat} : op ∈ s.ops → s.committing = true →
      Trans sb s (.endOp op)
        { s with outstanding := s.outstanding - 1, ops := [], pc := .panicked }
        (.panic "log.committing")
  | endStart {op : Nat} : op ∈ s.ops → s.committing = false → s.outstanding = 1 → s.lh ≠ [] →
      Trans sb s (.endOp op)
        { s with
          outstanding := 0
          ops := s.ops.erase op
          committing := true
          pc := .writeLog 0 } .started
  | endEmpty {op : Nat} : op ∈ s.ops → s.committing = false → s.outstanding = 1 → s.lh = [] →
      Trans sb s (.endOp op)
        { s with
          outstanding := 0
          ops := s.ops.erase op
          committing := true
          pc := .finish } .silent
  | endMore {op : Nat} : op ∈ s.ops → s.committing = false → s.outstanding ≠ 1 →
      Trans sb s (.endOp op)
        { s with outstanding := s.outstanding - 1, ops := s.ops.erase op } .silent
  | write {tail b : Nat} : s.pc = .writeLog tail → s.lh[tail]? = some b →
      Trans sb s .next
        { (s.fill b).bwrite (sb.logstart + tail + 1) (s.bread b) with pc := .writeLog (tail + 1) }
        .silent
  | written {tail : Nat} : s.pc = .writeLog tail → s.lh.length ≤ tail →
      Trans sb s .next { s with pc := .writeHead } .silent
  | head : s.pc = .writeHead →
      Trans sb s .next
        { s.bwrite sb.logstart (writeHead (s.bread sb.logstart) s.lh) with pc := .install 0 }
        .committed
  | install {tail b : Nat} : s.pc = .install tail → s.lh[tail]? = some b →
      Trans sb s .next
        { ((s.fill (sb.logstart + tail + 1)).bwrite b (s.bread (sb.logstart + tail + 1))).bunpin b
          with pc := .install (tail + 1) } .silent
  | installed {tail : Nat} : s.pc = .install tail → s.lh.length ≤ tail →
      Trans sb s .next { s with pc := .clear } .silent
  | clear : s.pc = .clear →
      Trans sb s .next
        { s.bwrite sb.logstart (writeHead (s.bread sb.logstart) []) with lh := [], pc := .finish }
        .returned
  | finish : s.pc = .finish →
      Trans sb s .next { s with committing := false, pc := .idle } .silent
  | boot : s.pc = .boot →
      Trans sb s .next
        { s.fill sb.logstart with lh := readHead (s.bread sb.logstart), pc := .recover 0 } .silent
  | recover {tail b : Nat} : s.pc = .recover tail → s.lh[tail]? = some b →
      Trans sb s .next
        { (s.fill (sb.logstart + tail + 1)).bwrite b (s.bread (sb.logstart + tail + 1))
          with pc := .recover (tail + 1) } .silent
  | recovered {tail : Nat} : s.pc = .recover tail → s.lh.length ≤ tail →
      Trans sb s .next { s with pc := .recoverClear } .silent
  | recoverClear : s.pc = .recoverClear →
      Trans sb s .next
        { s.bwrite sb.logstart (writeHead (s.bread sb.logstart) []) with lh := [], pc := .idle }
        .silent
  | bread {b : Nat} : s.pc ≠ .panicked → Trans sb s (.bread b) (s.fill b) .silent
  | evict {b : Nat} : s.pins b = 0 →
      Trans sb s (.evict b) { s with cache := update s.cache b none } .silent
  | crash : Trans sb s .crash (powerOn s.disk s.nextOp) .silent

variable {sb : Superblock} {s t : State} {o : Obs}

theorem trans_beginOp (taken : step sb s .beginOp = some (t, o)) : Trans sb s .beginOp t o := by
  simp only [step, beginOp] at taken
  split at taken
  · split at taken
    · cases taken
    · split at taken
      · cases taken
      · cases taken
        exact .beginOp ‹_› (by simpa using ‹¬ s.committing = true›) (by omega)
  · cases taken

theorem trans_logWrite {op b : Nat} {data : Block}
    (taken : step sb s (.logWrite op b data) = some (t, o)) :
    Trans sb s (.logWrite op b data) t o := by
  simp only [step] at taken
  split at taken
  case isFalse => cases taken
  rename_i allowed
  obtain ⟨inside, home⟩ := allowed
  simp only [logWrite, State.panic, Option.some.injEq] at taken
  split at taken
  case isTrue =>
    cases taken
    exact .full inside home ‹_›
  rename_i room
  split at taken
  case isTrue =>
    cases taken
    exact .outside inside home ‹_›
  have short : s.lh.length < LOGSIZE ∧ (s.lh.length : Int) < sb.nlog - 1 := by omega
  split at taken
  · rename_i absent
    cases taken
    rw [List.idxOf_eq_length_iff] at absent
    exact .append inside home short.1 short.2 absent
  · rename_i found
    rw [List.idxOf_eq_length_iff, not_not] at found
    cases taken
    have same : s.lh.set (s.lh.idxOf b) b = s.lh := by
      have inRange := List.idxOf_lt_length_of_mem found
      calc s.lh.set (s.lh.idxOf b) b = s.lh.set (s.lh.idxOf b) s.lh[s.lh.idxOf b] := by
            rw [List.getElem_idxOf inRange]
        _ = s.lh := List.set_getElem_self inRange
    rw [same]
    exact .absorb inside home short.1 short.2 found

theorem trans_endOp {op : Nat} (taken : step sb s (.endOp op) = some (t, o)) :
    Trans sb s (.endOp op) t o := by
  simp only [step] at taken
  split at taken
  case isFalse => cases taken
  rename_i inside
  simp only [endOp, State.panic, Option.some.injEq] at taken
  split at taken
  case isTrue =>
    cases taken
    exact .endCommitting inside ‹_›
  rename_i quiet
  rw [Bool.not_eq_true] at quiet
  split at taken
  case isFalse =>
    cases taken
    exact .endMore inside quiet (by omega)
  rename_i last
  have one : s.outstanding = 1 := by omega
  rw [last] at taken
  split at taken
  · rename_i some_
    cases taken
    exact .endStart inside quiet one (List.ne_nil_of_length_pos some_)
  · rename_i none_
    cases taken
    exact .endEmpty inside quiet one (List.eq_nil_of_length_eq_zero (by omega))

theorem trans_next (taken : step sb s .next = some (t, o)) : Trans sb s .next t o := by
  simp only [step, next] at taken
  split at taken
  case h_1 at_ =>
    split at taken <;> cases taken
    · exact .write at_ ‹_›
    · exact .written at_ (List.getElem?_eq_none_iff.mp ‹_›)
  case h_2 at_ => cases taken; exact .head at_
  case h_3 at_ =>
    split at taken <;> cases taken
    · exact .install at_ ‹_›
    · exact .installed at_ (List.getElem?_eq_none_iff.mp ‹_›)
  case h_4 at_ => cases taken; exact .clear at_
  case h_5 at_ => cases taken; exact .finish at_
  case h_6 at_ => cases taken; exact .boot at_
  case h_7 at_ =>
    split at taken <;> cases taken
    · exact .recover at_ ‹_›
    · exact .recovered at_ (List.getElem?_eq_none_iff.mp ‹_›)
  case h_8 at_ => cases taken; exact .recoverClear at_
  case h_9 => cases taken
  case h_10 => cases taken

theorem step_trans {e : Event} (taken : step sb s e = some (t, o)) : Trans sb s e t o := by
  cases e with
  | beginOp => exact trans_beginOp taken
  | logWrite => exact trans_logWrite taken
  | endOp => exact trans_endOp taken
  | next => exact trans_next taken
  | bread =>
    simp only [step] at taken
    split at taken
    · cases taken
    · cases taken
      exact .bread ‹_›
  | evict =>
    simp only [step] at taken
    split at taken
    · cases taken
      exact .evict ‹_›
    · cases taken
  | crash =>
    cases taken
    exact .crash

/-! ## Who may be where -/

/-- The process at this point is inside `commit` or just behind it. -/
def Pc.commits : Pc → Bool
  | .writeLog _ | .writeHead | .install _ | .clear | .finish => true
  | .idle | .boot | .recover _ | .recoverClear | .panicked => false

structure Control (s : State) : Prop where
  count : s.pc ≠ .panicked → s.outstanding = s.ops.length
  fresh : ∀ i ∈ s.ops, i < s.nextOp
  nodup : s.ops.Nodup
  alone : s.ops ≠ [] → s.pc = .idle
  committing : s.pc ≠ .panicked → s.committing = s.pc.commits

namespace Control

theorem powerOn (d : Disk) (n : Nat) : Control (powerOn d n) where
  count _ := rfl
  fresh i inside := by cases inside
  nodup := List.nodup_nil
  alone some_ := absurd rfl some_
  committing _ := rfl

theorem panicked (at_ : s.pc = .panicked) (none_ : s.ops = []) : Control s where
  count live := absurd at_ live
  fresh i inside := by simp [none_] at inside
  nodup := by simp [none_]
  alone some_ := absurd none_ some_
  committing live := absurd at_ live

section

variable (control : Control s)
include control

theorem idle {op : Nat} (inside : op ∈ s.ops) : s.pc = .idle :=
  control.alone (List.ne_nil_of_mem inside)

theorem quiet {op : Nat} (inside : op ∈ s.ops) : s.committing = false := by
  rw [control.committing (by simp [control.idle inside]), control.idle inside]
  rfl

theorem count_of_mem {op : Nat} (inside : op ∈ s.ops) :
    s.outstanding = s.ops.length :=
  control.count (by simp [control.idle inside])

theorem outstanding_pos {op : Nat} (inside : op ∈ s.ops) :
    1 ≤ s.outstanding := by
  rw [control.count_of_mem inside]
  have := List.length_pos_of_mem inside
  omega

theorem erase_last {op : Nat} (inside : op ∈ s.ops) (one : s.outstanding = 1) :
    s.ops.erase op = [] := by
  have length := control.count_of_mem inside
  apply List.eq_nil_of_length_eq_zero
  rw [List.length_erase_of_mem inside]
  omega

/-- No operation runs where the committing or recovering process moves on. -/
theorem ops_of_ne_idle (busy : s.pc ≠ .idle) : s.ops = [] := by
  by_contra some_
  exact busy (control.alone some_)

/-- The committing or recovering process moves on, and nothing else changes. -/
theorem moved {pc : Pc} {committing : Bool} (busy : s.pc ≠ .idle) (live : s.pc ≠ .panicked)
    (same : committing = pc.commits) (ops : t.ops = s.ops) (nextOp : t.nextOp = s.nextOp)
    (out : t.outstanding = s.outstanding) (flag : t.committing = committing) (at_ : t.pc = pc) :
    Control t where
  count _ := by rw [out, ops, control.count live]
  fresh := by rw [ops, nextOp]; exact control.fresh
  nodup := by rw [ops]; exact control.nodup
  alone some_ := absurd (ops.trans (control.ops_of_ne_idle busy)) some_
  committing _ := by rw [flag, at_, same]

theorem keep {e : Event} (moved : Trans sb s e t o) : Control t := by
  cases moved with
  | beginOp up quiet _ =>
    have idle : s.pc = .idle := by
      have same := control.committing (by rintro at_; simp [at_, Pc.up] at up)
      cases at_ : s.pc <;> simp_all [Pc.up, Pc.commits]
    constructor
    case count =>
      intro live
      simp [control.count live]
    case fresh =>
      intro i inside
      rcases List.mem_append.mp inside with old | new
      · exact Nat.lt_succ_of_lt (control.fresh i old)
      · rw [List.mem_singleton.mp new]
        exact Nat.lt_succ_self _
    case nodup =>
      refine List.nodup_append.mpr ⟨control.nodup, by simp, ?_⟩
      intro i old j new
      rw [List.mem_singleton.mp new]
      exact Nat.ne_of_lt (control.fresh i old)
    case alone => exact fun _ => idle
    case committing => exact control.committing
  | full | outside | endCommitting =>
    exact Control.panicked rfl rfl
  | absorb | append => exact ⟨control.count, control.fresh, control.nodup, control.alone,
      control.committing⟩
  | endStart inside _ one | endEmpty inside _ one =>
    have none_ := control.erase_last inside one
    exact ⟨fun _ => by simp [none_], fun i inside => by simp [none_] at inside,
      by simp [none_], fun some_ => absurd none_ some_, fun _ => rfl⟩
  | endMore inside =>
    constructor
    case count =>
      intro live
      have := List.length_pos_of_mem inside
      simp only [List.length_erase_of_mem inside, control.count live]
      omega
    case fresh => exact fun i inside => control.fresh i (List.mem_of_mem_erase inside)
    case nodup => exact control.nodup.erase _
    case alone => exact fun _ => control.idle inside
    case committing => exact control.committing
  | write at_ | written at_ | head at_ | install at_ | installed at_ | clear at_ =>
    have same := control.committing (by simp [at_])
    exact control.moved (by simp [at_]) (by simp [at_]) (by rw [at_]; rfl) rfl rfl rfl same rfl
  | finish at_ =>
    exact control.moved (by simp [at_]) (by simp [at_]) rfl rfl rfl rfl rfl rfl
  | boot at_ | recover at_ | recovered at_ | recoverClear at_ =>
    have same := control.committing (by simp [at_])
    exact control.moved (by simp [at_]) (by simp [at_]) (by rw [at_]; rfl) rfl rfl rfl same rfl
  | bread | evict => exact ⟨control.count, control.fresh, control.nodup, control.alone,
      control.committing⟩
  | crash => exact Control.powerOn _ _

end

theorem run {img : Image sb} {tr : List (Event × Obs)}
    (run : (machine sb).Run (start img) tr s) : Control s :=
  run.always_invariant (fun _ s => Control s) (Control.powerOn _ _)
    (fun _ _ _ _ _ _ control taken => control.keep (step_trans taken))

end Control

end Xv6.Kernel.Log
