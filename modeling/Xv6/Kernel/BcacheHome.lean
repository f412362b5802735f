import Xv6.Kernel.BcacheCommit

/-! # What commit stores

`commit` copies each logged block to the log and from there to its home. Between the two
nobody can change the block and give it back: `log_write` panics, because no operation is
outstanding. So the copy that reaches home is what the cache holds already, as long as
the blocks of the log itself are left to `commit`.
-/

namespace Xv6.Kernel.Bcache

open Function

open Log (Superblock)

variable {b : Nat} {pc pc' : Pc} {i : Fin NBUF} {data : Block} {id : Id}

section

variable {sb : Superblock} {s s' : State} {e : Event} {o : Obs}

/-! ## The log -/

/-- `log.lh` after the step. -/
def Obs.log (lh : List Nat) : Obs → List Nat
  | .logged b true => lh ++ [b]
  | .cleared => []
  | _ => lh

/-- What a step does to `log.lh`. -/
def LogStep (s s' : State) (o : Obs) : Prop :=
  s'.lh = o.log s.lh ∧ (o = .cleared → s.pinned = [])

/-- How many of the `n` logged blocks are in the log on disk. -/
def Pc.copied (n : Nat) : Pc → Nat
  | .writeLog tail | .writeLogFrom tail | .writeLogCopy tail => tail
  | .writeLogPutFrom tail | .writeLogPutTo tail => tail + 1
  | .writeHead last | .writeHeadCopy last | .writeHeadPut last => if last then 0 else n
  | .finish => 0
  | _ => n

/-! ## What a step can do -/

/-- The step neither logs nor writes a block, and the log is not cleared. -/
def Obs.Aside : Obs → Prop
  | .logged .. | .written .. | .cleared => False
  | _ => True

/-- What `commitStep` can do. -/
inductive Commits (s : State) (p : Fin NPROC) : Pc → State → Obs → Prop where
  | goes {pc pc' c' o} (aside : o.Aside)
      (further : pc'.copied s.lh.length ≤ pc.copied s.lh.length) :
      Commits s p pc { s.goto p pc' with cache := c' } o
  | toLog {tail from_ to_ rest s' o} (held : (s.cache.procs p).held = from_ :: to_ :: rest)
      (done : s.copy p to_ (s.cache.bufs from_).data (.writeLogPutFrom tail) = some (s', o)) :
      Commits s p (.writeLogCopy tail) s' o
  | toHead {last buf rest data s' o} (held : (s.cache.procs p).held = buf :: rest)
      (done : s.copy p buf data (.writeHeadPut last) = some (s', o)) :
      Commits s p (.writeHeadCopy last) s' o
  | toHome {tail dbuf lbuf rest s' o} (held : (s.cache.procs p).held = dbuf :: lbuf :: rest)
      (done : s.copy p dbuf (s.cache.bufs lbuf).data (.installUnpin tail) = some (s', o)) :
      Commits s p (.installCopy tail) s' o
  | clears {tail} (all : s.lh.length ≤ tail) :
      Commits s p (.installTrans tail) { s.goto p (.writeHead true) with lh := [] } .cleared
  | finish : Commits s p .finish { s with commit := none } .silent

/-- What a step can do to the log and to `commit`. -/
inductive Does (sb : Superblock) (s : State) : State → Obs → Prop where
  | aside {c' n o} (aside : o.Aside) : Does sb s { s with cache := c', outstanding := n } o
  | pin {c' b} (room : (s.lh.length : Int) < sb.nlog - 1) (op : ¬ s.outstanding < 1) :
      Does sb s { s with cache := c', lh := s.lh ++ [b] } (.logged b true)
  | absorb {c' b} (op : ¬ s.outstanding < 1) : Does sb s { s with cache := c' } (.logged b false)
  | starts {c' n p pc} (none : ∀ k, pc.copied k = 0) :
      Does sb s { s with cache := c', outstanding := n, commit := some (p, pc) } .silent
  | commits {p pc s' o} (commit : s.commit = some (p, pc)) (idle : (s.cache.procs p).call = none)
      (does : Commits s p pc s' o) : Does sb s s' o

theorem Obs.Aside.log (aside : o.Aside) (lh : List Nat) : o.log lh = lh := by
  cases o with
  | logged | written | cleared => cases aside
  | _ => rfl

theorem Cache.bget_aside {c c' : Cache} {p : Fin NPROC} {dev blockno : Nat}
    (done : c.bget p dev blockno = some (c', o)) : o.Aside := by
  unfold Cache.bget at done
  split at done
  · cases done
    trivial
  · split at done <;> cases done
    trivial

theorem Cache.bread_aside {c c' : Cache} {p : Fin NPROC} (done : c.bread p i = some (c', o)) :
    o.Aside := by
  unfold Cache.bread at done
  split at done <;> cases done
  trivial

theorem State.bget_commits {p : Fin NPROC} (done : s.bget p b pc' = some (s', o))
    (further : pc'.copied s.lh.length ≤ pc.copied s.lh.length) : Commits s p pc s' o := by
  obtain ⟨⟨c', o'⟩, got, equal⟩ := Option.map_eq_some_iff.mp done
  cases equal
  exact .goes (Cache.bget_aside got) further

theorem State.brelse_commits {p : Fin NPROC} (done : s.brelse p i pc' = some (s', o))
    (further : pc'.copied s.lh.length ≤ pc.copied s.lh.length) : Commits s p pc s' o := by
  obtain ⟨c', got, equal⟩ := Option.map_eq_some_iff.mp done
  cases equal
  exact .goes trivial further

theorem commitStep_commits {p : Fin NPROC} (done : commitStep sb s p pc = some (s', o)) :
    Commits s p pc s' o := by
  cases pc with
  | writeLog tail =>
    simp only [commitStep] at done
    split at done
    · exact State.bget_commits done le_rfl
    · rename_i all
      cases done
      exact .goes trivial (Nat.le_of_not_lt all)
  | installTrans tail =>
    simp only [commitStep] at done
    split at done
    · exact State.bget_commits done le_rfl
    · rename_i all
      cases done
      exact .clears (Nat.le_of_not_lt all)
  | writeLogFrom | installDst =>
    obtain ⟨b, -, got⟩ := Option.bind_eq_some_iff.mp done
    exact State.bget_commits got le_rfl
  | writeHead => exact State.bget_commits done le_rfl
  | writeLogCopy | writeHeadCopy | installCopy =>
    simp only [commitStep] at done
    split at done
    · rename_i held
      constructor <;> assumption
    · cases done
  | writeLogPutFrom | writeLogPutTo | installPutLog | installPutDst =>
    simp only [commitStep] at done
    split at done
    · exact State.brelse_commits done le_rfl
    · cases done
  | writeHeadPut last =>
    simp only [commitStep] at done
    split at done
    · refine State.brelse_commits done ?_
      cases last <;> exact le_rfl
    · cases done
  | installUnpin =>
    simp only [commitStep] at done
    split at done <;> cases done
    exact .goes trivial le_rfl
  | finish =>
    cases done
    exact .finish

theorem logWrite_does {p : Fin NPROC} (done : logWrite sb s p i = some (s', o)) :
    Does sb s s' o := by
  simp only [logWrite] at done
  split at done
  · cases done
  split at done
  · cases done
  rename_i room op
  split at done <;> cases done
  · exact .pin (by omega) op
  · rw [set_idxOf]
    exact .absorb op

theorem step_does (taken : step sb s e = some (s', o)) : Does sb s s' o := by
  cases e with
  | bread p dev blockno =>
    simp only [step] at taken
    split at taken
    · obtain ⟨⟨c', o'⟩, got, equal⟩ := Option.map_eq_some_iff.mp taken
      cases equal
      exact .aside (Cache.bget_aside got)
    · cases taken
  | store p i data =>
    simp only [step] at taken
    split at taken <;> cases taken
    exact .aside trivial
  | logWrite p i =>
    simp only [step] at taken
    split at taken
    · exact logWrite_does taken
    · cases taken
  | brelse p i =>
    simp only [step] at taken
    split at taken
    · obtain ⟨c', -, equal⟩ := Option.map_eq_some_iff.mp taken
      cases equal
      exact .aside trivial
    · cases taken
  | beginOp p =>
    simp only [step, beginOp] at taken
    repeat' split at taken
    all_goals cases taken
    exact .aside trivial
  | endOp p =>
    simp only [step, endOp] at taken
    repeat' split at taken
    all_goals cases taken
    · exact .starts fun k => rfl
    · exact .starts fun k => rfl
    · exact .aside trivial
  | go p =>
    simp only [step, go] at taken
    split at taken
    · obtain ⟨⟨c', o'⟩, got, equal⟩ := Option.map_eq_some_iff.mp taken
      cases equal
      exact .aside (Cache.bread_aside got)
    · cases taken
      exact .aside trivial
    · rename_i idle
      split at taken
      · rename_i q pc commit
        split at taken
        · rename_i self
          subst self
          exact .commits commit idle (commitStep_commits taken)
        · cases taken
      · cases taken

theorem State.copy_log {p : Fin NPROC}
    (done : s.copy p i data pc = some (s', o)) : LogStep s s' o := by
  obtain ⟨c', got, equal⟩ := Option.map_eq_some_iff.mp done
  cases equal
  exact ⟨rfl, by simp⟩

theorem Obs.Aside.logStep (aside : o.Aside) (lh : s'.lh = s.lh) : LogStep s s' o := by
  refine ⟨by rw [aside.log, lh], ?_⟩
  rintro rfl
  cases aside

theorem step_log (taken : step sb s e = some (s', o)) : LogStep s s' o := by
  cases step_does taken with
  | aside aside => exact aside.logStep rfl
  | pin | absorb | starts => exact ⟨rfl, by simp⟩
  | commits commit idle does =>
    cases does with
    | goes aside => exact aside.logStep rfl
    | toLog _ done | toHead _ done | toHome _ done => exact State.copy_log done
    | clears all =>
      refine ⟨rfl, fun _ => ?_⟩
      rw [State.pinned_eq commit]
      exact List.drop_eq_nil_of_le all
    | finish => exact ⟨rfl, by simp⟩

end

/-- The block is not one of the log. -/
def Outside (sb : Superblock) (b : Nat) : Prop :=
  b < sb.logstart ∨ sb.logstart + sb.nlog ≤ b

/-- No process but the one in `commit` changes or logs a block of the log. -/
def Obs.Outside (sb : Superblock) : Obs → Prop
  | .stored id _ => Bcache.Outside sb id.2
  | .logged b _ => Bcache.Outside sb b
  | _ => True

/-- A process has the buffer of `b` locked and has changed it. -/
def Busy (c : Cache) (b : Nat) : Prop :=
  ∃ p i, i ∈ (c.procs p).unlogged ∧ (c.bufs i).id = (ROOTDEV, b)

structure Copied (sb : Superblock) (contents : Disk) (s : State) : Prop where
  outside : ∀ b ∈ s.lh, Outside sb b
  short : s.lh.length < sb.nlog
  copied : ∀ p pc, s.commit = some (p, pc) → ∀ k b, k < pc.copied s.lh.length →
    s.lh[k]? = some b →
    contents (ROOTDEV, sb.logstart + k + 1) = contents (ROOTDEV, b) ∨ Busy s.cache b

/-- A step that neither logs nor writes a block, and takes `commit` no further than it has
    copied. -/
structure Plain (s s' : State) (o : Obs) : Prop where
  lh : s'.lh = s.lh
  unwritten : ∀ id data, o ≠ .written id data
  unlogged : ∀ b pin, o ≠ .logged b pin
  commit : ∀ p pc', s'.commit = some (p, pc') → pc'.copied s.lh.length = 0 ∨
    ∃ pc, s.commit = some (p, pc) ∧ pc'.copied s.lh.length ≤ pc.copied s.lh.length

section

variable {sb : Superblock} {contents : Disk} {pending : Id → Bool} {s s' : State} {e : Event}
  {o : Obs}

theorem Busy.act {c c' : Cache} {p : Fin NPROC} {pinned pinned' : List Nat}
    (busy : Busy c b) (act : Act p c pinned c' pinned' o) (pool : Pool pinned c)
    (holds : Holds contents pending pinned c) (unlogged : ∀ b pin, o ≠ .logged b pin) :
    Busy c' b := by
  obtain ⟨q, i, changed, block⟩ := busy
  have used := pool.used_of_held (holds.unlogged q i changed)
  refine ⟨q, i, ?_, (act.id_of_used used).trans block⟩
  rcases act.logs changed with changed | ⟨-, pin, logged⟩
  · exact changed
  · exact absurd logged (unlogged _ _)

/-- The place of a logged block in the log is no block outside the log. -/
theorem Copied.apart (copied : Copied sb contents s) {k : Nat} (inside : k < s.lh.length)
    (outside : Outside sb b) : sb.logstart + k + 1 ≠ b := by
  have short := copied.short
  unfold Outside at outside
  omega

theorem Copied.plain (copied : Copied sb contents s) (inv : Inv sb contents pending s)
    (plain : Plain s s' o) (outside : o.Outside sb)
    (act : ∃ p, Act p s.cache s.pinned s'.cache s'.pinned o) :
    Copied sb (o.change contents) s' := by
  obtain ⟨q, act⟩ := act
  refine ⟨plain.lh ▸ copied.outside, plain.lh ▸ copied.short, ?_⟩
  rw [plain.lh]
  intro p pc' commit' k b done found
  obtain ⟨inside, -⟩ := List.getElem?_eq_some_iff.mp found
  rcases plain.commit p pc' commit' with none | ⟨pc, commit, further⟩
  · omega
  have before := copied.copied p pc commit k b (by omega) found
  have busy := fun busy : Busy s.cache b =>
    busy.act act inv.pool inv.holds plain.unlogged
  generalize s'.cache = c' at act busy ⊢
  generalize s'.pinned = pinned' at act
  cases act with
  | @store i data mine root =>
    have apart : (ROOTDEV, sb.logstart + k + 1) ≠ (s.cache.bufs i).id := fun same =>
      copied.apart inside outside (congrArg Prod.snd same)
    rw [Obs.change, update_of_ne apart]
    by_cases same : (ROOTDEV, b) = (s.cache.bufs i).id
    · refine .inr ⟨q, i, by simp, ?_⟩
      exact (Cache.setBuf_congr Buf.id (by rfl) i).trans same.symm
    · rw [update_of_ne same]
      exact before.imp_right busy
  | copy => exact absurd rfl (plain.unwritten _ _)
  | other quiet =>
    rcases quiet with rfl | rfl <;> exact before.imp_right busy
  | _ => exact before.imp_right busy

/-! ## The copies of commit -/

variable {p : Fin NPROC}

theorem Obs.Aside.plain (aside : o.Aside) (lh : s'.lh = s.lh)
    (commit : ∀ p pc', s'.commit = some (p, pc') → pc'.copied s.lh.length = 0 ∨
      ∃ pc, s.commit = some (p, pc) ∧ pc'.copied s.lh.length ≤ pc.copied s.lh.length) :
    Plain s s' o := by
  refine ⟨lh, ?_, ?_, commit⟩
  · rintro id data rfl
    cases aside
  · rintro b pin rfl
    cases aside

/-- The buffer that `commit` has locked is not being changed. -/
theorem Inv.not_busy (inv : Inv sb contents pending s)
    (held : i ∈ (s.cache.procs p).held) (mine : Mine s.cache p i b) : ¬ Busy s.cache b := by
  rintro ⟨q, j, changed, block⟩
  obtain rfl : i = j := by
    refine inv.pool.unique i j ?_ (mine.1.trans block.symm)
    rw [show (s.cache.bufs i).dev = ROOTDEV from congrArg Prod.fst mine.1]
    decide
  have theirs := (inv.pool.locked i q).mpr (inv.holds.unlogged q i changed)
  rw [(inv.pool.locked i p).mpr held] at theirs
  obtain rfl := Option.some.inj theirs
  exact mine.2 changed

/-- A copy after which the blocks copied so far are still the same in the log. -/
theorem Copied.copy (copied : Copied sb contents s) (block : (s.cache.bufs i).id = (ROOTDEV, b))
    (done : s.copy p i data pc' = some (s', o))
    (each : ∀ k a, k < pc'.copied s.lh.length → s.lh[k]? = some a →
      update contents (ROOTDEV, b) data (ROOTDEV, sb.logstart + k + 1) =
        update contents (ROOTDEV, b) data (ROOTDEV, a) ∨ Busy s.cache a) :
    Copied sb (o.change contents) s' := by
  obtain ⟨c', got, equal⟩ := Option.map_eq_some_iff.mp done
  rw [Cache.copy_eq] at got
  split at got <;> cases got
  cases equal
  refine ⟨copied.outside, copied.short, ?_⟩
  intro q pc commit' k a further found
  cases commit'
  rw [Obs.change, block]
  refine (each k a further found).imp_right ?_
  rintro ⟨q, j, changed, block⟩
  exact ⟨q, j, changed, (Cache.setBuf_congr Buf.id (by rfl) j).trans block⟩

theorem Inv.mine_data (inv : Inv sb contents pending s)
    (held : i ∈ (s.cache.procs p).held) (mine : Mine s.cache p i b) :
    (s.cache.bufs i).data = contents (ROOTDEV, b) :=
  mine.1 ▸ inv.holds.data i (inv.holds.valid p i held)

section

variable (copied : Copied sb contents s) (inv : Inv sb contents pending s)
include copied inv

/-- What `install_trans` copies is what the cache holds already. -/
theorem Copied.install {tail : Nat} (commit : s.commit = some (p, .installCopy tail))
    (idle : (s.cache.procs p).call = none) :
    ∃ i j rest, (s.cache.procs p).held = i :: j :: rest ∧
      (s.cache.bufs i).id = (ROOTDEV, s.lh.getD tail 0) ∧
      (s.cache.bufs j).data = contents (ROOTDEV, s.lh.getD tail 0) := by
  have inside : tail < s.lh.length := inv.inside p _ commit
  obtain ⟨i, j, rest, held, mine, from_⟩ := ((inv.expects p _ commit).idle idle).both
  refine ⟨i, j, rest, held, mine.1, ?_⟩
  rw [inv.mine_data (by simp [held]) from_]
  exact (copied.copied p _ commit tail _ inside (by simp [inside])).resolve_right
    (inv.not_busy (by simp [held]) mine)

theorem Copied.commits (commit : s.commit = some (p, pc)) (idle : (s.cache.procs p).call = none)
    (does : Commits s p pc s' o) (leaves : o.Outside sb)
    (act : ∃ p, Act p s.cache s.pinned s'.cache s'.pinned o) :
    Copied sb (o.change contents) s' := by
  have owns := (inv.expects p pc commit).idle idle
  have before := copied.copied p pc commit
  have short := copied.short
  cases does with
  | goes aside further =>
    refine copied.plain inv (aside.plain rfl fun q pc' commit' => ?_) leaves act
    cases commit'
    exact .inr ⟨_, commit, further⟩
  | @toLog tail from_ to_ rest _ _ held done =>
    have inside : tail < s.lh.length := inv.inside p _ commit
    obtain ⟨i, j, rest', held', from', mine⟩ := owns.both
    rw [held] at held'
    cases held'
    refine copied.copy mine.1 done fun k a further found => ?_
    have apart := copied.apart inside (copied.outside a (List.mem_of_getElem? found))
    rw [update_of_ne (a := (ROOTDEV, a)) (by simp [apart.symm])]
    rcases Nat.lt_succ_iff_lt_or_eq.mp further with earlier | rfl
    · rw [update_of_ne (by simp; omega)]
      exact before k a earlier found
    · rw [update_self, inv.mine_data (by simp [held]) from']
      simp [found]
  | toHead held done =>
    obtain ⟨i, rest, held', mine⟩ := owns.head
    rw [held] at held'
    cases held'
    refine copied.copy mine.1 done fun k a further found => ?_
    have outside := copied.outside a (List.mem_of_getElem? found)
    have apart : a ≠ sb.logstart := by
      unfold Outside at outside
      omega
    rw [update_of_ne (by simp; omega), update_of_ne (by simp [apart])]
    exact before k a further found
  | toHome held done =>
    obtain ⟨i, j, rest, held', block, same⟩ := copied.install inv commit idle
    rw [held] at held'
    cases held'
    refine copied.copy block done fun k a further found => ?_
    rw [same, update_eq_self]
    exact before k a further found
  | clears =>
    refine ⟨by simp, Nat.lt_of_le_of_lt (Nat.zero_le _) short, ?_⟩
    simp
  | finish => exact ⟨copied.outside, short, by simp⟩

/-- Only `log_write` adds to the log, and nobody commits then. -/
theorem Copied.step (taken : step sb s e = some (s', o)) (leaves : o.Outside sb) :
    Copied sb (o.change contents) s' := by
  have act := (inv.step taken).1
  have alone : ¬ s.outstanding < 1 → s.commit = none := by
    intro op
    by_contra committing
    exact op (Int.lt_add_one_of_le (inv.quiet (Option.isSome_iff_ne_none.mpr committing)))
  cases step_does taken with
  | aside aside =>
    exact copied.plain inv (aside.plain rfl fun q pc commit => .inr ⟨pc, commit, le_rfl⟩)
      leaves act
  | pin room op =>
    refine ⟨?_, ?_, by simp [alone op]⟩
    · intro b inside
      rcases List.mem_append.mp inside with inside | inside
      · exact copied.outside b inside
      · exact List.mem_singleton.mp inside ▸ leaves
    · simp only [List.length_append, List.length_singleton]
      omega
  | absorb op => exact ⟨copied.outside, copied.short, by simp [alone op]⟩
  | starts none =>
    refine ⟨copied.outside, copied.short, ?_⟩
    intro q pc commit'
    cases commit'
    simp [none]
  | commits commit idle does => exact copied.commits inv commit idle does leaves act

end

theorem State.copy_written {data' : Block}
    (done : s.copy p i data' pc' = some (s', .written id data)) :
    (s.cache.bufs i).id = id ∧ data' = data := by
  obtain ⟨c', got, equal⟩ := Option.map_eq_some_iff.mp done
  cases equal
  exact ⟨rfl, rfl⟩

/-- What is written outside the log is what the block holds. -/
theorem Copied.written (copied : Copied sb contents s) (inv : Inv sb contents pending s)
    (taken : Bcache.step sb s e = some (s', .written (ROOTDEV, b) data))
    (outside : Outside sb b) : data = contents (ROOTDEV, b) := by
  have short := copied.short
  unfold Outside at outside
  cases step_does taken with
  | aside aside => cases aside
  | @commits p pc _ _ commit idle does =>
    have owns := (inv.expects p pc commit).idle idle
    cases does with
    | goes aside => cases aside
    | @toLog tail _ _ _ _ _ held done =>
      have inside : tail < s.lh.length := inv.inside p _ commit
      obtain ⟨i, j, rest, held', from_, mine⟩ := owns.both
      rw [held] at held'
      cases held'
      have same := mine.1.symm.trans (State.copy_written done).1
      simp at same
      omega
    | toHead held done =>
      obtain ⟨i, rest, held', mine⟩ := owns.head
      rw [held] at held'
      cases held'
      have same := mine.1.symm.trans (State.copy_written done).1
      simp at same
      omega
    | toHome held done =>
      obtain ⟨i, j, rest, held', block, same⟩ := copied.install inv commit idle
      rw [held] at held'
      cases held'
      obtain ⟨home, rfl⟩ := State.copy_written done
      rw [same, ← home, block]

end

end Xv6.Kernel.Bcache
