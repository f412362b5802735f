import Xv6.Kernel.BcacheContents

/-! # The cache and the log

`commit` names the buffers it works on only through the pointers that `bread` returned.
While it has them they stay the buffers of the blocks it asked for, so that `bunpin`
takes back the pin of the block it has just written, and of no other.
-/

namespace Xv6.Kernel.Bcache

open Function

open Log (Superblock LOGSIZE MAXOPBLOCKS writeHead)

/-- How many blocks `install_trans` has unpinned. -/
def Pc.unpinned : Pc → Nat
  | .installTrans tail | .installDst tail | .installCopy tail | .installUnpin tail => tail
  | .installPutLog tail | .installPutDst tail => tail + 1
  | _ => 0

/-- The blocks that the log has pinned. -/
def State.pinned (s : State) : List Nat :=
  match s.commit with
  | none => s.lh
  | some (_, pc) => s.lh.drop pc.unpinned

/-- The blocks whose buffers `commit` has asked for, the last one first. -/
def Pc.blocks (sb : Superblock) (lh : List Nat) : Pc → List Nat
  | .writeLogFrom tail | .writeLogPutTo tail | .installDst tail => [sb.logstart + tail + 1]
  | .writeLogCopy tail | .writeLogPutFrom tail | .installCopy tail | .installUnpin tail
  | .installPutLog tail => [lh.getD tail 0, sb.logstart + tail + 1]
  | .installPutDst tail => [lh.getD tail 0]
  | .writeHeadCopy _ | .writeHeadPut _ => [sb.logstart]
  | _ => []

/-- The loop has not run over its end. -/
def Pc.Inside (lh : List Nat) : Pc → Prop
  | .writeLogCopy tail | .installCopy tail | .installUnpin tail => tail < lh.length
  | _ => True

/-- The buffer of block `b`, which `p` has not changed before it called `commit`. -/
def Mine (c : Cache) (p : Fin NPROC) (i : Fin NBUF) (b : Nat) : Prop :=
  (c.bufs i).id = (ROOTDEV, b) ∧ i ∉ (c.procs p).unlogged

/-- The buffers that `p` has locked last are those of the blocks `bs`. -/
def Owns (c : Cache) (p : Fin NPROC) (bs : List Nat) : Prop :=
  ∃ own rest, (c.procs p).held = own ++ rest ∧ List.Forall₂ (Mine c p) own bs

/-- The same, or `p` still waits for the last one. -/
inductive Expects (c : Cache) (p : Fin NPROC) : List Nat → Prop where
  | waits {i b bs} (call : (c.procs p).call = some (.wait i)) (block : (c.bufs i).id = (ROOTDEV, b))
      (owns : Owns c p bs) : Expects c p (b :: bs)
  | owns {bs} (call : ∀ i, (c.procs p).call ≠ some (.wait i)) (owns : Owns c p bs) : Expects c p bs

/-- What holds between any two steps, for the contents of the blocks and the blocks that
    were changed and not written since. -/
structure Inv (sb : Superblock) (contents : Disk) (pending : Id → Bool) (s : State) : Prop where
  pool : Pool s.pinned s.cache
  holds : Holds contents pending s.pinned s.cache
  nodup : s.lh.Nodup
  quiet : s.commit.isSome → s.outstanding ≤ 0
  expects : ∀ p pc, s.commit = some (p, pc) → Expects s.cache p (pc.blocks sb s.lh)
  inside : ∀ p pc, s.commit = some (p, pc) → pc.Inside s.lh
  written : ∀ p tail, s.commit = some (p, .installUnpin tail) →
    (s.cache.procs p).call = none ∧ pending (ROOTDEV, s.lh.getD tail 0) = false

section

variable {pinned pinned' : List Nat} {c c' : Cache} {p q : Fin NPROC} {o : Obs}
variable {i : Fin NBUF} {bs : List Nat}

theorem Act.id_of_used (act : Act p c pinned c' pinned' o) (used : (c.bufs i).refcnt ≠ 0) :
    (c'.bufs i).id = (c.bufs i).id := by
  rcases act.id with same | ⟨k, unused, -, -, others⟩
  · exact same i
  · rw [others i]
    rintro rfl
    exact used unused

theorem Pool.used_of_wait (pool : Pool pinned c) (call : (c.procs p).call = some (.wait i)) :
    (c.bufs i).refcnt ≠ 0 := by
  intro unused
  have none := (pool.unused unused).1 p
  simp [Proc.uses, call] at none

theorem Mine.frame {own : List (Fin NBUF)} (each : List.Forall₂ (Mine c p) own bs)
    (unlogged : (c'.procs p).unlogged = (c.procs p).unlogged)
    (ids : ∀ i ∈ own, (c'.bufs i).id = (c.bufs i).id) : List.Forall₂ (Mine c' p) own bs := by
  refine ((List.forall₂_and_left ..).mpr ⟨ids, each⟩).imp ?_
  rintro i b ⟨same, block, logged⟩
  exact ⟨same.trans block, unlogged ▸ logged⟩

theorem Owns.frame (owns : Owns c p bs) (held : (c'.procs p).held = (c.procs p).held)
    (unlogged : (c'.procs p).unlogged = (c.procs p).unlogged)
    (ids : ∀ i ∈ (c.procs p).held, (c'.bufs i).id = (c.bufs i).id) : Owns c' p bs := by
  obtain ⟨own, rest, whole, each⟩ := owns
  refine ⟨own, rest, held.trans whole, Mine.frame each unlogged fun i inside => ids i ?_⟩
  exact whole ▸ List.mem_append_left _ inside

theorem Expects.other (expects : Expects c p bs) (act : Act q c pinned c' pinned' o)
    (pool : Pool pinned c) (other : p ≠ q) :
    Expects c' p bs := by
  have same := act.procs other
  have ids : ∀ i ∈ (c.procs p).held, (c'.bufs i).id = (c.bufs i).id := fun i held =>
    act.id_of_used (pool.used_of_held held)
  cases expects with
  | waits call block owns =>
    exact .waits (same ▸ call) ((act.id_of_used (pool.used_of_wait call)).trans block)
      (owns.frame (by rw [same]) (by rw [same]) ids)
  | owns call owns => exact .owns (same ▸ call) (owns.frame (by rw [same]) (by rw [same]) ids)

/-- `bget` as an act, and what it leaves the caller to wait for. -/
theorem bget_act {dev blockno : Nat} (pool : Pool pinned c) (idle : (c.procs p).call = none)
    (done : c.bget p dev blockno = some (c', o)) : Act p c pinned c' pinned o ∧
      ∃ i, (c'.bufs i).id = (dev, blockno) ∧
        c'.procs p = { c.procs p with call := some (.wait i) } := by
  unfold Cache.bget at done
  split at done
  · rename_i i found
    have block := List.find?_some found
    simp only [Bool.decide_and, Bool.and_eq_true, decide_eq_true_eq] at block
    cases done
    refine ⟨.hit idle, i, ?_, ?_⟩
    · simp [Cache.setCall, Buf.id, block]
    · simp [Cache.setCall]
  · rename_i missing
    split at done
    · rename_i i found
      have unused := List.find?_some found
      cases done
      refine ⟨.recycle idle ?_ (by simpa using unused), i, ?_, ?_⟩
      · intro j block
        have other := List.find?_eq_none.mp missing j (pool.all j)
        simp only [Bool.decide_and, Bool.and_eq_true, decide_eq_true_eq] at other
        exact other ⟨congrArg Prod.fst block, congrArg Prod.snd block⟩
      · simp [Cache.setCall, Buf.id]
      · simp [Cache.setCall]
    · cases done

theorem bread_act (pinned : List Nat) (call : (c.procs p).call = some (.wait i))
    (done : c.bread p i = some (c', o)) : Act p c pinned c' pinned o ∧
      c'.procs p = { c.procs p with call := none, held := i :: (c.procs p).held } ∧
      (c.bufs i).lock = none := by
  unfold Cache.bread at done
  split at done
  · rename_i free
    cases done
    exact ⟨.read call free, by simp, free⟩
  · cases done

theorem releasesleep_act (pinned : List Nat) (idle : (c.procs p).call = none)
    (logged : i ∉ (c.procs p).unlogged) (done : c.releasesleep p i = some c') :
    Act p c pinned c' pinned .silent ∧ c'.procs p =
      { c.procs p with call := some (.put i), held := (c.procs p).held.erase i } := by
  unfold Cache.releasesleep at done
  split at done
  · rename_i mine
    cases done
    exact ⟨.release idle mine logged, by simp⟩
  · cases done

section

variable {bs : List Nat} {b : Nat} {i : Fin NBUF}

theorem Expects.idle (expects : Expects c p bs) (idle : (c.procs p).call = none) :
    Owns c p bs := by
  cases expects with
  | waits call =>
    rw [idle] at call
    cases call
  | owns _ owns => exact owns

theorem Owns.bget (owns : Owns c p bs) (pool : Pool pinned c) (idle : (c.procs p).call = none)
    (done : c.bget p ROOTDEV b = some (c', o)) : Expects c' p (b :: bs) := by
  obtain ⟨act, i, block, same⟩ := bget_act pool idle done
  refine .waits (by rw [same]) block (owns.frame (by rw [same]) (by rw [same]) ?_)
  exact fun i held => act.id_of_used (pool.used_of_held held)

theorem Expects.bread {contents : Disk} {pending : Id → Bool} (expects : Expects c p bs)
    (pool : Pool pinned c) (holds : Holds contents pending pinned c)
    (call : (c.procs p).call = some (.wait i)) (done : c.bread p i = some (c', o)) :
    Expects c' p bs := by
  obtain ⟨act, same, free⟩ := bread_act pinned call done
  cases expects with
  | owns call' => exact absurd call (call' i)
  | @waits i' b bs call' block owns =>
    obtain rfl : i' = i := by
      rw [call] at call'
      cases call'
      rfl
    obtain ⟨own, rest, whole, each⟩ := owns
    have unlogged : i' ∉ (c.procs p).unlogged := by
      intro unlogged
      have held := holds.unlogged p i' unlogged
      rw [← pool.locked, free] at held
      cases held
    have ids : ∀ i ∈ i' :: own, (c'.bufs i).id = (c.bufs i).id := by
      intro i inside
      rcases List.mem_cons.mp inside with rfl | inside
      · exact act.id_of_used (pool.used_of_wait call)
      · exact act.id_of_used (pool.used_of_held (whole ▸ List.mem_append_left _ inside))
    have each' := Mine.frame (.cons ⟨block, unlogged⟩ each) (by rw [same]) ids
    exact .owns (by simp [same]) ⟨i' :: own, rest, by simp [same, whole], each'⟩

theorem Expects.put (expects : Expects c p bs) (pool : Pool pinned c)
    (call : (c.procs p).call = some (.put i)) : Expects (c.brelse p i) p bs := by
  have act : Act p c pinned (c.brelse p i) pinned .silent := .put call
  cases expects with
  | waits call' =>
    rw [call] at call'
    cases call'
  | owns _ owns =>
    have same : (c.brelse p i).procs p = { c.procs p with call := none } := by
      simp [Cache.setCall]
    refine .owns (by simp [same]) (owns.frame (by rw [same]) (by rw [same]) ?_)
    exact fun i held => act.id_of_used (pool.used_of_held held)

theorem Owns.release {before after : List Nat} (owns : Owns c p (before ++ b :: after))
    (pool : Pool pinned c) (idle : (c.procs p).call = none) : ∃ own i rest,
      (c.procs p).held = own ++ i :: rest ∧ own.length = before.length ∧
      i ∉ (c.procs p).unlogged ∧
      ∀ c', c.releasesleep p i = some c' → Expects c' p (before ++ after) := by
  obtain ⟨own, rest, whole, each⟩ := owns
  have first := List.forall₂_take_append _ _ _ each
  have second := List.forall₂_drop_append _ _ _ each
  have split := List.take_append_drop before.length own
  generalize own.take before.length = own₁ at first split
  generalize own.drop before.length = own₂ at second split
  cases second with
  | @cons i _ own₂ _ mine second =>
    have whole : (c.procs p).held = own₁ ++ i :: (own₂ ++ rest) := by
      rw [whole, ← split, List.append_assoc, List.cons_append]
    have nodup := pool.nodup p
    rw [whole] at nodup
    have apart : i ∉ own₁ := fun inside =>
      List.disjoint_of_nodup_append nodup inside List.mem_cons_self
    refine ⟨own₁, i, own₂ ++ rest, whole, first.length_eq, mine.2, fun c' done => ?_⟩
    obtain ⟨act, same⟩ := releasesleep_act pinned idle mine.2 done
    have held : (c'.procs p).held = (own₁ ++ own₂) ++ rest := by
      rw [same, whole, List.erase_append_right _ apart, List.erase_cons_head, List.append_assoc]
    refine .owns (by simp [same]) ⟨own₁ ++ own₂, rest, held, ?_⟩
    refine Mine.frame (List.rel_append first second) (by rw [same]) fun j inside => ?_
    refine act.id_of_used (pool.used_of_held (p := p) ?_)
    rw [whole]
    rcases List.mem_append.mp inside with inside | inside <;> simp [inside]

theorem Owns.head (owns : Owns c p (b :: bs)) :
    ∃ i rest, (c.procs p).held = i :: rest ∧ Mine c p i b := by
  obtain ⟨own, rest, whole, each⟩ := owns
  cases each with
  | cons mine => exact ⟨_, _, whole, mine⟩

theorem Owns.both {a : Nat} (owns : Owns c p (a :: b :: bs)) :
    ∃ i j rest, (c.procs p).held = i :: j :: rest ∧ Mine c p i a ∧ Mine c p j b := by
  obtain ⟨own, rest, whole, each⟩ := owns
  cases each with
  | cons first each =>
    cases each with
    | cons second => exact ⟨_, _, _, whole, first, second⟩

end

end

section

variable {sb : Superblock} {contents : Disk} {pending : Id → Bool} {s s' : State}
  {p q : Fin NPROC} {pc pc' : Pc} {c' : Cache} {o : Obs}

theorem State.pinned_eq (commit : s.commit = some (p, pc)) : s.pinned = s.lh.drop pc.unpinned := by
  rw [pinned, commit]

/-- The block that has just been written stays written until it is unpinned: its buffer
    is locked. -/
theorem Inv.still_written (inv : Inv sb contents pending s) {tail : Nat} {pinned' : List Nat}
    (commit : s.commit = some (p, .installUnpin tail)) (other : p ≠ q)
    (act : Act q s.cache s.pinned c' pinned' o) :
    o.mark pending (ROOTDEV, s.lh.getD tail 0) = false := by
  obtain ⟨idle, written⟩ := inv.written p tail commit
  obtain ⟨i, rest, held, block, -⟩ := ((inv.expects p _ commit).idle idle).head
  cases act with
  | @store k data mine root =>
    have apart : (ROOTDEV, s.lh.getD tail 0) ≠ (s.cache.bufs k).id := by
      intro same
      obtain rfl : k = i := by
        refine inv.pool.unique k i ?_ (same.symm.trans block.symm)
        rw [root]
        decide
      have theirs := (inv.pool.locked k q).mpr mine
      have ours := (inv.pool.locked k p).mpr (by rw [held]; exact List.mem_cons_self)
      rw [theirs] at ours
      exact other (Option.some.inj ours).symm
    rwa [Obs.mark, update_of_ne apart]
  | @copy k data mine root =>
    by_cases same : (ROOTDEV, s.lh.getD tail 0) = (s.cache.bufs k).id
    · rw [Obs.mark, same, update_self]
    · rwa [Obs.mark, update_of_ne same]
  | other quiet =>
    rcases quiet with rfl | rfl <;> exact written
  | _ => exact written

theorem Inv.client (inv : Inv sb contents pending s)
    (act : Act p s.cache s.pinned c' s.pinned o) (free : s.commit.map Prod.fst ≠ some p)
    {n : Int} (quiet : s.commit.isSome → n ≤ 0) :
    Inv sb (o.change contents) (o.mark pending) { s with cache := c', outstanding := n } where
  pool := act.pool inv.pool
  holds := act.holds inv.pool (fun b same => absurd same (by simp)) inv.holds
  nodup := inv.nodup
  quiet := quiet
  expects := by
    intro q pc commit
    have other : q ≠ p := by
      rintro rfl
      exact free (by rw [show s.commit = _ from commit]; rfl)
    exact (inv.expects q pc commit).other act inv.pool other
  inside := inv.inside
  written := by
    intro q tail commit
    have other : q ≠ p := by
      rintro rfl
      exact free (by rw [show s.commit = _ from commit]; rfl)
    obtain ⟨idle, -⟩ := inv.written q tail commit
    exact ⟨(act.procs other) ▸ idle, inv.still_written commit other act⟩

theorem Inv.goto (inv : Inv sb contents pending s) (commit : s.commit = some (p, pc))
    (act : Act p s.cache s.pinned c' (s.lh.drop pc'.unpinned) o)
    (clean : ∀ b, s.pinned = b :: s.lh.drop pc'.unpinned → pending (ROOTDEV, b) = false)
    (expects : Expects c' p (pc'.blocks sb s.lh)) (inside : pc'.Inside s.lh)
    (written : ∀ tail, pc' = .installUnpin tail →
      (c'.procs p).call = none ∧ o.mark pending (ROOTDEV, s.lh.getD tail 0) = false) :
    Inv sb (o.change contents) (o.mark pending) { s.goto p pc' with cache := c' } where
  pool := act.pool inv.pool
  holds := act.holds inv.pool clean inv.holds
  nodup := inv.nodup
  quiet := fun _ => inv.quiet (by rw [commit]; rfl)
  expects := by
    intro q pc commit'
    cases commit'
    exact expects
  inside := by
    intro q pc commit'
    cases commit'
    exact inside
  written := by
    intro q tail commit'
    cases commit'
    exact written tail rfl

/-- A step, as an act on the cache that keeps what holds. -/
def Keeps (sb : Superblock) (contents : Disk) (pending : Id → Bool) (s s' : State) (o : Obs) :
    Prop :=
  (∃ p, Act p s.cache s.pinned s'.cache s'.pinned o) ∧
    Inv sb (o.change contents) (o.mark pending) s'

theorem Inv.bget (inv : Inv sb contents pending s) (commit : s.commit = some (p, pc))
    (idle : (s.cache.procs p).call = none) {b : Nat} (done : s.bget p b pc' = some (s', o))
    (blocks : pc'.blocks sb s.lh = b :: pc.blocks sb s.lh) (inside : pc'.Inside s.lh)
    (same : pc'.unpinned = pc.unpinned) (early : ∀ tail, pc' ≠ .installUnpin tail) :
    Keeps sb contents pending s s' o := by
  obtain ⟨⟨c', o'⟩, got, equal⟩ := Option.map_eq_some_iff.mp done
  cases equal
  have owns := (inv.expects p pc commit).idle idle
  obtain ⟨act, -⟩ := bget_act inv.pool idle got
  have pinned : s.pinned = s.lh.drop pc'.unpinned := by rw [State.pinned_eq commit, same]
  have act : Act p s.cache s.pinned c' (s.lh.drop pc'.unpinned) o := pinned ▸ act
  refine ⟨⟨p, act⟩, inv.goto commit act ?_ ?_ inside ?_⟩
  · rw [pinned]
    simp
  · rw [blocks]
    exact owns.bget inv.pool idle got
  · exact fun tail now => absurd now (early tail)

theorem Cache.copy_eq (c : Cache) (p : Fin NPROC) (i : Fin NBUF) (data : Block) :
    (c.store i data).bwrite p i = if (c.bufs i).lock = some p then
      some { c.store i data with disk := update c.disk (c.bufs i).id data } else none := by
  simp [Cache.bwrite, Cache.store, Buf.id]

section

variable (inv : Inv sb contents pending s)
include inv

theorem Inv.copy (commit : s.commit = some (p, pc)) (idle : (s.cache.procs p).call = none)
    {i : Fin NBUF} {b : Nat} {data : Block} (done : s.copy p i data pc' = some (s', o))
    (mine : Mine s.cache p i b) (blocks : pc'.blocks sb s.lh = pc.blocks sb s.lh)
    (same : pc'.unpinned = pc.unpinned) (inside : pc'.Inside s.lh)
    (writes : ∀ tail, pc' = .installUnpin tail → b = s.lh.getD tail 0) :
    Keeps sb contents pending s s' o := by
  obtain ⟨c', got, equal⟩ := Option.map_eq_some_iff.mp done
  rw [Cache.copy_eq] at got
  split at got <;> cases got
  rename_i locked
  cases equal
  have owns := (inv.expects p pc commit).idle idle
  have pinned : s.pinned = s.lh.drop pc'.unpinned := by rw [State.pinned_eq commit, same]
  have act : Act p s.cache s.pinned { s.cache.store i data with
      disk := update s.cache.disk (s.cache.bufs i).id data } (s.lh.drop pc'.unpinned)
      (.written (s.cache.bufs i).id data) :=
    pinned ▸ .copy ((inv.pool.locked i p).mp locked) (congrArg Prod.fst mine.1)
  refine ⟨⟨p, act⟩, inv.goto commit act ?_ ?_ inside ?_⟩
  · rw [pinned]
    simp
  · rw [blocks]
    refine .owns (by simp [Cache.store, idle]) (owns.frame rfl rfl fun j _ => ?_)
    exact Cache.setBuf_congr Buf.id (by rfl) j
  · intro tail now
    obtain rfl := writes tail now
    exact ⟨idle, by rw [mine.1, Obs.mark, update_self]⟩

theorem Inv.brelse (commit : s.commit = some (p, pc)) (idle : (s.cache.procs p).call = none)
    (own : List (Fin NBUF)) {i : Fin NBUF} {rest : List (Fin NBUF)}
    (held : (s.cache.procs p).held = own ++ i :: rest) (done : s.brelse p i pc' = some (s', o))
    (before : List Nat) {after : List Nat} {b : Nat}
    (blocks : pc.blocks sb s.lh = before ++ b :: after)
    (blocks' : pc'.blocks sb s.lh = before ++ after) (length : own.length = before.length)
    (inside : pc'.Inside s.lh) (same : pc'.unpinned = pc.unpinned)
    (early : ∀ tail, pc' ≠ .installUnpin tail) : Keeps sb contents pending s s' o := by
  have owns := (inv.expects p pc commit).idle idle
  rw [blocks] at owns
  obtain ⟨own', i', rest', held', length', logged, release⟩ := owns.release inv.pool idle
  obtain ⟨rfl, equal⟩ := List.append_inj (held'.symm.trans held) (length'.trans length.symm)
  cases equal
  obtain ⟨c', got, equal⟩ := Option.map_eq_some_iff.mp done
  cases equal
  obtain ⟨act, -⟩ := releasesleep_act s.pinned idle logged got
  have pinned : s.pinned = s.lh.drop pc'.unpinned := by rw [State.pinned_eq commit, same]
  have act : Act p s.cache s.pinned c' (s.lh.drop pc'.unpinned) .silent := pinned ▸ act
  refine ⟨⟨p, act⟩, inv.goto commit act ?_ ?_ inside ?_⟩
  · rw [pinned]
    simp
  · rw [blocks']
    exact release c' got
  · exact fun tail now => absurd now (early tail)

theorem Inv.unpin {tail : Nat} (commit : s.commit = some (p, .installUnpin tail))
    (done : commitStep sb s p (.installUnpin tail) = some (s', o)) :
    Keeps sb contents pending s s' o := by
  obtain ⟨idle, written⟩ := inv.written p tail commit
  have inside : tail < s.lh.length := inv.inside p _ commit
  have owns := (inv.expects p _ commit).idle idle
  obtain ⟨i, rest, held, block, -⟩ := owns.head
  simp only [commitStep, held] at done
  cases done
  have first : s.pinned = s.lh.getD tail 0 :: s.lh.drop (tail + 1) := by
    rw [State.pinned_eq commit, Pc.unpinned, List.drop_eq_getElem_cons inside]
    simp [inside]
  have once : s.lh.getD tail 0 ∉ s.lh.drop (tail + 1) := by
    have nodup : s.pinned.Nodup := by
      rw [State.pinned_eq commit]
      exact inv.nodup.sublist (List.drop_sublist _ _)
    rw [first] at nodup
    exact (List.nodup_cons.mp nodup).1
  have act : Act p s.cache s.pinned (s.cache.bunpin i) (s.lh.drop (tail + 1))
      (.unpinned (s.cache.bufs i).id) := .unpin block first once
  refine ⟨⟨p, act⟩, inv.goto commit act ?_ ?_ trivial ?_⟩
  · intro b same
    rw [first] at same
    cases same
    exact written
  · refine .owns (by simp [Cache.bunpin, idle]) (owns.frame rfl rfl fun j _ => ?_)
    exact Cache.setBuf_congr Buf.id (by rfl) j
  · exact fun _ now => by cases now

theorem Inv.advance (commit : s.commit = some (p, pc))
    (blocks : pc'.blocks sb s.lh = pc.blocks sb s.lh) (inside : pc'.Inside s.lh)
    (same : pc'.unpinned = pc.unpinned) (early : ∀ tail, pc' ≠ .installUnpin tail) :
    Keeps sb contents pending s (s.goto p pc') .silent := by
  have pinned : s.pinned = s.lh.drop pc'.unpinned := by rw [State.pinned_eq commit, same]
  have act : Act p s.cache s.pinned s.cache (s.lh.drop pc'.unpinned) .silent :=
    pinned ▸ .other (.inl rfl)
  refine ⟨⟨p, act⟩, inv.goto commit act ?_ ?_ inside ?_⟩
  · rw [pinned]
    simp
  · rw [blocks]
    exact inv.expects p pc commit
  · exact fun tail now => absurd now (early tail)

/-- The end of the loop of `install_trans`: no block is pinned any more. -/
theorem Inv.clear {tail : Nat} (commit : s.commit = some (p, .installTrans tail))
    (all : s.lh.length ≤ tail) :
    Keeps sb contents pending s { s.goto p (.writeHead true) with lh := [] } .cleared := by
  have none : s.pinned = [] := by
    rw [State.pinned_eq commit]
    exact List.drop_eq_nil_of_le all
  have act : Act p s.cache s.pinned s.cache [] .cleared := none ▸ .other (.inr rfl)
  refine ⟨⟨p, act⟩, act.pool inv.pool, act.holds inv.pool ?_ inv.holds, .nil, ?_, ?_, ?_, ?_⟩
  · rw [none]
    simp
  · exact fun _ => inv.quiet (by rw [commit]; rfl)
  · intro q pc commit'
    cases commit'
    exact inv.expects p _ commit
  · intro q pc commit'
    cases commit'
    trivial
  · intro q tail commit'
    cases commit'

end

theorem Inv.of_idle (idle : s.commit = none) (pool : Pool s.lh s.cache)
    (holds : Holds contents pending s.lh s.cache) (nodup : s.lh.Nodup) :
    Inv sb contents pending s where
  pool := by rwa [State.pinned, idle]
  holds := by rwa [State.pinned, idle]
  nodup := nodup
  quiet := by simp [idle]
  expects := by simp [idle]
  inside := by simp [idle]
  written := by simp [idle]

section

variable (inv : Inv sb contents pending s)
include inv

theorem Inv.finish (commit : s.commit = some (p, .finish)) :
    Keeps sb contents pending s { s with commit := none } .silent := by
  have same : s.pinned = s.lh := State.pinned_eq commit
  have act : Act p s.cache s.pinned s.cache s.lh .silent := same ▸ .other (.inl rfl)
  refine ⟨⟨p, act⟩, .of_idle rfl (act.pool inv.pool) (act.holds inv.pool ?_ inv.holds) inv.nodup⟩
  rw [same]
  simp

theorem Inv.commitStep (commit : s.commit = some (p, pc)) (idle : (s.cache.procs p).call = none)
    (done : commitStep sb s p pc = some (s', o)) :
    Keeps sb contents pending s s' o := by
  have owns := (inv.expects p pc commit).idle idle
  cases pc with
  | writeLog tail =>
    simp only [Bcache.commitStep] at done
    split at done
    · exact inv.bget commit idle done rfl trivial rfl (by simp)
    · cases done
      exact inv.advance commit rfl trivial rfl (by simp)
  | writeLogFrom tail =>
    obtain ⟨b, found, got⟩ := Option.bind_eq_some_iff.mp done
    obtain ⟨inside, -⟩ := List.getElem?_eq_some_iff.mp found
    exact inv.bget commit idle got (by simp [Pc.blocks, found]) inside rfl (by simp)
  | installDst tail =>
    obtain ⟨b, found, got⟩ := Option.bind_eq_some_iff.mp done
    obtain ⟨inside, -⟩ := List.getElem?_eq_some_iff.mp found
    exact inv.bget commit idle got (by simp [Pc.blocks, found]) inside rfl (by simp)
  | writeLogCopy tail =>
    obtain ⟨i, j, rest, held, -, mine⟩ := owns.both
    simp only [Bcache.commitStep, held] at done
    exact inv.copy commit idle done mine rfl rfl trivial (by simp)
  | writeHead last => exact inv.bget commit idle done rfl trivial rfl (by simp)
  | writeHeadCopy last =>
    obtain ⟨i, rest, held, mine⟩ := owns.head
    simp only [Bcache.commitStep, held] at done
    exact inv.copy commit idle done mine rfl rfl trivial (by simp)
  | installCopy tail =>
    obtain ⟨i, j, rest, held, mine, -⟩ := owns.both
    simp only [Bcache.commitStep, held] at done
    have inside : tail < s.lh.length := inv.inside p _ commit
    refine inv.copy commit idle done mine rfl rfl inside ?_
    rintro tail' now
    cases now
    rfl
  | writeLogPutFrom tail | writeLogPutTo tail | installPutDst tail =>
    simp only [Bcache.commitStep] at done
    split at done
    · rename_i i rest held
      exact inv.brelse commit idle [] held done [] rfl rfl rfl trivial rfl (by simp)
    · cases done
  | writeHeadPut last =>
    simp only [Bcache.commitStep] at done
    split at done
    · rename_i i rest held
      cases last <;> exact inv.brelse commit idle [] held done [] rfl rfl rfl trivial rfl (by simp)
    · cases done
  | installPutLog tail =>
    simp only [Bcache.commitStep] at done
    split at done
    · rename_i j i rest held
      exact inv.brelse commit idle [j] held done [_] rfl rfl rfl trivial rfl (by simp)
    · cases done
  | installTrans tail =>
    simp only [Bcache.commitStep] at done
    split at done
    · exact inv.bget commit idle done rfl trivial rfl (by simp)
    · rename_i all
      cases done
      exact inv.clear commit (Nat.le_of_not_lt all)
  | installUnpin tail => exact inv.unpin commit done
  | finish =>
    cases done
    exact inv.finish commit

theorem Inv.call (act : Act p s.cache s.pinned c' s.pinned o)
    (busy : (s.cache.procs p).call ≠ none)
    (expects : ∀ bs, Expects s.cache p bs → Expects c' p bs) :
    Inv sb (o.change contents) (o.mark pending) { s with cache := c' } where
  pool := act.pool inv.pool
  holds := act.holds inv.pool (fun b same => absurd same (by simp)) inv.holds
  nodup := inv.nodup
  quiet := inv.quiet
  expects := by
    intro q pc commit
    by_cases self : q = p
    · subst self
      exact expects _ (inv.expects q pc commit)
    · exact (inv.expects q pc commit).other act inv.pool self
  inside := inv.inside
  written := by
    intro q tail commit
    obtain ⟨idle, -⟩ := inv.written q tail commit
    have other : q ≠ p := by
      rintro rfl
      exact busy idle
    exact ⟨(act.procs other) ▸ idle, inv.still_written commit other act⟩

theorem Inv.go (done : go sb s p = some (s', o)) :
    Keeps sb contents pending s s' o := by
  unfold Bcache.go at done
  split at done
  · rename_i i call
    obtain ⟨⟨c', o'⟩, got, equal⟩ := Option.map_eq_some_iff.mp done
    cases equal
    obtain ⟨act, -⟩ := bread_act s.pinned call got
    exact ⟨⟨p, act⟩, inv.call act (by simp [call]) fun bs expects =>
      expects.bread inv.pool inv.holds call got⟩
  · rename_i i call
    cases done
    have act : Act p s.cache s.pinned (s.cache.brelse p i) s.pinned .silent := .put call
    exact ⟨⟨p, act⟩, inv.call act (by simp [call]) fun bs expects => expects.put inv.pool call⟩
  · rename_i idle
    split at done
    · rename_i q pc commit
      split at done
      · rename_i self
        subst self
        exact inv.commitStep commit idle done
      · cases done
    · cases done

end

theorem set_idxOf (lh : List Nat) (b : Nat) : lh.set (lh.idxOf b) b = lh :=
  List.ext_getElem (by simp) fun k _ _ => by grind

/-- `log_write` runs only while nobody commits, and then every logged block is pinned. -/
theorem Inv.logWrite (inv : Inv sb contents pending s) {i : Fin NBUF}
    (mine : i ∈ (s.cache.procs p).held)
    (root : (s.cache.bufs i).dev = ROOTDEV) (done : logWrite sb s p i = some (s', o)) :
    Keeps sb contents pending s s' o := by
  simp only [Bcache.logWrite] at done
  split at done
  · cases done
  split at done
  · cases done
  rename_i _ open_
  have idle : s.commit = none := by
    by_contra committing
    exact open_ (Int.lt_add_one_of_le (inv.quiet (Option.isSome_iff_ne_none.mpr committing)))
  have same : s.pinned = s.lh := by rw [State.pinned, idle]
  have pool := inv.pool
  have holds := inv.holds
  rw [same] at pool holds
  split at done
  · rename_i absent
    have absent := List.idxOf_eq_length_iff.mp absent
    have act := Act.pin mine root absent
    cases done
    refine ⟨⟨p, ?_⟩, .of_idle idle (act.pool pool) (act.holds pool ?_ holds) ?_⟩
    · rw [same]
      simpa only [State.pinned, idle] using act
    · intro b first
      have length := congrArg List.length first
      simp at length
      omega
    · rw [← List.concat_eq_append]
      exact inv.nodup.concat absent
  · rename_i present
    have present : (s.cache.bufs i).blockno ∈ s.lh := by
      by_contra absent
      exact present (List.idxOf_eq_length absent)
    have act := Act.absorb mine root present
    rw [set_idxOf] at done
    cases done
    refine ⟨⟨p, ?_⟩, .of_idle idle (act.pool pool) (act.holds pool ?_ holds) inv.nodup⟩
    · rw [same]
      simpa only [State.pinned, idle] using act
    · simp

theorem Inv.endOp (inv : Inv sb contents pending s) (free : s.Free p)
    (done : endOp s p = some (s', o)) : Keeps sb contents pending s s' o := by
  simp only [Bcache.endOp] at done
  split at done
  · cases done
  rename_i idle
  have idle : s.commit = none := Option.not_isSome_iff_eq_none.mp idle
  split at done
  · rename_i last
    have same : s.pinned = s.lh := by rw [State.pinned, idle]
    have act : Act p s.cache s.pinned (s.cache.setProc p { s.cache.procs p with inOp := false })
      s.pinned .silent := .mark
    have starts : ∀ pc : Pc, pc.unpinned = 0 → pc.blocks sb s.lh = [] → pc.Inside s.lh →
        (∀ tail, pc ≠ .installUnpin tail) → Keeps sb contents pending s
          { s with
            outstanding := s.outstanding - 1
            cache := s.cache.setProc p { s.cache.procs p with inOp := false }
            commit := some (p, pc) } .silent := by
      intro pc zero blocks inside early
      have pinned : s.lh.drop pc.unpinned = s.pinned := by rw [zero, same, List.drop_zero]
      refine ⟨⟨p, ?_⟩, ?_, ?_, inv.nodup, fun _ => last.le, ?_, ?_, ?_⟩
      · simpa only [State.pinned, pinned] using act
      · simpa only [State.pinned, pinned] using act.pool inv.pool
      · simpa only [State.pinned, pinned] using act.holds inv.pool (by simp) inv.holds
      · intro q pc' commit
        cases commit
        rw [blocks]
        refine .owns ?_ ⟨[], _, rfl, .nil⟩
        simp [free.1]
      · intro q pc' commit
        cases commit
        exact inside
      · intro q tail commit
        cases commit
        exact absurd rfl (early tail)
    split at done <;> cases done
    · exact starts _ rfl rfl trivial (by simp)
    · exact starts _ rfl rfl trivial (by simp)
  · cases done
    exact ⟨⟨p, .mark⟩, inv.client .mark free.2 fun committing => by simp [idle] at committing⟩

theorem Inv.step (inv : Inv sb contents pending s) {e : Event}
    (taken : step sb s e = some (s', o)) : Keeps sb contents pending s s' o := by
  cases e with
  | bread p dev blockno =>
    simp only [Bcache.step] at taken
    split at taken
    · rename_i free
      obtain ⟨⟨c', o'⟩, got, equal⟩ := Option.map_eq_some_iff.mp taken
      cases equal
      obtain ⟨act, -⟩ := bget_act inv.pool free.1 got
      exact ⟨⟨p, act⟩, inv.client act free.2 inv.quiet⟩
    · cases taken
  | store p i data =>
    simp only [Bcache.step] at taken
    split at taken
    · rename_i ok
      obtain ⟨free, mine, root⟩ := ok
      cases taken
      exact ⟨⟨p, .store mine root⟩, inv.client (.store mine root) free.2 inv.quiet⟩
    · cases taken
  | logWrite p i =>
    simp only [Bcache.step] at taken
    split at taken
    · rename_i ok
      exact inv.logWrite ok.2.1 ok.2.2 taken
    · cases taken
  | brelse p i =>
    simp only [Bcache.step] at taken
    split at taken
    · rename_i ok
      obtain ⟨free, mine, logged⟩ := ok
      obtain ⟨c', got, equal⟩ := Option.map_eq_some_iff.mp taken
      cases equal
      obtain ⟨act, -⟩ := releasesleep_act s.pinned free.1 logged got
      exact ⟨⟨p, act⟩, inv.client act free.2 inv.quiet⟩
    · cases taken
  | beginOp p =>
    simp only [Bcache.step, beginOp] at taken
    split at taken
    · rename_i ok
      split at taken
      · cases taken
      · rename_i idle
        split at taken <;> cases taken
        exact ⟨⟨p, .mark⟩, inv.client .mark ok.1.2 fun committing => absurd committing idle⟩
    · cases taken
  | endOp p =>
    simp only [Bcache.step] at taken
    split at taken
    · rename_i ok
      exact inv.endOp ok.1 taken
    · cases taken
  | go p => exact inv.go taken

end

end Xv6.Kernel.Bcache
