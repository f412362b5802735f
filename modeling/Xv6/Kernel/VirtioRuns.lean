import Xv6.Kernel.VirtioInv

/-! # Runs of the disk driver

For each buffer, requests are posted, completed by the device, cleared by the handler and
returned from, in this order and one after the other.
-/

namespace Xv6.Kernel.Virtio

open Function

/-- What has happened to the request for a buffer. -/
inductive Phase where
  | idle
  | posted (k : Nat) (req : Req)
  | completed (k : Nat)
  | cleared (k : Nat)
  deriving Repr, DecidableEq

/-- What may happen next. -/
def Phase.next : Phase → Act → Option Phase
  | .idle, .posted k req => some (.posted k req)
  | .posted k req, .completed req' => if req = req' then some (.completed k) else none
  | .completed k, .cleared => some (.cleared k)
  | .cleared k, .returned k' => if k = k' then some .idle else none
  | _, _ => none

/-- What the steps have done to the buffer. -/
def about (b : Buf) (tr : List (Event × Obs)) : List Act :=
  tr.filterMap fun x =>
    match x.2 with
    | .act b' act => if b' = b then some act else none
    | .silent => none

def phase (acts : List Act) : Option Phase := acts.foldlM Phase.next .idle

/-- Where the state has the request for a buffer. -/
def Reflects (s : State) (b : Buf) : Phase → Prop
  | .idle => ∀ k req c, ¬ s.Waits k b req c
  | .posted k req => ∃ c, s.Waits k b req c ∧ c.i0 ∈ s.waiting ++ s.working
  | .completed k => ∃ req c, s.Waits k b req c ∧ c.i0 ∈ s.done
  | .cleared k => ∃ req c, s.Waits k b req c ∧ s.onDisk b = false

variable {s s' : State} {b : Buf}

theorem mem_heads {h : Nat} : h ∈ s.heads ↔ h ∈ s.waiting ++ s.working ∨ h ∈ s.done := by
  rw [State.heads, ← List.append_assoc, List.mem_append]

theorem Buffers.unique (buffers : Buffers s) {k k' : Nat} {req req' : Req} {c c' : Chain}
    (mine : s.Waits k b req c) (theirs : s.Waits k' b req' c') : k = k' ∧ req = req' ∧ c = c' := by
  obtain rfl := buffers.one mine theirs rfl
  obtain ⟨-, rfl, rfl⟩ := Call.wait.inj (Option.some.inj (mine.symm.trans theirs))
  exact ⟨rfl, rfl, rfl⟩

section

variable {k : Nat} {req : Req} {c : Chain} {p : Phase}

theorem Inv.onDisk_iff (inv : Inv s) (waits : s.Waits k b req c) :
    s.onDisk b = true ↔ c.i0 ∈ s.heads := by
  rw [inv.rings.mem_iff]
  constructor
  · intro waiting
    exact ⟨k, b, req, c, waits, rfl, waiting⟩
  · rintro ⟨k', b', req', c', waits', same, waiting⟩
    obtain ⟨-, rfl, -, -⟩ := inv.chains.unique waits' waits same
    exact waiting

/-- A request is either on its way, or in the used ring. -/
theorem Inv.not_done (inv : Inv s) {h : Nat} (before : h ∈ s.waiting ++ s.working) :
    h ∉ s.done := by
  have nodup := inv.rings.nodup
  rw [State.heads, ← List.append_assoc] at nodup
  exact fun after => List.disjoint_of_nodup_append nodup before after

/-- The phase of a buffer is where the request for it is. -/
theorem Inv.phase_eq (inv : Inv s) (reflects : Reflects s b p) (waits : s.Waits k b req c) :
    (c.i0 ∈ s.waiting ++ s.working → p = .posted k req) ∧ (c.i0 ∈ s.done → p = .completed k) ∧
      (s.onDisk b = false → p = .cleared k) := by
  have finished (off : s.onDisk b = false) : c.i0 ∉ s.heads := by
    rw [← inv.onDisk_iff waits, off]
    exact Bool.false_ne_true
  cases p with
  | idle => exact absurd waits (reflects k req c)
  | posted k' req' =>
    obtain ⟨c', waits', before⟩ := reflects
    obtain ⟨rfl, rfl, rfl⟩ := inv.buffers.unique waits waits'
    exact ⟨fun _ => rfl, fun after => absurd after (inv.not_done before),
      fun off => absurd (mem_heads.mpr (.inl before)) (finished off)⟩
  | completed k' =>
    obtain ⟨req', c', waits', after⟩ := reflects
    obtain ⟨rfl, rfl, rfl⟩ := inv.buffers.unique waits waits'
    exact ⟨fun before => absurd after (inv.not_done before), fun _ => rfl,
      fun off => absurd (mem_heads.mpr (.inr after)) (finished off)⟩
  | cleared k' =>
    obtain ⟨req', c', waits', off⟩ := reflects
    obtain ⟨rfl, rfl, rfl⟩ := inv.buffers.unique waits waits'
    exact ⟨fun before => absurd (mem_heads.mpr (.inl before)) (finished off),
      fun after => absurd (mem_heads.mpr (.inr after)) (finished off), fun _ => rfl⟩

theorem phase_idle (reflects : Reflects s b p) (none : ∀ k req c, ¬ s.Waits k b req c) :
    p = .idle := by
  cases p with
  | idle => rfl
  | posted k req =>
    obtain ⟨c, waits, -⟩ := reflects
    exact (none _ _ _ waits).elim
  | completed k | cleared k =>
    obtain ⟨req, c, waits, -⟩ := reflects
    exact (none _ _ _ waits).elim

/-- The phase of a buffer stays where nothing happens to its request. -/
theorem Reflects.same (reflects : Reflects s b p)
    (waits : ∀ k req c, s'.Waits k b req c ↔ s.Waits k b req c)
    (before : ∀ k req c, s.Waits k b req c → c.i0 ∈ s.waiting ++ s.working →
      c.i0 ∈ s'.waiting ++ s'.working)
    (after : ∀ k req c, s.Waits k b req c → c.i0 ∈ s.done → c.i0 ∈ s'.done)
    (off : s.onDisk b = false → s'.onDisk b = false) : Reflects s' b p := by
  cases p with
  | idle => exact fun k req c found => reflects k req c ((waits k req c).mp found)
  | posted k req =>
    obtain ⟨c, found, place⟩ := reflects
    exact ⟨c, (waits k req c).mpr found, before k req c found place⟩
  | completed k =>
    obtain ⟨req, c, found, place⟩ := reflects
    exact ⟨req, c, (waits k req c).mpr found, after k req c found place⟩
  | cleared k =>
    obtain ⟨req, c, found, done⟩ := reflects
    exact ⟨req, c, (waits k req c).mpr found, off done⟩

end

/-! ## Steps -/

/-- The device has reported success for what is in the used ring. -/
def Healthy (s : State) : Prop := ∀ h ∈ s.done, (s.disk.info h).status = 0

/-- What a step does: it keeps the invariant, and moves on the phase of at most one buffer.
    `success` is the condition for the device to go on reporting success. -/
structure Moves (success : Prop) (s s' : State) (o : Obs) : Prop where
  inv : Inv s'
  stopped : s'.stopped = none ∨ s'.stopped = some (.panic "virtio_disk_intr status")
  healthy : success → Healthy s → Healthy s' ∧ s'.stopped = none
  phases : ∀ b p, Reflects s b p →
    match o with
    | .silent => Reflects s' b p
    | .act b' act =>
      if b' = b then ∃ p', p.next act = some p' ∧ Reflects s' b p' else Reflects s' b p

variable {success : Prop}

theorem Moves.rw (inv : Inv s) (running : s.stopped = none) {k : Nat} {b : Buf} (req : Req)
    (idle : s.calls k = none) (unlocked : s.locked b = false) :
    Moves success s { s with
      calls := update s.calls k (some (.alloc b req))
      locked := update s.locked b true } .silent := by
  refine ⟨inv.rw req idle unlocked, .inl running, fun _ healthy => ⟨healthy, running⟩,
    fun b' p reflects => ?_⟩
  refine reflects.same (fun k' req' c => ⟨fun waits => ?_, fun waits => ?_⟩)
    (fun _ _ _ _ place => place) (fun _ _ _ _ place => place) id
  · rcases update_eq_some waits with ⟨-, ⟨⟩⟩ | ⟨-, old⟩
    exact old
  · have other : k' ≠ k := by
      rintro rfl
      cases idle.symm.trans waits
    exact (update_of_ne other ..).trans waits

theorem Moves.silent (inv : Inv s') (stopped : s'.stopped = none ∨
      s'.stopped = some (.panic "virtio_disk_intr status"))
    (healthy : success → Healthy s → Healthy s' ∧ s'.stopped = none)
    (calls : s'.calls = s.calls) (onDisk : s'.onDisk = s.onDisk)
    (before : ∀ h, h ∈ s.waiting ++ s.working → h ∈ s'.waiting ++ s'.working)
    (after : s'.done = s.done) : Moves success s s' .silent := by
  refine ⟨inv, stopped, healthy, fun b p reflects => reflects.same ?_ ?_ ?_ ?_⟩
  · intro k req c
    simp only [State.Waits, calls]
  · exact fun _ _ _ _ place => before _ place
  · exact fun _ _ _ _ place => after ▸ place
  · exact fun off => onDisk ▸ off

/-- A section that moves the request for `b` on, and no other. -/
theorem Moves.act (inv : Inv s') (stopped : s'.stopped = none) {b : Buf} {act : Act}
    (healthy : success → Healthy s → Healthy s')
    (mine : ∀ p, Reflects s b p → ∃ p', p.next act = some p' ∧ Reflects s' b p')
    (others : ∀ b' p, b ≠ b' → Reflects s b' p → Reflects s' b' p) :
    Moves success s s' (.act b act) := by
  refine ⟨inv, .inl stopped, fun ok before => ⟨healthy ok before, stopped⟩, fun b' p reflects => ?_⟩
  by_cases same : b = b'
  · subst same
    simp only [if_true]
    exact mine p reflects
  · simp only [if_neg same]
    exact others b' p same reflects

section

variable {k : Nat} {b : Buf} {req : Req} {c : Chain} {o : Obs}

section

variable (inv : Inv s) (running : s.stopped = none)
include inv running

theorem Moves.alloc (calls : s.calls k = some (.alloc b req))
    (ran : enterAlloc s k b req = (s', o)) :
    Moves success s s' o := by
  obtain ⟨idx, nodup, inside, free, rolled | ⟨got, three⟩⟩ := alloc3Desc_spec s.disk
  · simp only [enterAlloc, rolled] at ran
    cases ran
    exact .silent (inv.rollback free) (.inl running) (fun _ healthy => ⟨healthy, running⟩) rfl rfl
      (fun _ place => place) rfl
  · obtain ⟨i0, i1, i2, rfl⟩ := List.length_eq_three.mp three
    simp only [enterAlloc, got] at ran
    obtain ⟨rfl, rfl⟩ := Prod.mk.inj ran
    have after := inv.post (c := ⟨i0, i1, i2⟩) calls nodup inside free
    have waiting := inv.waiting_post (c := ⟨i0, i1, i2⟩) (inside i0 (by simp))
      (free i0 (by simp)) b req (Chain.list ⟨i0, i1, i2⟩) (update s.onDisk b true)
      (update s.calls k (some (.wait b req ⟨i0, i1, i2⟩)))
    have statuses (_ : success) (healthy : Healthy s) (h : Nat) (done : h ∈ s.done) :
        (update s.disk.info i0 ⟨some b, 0xff⟩ h).status = 0 := by
      have other : h ≠ i0 := by
        rintro rfl
        exact inv.not_mem_heads (free h (by simp)) (mem_heads.mpr (.inr done))
      rw [update_of_ne other]
      exact healthy h done
    refine .act after running statuses (fun p reflects => ?_) (fun b' p other reflects => ?_)
    · have nobody : ∀ k' req' c, ¬ s.Waits k' b req' c := by
        intro k' req' c waits
        obtain rfl := inv.buffers.one waits calls rfl
        cases calls.symm.trans waits
      obtain rfl := phase_idle reflects nobody
      refine ⟨.posted k req, rfl, _, update_self .., ?_⟩
      rw [waiting]
      simp
    · refine reflects.same (fun k' req' c => ⟨fun waits => ?_, fun waits => ?_⟩) ?_
        (fun _ _ _ _ place => place) (fun off => (update_of_ne other.symm ..).trans off)
      · rcases update_eq_some waits with ⟨-, same⟩ | ⟨-, old⟩
        · cases same
          exact absurd rfl other
        · exact old
      · have ne : k' ≠ k := by
          rintro rfl
          cases calls.symm.trans waits
        exact (update_of_ne ne ..).trans waits
      · intro k' req' c _ place
        rw [waiting]
        rcases List.mem_append.mp place with before | before
        · exact List.mem_append_left _ (List.mem_append_left _ before)
        · exact List.mem_append_right _ before

theorem Moves.wait (waits : s.Waits k b req c) (ran : enterWait s k b c = (s', o)) :
    Moves success s s' o := by
  rw [enterWait] at ran
  split at ran
  · cases ran
    exact .silent inv (.inl running) (fun _ healthy => ⟨healthy, running⟩) rfl rfl
      (fun _ place => place) rfl
  · rename_i off
    have off : s.onDisk b = false := by simpa using off
    have given : freeChain (NUM + 1) (forget s.disk c.i0) c.i0 =
        .ok (release (forget s.disk c.i0) c.list) :=
      (inv.chains.formed waits).freeChain (show (forget s.disk c.i0).desc = _ from rfl) rfl 6
    rw [given] at ran
    cases ran
    have statuses (_ : success) (healthy : Healthy s) (h : Nat) (done : h ∈ s.done) :
        ((forget s.disk c.i0).info h).status = 0 := by
      by_cases here : h = c.i0
      · subst here
        simpa [forget] using healthy _ done
      · simpa [forget, here] using healthy h done
    refine .act (inv.finish waits off) running statuses (fun p reflects => ?_)
      (fun b' p other reflects => ?_)
    · obtain rfl := (inv.phase_eq reflects waits).2.2 off
      refine ⟨.idle, by simp [Phase.next], fun k' req' c' waits' => ?_⟩
      rcases update_eq_some waits' with ⟨-, ⟨⟩⟩ | ⟨ne, old⟩
      exact ne (inv.buffers.one old waits rfl)
    · refine reflects.same (fun k' req' c' => ⟨fun waits' => ?_, fun waits' => ?_⟩)
        (fun _ _ _ _ place => place) (fun _ _ _ _ place => place) id
      · rcases update_eq_some waits' with ⟨-, ⟨⟩⟩ | ⟨-, old⟩
        exact old
      · have ne : k' ≠ k := by
          rintro rfl
          cases waits.symm.trans waits'
          exact other rfl
        exact (update_of_ne ne ..).trans waits'

theorem Moves.turn (ran : turn s = (s', o)) :
    Moves success s s' o := by
  rw [Virtio.turn] at ran
  split at ran
  · cases ran
    exact .silent (inv.flags false s.stopped) (.inl running) (fun _ healthy => ⟨healthy, running⟩)
      rfl rfl (fun _ place => place) rfl
  · rename_i more
    obtain ⟨k, b, req, c, waits, entry, info, waiting, first⟩ := inv.first_done more
    have done : c.i0 ∈ s.done := by
      rw [first]
      exact List.mem_cons_self ..
    simp only [entry, info] at ran
    split at ran
    · rename_i failed
      cases ran
      exact .silent (inv.flags s.handler _) (.inr rfl)
        (fun _ healthy => absurd (healthy c.i0 done) failed) rfl rfl (fun _ place => place) rfl
    · cases ran
      have rest (_ : success) (healthy : Healthy s) (h : Nat)
        (inside : h ∈ s.usedRing.pop.2.contents) :
          (s.disk.info h).status = 0 :=
        healthy h (first ▸ List.mem_cons_of_mem _ inside)
      refine .act (inv.clear waits first) running rest (fun p reflects => ?_)
        (fun b' p other reflects => ?_)
      · obtain rfl := (inv.phase_eq reflects waits).2.1 done
        exact ⟨.cleared k, rfl, req, c, waits, update_self ..⟩
      · refine reflects.same (fun _ _ _ => Iff.rfl) (fun _ _ _ _ place => place) ?_
          (fun off => (update_of_ne other.symm ..).trans off)
        intro k' req' c' waits' place
        rw [first] at place
        rcases List.mem_cons.mp place with same | rest
        · exact absurd (inv.chains.unique waits waits' same.symm).2.1 other
        · exact rest

theorem Moves.take (taken : take s = some (s', o)) :
    Moves success s s' o := by
  rw [Virtio.take] at taken
  split at taken
  · cases taken
  · rename_i more
    obtain ⟨k, b, req, c, waits, entry, first, after⟩ := inv.take more
    rw [entry, (inv.chains.formed waits).readChain] at taken
    cases taken
    refine .silent after (.inl running) (fun _ healthy => ⟨healthy, running⟩) rfl rfl
      (fun h place => ?_) rfl
    rw [first] at place
    simp only [State.working, List.map_append, List.mem_append, List.mem_cons] at place ⊢
    rcases place with (rfl | before) | before
    · exact .inr (.inr (List.mem_map_of_mem (List.mem_singleton_self _)))
    · exact .inl before
    · exact .inr (.inl before)

theorem Moves.complete {n : Nat} {status : UInt8} (taken : complete s n status = some (s', o)) :
    Moves (status = 0) s s' o := by
  rw [Virtio.complete] at taken
  split at taken
  · cases taken
  · rename_i r found
    obtain ⟨k, b, req, c, waits, rfl, moved, pushed, after⟩ := inv.complete found status
    cases taken
    have statuses (success : status = 0) (healthy : Healthy s) :
        Healthy (s.completed n c.i0 status) := by
      intro h done
      rw [pushed] at done
      by_cases here : h = c.i0
      · subst here
        simp [State.completed, success]
      · have old : h ∈ s.done := by simpa [here] using done
        simpa [State.completed, here] using healthy h old
    refine .act after running statuses (fun p reflects => ?_) (fun b' p other reflects => ?_)
    · have among : c.i0 ∈ s.working := moved.mem_iff.mpr (List.mem_cons_self ..)
      obtain rfl := (inv.phase_eq reflects waits).1 (List.mem_append_right _ among)
      refine ⟨.completed k, by simp [Phase.next], req, c, waits, ?_⟩
      rw [pushed]
      simp
    · refine reflects.same (fun _ _ _ => Iff.rfl) ?_ ?_ id
      · intro k' req' c' waits' place
        rcases List.mem_append.mp place with before | before
        · exact List.mem_append_left _ before
        · rcases List.mem_cons.mp (moved.mem_iff.mp before) with same | rest
          · exact absurd (inv.chains.unique waits waits' same.symm).2.1 other
          · exact List.mem_append_right _ rest
      · intro k' req' c' _ place
        rw [pushed]
        exact List.mem_append_left _ place

end

end

/-- The device does not report a failure in this step. -/
def Event.Succeeds : Event → Prop
  | .complete _ status => status = 0
  | _ => True

theorem Inv.moves (inv : Inv s) {e : Event} {o : Obs} (taken : step s e = some (s', o)) :
    Moves e.Succeeds s s' o := by
  by_cases running : s.stopped = none
  · rw [step.eq_def, if_neg (not_not.mpr running)] at taken
    cases e with
    | rw k b blockno write =>
      simp only at taken
      split at taken
      · rename_i enabled
        cases taken
        exact .rw inv running _ enabled.1 enabled.2
      · cases taken
    | enter k =>
      simp only at taken
      split at taken
      · cases taken
      split at taken
      · cases taken
      · rename_i b req calls
        exact .alloc inv running calls (Option.some.inj taken)
      · rename_i b req c calls
        exact .wait inv running calls (Option.some.inj taken)
    | intr =>
      simp only at taken
      split at taken
      · cases taken
      · cases taken
        exact .silent (inv.flags true s.stopped) (.inl running)
          (fun _ healthy => ⟨healthy, running⟩) rfl rfl (fun _ place => place) rfl
    | turn =>
      simp only at taken
      split at taken
      · exact .turn inv running (Option.some.inj taken)
      · cases taken
    | take => exact .take inv running taken
    | complete n status => exact .complete inv running taken
  · rw [step.eq_def, if_pos running] at taken
    cases taken

/-! ## Runs -/

theorem about_snoc (b : Buf) (tr : List (Event × Obs)) (e : Event) (o : Obs) :
    about b (tr ++ [(e, o)]) = about b tr ++
      match o with
      | .act b' act => if b' = b then [act] else []
      | .silent => [] := by
  rw [about, List.filterMap_append]
  cases o with
  | silent => rfl
  | act b' act =>
    by_cases same : b' = b
    · simp [about, same]
    · simp [about, same]

/-- The driver and the device after the steps `tr`. -/
structure Flow (tr : List (Event × Obs)) (s : State) : Prop where
  inv : Inv s
  stopped : s.stopped = none ∨ s.stopped = some (.panic "virtio_disk_intr status")
  healthy : (∀ x ∈ tr, x.1.Succeeds) → Healthy s ∧ s.stopped = none
  phases : ∀ b, ∃ p, phase (about b tr) = some p ∧ Reflects s b p

theorem Flow.step {tr : List (Event × Obs)} {e : Event} {o : Obs} (flow : Flow tr s)
    (taken : step s e = some (s', o)) : Flow (tr ++ [(e, o)]) s' := by
  have moves := flow.inv.moves taken
  refine ⟨moves.inv, moves.stopped, fun success => ?_, fun b => ?_⟩
  · have before := (flow.healthy fun x inside => success x (List.mem_append_left _ inside)).1
    exact moves.healthy (success (e, o) (by simp)) before
  · obtain ⟨p, led, reflects⟩ := flow.phases b
    have next := moves.phases b p reflects
    rw [about_snoc, phase, List.foldlM_append, ← phase, led]
    cases o with
    | silent => exact ⟨p, rfl, next⟩
    | act b' act =>
      by_cases same : b' = b
      · simp only [if_pos same] at next ⊢
        obtain ⟨p', moved, reflects'⟩ := next
        exact ⟨p', by simp [moved], reflects'⟩
      · simp only [if_neg same] at next ⊢
        exact ⟨p, rfl, next⟩

theorem flow_start : Flow [] start := by
  have waiting : start.waiting = [] := start.availRing.contents_eq_nil_iff.mpr rfl
  have done : start.done = [] := start.usedRing.contents_eq_nil_iff.mpr rfl
  have heads : start.heads = [] := by
    rw [State.heads, waiting, done]
    rfl
  refine ⟨⟨⟨?_, ?_, ?_⟩, ⟨?_, ?_⟩, ⟨?_, ?_, ?_⟩⟩, .inl rfl, fun _ => ⟨?_, rfl⟩,
    fun b => ⟨.idle, rfl, ?_⟩⟩
  · rintro k b req c ⟨⟩
  · rintro k k' call call' i ⟨⟩
  · rintro i - ⟨⟩
  · rintro k call ⟨⟩
  · rintro k k' call call' ⟨⟩
  · rw [heads]
    exact List.nodup_nil
  · intro h
    rw [heads]
    constructor
    · rintro ⟨⟩
    · rintro ⟨k, b, req, c, ⟨⟩, -⟩
  · rintro r k b req c ⟨⟩
  · rw [Healthy, done]
    rintro h ⟨⟩
  · rintro k req c ⟨⟩

theorem flow_run {tr : List (Event × Obs)} (run : machine.Run start tr s) : Flow tr s :=
  run.always_invariant Flow flow_start (fun _ _ _ _ _ _ flow taken => flow.step taken)

/-- What the driver is to do, in a state that the steps `tr` have led to. -/
structure Disciplined (tr : List (Event × Obs)) (s : State) : Prop where
  /-- Every descriptor is free or in the chain of one call. -/
  descriptors : ∀ i < NUM,
    (s.disk.free i = true ∧ ∀ k call, s.calls k = some call → i ∉ call.chain) ∨
    (s.disk.free i = false ∧ ∃! k, ∃ call, s.calls k = some call ∧ i ∈ call.chain)
  /-- A chain has three descriptors. -/
  chain : ∀ k b req c, s.calls k = some (.wait b req c) →
    c.list.Nodup ∧ ∀ i ∈ c.list, i < NUM
  /-- The driver only stops if the device has reported a failure. -/
  stopped : s.stopped = none ∨
    s.stopped = some (.panic "virtio_disk_intr status") ∧ ∃ x ∈ tr, ¬ x.1.Succeeds
  /-- Each request is completed by the device, cleared by the handler and returned from, in
      this order, before there is another one for the buffer. -/
  order : ∀ b, (phase (about b tr)).isSome

/-- The driver follows its protocol, for all callers and for all the device may do. -/
theorem virtio_disciplined {tr : List (Event × Obs)} (run : machine.Run start tr s) :
    Disciplined tr s := by
  obtain ⟨inv, stopped, healthy, phases⟩ := flow_run run
  refine ⟨fun i inside => ?_, fun k b req c waits => ?_, ?_, fun b => ?_⟩
  · rcases free : s.disk.free i
    · right
      obtain ⟨k, call, calls, mine⟩ := inv.chains.owned inside free
      refine ⟨rfl, k, ⟨call, calls, mine⟩, ?_⟩
      rintro k' ⟨call', calls', theirs⟩
      exact inv.chains.apart calls' calls theirs mine
    · left
      refine ⟨rfl, fun k call calls mine => ?_⟩
      rw [inv.chains.taken calls mine] at free
      cases free
  · have formed := inv.chains.formed waits
    exact ⟨formed.nodup, formed.inside⟩
  · rcases stopped with running | failed
    · exact .inl running
    · right
      refine ⟨failed, ?_⟩
      by_contra none
      push Not at none
      rw [(healthy none).2] at failed
      cases failed
  · obtain ⟨p, led, -⟩ := phases b
    rw [led]
    rfl

/-- A block is read and another one written. The device is done with the second first, so that
    the handler clears it while the first is still with the device. -/
def twoRequests : List (Event × Obs) :=
  [(.rw 0 7 1 false, .silent), (.rw 1 8 2 true, .silent), (.enter 0, .act 7 (.posted 0 ⟨false, 2⟩)),
    (.enter 1, .act 8 (.posted 1 ⟨true, 4⟩)), (.take, .silent), (.take, .silent),
    (.complete 1 0, .act 8 (.completed ⟨true, 4⟩)), (.intr, .silent), (.turn, .act 8 .cleared),
    (.turn, .silent)]

/-- Both chains are in use there, and there are descriptors for no third one. -/
theorem virtio_disciplined_twoRequests : ∃ s, machine.Run start twoRequests s ∧
    (List.range NUM).map s.disk.free = [false, false, false, false, false, false, true, true] ∧
      Disciplined twoRequests s := by
  have ran : (machine.exec start (twoRequests.map Prod.fst)).map (fun r =>
      (r.1, (List.range NUM).map r.2.disk.free)) =
      some (twoRequests, [false, false, false, false, false, false, true, true]) := by
    decide
  obtain ⟨s, run, free⟩ :=
    Lib.Machine.run_of_exec (fun s : State => (List.range NUM).map s.disk.free) ran
  exact ⟨s, run, free, virtio_disciplined run⟩

end Xv6.Kernel.Virtio
