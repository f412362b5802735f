import Xv6.Kernel.VirtioDesc

/-! # Requests on their way

A posted request is in one of three places: in the avail ring, with the device, or in the
used ring. This is what every step of the driver and of the device keeps.
-/

namespace Xv6.Kernel.Virtio

open Function

variable {k k' h : Nat} {b : Buf} {req : Req} {c : Chain}

theorem divides : NUM ∣ 2 ^ 16 := by decide

theorem small : NUM < 2 ^ 16 := by decide

def State.availRing (s : State) : Lib.Ring Nat 16 NUM :=
  ⟨s.disk.avail, s.lastAvail, s.disk.availIdx⟩

def State.usedRing (s : State) : Lib.Ring Nat 16 NUM :=
  ⟨s.disk.used, s.disk.used_idx, s.disk.usedIdx⟩

/-- The heads of the chains that the device has not taken. -/
def State.waiting (s : State) : List Nat := s.availRing.contents

/-- The heads of the chains that the device works on. -/
def State.working (s : State) : List Nat := s.inFlight.map Request.head

/-- The heads of the chains in the used ring that the driver has not looked at. -/
def State.done (s : State) : List Nat := s.usedRing.contents

def State.heads (s : State) : List Nat := s.waiting ++ (s.working ++ s.done)

/-- Process `k` waits for its request. -/
def State.Waits (s : State) (k : Nat) (b : Buf) (req : Req) (c : Chain) : Prop :=
  s.calls k = some (.wait b req c)

/-- Every descriptor is free or in the chain of one call. -/
structure Chains (s : State) : Prop where
  formed : ∀ {k b req c}, s.Waits k b req c → Formed s.disk b req c
  apart : ∀ {k k' call call' i}, s.calls k = some call → s.calls k' = some call' →
    i ∈ call.chain → i ∈ call'.chain → k = k'
  owned : ∀ {i}, i < NUM → s.disk.free i = false → ∃ k call, s.calls k = some call ∧ i ∈ call.chain

/-- Every call has its own buffer. -/
structure Buffers (s : State) : Prop where
  locked : ∀ {k call}, s.calls k = some call → s.locked call.buf = true
  one : ∀ {k k' call call'}, s.calls k = some call → s.calls k' = some call' →
    call.buf = call'.buf → k = k'

/-- Every request that is not done is in one place. -/
structure Rings (s : State) : Prop where
  nodup : s.heads.Nodup
  mem_iff : ∀ {h}, h ∈ s.heads ↔ ∃ k b req c, s.Waits k b req c ∧ c.i0 = h ∧ s.onDisk b = true
  request : ∀ {r k b req c}, r ∈ s.inFlight → s.Waits k b req c → c.i0 = r.head →
    r = ⟨c.i0, req, .data b, .status c.i0⟩

structure Inv (s : State) : Prop where
  chains : Chains s
  buffers : Buffers s
  rings : Rings s

variable {s : State}

theorem Chains.apart_wait (chains : Chains s) {b' : Buf} {req' : Req}
    {c' : Chain} (mine : s.Waits k b req c) (theirs : s.Waits k' b' req' c') {i : Nat}
    (inside : i ∈ c.list) (inside' : i ∈ c'.list) : k = k' :=
  chains.apart mine theirs inside inside'

theorem Chains.unique (chains : Chains s) {b' : Buf} {req' : Req}
    {c' : Chain} (mine : s.Waits k b req c) (theirs : s.Waits k' b' req' c')
    (same : c.i0 = c'.i0) : k = k' ∧ b = b' ∧ req = req' ∧ c = c' := by
  have equal : k = k' := chains.apart_wait mine theirs (i := c.i0) (by simp [Chain.list])
    (by simp [Chain.list, same])
  subst equal
  have call := Option.some.inj (mine.symm.trans theirs)
  exact ⟨rfl, (Call.wait.inj call)⟩

theorem Inv.head_lt (inv : Inv s) (inside : h ∈ s.heads) : h < NUM := by
  obtain ⟨k, b, req, c, waits, rfl, -⟩ := inv.rings.mem_iff.mp inside
  exact (inv.chains.formed waits).head_lt

theorem Inv.heads_subset (inv : Inv s) : s.heads ⊆ List.range NUM :=
  fun _ among => List.mem_range.mpr (inv.head_lt among)

theorem Inv.length_le (inv : Inv s) : s.heads.length ≤ NUM := by
  have few := (inv.rings.nodup.subperm inv.heads_subset).length_le
  rwa [List.length_range] at few

/-- There is room in the rings for a head that is not on its way. -/
theorem Inv.length_lt (inv : Inv s) (inside : h < NUM) (new : h ∉ s.heads) :
    s.heads.length < NUM := by
  have nodup : (h :: s.heads).Nodup := List.nodup_cons.mpr ⟨new, inv.rings.nodup⟩
  have subset : (h :: s.heads) ⊆ List.range NUM :=
    List.cons_subset.mpr ⟨List.mem_range.mpr inside, inv.heads_subset⟩
  have few := (nodup.subperm subset).length_le
  rw [List.length_cons, List.length_range] at few
  omega

theorem Chains.taken (chains : Chains s) {i : Nat} {call : Call} (calls : s.calls k = some call)
    (inside : i ∈ call.chain) : s.disk.free i = false := by
  cases call with
  | alloc b req => simp [Call.chain] at inside
  | wait b req c => exact (chains.formed calls).taken i inside

theorem Inv.not_mem_heads (inv : Inv s) (free : s.disk.free h = true) : h ∉ s.heads := by
  intro among
  obtain ⟨k, b, req, c, waits, rfl, -⟩ := inv.rings.mem_iff.mp among
  have taken := (inv.chains.formed waits).taken c.i0 (by simp [Chain.list])
  rw [free] at taken
  cases taken

/-! ## The steps of the callers -/

theorem update_eq_some {α : Type} {f : Nat → Option α} {x : Option α} {y : α}
    (found : update f k x k' = some y) :
    k' = k ∧ x = some y ∨ k' ≠ k ∧ f k' = some y := by
  by_cases same : k' = k
  · subst same
    rw [update_self] at found
    exact .inl ⟨rfl, found⟩
  · rw [update_of_ne same] at found
    exact .inr ⟨same, found⟩

theorem Inv.rw (inv : Inv s) (req : Req) (idle : s.calls k = none) (unlocked : s.locked b = false) :
    Inv { s with
      calls := update s.calls k (some (.alloc b req))
      locked := update s.locked b true } := by
  -- The new call has no descriptors yet.
  have old {k' b' req' c} (waits : update s.calls k (some (.alloc b req)) k' =
      some (.wait b' req' c)) : s.Waits k' b' req' c := by
    rcases update_eq_some waits with ⟨rfl, ⟨⟩⟩ | ⟨-, waits⟩
    exact waits
  have kept {k' call} (calls : s.calls k' = some call) :
      update s.calls k (some (.alloc b req)) k' = some call := by
    have other : k' ≠ k := by
      rintro rfl
      rw [idle] at calls
      cases calls
    rw [update_of_ne other, calls]
  refine ⟨⟨fun waits => inv.chains.formed (old waits), ?_, ?_⟩, ⟨?_, ?_⟩,
    ⟨inv.rings.nodup, ?_, fun among waits => inv.rings.request among (old waits)⟩⟩
  · intro k' k'' call call' i calls calls' inside inside'
    rcases update_eq_some calls with ⟨rfl, ⟨⟩⟩ | ⟨-, calls⟩
    · simp [Call.chain] at inside
    rcases update_eq_some calls' with ⟨rfl, ⟨⟩⟩ | ⟨-, calls'⟩
    · simp [Call.chain] at inside'
    exact inv.chains.apart calls calls' inside inside'
  · intro i small taken
    obtain ⟨k', call, calls, inside⟩ := inv.chains.owned small taken
    exact ⟨k', call, kept calls, inside⟩
  · intro k' call calls
    rcases update_eq_some calls with ⟨rfl, ⟨⟩⟩ | ⟨-, calls⟩
    · exact update_self ..
    · by_cases same : call.buf = b
      · rw [same]
        exact update_self ..
      · exact (update_of_ne same ..).trans (inv.buffers.locked calls)
  · -- Another call for `b` would hold its lock.
    have fresh {k' call} (calls : s.calls k' = some call) : call.buf ≠ b := by
      intro same
      have locked := inv.buffers.locked calls
      rw [same, unlocked] at locked
      cases locked
    intro k' k'' call call' calls calls' same
    rcases update_eq_some calls with ⟨rfl, ⟨⟩⟩ | ⟨-, before⟩ <;>
      rcases update_eq_some calls' with ⟨rfl, ⟨⟩⟩ | ⟨-, before'⟩
    · rfl
    · exact absurd same.symm (fresh before')
    · exact absurd same (fresh before)
    · exact inv.buffers.one before before' same
  · intro h
    refine inv.rings.mem_iff.trans ⟨?_, ?_⟩
    · rintro ⟨k', b', req', c, waits, rest⟩
      exact ⟨k', b', req', c, kept waits, rest⟩
    · rintro ⟨k', b', req', c, waits, rest⟩
      exact ⟨k', b', req', c, old waits, rest⟩

/-- There are not enough descriptors, and those that were taken are given back. -/
theorem Inv.rollback (inv : Inv s) {idx : List Nat} (free : ∀ i ∈ idx, s.disk.free i = true) :
    Inv { s with disk := release (claim s.disk idx) idx } := by
  have same := free_release_claim free
  refine ⟨⟨fun waits => ?_, inv.chains.apart, fun small taken => ?_⟩,
    ⟨inv.buffers.locked, inv.buffers.one⟩,
    ⟨inv.rings.nodup, inv.rings.mem_iff, inv.rings.request⟩⟩
  · have formed := inv.chains.formed waits
    refine formed.congr (fun i inside => ?_) (fun i inside => ?_) rfl rfl
    · have other : i ∉ idx := by
        intro among
        have taken := formed.taken i inside
        rw [free i among] at taken
        cases taken
      exact if_neg other
    · exact (congrFun same i).trans (formed.taken i inside)
  · exact inv.chains.owned small ((congrFun same _).symm.trans taken)

/-- A posted request is at the end of the avail ring. -/
theorem Inv.waiting_post (inv : Inv s) (inside : c.i0 < NUM)
    (free : s.disk.free c.i0 = true) (b : Buf) (req : Req) (idx : List Nat) (onDisk : Buf → Bool)
    (calls : Nat → Option Call) :
    { s with disk := post (claim s.disk idx) b req c, onDisk := onDisk, calls := calls }.waiting =
      s.waiting ++ [c.i0] := by
  have room := inv.length_lt inside (inv.not_mem_heads free)
  rw [State.heads, List.length_append] at room
  have below : s.availRing.used < NUM := by
    rw [← s.availRing.length_contents]
    exact lt_of_le_of_lt (Nat.le_add_right _ _) room
  exact s.availRing.contents_push divides small below c.i0

theorem Inv.post (inv : Inv s) (calls : s.calls k = some (.alloc b req)) (nodup : c.list.Nodup)
    (inside : ∀ i ∈ c.list, i < NUM) (free : ∀ i ∈ c.list, s.disk.free i = true) :
    Inv { s with
      disk := post (claim s.disk c.list) b req c
      onDisk := update s.onDisk b true
      calls := update s.calls k (some (.wait b req c)) } := by
  have head : c.i0 ∈ c.list := by simp [Chain.list]
  have new : c.i0 ∉ s.heads := inv.not_mem_heads (free c.i0 head)
  -- The descriptors of the other calls are not free.
  have apart {k' call i} (calls : s.calls k' = some call) (mine : i ∈ call.chain) : i ∉ c.list := by
    intro theirs
    have taken := inv.chains.taken calls mine
    rw [free i theirs] at taken
    cases taken
  have kept {k' b' req' c'} (waits : s.Waits k' b' req' c') :
      k' ≠ k ∧ update s.calls k (some (.wait b req c)) k' = some (.wait b' req' c') := by
    have other : k' ≠ k := by
      rintro rfl
      cases calls.symm.trans waits
    exact ⟨other, (update_of_ne other ..).trans waits⟩
  have rings : { s with
      disk := Virtio.post (claim s.disk c.list) b req c
      onDisk := update s.onDisk b true
      calls := update s.calls k (some (.wait b req c)) }.heads =
        s.waiting ++ [c.i0] ++ (s.working ++ s.done) := by
    rw [State.heads, inv.waiting_post (inside c.i0 head) (free c.i0 head)]
    rfl
  have mem {h} : h ∈ s.waiting ++ [c.i0] ++ (s.working ++ s.done) ↔ h = c.i0 ∨ h ∈ s.heads := by
    simp only [State.heads, List.mem_append, List.mem_singleton]
    tauto
  refine ⟨⟨?_, ?_, ?_⟩, ⟨?_, ?_⟩, ⟨?_, ?_, ?_⟩⟩
  · intro k' b' req' c' waits
    rcases update_eq_some waits with ⟨rfl, ⟨⟩⟩ | ⟨-, old⟩
    · exact formed_post nodup inside fun i among => by simp [claim, among]
    · have formed := inv.chains.formed old
      have claimed : Formed (claim s.disk c.list) b' req' c' :=
        formed.congr (fun _ _ => rfl) (fun i among => by simp [claim, formed.taken i among]) rfl rfl
      exact claimed.post fun i mine => apart old mine
  · intro k' k'' call call' i calls' calls'' mine theirs
    rcases update_eq_some calls' with ⟨rfl, ⟨⟩⟩ | ⟨-, old⟩ <;>
      rcases update_eq_some calls'' with ⟨rfl, ⟨⟩⟩ | ⟨-, old'⟩
    · rfl
    · exact absurd mine (apart old' theirs)
    · exact absurd theirs (apart old mine)
    · exact inv.chains.apart old old' mine theirs
  · intro i below taken
    by_cases among : i ∈ c.list
    · exact ⟨k, _, update_self .., among⟩
    · have before : s.disk.free i = false := by simpa [Virtio.post, claim, among] using taken
      obtain ⟨k', call, calls', mine⟩ := inv.chains.owned below before
      have other : k' ≠ k := by
        rintro rfl
        obtain rfl := Option.some.inj (calls.symm.trans calls')
        simp [Call.chain] at mine
      exact ⟨k', call, (update_of_ne other ..).trans calls', mine⟩
  · intro k' call calls'
    rcases update_eq_some calls' with ⟨rfl, ⟨⟩⟩ | ⟨-, old⟩
    · exact show s.locked b = true from inv.buffers.locked calls
    · exact inv.buffers.locked old
  · intro k' k'' call call' calls' calls'' same
    rcases update_eq_some calls' with ⟨rfl, ⟨⟩⟩ | ⟨-, old⟩ <;>
      rcases update_eq_some calls'' with ⟨rfl, ⟨⟩⟩ | ⟨-, old'⟩
    · rfl
    · exact inv.buffers.one calls old' same
    · exact inv.buffers.one old calls same
    · exact inv.buffers.one old old' same
  · rw [rings, List.append_assoc, List.singleton_append, List.perm_middle.nodup_iff]
    exact List.nodup_cons.mpr ⟨new, inv.rings.nodup⟩
  · intro h
    rw [rings, mem]
    constructor
    · rintro (rfl | among)
      · exact ⟨k, b, req, c, update_self .., rfl, update_self ..⟩
      · obtain ⟨k', b', req', c', waits, same, waiting⟩ := inv.rings.mem_iff.mp among
        refine ⟨k', b', req', c', (kept waits).2, same, ?_⟩
        by_cases equal : b' = b
        · rw [equal]
          exact update_self ..
        · exact (update_of_ne equal ..).trans waiting
    · rintro ⟨k', b', req', c', waits, same, waiting⟩
      rcases update_eq_some waits with ⟨rfl, ⟨⟩⟩ | ⟨other, old⟩
      · exact .inl same.symm
      · right
        have distinct : b' ≠ b := fun equal => other (inv.buffers.one old calls equal)
        have before : s.onDisk b' = true := (update_of_ne distinct ..).symm.trans waiting
        exact inv.rings.mem_iff.mpr ⟨k', b', req', c', old, same, before⟩
  · intro r k' b' req' c' among waits same
    rcases update_eq_some waits with ⟨rfl, ⟨⟩⟩ | ⟨-, old⟩
    · refine absurd ?_ new
      rw [same]
      exact List.mem_append_right _ (List.mem_append_left _ (List.mem_map_of_mem among))
    · exact inv.rings.request among old same

/-- A call whose request is done gives its descriptors back and returns. -/
theorem Inv.finish (inv : Inv s) (waits : s.Waits k b req c) (done : s.onDisk b = false) :
    Inv { s with
      disk := release (forget s.disk c.i0) c.list
      calls := update s.calls k none
      locked := update s.locked b false } := by
  have old {k' call} (calls : update s.calls k none k' = some call) :
      k' ≠ k ∧ s.calls k' = some call := by
    rcases update_eq_some calls with ⟨-, ⟨⟩⟩ | found
    exact found
  have kept {k' call} (other : k' ≠ k) (calls : s.calls k' = some call) :
      update s.calls k none k' = some call :=
    (update_of_ne other ..).trans calls
  refine ⟨⟨?_, ?_, ?_⟩, ⟨?_, ?_⟩, ⟨inv.rings.nodup, ?_, ?_⟩⟩
  · intro k' b' req' c' waits'
    obtain ⟨other, waits'⟩ := old waits'
    have formed := inv.chains.formed waits'
    have apart {i} (mine : i ∈ c'.list) : i ∉ c.list :=
      fun theirs => other (inv.chains.apart_wait waits' waits mine theirs)
    refine formed.congr (fun i mine => if_neg (apart mine)) (fun i mine => ?_) rfl ?_
    · simp [release, forget, formed.taken i mine, apart mine]
    · have head : c'.i0 ≠ c.i0 := by
        intro equal
        exact apart (show c'.i0 ∈ c'.list by simp [Chain.list]) (by simp [Chain.list, equal])
      exact congrArg Info.b (update_of_ne head ..)
  · intro k' k'' call call' i calls calls' mine theirs
    exact inv.chains.apart (old calls).2 (old calls').2 mine theirs
  · intro i below taken
    simp only [release, forget, Bool.or_eq_false_iff, decide_eq_false_iff_not] at taken
    obtain ⟨k', call, calls, mine⟩ := inv.chains.owned below taken.1
    have other : k' ≠ k := by
      rintro rfl
      obtain rfl := Option.some.inj (waits.symm.trans calls)
      exact taken.2 mine
    exact ⟨k', call, kept other calls, mine⟩
  · intro k' call calls
    obtain ⟨other, calls⟩ := old calls
    have distinct : call.buf ≠ b := fun equal => other (inv.buffers.one calls waits equal)
    exact (update_of_ne distinct ..).trans (inv.buffers.locked calls)
  · intro k' k'' call call' calls calls' equal
    exact inv.buffers.one (old calls).2 (old calls').2 equal
  · intro h
    refine inv.rings.mem_iff.trans ⟨?_, ?_⟩
    · rintro ⟨k', b', req', c', waits', head, waiting⟩
      refine ⟨k', b', req', c', kept ?_ waits', head, waiting⟩
      rintro rfl
      obtain ⟨rfl, -, -⟩ := Call.wait.inj (Option.some.inj (waits.symm.trans waits'))
      rw [done] at waiting
      cases waiting
    · rintro ⟨k', b', req', c', waits', rest⟩
      exact ⟨k', b', req', c', (old waits').2, rest⟩
  · intro r k' b' req' c' among waits'
    exact inv.rings.request among (old waits').2

/-! ## The steps of the handler and of the device -/

/-- Nothing depends on the handler, and on whether the driver goes on. -/
theorem Inv.flags (inv : Inv s) (handler : Bool) (stopped : Option Stop) :
    Inv { s with handler := handler, stopped := stopped } :=
  ⟨⟨inv.chains.formed, inv.chains.apart, inv.chains.owned⟩,
    ⟨inv.buffers.locked, inv.buffers.one⟩,
    ⟨inv.rings.nodup, inv.rings.mem_iff, inv.rings.request⟩⟩

theorem Inv.first_done (inv : Inv s) (more : s.disk.used_idx ≠ s.disk.usedIdx) :
    ∃ k b req c, s.Waits k b req c ∧ s.disk.used (s.disk.used_idx.toNat % NUM) = c.i0 ∧
      (s.disk.info c.i0).b = some b ∧ s.onDisk b = true ∧
      s.done = c.i0 :: s.usedRing.pop.2.contents := by
  have some_ : s.usedRing.used ≠ 0 := fun none => more (s.usedRing.head_eq_tail_iff.mpr none)
  have first := s.usedRing.contents_pop some_
  have among : s.usedRing.pop.1 ∈ s.heads := by
    apply List.mem_append_right
    apply List.mem_append_right
    rw [State.done, first]
    exact List.mem_cons_self ..
  obtain ⟨k, b, req, c, waits, head, waiting⟩ := inv.rings.mem_iff.mp among
  refine ⟨k, b, req, c, waits, head.symm, (inv.chains.formed waits).info, waiting, ?_⟩
  rw [State.done, first, head]

theorem Inv.clear (inv : Inv s)
    (waits : s.Waits k b req c) (first : s.done = c.i0 :: s.usedRing.pop.2.contents) :
    Inv { s with
      onDisk := update s.onDisk b false
      disk := { s.disk with used_idx := s.disk.used_idx + 1 } } := by
  -- One entry leaves the used ring.
  have less : s.heads.Perm (c.i0 :: (s.waiting ++ (s.working ++ s.usedRing.pop.2.contents))) := by
    rw [State.heads, first]
    refine .trans (List.Perm.append_left _ List.perm_middle) ?_
    exact List.perm_middle
  have nodup := List.nodup_cons.mp (less.nodup_iff.mp inv.rings.nodup)
  refine ⟨⟨fun waits' => ?_, inv.chains.apart, inv.chains.owned⟩,
    ⟨inv.buffers.locked, inv.buffers.one⟩, ⟨nodup.2, ?_, inv.rings.request⟩⟩
  · exact (inv.chains.formed waits').congr (fun _ _ => rfl) (inv.chains.formed waits').taken rfl rfl
  · intro h
    have mem : h ∈ s.heads ↔ h = c.i0 ∨ h ∈ s.waiting ++ (s.working ++ s.usedRing.pop.2.contents) :=
      less.mem_iff.trans List.mem_cons
    constructor
    · intro among
      obtain ⟨k', b', req', c', waits', rfl, waiting⟩ := inv.rings.mem_iff.mp (mem.mpr (.inr among))
      refine ⟨k', b', req', c', waits', rfl, (update_of_ne ?_ ..).trans waiting⟩
      rintro rfl
      obtain rfl := inv.buffers.one waits' waits rfl
      obtain ⟨-, -, rfl⟩ := Call.wait.inj (Option.some.inj (waits'.symm.trans waits))
      exact nodup.1 among
    · rintro ⟨k', b', req', c', waits', rfl, waiting⟩
      have distinct : b' ≠ b := by
        rintro rfl
        cases (update_self ..).symm.trans waiting
      have before : s.onDisk b' = true := (update_of_ne distinct ..).symm.trans waiting
      rcases mem.mp (inv.rings.mem_iff.mpr ⟨k', b', req', c', waits', rfl, before⟩) with
        same | among
      · exact absurd (inv.chains.unique waits' waits same).2.1 distinct
      · exact among

theorem Rings.perm (rings : Rings s) {s' : State} (heads : s'.heads.Perm s.heads)
    (calls : s'.calls = s.calls) (onDisk : s'.onDisk = s.onDisk)
    (request : ∀ {r k b req c}, r ∈ s'.inFlight → s.Waits k b req c → c.i0 = r.head →
      r = ⟨c.i0, req, .data b, .status c.i0⟩) : Rings s' where
  nodup := heads.nodup_iff.mpr rings.nodup
  mem_iff := by
    intro h
    rw [heads.mem_iff, rings.mem_iff]
    simp only [State.Waits, calls, onDisk]
  request := by
    intro r k b req c among waits
    rw [State.Waits, calls] at waits
    exact request among waits

theorem Inv.take (inv : Inv s) (more : s.lastAvail ≠ s.disk.availIdx) :
    ∃ k b req c, s.Waits k b req c ∧ s.disk.avail (s.lastAvail.toNat % NUM) = c.i0 ∧
      s.waiting = c.i0 :: s.availRing.pop.2.contents ∧
      Inv { s with
        lastAvail := s.lastAvail + 1
        inFlight := s.inFlight ++ [⟨c.i0, req, .data b, .status c.i0⟩] } := by
  have some_ : s.availRing.used ≠ 0 := fun none => more (s.availRing.head_eq_tail_iff.mpr none)
  have first : s.waiting = _ := s.availRing.contents_pop some_
  have front : s.availRing.pop.1 ∈ s.heads := by
    rw [State.heads, first]
    exact List.mem_cons_self ..
  obtain ⟨k, b, req, c, waits, head, -⟩ := inv.rings.mem_iff.mp front
  rw [← head] at first
  refine ⟨k, b, req, c, waits, head.symm, first, ⟨inv.chains.formed, inv.chains.apart,
    inv.chains.owned⟩, ⟨inv.buffers.locked, inv.buffers.one⟩, inv.rings.perm ?_ rfl rfl ?_⟩
  · have before : s.heads = c.i0 :: (s.availRing.pop.2.contents ++ (s.working ++ s.done)) := by
      rw [State.heads, first, List.cons_append]
    rw [before]
    have after : { s with
        lastAvail := s.lastAvail + 1
        inFlight := s.inFlight ++ [(⟨c.i0, req, .data b, .status c.i0⟩ : Request)] }.heads =
          s.availRing.pop.2.contents ++ (s.working ++ (c.i0 :: s.done)) := by
      simp only [State.heads, State.working, List.map_append, List.append_assoc]
      rfl
    rw [after]
    exact .trans (List.Perm.append_left _ List.perm_middle) List.perm_middle
  · intro r k' b' req' c' among waits' same
    rcases List.mem_append.mp among with old | new
    · exact inv.rings.request old waits' same
    · obtain rfl := List.mem_singleton.mp new
      obtain ⟨-, rfl, rfl, rfl⟩ := inv.chains.unique waits' waits same
      rfl

/-- The state after the device is done with the request at place `n`, whose chain starts at
    `head`. -/
def State.completed (s : State) (n head : Nat) (status : UInt8) : State :=
  { s with
    disk := { s.disk with
      info := update s.disk.info head { s.disk.info head with status := status }
      used := update s.disk.used (s.disk.usedIdx.toNat % NUM) head
      usedIdx := s.disk.usedIdx + 1 }
    inFlight := s.inFlight.eraseIdx n }

theorem Inv.complete (inv : Inv s) {n : Nat} {r : Request} (found : s.inFlight[n]? = some r)
    (status : UInt8) :
    ∃ k b req c, s.Waits k b req c ∧ r = ⟨c.i0, req, .data b, .status c.i0⟩ ∧
      s.working.Perm (c.i0 :: (s.completed n c.i0 status).working) ∧
      (s.completed n c.i0 status).done = s.done ++ [c.i0] ∧ Inv (s.completed n c.i0 status) := by
  have among : r ∈ s.inFlight := List.mem_of_getElem? found
  have head : r.head ∈ s.heads :=
    List.mem_append_right _ (List.mem_append_left _ (List.mem_map_of_mem among))
  obtain ⟨k, b, req, c, waits, same, -⟩ := inv.rings.mem_iff.mp head
  have equal := inv.rings.request among waits same
  obtain ⟨inside, at_⟩ := List.getElem?_eq_some_iff.mp found
  have moved : s.working.Perm (c.i0 :: (s.inFlight.eraseIdx n).map Request.head) := by
    have perm := (List.getElem_cons_eraseIdx_perm inside).symm.map Request.head
    rw [List.map_cons, at_, ← same] at perm
    exact perm
  have room : s.usedRing.used < NUM := by
    have all := inv.length_le
    have some_ : 0 < s.working.length := by
      rw [moved.length_eq]
      exact Nat.succ_pos _
    rw [State.heads, List.length_append, List.length_append] at all
    have done : s.done.length = s.usedRing.used := s.usedRing.length_contents
    omega
  have pushed : (s.completed n c.i0 status).done = s.done ++ [c.i0] :=
    s.usedRing.contents_push divides small room c.i0
  refine ⟨k, b, req, c, waits, equal, moved, pushed,
    ⟨fun waits' => ?_, inv.chains.apart, inv.chains.owned⟩,
    ⟨inv.buffers.locked, inv.buffers.one⟩, inv.rings.perm ?_ rfl rfl
    fun old => inv.rings.request (List.mem_of_mem_eraseIdx old)⟩
  · rename_i c'
    have formed := inv.chains.formed waits'
    refine formed.congr (fun _ _ => rfl) formed.taken rfl ?_
    by_cases here : c'.i0 = c.i0
    · simp [State.completed, here]
    · simp [State.completed, here]
  · rw [State.heads, pushed, State.heads]
    refine List.Perm.append_left _ ?_
    refine .trans ?_ (moved.symm.append_right s.done)
    rw [← List.append_assoc, List.cons_append]
    exact List.perm_append_singleton ..

end Xv6.Kernel.Virtio
