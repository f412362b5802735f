import Xv6.Kernel.ItableInv

/-! # The table of inodes in every run

Each function keeps the invariant, and `iput` frees no inode that someone else has locked
through a pointer since it got it.
-/

namespace Xv6.Kernel.Itable

open Lib Function

variable {p q : Pid} {x y : Ptr} {i j : Fin NINODE} {c : Pc} {s s' : State}
variable {dev inum : Nat} {d : Dinode} {o : Obs}

/-! ## The functions -/

theorem Inv.panic {msg : String} (inv : Inv s) (taken : s.panic msg = (s', o)) : Inv s' := by
  cases taken
  exact ⟨inv.pointers, inv.locks, inv.once, inv.logged⟩

theorem Inv.add (inv : Inv s) (used : 0 < (s.table y.entry).ref) (owned : y.owner ≠ none)
    (fresh : y.seen → ∀ p x, (s.pc p).dying = some x → y.entry ≠ x.entry) :
    Inv ((s.alter y.entry fun ip => { ip with ref := ip.ref + 1 }).point (y :: s.ptrs)) := by
  have key : { s.table y.entry with ref := (s.table y.entry).ref + 1 }.key =
      (s.table y.entry).key := by
    simp [Inode.key, used]
  apply Inv.of_alter rfl
  · exact inv.pointers.add owned fresh
  · exact inv.locks.same rfl
  · exact inv.once.same key
  · exact (inv.logged.alter_same key rfl rfl).point

theorem igetLoop_found {l : List (Fin NINODE)} {empty : Option (Fin NINODE)}
    {table : Fin NINODE → Inode} (got : igetLoop table dev inum l empty = .found i) :
    (table i).key = some (dev, inum) := by
  induction l generalizing empty with
  | nil => cases empty <;> cases got
  | cons j l ih =>
    rw [igetLoop] at got
    split at got
    next hit =>
      cases got
      simp [Inode.key, hit]
    next => exact ih got

theorem igetLoop_recycle {l : List (Fin NINODE)} {empty : Option (Fin NINODE)}
    {table : Fin NINODE → Inode} (got : igetLoop table dev inum l empty = .recycle i)
    (sure : ∀ j, empty = some j → (table j).ref = 0) :
    (table i).ref = 0 ∧ ∀ j ∈ l, (table j).key ≠ some (dev, inum) := by
  induction l generalizing empty with
  | nil =>
    cases empty with
    | none => cases got
    | some j =>
      cases got
      exact ⟨sure i rfl, by simp⟩
  | cons j l ih =>
    rw [igetLoop] at got
    split at got
    next => cases got
    next miss =>
      obtain ⟨free, others⟩ := ih got (by
        intro k there
        split at there
        next new =>
          cases there
          exact new.2
        next => exact sure k there)
      refine ⟨free, ?_⟩
      intro k among
      rcases List.mem_cons.mp among with rfl | among
      · rw [Ne, Inode.key_eq_some, Prod.mk.injEq]
        exact miss
      · exact others k among

theorem Inv.iget (inv : Inv s) (taken : iget s p dev inum = (s', o)) : Inv s' := by
  rw [Itable.iget] at taken
  split at taken
  next i got =>
    cases taken
    have used := (Inode.key_eq_some.mp (igetLoop_found got)).1
    exact inv.add (y := ⟨i, some p, false⟩) used (by simp) (by simp)
  next i got =>
    obtain ⟨rfl, -⟩ := Prod.mk.inj taken
    obtain ⟨free, others⟩ := igetLoop_recycle got (by simp)
    apply Inv.of_alter rfl
    · have added := inv.pointers.add (y := ⟨i, some p, false⟩) (by simp) (by simp)
      rwa [show (s.table i).ref + 1 = 1 by rw [free]] at added
    · exact inv.locks.same rfl
    · exact inv.once.recycle fun j => others j (List.mem_finRange j)
    · exact (inv.logged.alter (by simp)).point
  next => exact inv.panic taken

theorem Inv.idup (inv : Inv s) (idle : s.pc p = .idle) (reach : Reaches s p x)
    (taken : idup s p x = (s', o)) : Inv s' := by
  cases taken
  have used := inv.pointers.ref_pos reach.1
  have alive : x.seen → ∀ q z, (s.pc q).dying = some z → x.entry ≠ z.entry :=
    fun seen _ _ dies => inv.pointers.not_dying idle reach.1 reach.2 seen dies
  exact inv.add (y := { x with owner := some p }) used (by simp) alive

/-- A process that calls a function leaves no inode half freed. -/
theorem not_invalidate (idle : s.pc p = .idle) (x : Ptr) (freed : s.pc p = .invalidate x) :
    False := by
  rw [idle] at freed
  cases freed

theorem Inv.ilock (inv : Inv s) (idle : s.pc p = .idle) (reach : Reaches s p x)
    (taken : ilock s p x = some (s', o)) : Inv s' := by
  rw [Itable.ilock] at taken
  split at taken
  next => exact inv.panic (Option.some.inj taken)
  next =>
    split at taken
    next free =>
      cases taken
      apply Inv.of_alter rfl
      · apply (inv.pointers.same rfl).goto (by simp [Pc.putting]) (by simp [Pc.dying])
        rintro y ⟨⟩
        exact reach.2
      · apply (inv.locks.acquire free).goto
        rintro y ⟨⟩
        exact ⟨update_self .., inv.locks.clean _ free⟩
      · exact inv.once.same rfl
      · exact (inv.logged.alter_same rfl rfl rfl).goto fun y there =>
          (not_invalidate idle y there).elim
    next => cases taken

/-- Only the process itself is in the middle of the entry that it has locked. -/
theorem Inv.mine_only (inv : Inv s) (here : (s.pc p).held = some x) (there : (s.pc q).held = some y)
    (same : x.entry = y.entry) : p = q := by
  have left := (inv.locks.held p x here).1
  rw [same, (inv.locks.held q y there).1, Option.some.injEq] at left
  exact left.symm

theorem Inv.load (inv : Inv s) (there : s.pc p = .ilock x) (taken : load s p x = (s', o)) :
    Sound s' := by
  have held : (s.pc p).held = some x := by rw [there]; rfl
  have alive : ∀ q z, (s.pc q).dying = some z → x.entry ≠ z.entry := by
    intro q z dies same
    obtain rfl := inv.mine_only held (Pc.held_of_dying dies) same
    rw [there] at dies
    cases dies
  have unused : ∀ q z, (s.pc q).putting = some z → x ≠ z := by
    rintro q z puts rfl
    have owner := (inv.pointers.owned q x puts).2
    rcases inv.pointers.mine p x there with mine | kept
    · rw [owner, Option.some.injEq] at mine
      rw [mine, there] at puts
      cases puts
    · rw [owner] at kept
      cases kept
  have seen := inv.pointers.see alive unused
  have pointed : AllLogged (s.point (s.ptrs.map fun y =>
      if y = x then { y with seen := true } else y)) := inv.logged.point
  have settled := pointed.goto (p := p) (c := .idle) (by simp [State.point, there])
  rw [Itable.load] at taken
  split at taken
  next =>
    cases taken
    exact Inv.sound
      ⟨seen.goto_outside rfl rfl, inv.locks.goto (by simp [Pc.held]), inv.once, settled⟩
  next =>
    split at taken
    next =>
      cases taken
      have locked := (inv.locks.held p x held).1
      have filled := inv.coherent.fill (d := s.disk (s.table x.entry).dev (s.table x.entry).inum)
        (b := true) (by rw [locked]; simp)
      exact ⟨⟨filled.once, filled.counted, filled.logged⟩, nofun⟩
    next typed =>
      obtain ⟨rfl, -⟩ := Prod.mk.inj taken
      apply Inv.sound
      apply Inv.of_alter rfl
      · exact (seen.goto_outside rfl rfl).same rfl
      · exact (inv.locks.goto (by simp [Pc.held])).same rfl
      · exact inv.once.same rfl
      · apply settled.alter
        intro dev inum key _ _
        obtain ⟨_, same⟩ := Inode.key_eq_some.mp key
        cases same
        exact ⟨typed, typed, fun _ => rfl⟩

theorem Inv.iunlock (inv : Inv s) (idle : s.pc p = .idle) (clean : s.dirty x.entry = false)
    (taken : iunlock s p x = (s', o)) : Inv s' := by
  rw [Itable.iunlock] at taken
  split at taken
  next => exact inv.panic taken
  next fine =>
    cases taken
    have locked : (s.table x.entry).lock = some p := not_not.mp fun other => fine (.inl other)
    apply Inv.of_alter rfl
    · exact inv.pointers.same rfl
    · exact inv.locks.release clean (inv.locks.unused idle locked)
    · exact inv.once.same rfl
    · exact inv.logged.alter_same rfl rfl rfl

theorem Inv.change (inv : Inv s) (idle : s.pc p = .idle) (locked : (s.table x.entry).lock = some p)
    (typed : d.type ≠ 0) :
    Inv ((s.alter x.entry fun ip => { ip with data := d }).mark x.entry true) := by
  apply Inv.of_alter rfl
  · exact inv.pointers.same rfl
  · apply (inv.locks.changed (i := x.entry) (by simp [locked]) (inv.locks.unused idle locked)).same
    rfl
  · exact inv.once.same rfl
  · intro j dev inum key valid settled
    by_cases same : j = x.entry
    · subst same
      have old :=
        inv.logged x.entry dev inum (by simpa [State.alter, State.mark, Inode.key] using key)
        (by simpa [State.alter, State.mark] using valid) settled
      refine ⟨?_, old.2.1, ?_⟩
      · simpa [State.alter, State.mark] using typed
      · simp [State.alter, State.mark]
    · have old := inv.logged j dev inum (by simpa [State.alter, State.mark, same] using key)
        (by simpa [State.alter, State.mark, same] using valid) settled
      simpa [State.alter, State.mark, same] using old

/-- `iupdate` brings the disk up to date with one entry; no other entry is for that inode. -/
theorem AllLogged.iupdate (once : Once fun i => (s.table i).key) (used : 0 < (s.table i).ref)
    (others : ∀ j, j ≠ i → LoggedAt s j)
    (typed : (s.table i).valid → ¬ Freed s.pc i → (s.table i).data.type ≠ 0) :
    AllLogged (iupdate s i) := by
  intro j dev inum key valid settled
  by_cases same : j = i
  · subst same
    obtain ⟨_, named⟩ := Inode.key_eq_some.mp key
    cases named
    have fine := typed valid settled
    refine ⟨fine, ?_, ?_⟩
    · simpa [Itable.iupdate, State.write, State.mark] using fine
    · simp [Itable.iupdate, State.write, State.mark]
  · have old := others j same dev inum key valid settled
    have apart : (dev, inum) ≠ ((s.table i).dev, (s.table i).inum) := by
      intro named
      exact same (once j i _ key (Inode.key_eq_some.mpr ⟨used, named.symm⟩))
    have disk : (Itable.iupdate s i).disk dev inum = s.disk dev inum := by
      by_cases device : dev = (s.table i).dev
      · have other : inum ≠ (s.table i).inum := fun number => apart (by rw [device, number])
        simp [Itable.iupdate, State.write, State.mark, device, other]
      · simp [Itable.iupdate, State.write, State.mark, device]
    have dirty : (Itable.iupdate s i).dirty j = s.dirty j := by
      simp [Itable.iupdate, State.write, State.mark, same]
    rw [disk, dirty]
    exact old

theorem Inv.iupdate (inv : Inv s) (reach : x ∈ s.ptrs) : Inv (iupdate s x.entry) := by
  have used := inv.pointers.ref_pos reach
  refine ⟨inv.pointers, inv.locks.written, inv.once, AllLogged.iupdate inv.once used ?_ ?_⟩
  · exact fun j _ => inv.logged j
  · intro valid settled
    exact (inv.logged x.entry _ _ (Inode.key_eq_some.mpr ⟨used, rfl⟩) valid settled).1

/-- The pointer that a process is about to drop is no one else's. -/
theorem Inv.others_putting (inv : Inv s) (mine : x.owner = some p) (other : q ≠ p)
    (puts : (s.pc q).putting = some y) : x ≠ y := by
  rintro rfl
  have owner := (inv.pointers.owned q x puts).2
  rw [mine, Option.some.injEq] at owner
  exact other owner.symm

/-- One pointer less, and the process is in no function. -/
theorem Inv.drop (inv : Inv s) (points : x ∈ s.ptrs) (mine : x.owner = some p)
    (settled : ∀ y, s.pc p ≠ .invalidate y) : Inv ((drop s x).goto p .idle) := by
  have key : ∀ k, { s.table x.entry with ref := (s.table x.entry).ref - 1 }.key = some k →
      (s.table x.entry).key = some k := by
    intro k used
    rw [Inode.key_eq_some] at used ⊢
    exact ⟨Nat.lt_of_lt_of_le used.1 (Nat.sub_le _ _), used.2⟩
  apply Inv.of_alter rfl
  · apply (inv.pointers.goto_outside (p := p) (c := .idle) rfl rfl).erase points
    intro q y puts
    by_cases same : q = p
    · rw [same, update_self] at puts
      cases puts
    · rw [update_of_ne same] at puts
      exact inv.others_putting mine same puts
  · exact (inv.locks.goto (by simp [Pc.held])).same rfl
  · by_cases last : { s.table x.entry with ref := (s.table x.entry).ref - 1 }.key = none
    · rw [last]
      exact inv.once.forget
    · obtain ⟨k, named⟩ := Option.ne_none_iff_exists'.mp last
      exact inv.once.same (named.trans (key k named).symm)
  · refine AllLogged.goto (AllLogged.point (AllLogged.alter inv.logged ?_)) ?_
    · intro dev inum named
      exact inv.logged x.entry dev inum (key _ named)
    · exact fun y there => absurd there (settled y)

/-- A process that has not freed its inode on disk goes on: the others are where they were. -/
theorem Freed.goto (freed : Freed s.pc i) (settled : ∀ y, s.pc p ≠ .invalidate y) :
    Freed (s.goto p c).pc i := by
  obtain ⟨q, y, there, onto⟩ := freed
  have other : q ≠ p := by
    rintro rfl
    exact settled y there
  exact ⟨q, y, by simpa [State.goto, other] using there, onto⟩

section

variable (inv : Inv s)
include inv

/-- Both times that `iput` changes the fields of the inode that it frees, it calls
    `iupdate`; the inode goes out of use with the second. -/
theorem Inv.rewrite {g : Dinode → Dinode} (dies : (s.pc p).dying = some x)
    (dies' : c.dying = some x) (settled : ∀ y, s.pc p ≠ .invalidate y)
    (typed : c ≠ .invalidate x → ∀ d, d.type ≠ 0 → (g d).type ≠ 0) :
    Inv ((Itable.iupdate (s.alter x.entry fun ip => { ip with data := g ip.data }) x.entry).goto
      p c) := by
  obtain ⟨points, mine⟩ := inv.pointers.owned p x (Pc.putting_of_dying dies)
  obtain ⟨locked, clean⟩ := inv.locks.held p x (Pc.held_of_dying dies)
  have used := inv.pointers.ref_pos points
  apply Inv.of_alter rfl
  · apply (inv.pointers.same rfl).goto
    · intro y puts
      rw [Pc.putting_of_dying dies', Option.some.injEq] at puts
      exact puts ▸ ⟨points, mine⟩
    · intro y there
      rw [dies', Option.some.injEq] at there
      exact there ▸ inv.pointers.alone p x dies
    · rintro y rfl
      cases dies'
  · apply (inv.locks.written.same rfl).goto
    intro y holds
    rw [Pc.held_of_dying dies', Option.some.injEq] at holds
    subst holds
    exact ⟨(update_self ..).trans locked, update_self ..⟩
  · exact inv.once.same rfl
  · apply AllLogged.iupdate
      (s := (s.alter x.entry fun ip => { ip with data := g ip.data }).goto p c)
    · have view := Function.comp_update Inode.key s.table x.entry
        { s.table x.entry with data := g (s.table x.entry).data }
      exact (congrArg Once view).mpr (inv.once.same rfl)
    · simpa [State.alter, State.goto] using used
    · intro j other
      have rest := (inv.logged.goto (p := p) (c := c) fun y there => absurd there (settled y)) j
      simpa [LoggedAt, State.alter, State.goto, other] using rest
    · intro valid alive
      have before : ¬ Freed s.pc x.entry := fun freed => alive (freed.goto settled)
      have fine := inv.logged x.entry _ _ (Inode.key_eq_some.mpr ⟨used, rfl⟩)
        (by simpa [State.alter, State.goto] using valid) before
      have inUse : c ≠ .invalidate x := by
        rintro rfl
        exact alive ⟨p, x, update_self .., rfl⟩
      simpa [State.alter, State.goto] using typed inUse _ fine.1

theorem Inv.invalidate (there : s.pc p = .invalidate x) :
    Inv
      ((s.alter x.entry fun ip => { ip with valid := false, lock := none }).goto p (.drop x)) := by
  have held : (s.pc p).held = some x := by rw [there]; rfl
  apply Inv.of_alter rfl
  · apply (inv.pointers.same rfl).goto
    · rintro y ⟨⟩
      exact inv.pointers.owned p x (by rw [there]; rfl)
    · simp [Pc.dying]
    · simp
  · apply (inv.locks.goto (p := p) (c := .drop x) (by simp [Pc.held])).release
    · exact (inv.locks.held p x held).2
    · intro q y holds same
      by_cases other : q = p
      · rw [other, update_self] at holds
        cases holds
      · rw [update_of_ne other] at holds
        exact other (inv.mine_only holds held same)
  · exact inv.once.same rfl
  · apply (inv.logged.alter (by simp)).goto
    intro y at'
    have same : x = y := Pc.invalidate.inj (there.symm.trans at')
    subst same
    simp [State.alter]

theorem Inv.iput (idle : s.pc p = .idle) (points : x ∈ s.ptrs) (mine : x.owner = some p)
    (taken : iput s p x = (s', o)) : Inv s' := by
  rw [Itable.iput] at taken
  split at taken
  next last =>
    split at taken
    next free =>
      cases taken
      -- the only pointer to the entry is the one that is put
      have only : ∀ y ∈ s.ptrs, y.entry = x.entry → y.owner = some p := by
        intro y there same
        have one := (inv.pointers.counted x.entry).symm.trans last.1
        have rest := (List.perm_cons_erase points).countP_eq (·.entry = x.entry)
        rw [one, List.countP_cons] at rest
        by_cases equal : y = x
        · exact equal ▸ mine
        · have more : 0 < (s.ptrs.erase x).countP (·.entry = x.entry) :=
            List.countP_pos_iff.mpr ⟨y, (List.mem_erase_of_ne equal).mpr there, by simpa using same⟩
          simp only [decide_true, if_true] at rest
          omega
      apply Inv.of_alter rfl
      · apply (inv.pointers.same rfl).goto
        · rintro y ⟨⟩
          exact ⟨points, mine⟩
        · rintro y ⟨⟩ z there same _
          exact only z there same
        · simp
      · apply (inv.locks.acquire free).goto
        rintro y ⟨⟩
        exact ⟨update_self .., inv.locks.clean _ free⟩
      · exact inv.once.same rfl
      · exact (inv.logged.alter_same rfl rfl rfl).goto fun y there =>
          (not_invalidate idle y there).elim
    next => exact inv.panic taken
  next =>
    cases taken
    have dropped := inv.drop points mine fun y there => not_invalidate idle y there
    rwa [State.goto, show update (Itable.drop s x).pc p .idle = (Itable.drop s x).pc by
      rw [show Pc.idle = (Itable.drop s x).pc p from idle.symm, update_eq_self]] at dropped

/-- A pointer goes from a process to a file or a directory, or back. -/
theorem Inv.swap {owner : Option Pid} (idle : s.pc p = .idle) (reach : Reaches s p x)
    (seen : x.seen) : Inv (s.point ({ x with owner } :: s.ptrs.erase x)) := by
  have unused : ∀ q z, (s.pc q).putting = some z → x ≠ z := by
    rintro q z puts rfl
    have theirs := (inv.pointers.owned q x puts).2
    rcases reach.2 with mine | kept
    · rw [theirs, Option.some.injEq] at mine
      rw [mine, idle] at puts
      cases puts
    · rw [theirs] at kept
      cases kept
  exact ⟨inv.pointers.swap reach.1 rfl (fun _ => seen)
      (fun q z dies => inv.pointers.not_dying idle reach.1 reach.2 seen dies) unused,
    inv.locks, inv.once, inv.logged⟩

theorem Inv.call {act : Act} (idle : s.pc p = .idle) (taken : call s p act = some (s', o)) :
    Inv s' := by
  cases act with
  | iget dev inum => exact inv.iget (Option.some.inj taken)
  | idup x =>
    obtain ⟨reach, taken⟩ := Option.ite_none_right_eq_some.mp taken
    exact inv.idup idle reach (Option.some.inj taken)
  | ilock x =>
    obtain ⟨reach, taken⟩ := Option.ite_none_right_eq_some.mp taken
    exact inv.ilock idle reach taken
  | iunlock x =>
    obtain ⟨⟨reach, clean⟩, taken⟩ := Option.ite_none_right_eq_some.mp taken
    exact inv.iunlock idle clean (Option.some.inj taken)
  | iput x =>
    obtain ⟨⟨points, mine⟩, taken⟩ := Option.ite_none_right_eq_some.mp taken
    exact inv.iput idle points mine (Option.some.inj taken)
  | ialloc dev type =>
    cases taken
    exact ⟨inv.pointers.goto_outside rfl rfl, inv.locks.goto (by simp [Pc.held]), inv.once,
      inv.logged.goto fun y there => (not_invalidate idle y there).elim⟩
  | change x data =>
    obtain ⟨⟨_, locked, typed⟩, taken⟩ := Option.ite_none_right_eq_some.mp taken
    obtain ⟨rfl, -⟩ := Prod.mk.inj (Option.some.inj taken)
    exact inv.change idle locked typed
  | iupdate x =>
    obtain ⟨⟨reach, _⟩, taken⟩ := Option.ite_none_right_eq_some.mp taken
    cases taken
    exact inv.iupdate reach.1
  | keep x =>
    obtain ⟨⟨points, mine, seen⟩, taken⟩ := Option.ite_none_right_eq_some.mp taken
    obtain ⟨rfl, -⟩ := Prod.mk.inj (Option.some.inj taken)
    exact inv.swap idle ⟨points, .inl mine⟩ seen
  | take x =>
    obtain ⟨⟨points, kept⟩, taken⟩ := Option.ite_none_right_eq_some.mp taken
    cases taken
    exact inv.swap idle ⟨points, .inr kept⟩ (inv.pointers.kept x points kept)
  | turn => cases taken

/-- `ialloc` reads the inodes one by one, and takes one that no entry can be valid for. -/
theorem Inv.scan {ninodes : Nat} {type : BitVec 16} (there : s.pc p = .ialloc dev type inum)
    (taken : turn ninodes s p = some (s', o)) : Inv s' := by
  have outside : ∀ {next : Pc}, next.putting = none → next.held = none → Inv (s.goto p next) :=
    fun put held => ⟨inv.pointers.goto_outside put held, inv.locks.goto (by simp [held]), inv.once,
      inv.logged.goto (by simp [there])⟩
  simp only [turn, there] at taken
  split at taken
  next =>
    split at taken
    next unused =>
      cases taken
      have moved : Inv (s.goto p (.marked dev inum)) := outside rfl rfl
      refine ⟨moved.pointers, moved.locks, moved.once, moved.logged.write ?_⟩
      intro i key valid settled
      exact absurd unused (moved.logged i dev inum key valid settled).2.1
    next =>
      obtain ⟨rfl, -⟩ := Prod.mk.inj (Option.some.inj taken)
      exact outside rfl rfl
  next =>
    cases taken
    exact outside rfl rfl

theorem Inv.turn {ninodes : Nat} (taken : turn ninodes s p = some (s', o)) :
    Sound s' := by
  cases there : s.pc p with
  | idle => simp [Itable.turn, there] at taken
  | ialloc dev type inum => exact (inv.scan there taken).sound
  | ilock x =>
    simp only [Itable.turn, there] at taken
    exact inv.load there (Option.some.inj taken)
  | marked dev inum =>
    simp only [Itable.turn, there] at taken
    have moved : Inv (s.goto p .idle) := ⟨inv.pointers.goto_outside rfl rfl,
      inv.locks.goto (by simp [Pc.held]), inv.once, inv.logged.goto (by simp [there])⟩
    exact (moved.iget (Option.some.inj taken)).sound
  | itrunc x =>
    simp only [Itable.turn, there] at taken
    cases taken
    have next := inv.rewrite (g := truncate) (c := .free x) (by rw [there]; rfl) rfl
      (by simp [there]) fun _ d typed => typed
    exact next.sound
  | free x =>
    simp only [Itable.turn, there] at taken
    obtain ⟨rfl, -⟩ := Prod.mk.inj (Option.some.inj taken)
    have next := inv.rewrite (g := clear) (c := .invalidate x) (by rw [there]; rfl) rfl
      (by simp [there]) fun inUse _ _ => absurd rfl inUse
    exact next.sound
  | invalidate x =>
    simp only [Itable.turn, there] at taken
    cases taken
    exact (inv.invalidate there).sound
  | drop x =>
    simp only [Itable.turn, there] at taken
    obtain ⟨rfl, -⟩ := Prod.mk.inj (Option.some.inj taken)
    obtain ⟨points, mine⟩ := inv.pointers.owned p x (by rw [there]; rfl)
    exact (inv.drop points mine (by simp [there])).sound

/-- `iput` frees an inode that no file and no directory holds. -/
theorem Inv.not_kept (dies : (s.pc p).dying = some x) (points : y ∈ s.ptrs)
    (kept : y.owner = none) :
    ¬ ((s.table y.entry).dev = (s.table x.entry).dev ∧
      (s.table y.entry).inum = (s.table x.entry).inum) := by
  rintro ⟨dev, inum⟩
  obtain ⟨there, _⟩ := inv.pointers.owned p x (Pc.putting_of_dying dies)
  have same := inv.coherent.once _ _ (inv.pointers.ref_pos points) (inv.pointers.ref_pos there)
    dev inum
  have owner := inv.pointers.alone p x dies y points same (inv.pointers.kept y points kept)
  rw [kept] at owner
  cases owner

end

/-! ## Runs -/

variable {ninodes : Nat} {disk : Nat → Nat → Dinode} {tr : List (Event × Obs)} {e : Event}

/-- A step is a call of an idle process, or another step of a function. -/
theorem step_cases (taken : step ninodes s e = some (s', o)) :
    s.panicked = false ∧ ((s.pc e.1 = .idle ∧ call s e.1 e.2 = some (s', o)) ∨
      turn ninodes s e.1 = some (s', o)) := by
  rw [step] at taken
  split at taken
  next => cases taken
  next running =>
    refine ⟨by simpa using running, ?_⟩
    split at taken
    next idle => exact .inl ⟨idle, taken⟩
    next =>
      split at taken
      next => exact .inr taken
      next => cases taken

theorem Sound.step (sound : Sound s) (taken : step ninodes s e = some (s', o)) : Sound s' := by
  obtain ⟨running, ⟨idle, called⟩ | turned⟩ := step_cases taken
  · exact ((sound.2 running).call idle called).sound
  · exact (sound.2 running).turn turned

/-- Whether a step truncates or frees an inode. -/
def Obs.frees : Obs → Bool
  | .truncated .. | .freed .. => true
  | _ => false

theorem iget_quiet (taken : iget s p dev inum = (s', o)) : o.frees = false := by
  rw [iget] at taken
  split at taken <;>
    obtain ⟨-, rfl⟩ := Prod.mk.inj taken <;> rfl

theorem load_quiet (taken : load s p x = (s', o)) : o.frees = false := by
  rw [load] at taken
  split at taken
  · cases taken
    rfl
  · split at taken <;>
      obtain ⟨-, rfl⟩ := Prod.mk.inj taken <;> rfl

theorem ilock_quiet (taken : ilock s p x = some (s', o)) : o.frees = false := by
  rw [ilock] at taken
  split at taken
  · cases taken
    rfl
  · obtain ⟨_, taken⟩ := Option.ite_none_right_eq_some.mp taken
    cases taken
    rfl

theorem iunlock_quiet (taken : iunlock s p x = (s', o)) : o.frees = false := by
  rw [iunlock] at taken
  split at taken <;>
    obtain ⟨-, rfl⟩ := Prod.mk.inj taken <;> rfl

theorem iput_quiet (taken : iput s p x = (s', o)) : o.frees = false := by
  rw [iput] at taken
  split at taken
  · split at taken <;>
      obtain ⟨-, rfl⟩ := Prod.mk.inj taken <;> rfl
  · cases taken
    rfl

theorem call_quiet {act : Act} (taken : call s p act = some (s', o)) : o.frees = false := by
  cases act with
  | iget dev inum => exact iget_quiet (Option.some.inj taken)
  | ialloc dev type =>
    cases taken
    rfl
  | ilock x => exact ilock_quiet (Option.ite_none_right_eq_some.mp taken).2
  | iunlock x => exact iunlock_quiet (Option.some.inj (Option.ite_none_right_eq_some.mp taken).2)
  | iput x => exact iput_quiet (Option.some.inj (Option.ite_none_right_eq_some.mp taken).2)
  | turn => cases taken
  | idup x | change x data | iupdate x | keep x | take x =>
    obtain ⟨-, rfl⟩ := Prod.mk.inj (Option.some.inj (Option.ite_none_right_eq_some.mp taken).2)
    rfl

/-- Only `iput` truncates and frees, with the entry locked. -/
theorem turn_frees (taken : turn ninodes s p = some (s', o)) (frees : o.frees = true) :
    ∃ x, (s.pc p).dying = some x ∧
      (o = .truncated (s.table x.entry).dev (s.table x.entry).inum ∨
        o = .freed (s.table x.entry).dev (s.table x.entry).inum) := by
  cases there : s.pc p with
  | idle => simp [turn, there] at taken
  | itrunc x =>
    simp only [turn, there] at taken
    cases taken
    exact ⟨x, rfl, .inl rfl⟩
  | free x =>
    simp only [turn, there] at taken
    obtain ⟨-, rfl⟩ := Prod.mk.inj (Option.some.inj taken)
    exact ⟨x, rfl, .inr rfl⟩
  | ilock x =>
    simp only [turn, there] at taken
    rw [load_quiet (Option.some.inj taken)] at frees
    cases frees
  | marked dev inum =>
    simp only [turn, there] at taken
    rw [iget_quiet (Option.some.inj taken)] at frees
    cases frees
  | invalidate x | drop x =>
    simp only [turn, there] at taken
    cases taken
    cases frees
  | ialloc dev type inum =>
    simp only [turn, there] at taken
    split at taken
    · split at taken <;>
        obtain ⟨-, rfl⟩ := Prod.mk.inj (Option.some.inj taken) <;> cases frees
    · cases taken
      cases frees

theorem Inv.spares (inv : Inv s) (taken : step ninodes s e = some (s', o)) : Spares s o := by
  intro dev inum frees y points kept
  have shown : o.frees = true := by
    rcases frees with rfl | rfl <;> rfl
  obtain ⟨-, ⟨_, called⟩ | turned⟩ := step_cases taken
  · rw [call_quiet called] at shown
    cases shown
  · obtain ⟨x, dies, what⟩ := turn_frees turned shown
    have named : dev = (s.table x.entry).dev ∧ inum = (s.table x.entry).inum := by
      rcases frees with rfl | rfl <;> simpa using what
    rw [named.1, named.2]
    exact inv.not_kept dies points kept

theorem start_inv (disk : Nat → Nat → Dinode) : Inv (start disk) where
  pointers :=
    { counted := by
        intro i
        by_cases root : i.val = 0
        · have same : (⟨0, by decide⟩ : Fin NINODE) = i := Fin.ext root.symm
          simp [start, root, same]
        · have other : (⟨0, by decide⟩ : Fin NINODE) ≠ i := fun same => root (same ▸ rfl)
          simp [start, root, other]
      kept := by simp [start]
      owned := by simp [start, Pc.putting]
      alone := by simp [start, Pc.dying]
      mine := by simp [start] }
  locks :=
    { held := by simp [start, Pc.held]
      clean := by simp [start] }
  once := by
    have root : ∀ i k, ((start disk).table i).key = some k → i.val = 0 := by
      intro i k used
      by_contra other
      simp [start, other, Inode.key] at used
    intro i j k usedI usedJ
    exact Fin.ext ((root i k usedI).trans (root j k usedJ).symm)
  logged := by
    intro i dev inum _ valid
    simp only [start] at valid
    split at valid <;> cases valid

/-- In every run, at most one entry is in use for an inode, `ref` counts the pointers, an
    unlocked valid inode is the one last logged, and no step truncates or frees an inode that
    an open file or a current directory holds. -/
theorem itable_coherent (run : (machine ninodes).Run (start disk) tr s) :
    Coherent s ∧ ∀ pre t e o, pre ++ [(e, o)] <+: tr → (machine ninodes).Run (start disk) pre t →
      Spares t o := by
  have reached : ∀ {pre t}, (machine ninodes).Run (start disk) pre t → Sound t := fun earlier =>
    earlier.always_invariant (fun _ t => Sound t) (start_inv disk).sound
      fun _ _ _ _ _ _ sound taken => sound.step taken
  refine ⟨(reached run).1, ?_⟩
  intro pre t e o inside earlier
  obtain ⟨u, taken, _⟩ := run.step_of_prefix earlier inside
  exact ((reached earlier).2 (step_cases taken).1).spares taken

/-- Inode 2 is a file with one link. -/
def oneFile : Nat → Nat → Dinode := fun _ inum =>
  if inum = 1 then { Dinode.zero with type := 1, nlink := 1 }
  else if inum = 2 then { Dinode.zero with type := 2, nlink := 1 }
  else .zero

/-- Process 1 opens the file, process 2 unlinks it, process 1 closes it, and process 3
    creates a file in the middle of `iput`: it is given the same inode and the same entry. -/
def unlinkread : List Event :=
  let e : Fin NINODE := ⟨1, by decide⟩
  [(1, .iget 1 2), (1, .ilock ⟨e, some 1, false⟩), (1, .turn), (1, .iunlock ⟨e, some 1, true⟩),
    (1, .keep ⟨e, some 1, true⟩),
    (2, .iget 1 2), (2, .ilock ⟨e, some 2, false⟩), (2, .turn),
    (2, .change ⟨e, some 2, true⟩ { Dinode.zero with type := 2 }), (2, .iupdate ⟨e, some 2, true⟩),
    (2, .iunlock ⟨e, some 2, true⟩), (2, .iput ⟨e, some 2, true⟩),
    (1, .take ⟨e, none, true⟩), (1, .iput ⟨e, some 1, true⟩), (1, .turn), (1, .turn),
    (3, .ialloc 1 2), (3, .turn), (3, .turn), (3, .turn),
    (1, .turn), (1, .turn), (3, .ilock ⟨e, some 3, false⟩), (3, .turn)]

def unlinkreadObs : List Obs :=
  let e : Fin NINODE := ⟨1, by decide⟩
  [.pointer e, .done, .done, .done, .done, .pointer e, .done, .done, .done, .done, .done, .done,
    .done, .done, .truncated 1 2, .freed 1 2, .done, .done, .allocated 1 2, .pointer e, .done,
    .done, .done, .done]

theorem itable_coherent_unlinkread :
    ∃ s, (machine 3).Run (start oneFile) (unlinkread.zip unlinkreadObs) s ∧
      s.panicked = false ∧ Coherent s ∧
      ∀ pre t e o, pre ++ [(e, o)] <+: unlinkread.zip unlinkreadObs →
        (machine 3).Run (start oneFile) pre t → Spares t o := by
  have ran : ((machine 3).exec (start oneFile) unlinkread).map
      (fun r => (r.1.map Prod.snd, r.2.panicked)) = some (unlinkreadObs, false) := by
    decide +kernel
  obtain ⟨s, run, running⟩ := Lib.Machine.run_of_obs (fun s : State => s.panicked) ran
  exact ⟨s, run, running, itable_coherent run⟩

end Xv6.Kernel.Itable
