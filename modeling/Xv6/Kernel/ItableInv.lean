import Xv6.Kernel.Itable

/-! # What holds between the steps of the inode table

One entry for an inode, counted pointers, and fields that are those on disk while nobody has
the inode locked. In the middle of `iput`, without `itable.lock`, the entry is protected by
its sleep-lock: others can point to it by then, but none of them has got past `ilock`.
-/

namespace Xv6.Kernel.Itable

open Lib Function

/-- The inode that an entry in use is for. -/
def Inode.key (ip : Inode) : Option (Nat × Nat) :=
  if 0 < ip.ref then some (ip.dev, ip.inum) else none

theorem Inode.key_eq_some {ip : Inode} {k : Nat × Nat} :
    ip.key = some k ↔ 0 < ip.ref ∧ (ip.dev, ip.inum) = k := by
  simp [key]

namespace Pc

/-- The entry whose lock the process has taken in the function it is in. -/
def held : Pc → Option Ptr
  | .ilock x | .itrunc x | .free x | .invalidate x => some x
  | _ => none

/-- The pointer that `iput` is about to drop. -/
def putting : Pc → Option Ptr
  | .itrunc x | .free x | .invalidate x | .drop x => some x
  | _ => none

/-- The pointer to the inode that `iput` is freeing. -/
def dying : Pc → Option Ptr
  | .itrunc x | .free x | .invalidate x => some x
  | _ => none

theorem held_of_dying {pc : Pc} {x : Ptr} (dies : pc.dying = some x) : pc.held = some x := by
  cases pc <;> first | exact dies | cases dies

theorem putting_of_dying {pc : Pc} {x : Ptr} (dies : pc.dying = some x) : pc.putting = some x := by
  cases pc <;> first | exact dies | cases dies

end Pc

variable {ref : Fin NINODE → Nat} {ptrs : List Ptr} {pc : Pid → Pc}
variable {lock : Fin NINODE → Option Pid} {dirty : Fin NINODE → Bool}
variable {key : Fin NINODE → Option (Nat × Nat)}
variable {p q : Pid} {x y : Ptr} {i j : Fin NINODE} {c : Pc}

/-- Pointers are counted. Those of files and directories were used to lock the inode. While
    `iput` frees an inode, no one else has locked it through a pointer. -/
structure Pointers (ref : Fin NINODE → Nat) (ptrs : List Ptr) (pc : Pid → Pc) : Prop where
  counted : ∀ i, ref i = ptrs.countP (·.entry = i)
  kept : ∀ x ∈ ptrs, x.owner = none → x.seen
  owned : ∀ p x, (pc p).putting = some x → x ∈ ptrs ∧ x.owner = some p
  alone : ∀ p x, (pc p).dying = some x →
    ∀ y ∈ ptrs, y.entry = x.entry → y.seen → y.owner = some p
  mine : ∀ p x, pc p = .ilock x → x.owner = some p ∨ x.owner = none

namespace Pointers

section

variable (h : Pointers ref ptrs pc)
include h

theorem same {n : Nat} (stays : n = ref i) :
    Pointers (update ref i n) ptrs pc := by
  rwa [stays, update_eq_self]

theorem ref_pos (points : x ∈ ptrs) : 0 < ref x.entry := by
  rw [h.counted]
  exact List.countP_pos_iff.mpr ⟨x, points, by simp⟩

/-- A pointer that was used to lock an inode is not to a dying one, unless it belongs to the
    process that frees it. -/
theorem not_dying (idle : pc q = .idle) (points : y ∈ ptrs)
    (mine : y.owner = some q ∨ y.owner = none) (seen : y.seen) (dies : (pc p).dying = some x) :
    y.entry ≠ x.entry := by
  intro same
  have owner := h.alone p x dies y points same seen
  rcases mine with mine | kept
  · rw [owner, Option.some.injEq] at mine
    rw [mine, idle] at dies
    cases dies
  · rw [owner] at kept
    cases kept

theorem goto (owned : ∀ x, c.putting = some x → x ∈ ptrs ∧ x.owner = some p)
    (alone : ∀ x, c.dying = some x → ∀ y ∈ ptrs, y.entry = x.entry → y.seen → y.owner = some p)
    (mine : ∀ x, c = .ilock x → x.owner = some p ∨ x.owner = none) :
    Pointers ref ptrs (update pc p c) where
  counted := h.counted
  kept := h.kept
  owned := by
    intro q x puts
    by_cases same : q = p
    · subst same
      rw [update_self] at puts
      exact owned x puts
    · rw [update_of_ne same] at puts
      exact h.owned q x puts
  alone := by
    intro q x dies
    by_cases same : q = p
    · subst same
      rw [update_self] at dies
      exact alone x dies
    · rw [update_of_ne same] at dies
      exact h.alone q x dies
  mine := by
    intro q x there
    by_cases same : q = p
    · subst same
      rw [update_self] at there
      exact mine x there
    · rw [update_of_ne same] at there
      exact h.mine q x there

/-- A step that leaves the process outside `iput` and `ilock`. -/
theorem goto_outside (outside : c.putting = none) (unlocked : c.held = none) :
    Pointers ref ptrs (update pc p c) := by
  have alive : c.dying = none := by
    cases c <;> first | rfl | cases outside
  refine h.goto (by simp [outside]) (by simp [alive]) ?_
  rintro x rfl
  cases unlocked

theorem add (owned : y.owner ≠ none)
    (fresh : y.seen → ∀ p x, (pc p).dying = some x → y.entry ≠ x.entry) :
    Pointers (update ref y.entry (ref y.entry + 1)) (y :: ptrs) pc where
  counted := by
    intro i
    by_cases same : i = y.entry
    · subst same
      simp [h.counted]
    · simp [h.counted, same, Ne.symm same]
  kept := by
    intro z points kept
    rcases List.mem_cons.mp points with rfl | points
    · exact absurd kept owned
    · exact h.kept z points kept
  owned := fun p x puts => ⟨List.mem_cons_of_mem _ (h.owned p x puts).1, (h.owned p x puts).2⟩
  alone := by
    intro p x dies z points same seen
    rcases List.mem_cons.mp points with rfl | points
    · exact absurd same (fresh seen p x dies)
    · exact h.alone p x dies z points same seen
  mine := h.mine

/-- One pointer less: not one that some `iput` still has to drop. -/
theorem erase (points : y ∈ ptrs) (unused : ∀ p x, (pc p).putting = some x → y ≠ x) :
    Pointers (update ref y.entry (ref y.entry - 1)) (ptrs.erase y) pc where
  counted := by
    intro i
    have split := (List.perm_cons_erase points).countP_eq (·.entry = i)
    rw [← h.counted, List.countP_cons] at split
    by_cases same : i = y.entry
    · subst same
      simp only [decide_true, if_true] at split
      rw [update_self, split, Nat.add_sub_cancel]
    · simp only [Ne.symm same, decide_false] at split
      rw [update_of_ne same, split]
      rfl
  kept := fun z there => h.kept z (List.mem_of_mem_erase there)
  owned := by
    intro p x puts
    exact ⟨(List.mem_erase_of_ne (unused p x puts).symm).mpr (h.owned p x puts).1,
      (h.owned p x puts).2⟩
  alone := fun p x dies z there => h.alone p x dies z (List.mem_of_mem_erase there)
  mine := h.mine

/-- A pointer changes hands; it may then be used for the first time, by `x` no longer dying. -/
theorem swap (points : x ∈ ptrs) (same : y.entry = x.entry) (kept : y.owner = none → y.seen)
    (alive : ∀ p z, (pc p).dying = some z → x.entry ≠ z.entry)
    (unused : ∀ p z, (pc p).putting = some z → x ≠ z) :
    Pointers ref (y :: ptrs.erase x) pc where
  counted := by
    intro i
    have split := (List.perm_cons_erase points).countP_eq (·.entry = i)
    rw [h.counted, split, List.countP_cons, List.countP_cons, same]
  kept := by
    intro z there
    rcases List.mem_cons.mp there with rfl | there
    · exact kept
    · exact h.kept z (List.mem_of_mem_erase there)
  owned := by
    intro p z puts
    refine ⟨List.mem_cons_of_mem _ ?_, (h.owned p z puts).2⟩
    exact (List.mem_erase_of_ne (unused p z puts).symm).mpr (h.owned p z puts).1
  alone := by
    intro p z dies w there onto seen
    rcases List.mem_cons.mp there with rfl | there
    · exact absurd (same.symm.trans onto) (alive p z dies)
    · exact h.alone p z dies w (List.mem_of_mem_erase there) onto seen
  mine := h.mine

theorem see (alive : ∀ p z, (pc p).dying = some z → x.entry ≠ z.entry)
    (unused : ∀ p z, (pc p).putting = some z → x ≠ z) :
    Pointers ref (ptrs.map fun y => if y = x then { y with seen := true } else y) pc where
  counted := by
    intro i
    rw [h.counted, List.countP_map]
    apply List.countP_congr
    intro y _
    by_cases same : y = x
    · simp [same]
    · simp [same]
  kept := by
    intro z there kept
    obtain ⟨y, points, rfl⟩ := List.mem_map.mp there
    by_cases same : y = x
    · simp [same]
    · rw [if_neg same] at kept ⊢
      exact h.kept y points kept
  owned := by
    intro p z puts
    refine ⟨List.mem_map.mpr ⟨z, (h.owned p z puts).1, if_neg (unused p z puts).symm⟩,
      (h.owned p z puts).2⟩
  alone := by
    intro p z dies w there onto seen
    obtain ⟨y, points, rfl⟩ := List.mem_map.mp there
    by_cases same : y = x
    · rw [if_pos same] at onto
      exact absurd (same ▸ onto) (alive p z dies)
    · rw [if_neg same] at onto seen ⊢
      exact h.alone p z dies y points onto seen
  mine := h.mine

end

end Pointers

/-- Who holds the sleep-lock of an entry; an unlocked entry has no change left to write. -/
structure Locks (lock : Fin NINODE → Option Pid) (dirty : Fin NINODE → Bool) (pc : Pid → Pc) :
    Prop where
  held : ∀ p x, (pc p).held = some x → lock x.entry = some p ∧ dirty x.entry = false
  clean : ∀ i, lock i = none → dirty i = false

namespace Locks

section

variable (h : Locks lock dirty pc)
include h

theorem same {l : Option Pid} (stays : l = lock i) :
    Locks (update lock i l) dirty pc := by
  rwa [stays, update_eq_self]

theorem goto (held : ∀ x, c.held = some x → lock x.entry = some p ∧ dirty x.entry = false) :
    Locks lock dirty (update pc p c) where
  held := by
    intro q x holds
    by_cases same : q = p
    · subst same
      rw [update_self] at holds
      exact held x holds
    · rw [update_of_ne same] at holds
      exact h.held q x holds
  clean := h.clean

theorem acquire (free : lock i = none) :
    Locks (update lock i (some p)) dirty pc where
  held := by
    intro q x holds
    have locked := (h.held q x holds).1
    have other : x.entry ≠ i := by
      rintro rfl
      rw [free] at locked
      cases locked
    rw [update_of_ne other]
    exact h.held q x holds
  clean := by
    intro j unlocked
    by_cases same : j = i
    · exact same ▸ h.clean i free
    · rw [update_of_ne same] at unlocked
      exact h.clean j unlocked

theorem release (clean : dirty i = false) (unused : ∀ p x, (pc p).held = some x → x.entry ≠ i) :
    Locks (update lock i none) dirty pc where
  held := by
    intro q x holds
    rw [update_of_ne (unused q x holds)]
    exact h.held q x holds
  clean := by
    intro j unlocked
    by_cases same : j = i
    · exact same ▸ clean
    · rw [update_of_ne same] at unlocked
      exact h.clean j unlocked

theorem written : Locks lock (update dirty i false) pc where
  held := by
    intro q x holds
    refine ⟨(h.held q x holds).1, ?_⟩
    by_cases same : x.entry = i
    · rw [same, update_self]
    · rw [update_of_ne same]
      exact (h.held q x holds).2
  clean := by
    intro j unlocked
    by_cases same : j = i
    · rw [same, update_self]
    · rw [update_of_ne same]
      exact h.clean j unlocked

theorem changed (locked : lock i ≠ none) (unused : ∀ p x, (pc p).held = some x → x.entry ≠ i) :
    Locks lock (update dirty i true) pc where
  held := by
    intro q x holds
    rw [update_of_ne (unused q x holds)]
    exact h.held q x holds
  clean := by
    intro j unlocked
    by_cases same : j = i
    · exact absurd (same ▸ unlocked) locked
    · rw [update_of_ne same]
      exact h.clean j unlocked

/-- A process that holds the lock and is in no function: nobody is in the middle of one. -/
theorem unused (idle : pc p = .idle) (locked : lock i = some p) :
    ∀ q x, (pc q).held = some x → x.entry ≠ i := by
  rintro q x holds rfl
  have mine := (h.held q x holds).1
  rw [locked, Option.some.injEq] at mine
  rw [← mine, idle] at holds
  cases holds

end

end Locks

/-- No two entries in use are for one inode. -/
def Once (key : Fin NINODE → Option (Nat × Nat)) : Prop :=
  ∀ i j k, key i = some k → key j = some k → i = j

namespace Once

theorem same {k : Option (Nat × Nat)} (h : Once key) (stays : k = key i) :
    Once (update key i k) := by
  rwa [stays, update_eq_self]

theorem forget (h : Once key) : Once (update key i none) := by
  intro a b k keyA keyB
  have other : ∀ c, update key i none c = some k → key c = some k := by
    intro c keyC
    by_cases same : c = i
    · rw [same, update_self] at keyC
      cases keyC
    · rwa [update_of_ne same] at keyC
  exact h a b k (other a keyA) (other b keyB)

theorem recycle {k : Nat × Nat} (h : Once key) (fresh : ∀ j, key j ≠ some k) :
    Once (update key i (some k)) := by
  intro a b l keyA keyB
  by_cases left : a = i
  · by_cases right : b = i
    · rw [left, right]
    · rw [left, update_self] at keyA
      rw [update_of_ne right, ← keyA] at keyB
      exact absurd keyB (fresh b)
  · rw [update_of_ne left] at keyA
    by_cases right : b = i
    · rw [right, update_self] at keyB
      exact absurd (keyA.trans keyB.symm) (fresh a)
    · rw [update_of_ne right] at keyB
      exact h a b l keyA keyB

end Once

/-- The fields of a valid inode are those on disk, up to changes that `iupdate` has still to
    write; the inode is in use. -/
def Logged (data disk : Dinode) (dirty : Bool) : Prop :=
  data.type ≠ 0 ∧ disk.type ≠ 0 ∧ (dirty = false → data = disk)

/-- Whether some `iput` has freed the inode on disk and not yet in memory; `ialloc` may
    already have taken it. -/
def Freed (pc : Pid → Pc) (i : Fin NINODE) : Prop := ∃ p x, pc p = .invalidate x ∧ x.entry = i

def LoggedAt (s : State) (i : Fin NINODE) : Prop :=
  ∀ dev inum, (s.table i).key = some (dev, inum) → (s.table i).valid → ¬ Freed s.pc i →
    Logged (s.table i).data (s.disk dev inum) (s.dirty i)

def AllLogged (s : State) : Prop := ∀ i, LoggedAt s i

structure Inv (s : State) : Prop where
  pointers : Pointers (fun i => (s.table i).ref) s.ptrs s.pc
  locks : Locks (fun i => (s.table i).lock) s.dirty s.pc
  once : Once fun i => (s.table i).key
  logged : AllLogged s

variable {s s' : State} {ip : Inode} {f : Inode → Inode} {dev inum : Nat} {d : Dinode} {b : Bool}
  {o : Obs}

/-! ## One change at a time -/

/-- The invariant of a state in which one entry differs from that of `s`. -/
theorem Inv.of_alter (table : s'.table = update s.table i ip)
    (pointers : Pointers (update (fun j => (s.table j).ref) i ip.ref) s'.ptrs s'.pc)
    (locks : Locks (update (fun j => (s.table j).lock) i ip.lock) s'.dirty s'.pc)
    (once : Once (update (fun j => (s.table j).key) i ip.key))
    (logged : AllLogged s') : Inv s' := by
  have view : ∀ {α : Type} (f : Inode → α),
      (fun j => f (s'.table j)) = update (fun j => f (s.table j)) i (f ip) := by
    intro α f
    rw [table]
    exact Function.comp_update f s.table i ip
  constructor
  · rwa [view Inode.ref]
  · rwa [view Inode.lock]
  · rwa [view Inode.key]
  · exact logged

namespace AllLogged

theorem alter (h : AllLogged s) (new : ∀ dev inum, (f (s.table i)).key = some (dev, inum) →
    (f (s.table i)).valid → ¬ Freed s.pc i →
    Logged (f (s.table i)).data (s.disk dev inum) (s.dirty i)) : AllLogged (s.alter i f) := by
  intro j dev inum
  by_cases same : j = i
  · subst same
    simpa [State.alter] using new dev inum
  · simpa [State.alter, same] using h j dev inum

theorem point (h : AllLogged s) : AllLogged (s.point ptrs) := h

theorem alter_same (h : AllLogged s) (key : (f (s.table i)).key = (s.table i).key)
    (valid : (f (s.table i)).valid = (s.table i).valid)
    (data : (f (s.table i)).data = (s.table i).data) : AllLogged (s.alter i f) := by
  apply h.alter
  rw [key, valid, data]
  exact h i

theorem goto (h : AllLogged s)
    (left : ∀ x, s.pc p = .invalidate x → (s.table x.entry).valid = false) :
    AllLogged (s.goto p c) := by
  intro i dev inum used valid settled
  apply h i dev inum used valid
  rintro ⟨q, x, there, rfl⟩
  by_cases same : q = p
  · subst same
    have stale := left x there
    rw [show (s.table x.entry).valid = true from valid] at stale
    cases stale
  · exact settled ⟨q, x, by simpa [State.goto, same] using there, rfl⟩

theorem write (h : AllLogged s)
    (new : ∀ i, (s.table i).key = some (dev, inum) → (s.table i).valid → ¬ Freed s.pc i →
      Logged (s.table i).data d (s.dirty i)) : AllLogged (s.write dev inum d) := by
  intro i dev' inum' used valid settled
  by_cases same : dev' = dev ∧ inum' = inum
  · obtain ⟨rfl, rfl⟩ := same
    simpa [State.write] using new i used valid settled
  · have old := h i dev' inum' used valid settled
    have kept : (s.write dev inum d).disk dev' inum' = s.disk dev' inum' := by
      by_cases device : dev' = dev
      · subst device
        have other : inum' ≠ inum := fun same' => same ⟨rfl, same'⟩
        simp [State.write, other]
      · simp [State.write, device]
    rw [kept]
    exact old

end AllLogged

/-! ## What the table promises -/

structure Coherent (s : State) : Prop where
  once : ∀ i j, 0 < (s.table i).ref → 0 < (s.table j).ref → (s.table i).dev = (s.table j).dev →
    (s.table i).inum = (s.table j).inum → i = j
  counted : ∀ i, (s.table i).ref = s.ptrs.countP (·.entry = i)
  logged : ∀ i, 0 < (s.table i).ref → (s.table i).valid → (s.table i).lock = none →
    (s.table i).data = s.disk (s.table i).dev (s.table i).inum

/-- A step that shows `o` truncates or frees no inode that an open file or a current
    directory holds. -/
def Spares (s : State) (o : Obs) : Prop :=
  ∀ dev inum, o = .truncated dev inum ∨ o = .freed dev inum →
    ∀ x ∈ s.ptrs, x.owner = none →
      ¬ ((s.table x.entry).dev = dev ∧ (s.table x.entry).inum = inum)

theorem Inv.coherent (inv : Inv s) : Coherent s where
  once := by
    intro i j usedI usedJ dev inum
    apply inv.once i j ((s.table i).dev, (s.table i).inum)
    · exact Inode.key_eq_some.mpr ⟨usedI, rfl⟩
    · exact Inode.key_eq_some.mpr ⟨usedJ, by rw [dev, inum]⟩
  counted := inv.pointers.counted
  logged := by
    intro i used valid unlocked
    have settled : ¬ Freed s.pc i := by
      rintro ⟨p, x, there, rfl⟩
      have locked := (inv.locks.held p x (by rw [there]; rfl)).1
      rw [unlocked] at locked
      cases locked
    have fine := inv.logged i _ _ (Inode.key_eq_some.mpr ⟨used, rfl⟩) valid settled
    exact fine.2.2 (inv.locks.clean i unlocked)

theorem Coherent.fill (h : Coherent s) (locked : (s.table i).lock ≠ none) :
    Coherent (s.alter i fun ip => { ip with data := d, valid := b }) := by
  have stays : ∀ j, ((s.alter i fun ip => { ip with data := d, valid := b }).table j).ref =
        (s.table j).ref ∧
      ((s.alter i fun ip => { ip with data := d, valid := b }).table j).dev = (s.table j).dev ∧
      ((s.alter i fun ip => { ip with data := d, valid := b }).table j).inum =
      (s.table j).inum := by
    intro j
    by_cases same : j = i
    · subst same
      simp [State.alter]
    · simp [State.alter, same]
  constructor
  · intro j k
    obtain ⟨refJ, devJ, inumJ⟩ := stays j
    obtain ⟨refK, devK, inumK⟩ := stays k
    rw [refJ, devJ, inumJ, refK, devK, inumK]
    exact h.once j k
  · intro j
    rw [(stays j).1]
    exact h.counted j
  · intro j
    by_cases same : j = i
    · subst same
      intro _ _ unlocked
      exact absurd (by simpa [State.alter] using unlocked) locked
    · simpa [State.alter, same] using h.logged j

/-- What holds after every step: a panic may leave an inode locked with type 0. -/
def Sound (s : State) : Prop := Coherent s ∧ (s.panicked = false → Inv s)

theorem Inv.sound (inv : Inv s) : Sound s := ⟨inv.coherent, fun _ => inv⟩

end Xv6.Kernel.Itable
