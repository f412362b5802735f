import Xv6.User.FreeList

/-! # What malloc and free keep

In every run of a program that frees only what it has got, the free blocks and the blocks
of the program are apart, no two free blocks touch, and the units of both add up to what
`sbrk` has returned; `malloc` and `free` return. The sizes are `uint`: the sum is right as
long as `free` is not called with 2^32 units or more in the heap.
-/

namespace Xv6.User.Malloc

open Lib Extent

/-! ## Fuel -/

section Fuel

variable {σ : Type} {sbrk : Sbrk σ} {fuel fuel' : Nat}

theorem freeLoop_mono {mem : Nat → Header} {bp p q : Nat}
    (done : freeLoop mem bp fuel p = some q) (more : fuel ≤ fuel') :
    freeLoop mem bp fuel' p = some q := by
  induction fuel generalizing p fuel' with
  | zero => cases done
  | succ fuel ih =>
    obtain ⟨fuel', rfl⟩ := Nat.exists_eq_add_one.mpr (Nat.lt_of_lt_of_le (Nat.succ_pos _) more)
    rw [freeLoop] at done ⊢
    split at done
    · rwa [if_pos ‹_›]
    · rw [if_neg ‹_›]
      split at done
      · rwa [if_pos ‹_›]
      · rw [if_neg ‹_›]
        exact ih done (Nat.le_of_succ_le_succ more)

theorem free_mono {ap : Nat} {h h' : Heap} (done : free fuel ap h = some h') (more : fuel ≤ fuel') :
    free fuel' ap h = some h' := by
  rw [free, Option.map_eq_some_iff] at done ⊢
  obtain ⟨p, found, rest⟩ := done
  exact ⟨p, freeLoop_mono found more, rest⟩

theorem morecore_mono {nu : Nat} {h : Heap} {s : σ} {x : Nat × Heap × σ}
    (done : morecore sbrk fuel nu h s = some x) (more : fuel ≤ fuel') :
    morecore sbrk fuel' nu h s = some x := by
  unfold morecore at done ⊢
  dsimp only at done ⊢
  split at done
  · cases done
  · exact done
  · obtain ⟨h', freed, rest⟩ := Option.map_eq_some_iff.mp done
    exact Option.map_eq_some_iff.mpr ⟨h', free_mono freed more, rest⟩

theorem mallocLoop_mono {n prevp p : Nat} {h : Heap} {s : σ} {x : Nat × Heap × σ}
    (done : mallocLoop sbrk n fuel prevp p h s = some x) (more : fuel ≤ fuel') :
    mallocLoop sbrk n fuel' prevp p h s = some x := by
  induction fuel generalizing prevp p h s fuel' with
  | zero => cases done
  | succ fuel ih =>
    obtain ⟨fuel', rfl⟩ := Nat.exists_eq_add_one.mpr (Nat.lt_of_lt_of_le (Nat.succ_pos _) more)
    have rest := Nat.le_of_succ_le_succ more
    rw [mallocLoop] at done ⊢
    split at done
    · rwa [if_pos ‹_›]
    · rw [if_neg ‹_›]
      split at done
      · rw [if_pos ‹_›]
        split at done
        · cases done
        · rename_i core
          rw [morecore_mono core rest]
          dsimp only
          split at done
          · rwa [if_pos ‹_›]
          · rw [if_neg ‹_›]
            exact ih done rest
      · rw [if_neg ‹_›]
        exact ih done rest

end Fuel

/-! ## The invariant -/

/-- The free blocks are `bs`, and all is accounted for. -/
structure Sound (base : Nat) (s : State) (bs : List Extent) : Prop where
  list : FreeList base s.heap bs
  solid : ∀ b ∈ bs ++ s.live, 0 < b.size
  headers : ∀ b ∈ s.live, (s.heap.mem b.start).size = b.size
  apart : ∀ b ∈ bs, ∀ x ∈ s.live, b.Apart headerSize x
  live : s.live.Pairwise (Apart headerSize)
  within : ∀ b ∈ bs ++ s.live, base + headerSize ≤ b.start ∧ b.stop headerSize ≤ s.top
  sum : units bs + units s.live = s.got

namespace Sound

variable {base : Nat} {s : State} {bs : List Extent} {b x : Extent} {h : Heap} {n : Nat}

theorem start_lt_stop (solid : 0 < b.size) : b.start < b.stop headerSize := by
  simp only [stop, headerSize]
  omega

theorem start_ne (apart : b.Apart headerSize x) (solid : 0 < b.size) (solid' : 0 < x.size) :
    b.start ≠ x.start := by
  have := start_lt_stop solid
  have := start_lt_stop solid'
  rcases apart with before | after <;> omega

/-- No block of the program starts where a block of the list does. -/
theorem live_start_ne (sound : Sound base s bs) (inside : x ∈ s.live) :
    ∀ e ∈ baseBlock base :: bs, x.start ≠ e.start := by
  intro e there
  rcases List.mem_cons.mp there with rfl | there
  · have := (sound.within x (List.mem_append_right _ inside)).1
    simp only [baseBlock, headerSize] at this ⊢
    omega
  · exact (start_ne (sound.apart e there x inside)
      (sound.solid e (List.mem_append_left _ there))
      (sound.solid x (List.mem_append_right _ inside))).symm

/-- A block of the list becomes one of the program, or two of which one does. -/
theorem take (sound : Sound base s bs) (pos : 0 < n) (takes : FreeList.Takes base n s.heap bs h b) :
    b.size = n ∧ (∀ x ∈ s.live, b.Apart headerSize x) ∧
      ∃ bs', Sound base { s with heap := h, live := b :: s.live } bs' := by
  obtain ⟨l, e, t, rfl, enough, rfl, list⟩ := takes.block
  have order := sound.list.order
  rw [← List.cons_append] at order
  obtain ⟨-, tail, between⟩ := gapped_append.mp order
  obtain ⟨far, -⟩ := gapped_cons.mp tail
  have top : e ∈ l ++ e :: t := by simp
  have others : ∀ x ∈ s.live, (carved headerSize n e).Apart headerSize x := fun x inside =>
    ((sound.apart e top x inside).symm.carved enough).symm
  refine ⟨rfl, others, _, list, ?_, ?_, ?_, ?_, ?_, ?_⟩
  · intro b inside
    simp only [List.mem_append, List.mem_cons] at inside
    rcases inside with (early | piece | later) | rfl | inside
    · exact sound.solid b (by simp [early])
    · obtain ⟨other, rfl⟩ := mem_carve piece
      change 0 < e.size - n
      omega
    · exact sound.solid b (by simp [later])
    · exact pos
    · exact sound.solid b (by simp [inside])
  · intro x inside
    rcases List.mem_cons.mp inside with rfl | inside
    · exact takes.size
    · rw [← sound.headers x inside]
      refine congrArg Header.size (takes.frame x.start (sound.live_start_ne inside) ?_)
      exact (start_ne (others x inside) pos (sound.solid x (by simp [inside]))).symm
  · intro y there x inside
    simp only [List.mem_append] at there
    rcases List.mem_cons.mp inside with rfl | inside
    · rcases there with early | piece | later
      · exact .inl ((between y (List.mem_cons_of_mem _ early) e List.mem_cons_self).le.trans
          (Nat.le_add_right _ _))
      · exact .inl (stop_carve piece).2.le
      · refine .inr ?_
        rw [stop_carved enough]
        exact (far y later).le
    · rcases there with early | piece | later
      · exact sound.apart y (by simp [early]) x inside
      · exact ((sound.apart e top x inside).symm.carve piece).symm
      · exact sound.apart y (by simp [later]) x inside
  · exact List.pairwise_cons.mpr ⟨others, sound.live⟩
  · intro y there
    have whole := sound.within e (List.mem_append_left _ top)
    simp only [List.mem_append, List.mem_cons] at there
    rcases there with (early | piece | later) | rfl | inside
    · exact sound.within y (by simp [early])
    · rw [(@stop_carve headerSize _ _ _ piece).1]
      exact ⟨whole.1, (carve_le piece).trans whole.2⟩
    · exact sound.within y (by simp [later])
    · rw [stop_carved enough]
      exact ⟨whole.1.trans (Nat.le_add_right _ _), whole.2⟩
    · exact sound.within y (by simp [inside])
  · have sum := sound.sum
    have parts := units_carve enough
    simp only [units_append, units_cons] at sum ⊢
    change _ + (n + units s.live) = s.got
    omega

theorem insert {bs' l r live : List Extent} {p : Extent} {top got : Nat}
    (list : FreeList base h bs') (split : baseBlock base :: bs = l ++ p :: r)
    (whole : baseBlock base :: bs' = l ++ join headerSize p (join headerSize b r))
    (bounds : ∀ y ∈ b :: (bs ++ live), 0 < y.size ∧ base + headerSize ≤ y.start ∧
      y.stop headerSize ≤ top)
    (apart : ∀ y ∈ b :: bs, ∀ x ∈ live, y.Apart headerSize x)
    (headers : ∀ x ∈ live, (h.mem x.start).size = x.size) (pairs : live.Pairwise (Apart headerSize))
    (sum : units bs + b.size + units live = got) : Sound base ⟨h, live, top, got⟩ bs' := by
  have low : base < b.start := by
    have := (bounds b List.mem_cons_self).2.1
    simp only [headerSize] at this
    omega
  have kept : ∀ y ∈ bs', (0 < y.size ∧ base + headerSize ≤ y.start ∧ y.stop headerSize ≤ top) ∧
      ∀ x ∈ live, y.Apart headerSize x := by
    refine FreeList.forall_inserted ?_ split whole low
      (fun y inside => ⟨bounds y (by simp [inside]),
      apart y (by simp [inside])⟩) ⟨bounds b (by simp), apart b (by simp)⟩
    intro u v ok ok' touch
    refine ⟨⟨Nat.add_pos_left ok.1.1 _, ok.1.2.1, ?_⟩, fun x inside => ?_⟩
    · rw [stop_mk, ← stop, touch]
      exact ok'.1.2.2
    · refine (ok.2 x inside).merge (ok'.2 x inside) touch ?_
      exact Nat.mul_pos (by decide) (bounds x (by simp [inside])).1
  refine ⟨list, ?_, headers, fun y inside => (kept y inside).2, pairs, ?_, ?_⟩
  · intro y inside
    rcases List.mem_append.mp inside with inside | inside
    · exact (kept y inside).1.1
    · exact (bounds y (by simp [show y ∈ live from inside])).1
  · intro y inside
    rcases List.mem_append.mp inside with inside | inside
    · exact (kept y inside).1.2
    · exact (bounds y (by simp [show y ∈ live from inside])).2
  · have old := congrArg units split
    have new := congrArg units whole
    simp only [units_cons, units_append, units_join] at old new
    change units bs' + units live = got
    omega

theorem place (sound : Sound base s bs) (inside : b ∈ s.live) :
    ∃ l p r, baseBlock base :: bs = l ++ p :: r ∧ p.start < b.start ∧
      p.stop headerSize ≤ b.start ∧ ∀ e ∈ r, b.start < e.start ∧ b.stop headerSize ≤ e.start := by
  have solid := start_lt_stop (sound.solid b (List.mem_append_right _ inside))
  have low : base < b.start := by
    have := (sound.within b (List.mem_append_right _ inside)).1
    simp only [headerSize] at this
    omega
  obtain ⟨l, p, r, split, below, above⟩ := exists_last_below sound.list.order low fun x there =>
    (sound.live_start_ne inside x (List.mem_cons_of_mem _ there)).symm
  have member : ∀ e ∈ l ++ p :: r, base < e.start → e ∈ bs := by
    intro e there beyond
    rw [← split] at there
    refine (List.mem_cons.mp there).resolve_left ?_
    rintro rfl
    exact Nat.lt_irrefl _ beyond
  refine ⟨l, p, r, split, below, ?_, fun e later => ⟨above e later, ?_⟩⟩
  · by_cases first : base < p.start
    · rcases sound.apart p (member p (by simp) first) b inside with early | late <;> omega
    · have there : p ∈ baseBlock base :: bs := by rw [split]; simp
      have := sound.list.base_le p there
      have same := eq_of_start sound.list.order there List.mem_cons_self
        (show p.start = base by omega)
      rw [same]
      exact low.le
  · have beyond := above e later
    have apart := sound.apart e (member e (by simp [later]) (low.trans beyond)) b inside
    have : e.start ≤ e.stop headerSize := start_le_stop e
    rcases apart with early | late <;> omega

theorem free (sound : Sound base s bs) (inside : b ∈ s.live) (small : s.got < 2 ^ 32) :
    ∃ h bs', (∀ fuel, bs.length < fuel → Malloc.free fuel (b.start + headerSize) s.heap = some h) ∧
      Sound base { s with heap := h, live := s.live.erase b } bs' := by
  have solid := sound.solid b (List.mem_append_right _ inside)
  have bounds := sound.within b (List.mem_append_right _ inside)
  have low : base < b.start := by
    simp only [headerSize] at bounds
    omega
  have perm := List.perm_cons_erase inside
  have pairs := (perm.pairwise_iff fun h => Apart.symm h).mp sound.live
  obtain ⟨own, pairs⟩ := List.pairwise_cons.mp pairs
  have total := units_perm perm
  rw [units_cons] at total
  obtain ⟨l, p, r, split, below, before, after⟩ := sound.place inside
  have sum := sound.sum
  have parts := congrArg units split
  simp only [units_cons, units_append, baseBlock] at parts
  obtain ⟨h, bs', freed, list, whole, frame⟩ := sound.list.free_eq split (sound.headers b inside)
    solid low before below.ne (fun e later => (after e later).2) (by omega)
  refine ⟨h, bs', freed, insert list split whole ?_ ?_ ?_ pairs (by omega)⟩
  · intro y there
    have all : y ∈ bs ++ s.live := by
      rcases List.mem_cons.mp there with rfl | there
      · exact List.mem_append_right _ inside
      · exact (List.mem_append.mp there).elim (List.mem_append_left _)
          fun there => List.mem_append_right _ (List.mem_of_mem_erase there)
    exact ⟨sound.solid y all, sound.within y all⟩
  · intro y there x other
    rcases List.mem_cons.mp there with rfl | there
    · exact own x other
    · exact sound.apart y there x (List.mem_of_mem_erase other)
  · intro x other
    have live := List.mem_of_mem_erase other
    rw [← sound.headers x live]
    refine congrArg Header.size (frame x.start ?_ ?_)
    · exact sound.live_start_ne live p (by rw [split]; simp)
    · exact (start_ne (own x other) solid (sound.solid x (List.mem_append_right _ live))).symm

/-- What the program writes does not concern the headers. -/
theorem write (sound : Sound base s bs) (low : base + headerSize ≤ s.top) {addr : Nat}
    (value : Header) (free : s.Writable addr) :
    Sound base
      { s with heap := { s.heap with mem := Function.update s.heap.mem addr value } } bs := by
  -- a header is at the start of its block, and blocks are apart
  have others : ∀ b ∈ bs ++ s.live, b.start ≠ addr := by
    intro b inside same
    have solid := start_lt_stop (sound.solid b inside)
    rcases free with beyond | ⟨x, live, after, before⟩
    · have := (sound.within b inside).2
      omega
    · have either : b.Apart headerSize x ∨ b = x := by
        rcases List.mem_append.mp inside with there | there
        · exact .inl (sound.apart b there x live)
        · by_cases equal : b = x
          · exact .inr equal
          · exact .inl (sound.live.forall there live equal)
      rcases either with (early | late) | rfl <;> omega
  have lowest : base ≠ addr := by
    simp only [headerSize] at low
    rcases free with beyond | ⟨x, live, after, -⟩
    · omega
    · have := (sound.within x (List.mem_append_right _ live)).1
      omega
  refine ⟨⟨sound.list.linked.congr fun e inside => Function.update_of_ne ?_ _ _, sound.list.order,
    sound.list.freep⟩, sound.solid, fun b inside => ?_, sound.apart, sound.live, sound.within,
    sound.sum⟩
  · rcases List.mem_cons.mp inside with rfl | inside
    · exact lowest
    · exact others e (List.mem_append_left _ inside)
  · rw [← sound.headers b inside]
    exact congrArg Header.size
      (Function.update_of_ne (others b (List.mem_append_right _ inside)) _ _)

theorem grow {bs' l : List Extent} {last : Extent} {p nu : Nat} (sound : Sound base s bs)
    (low : base + headerSize ≤ s.top) (fresh : s.top ≤ p) (pos : 0 < nu)
    (list : FreeList base h bs') (split : baseBlock base :: bs = l ++ [last])
    (whole : baseBlock base :: bs' = l ++ join headerSize last [⟨p, nu⟩])
    (frame : ∀ a, (∀ e ∈ baseBlock base :: bs, a ≠ e.start) → a ≠ p → h.mem a = s.heap.mem a) :
    Sound base ⟨h, s.live, p + headerSize * nu, s.got + nu⟩ bs' := by
  have top : s.top ≤ p + headerSize * nu := fresh.trans (Nat.le_add_right _ _)
  refine insert (b := ⟨p, nu⟩) list split whole ?_ ?_ ?_ sound.live ?_
  · intro y there
    rcases List.mem_cons.mp there with rfl | there
    · exact ⟨pos, low.trans fresh, le_rfl⟩
    · obtain ⟨start, stop⟩ := sound.within y there
      exact ⟨sound.solid y there, start, stop.trans top⟩
  · intro y there x live
    rcases List.mem_cons.mp there with rfl | there
    · exact .inr ((sound.within x (List.mem_append_right _ live)).2.trans fresh)
    · exact sound.apart y there x live
  · intro x live
    rw [← sound.headers x live]
    refine congrArg Header.size (frame x.start (sound.live_start_ne live) ?_)
    have := (sound.within x (List.mem_append_right _ live)).2
    have := start_lt_stop (sound.solid x (List.mem_append_right _ live))
    omega
  · have := sound.sum
    change units bs + nu + units s.live = s.got + nu
    omega

end Sound

/-! ## A call of `malloc` -/

theorem intArg_eq {n : Nat} (small : n < 2 ^ 31) : intArg n = n := by
  have word : (BitVec.ofNat 32 n).toNat = n := by
    rw [BitVec.toNat_ofNat, Nat.mod_eq_of_lt (by omega)]
  rw [intArg, BitVec.toInt_eq_toNat_of_lt (by omega), word]

theorem nunits_pos {n : Nat} (word : n < 2 ^ 32) : 0 < nunits n := by
  simp only [nunits, headerSize]
  omega

/-- The list is there, or `malloc` has not been called yet. -/
def Ready (base : Nat) (s : State) : Prop :=
  s.heap.freep = 0 ∧ s.live = [] ∧ s.got = 0 ∨ ∃ bs, Sound base s bs

theorem Ready.listed {base : Nat} {s : State} (ready : Ready base s) (statics : 0 < base) :
    ∃ bs, Sound base { s with heap := initList base s.heap } bs := by
  rcases ready with ⟨unset, none, zero⟩ | ⟨bs, sound⟩
  · refine ⟨[], ⟨?_, ?_, ?_⟩, by simp [none], by simp [none], by simp, by simp [none],
      by simp [none], by simp [none, zero]⟩
    · simp [initList, unset, baseBlock, Heap.setPtr, Heap.setSize]
    · simp [Gapped]
    · simp [initList, unset, baseBlock]
  · have set : s.heap.freep ≠ 0 := by
      obtain ⟨e, inside, start⟩ := sound.list.freep
      have := sound.list.base_le e inside
      omega
    exact ⟨bs, by rwa [initList, if_neg set]⟩

/-- What a call of `malloc` for `n` units returns and leaves. -/
inductive Allocs (base n : Nat) (s : State) : Nat → Heap → Env → Prop
  | refused {env} (top : env.top = s.top) (got : env.got = s.got) : Allocs base n s 0 s.heap env
  | block {b h env bs} (size : b.size = n) (apart : ∀ x ∈ s.live, b.Apart headerSize x)
      (sound : Sound base ⟨h, b :: s.live, env.top, env.got⟩ bs) :
      Allocs base n s (b.start + headerSize) h env

section Malloc

variable {base n : Nat} {s : State} {bs : List Extent} {answer : Option Nat}

theorem grant_none (top got : Nat) (k : Int) : grant k ⟨top, got, [none]⟩ =
    some (none, ⟨top, got, []⟩) := rfl

theorem grant_core {top p : Nat} (got : Nat) (small : n * headerSize < 2 ^ 31) (fresh : top ≤ p) :
    grant (intArg (coreUnits n * headerSize)) ⟨top, got, [some p]⟩ =
      some (some p, ⟨p + headerSize * coreUnits n, got + coreUnits n, []⟩) := by
  have pos := (le_coreUnits n).2
  have fits : coreUnits n * headerSize < 2 ^ 31 := by
    simp only [headerSize] at small ⊢
    unfold coreUnits
    split <;> omega
  have some : (0 : Int) < ((coreUnits n * headerSize : Nat) : Int) := by
    simp only [headerSize]
    omega
  rw [intArg_eq fits]
  dsimp only [grant]
  rw [if_pos ⟨fresh, some⟩, Int.toNat_natCast, Nat.mul_div_cancel _ (by decide), Nat.mul_comm]

/-- New memory is enough, alone or with the block that it continues. -/
theorem fits_of_grown {bs' l : List Extent} {last : Extent} {p nu : Nat}
    (split : baseBlock base :: bs = l ++ [last])
    (whole : baseBlock base :: bs' = l ++ join headerSize last [⟨p, nu⟩]) (pos : 0 < n)
    (enough : n ≤ nu) : (∃ e ∈ bs', n ≤ e.size) ∧ bs'.length ≤ bs.length + 1 := by
  have old := congrArg List.length split
  have new := congrArg List.length whole
  have large : ∃ e ∈ join headerSize last [⟨p, nu⟩], n ≤ e.size := by
    rw [join]
    split
    · exact ⟨_, List.mem_cons_self, enough.trans (Nat.le_add_left _ _)⟩
    · exact ⟨⟨p, nu⟩, by simp, enough⟩
  obtain ⟨e, inside, large⟩ := large
  have there : e ∈ baseBlock base :: bs' := whole ▸ List.mem_append_right _ inside
  refine ⟨⟨e, (List.mem_cons.mp there).resolve_left ?_, large⟩, ?_⟩
  · rintro rfl
    exact absurd large (Nat.not_le_of_lt pos)
  · rw [join] at new
    split at new <;> simp at old new <;> omega

theorem Sound.malloc (sound : Sound base s bs) (statics : 0 < base)
    (low : base + headerSize ≤ s.top) (pos : 0 < n) (small : n * headerSize < 2 ^ 31)
    (fresh : (∃ e ∈ bs, n ≤ e.size) ∨ ∀ p, answer = some p → s.top ≤ p) :
    ∃ ap h env, Allocs base n s ap h env ∧ ∀ fuel, 2 * bs.length + 3 ≤ fuel →
      mallocLoop grant n fuel s.heap.freep (s.heap.mem s.heap.freep).ptr s.heap
        ⟨s.top, s.got, [answer]⟩ = some (ap, h, env) := by
  by_cases fits : ∃ e ∈ bs, n ≤ e.size
  · obtain ⟨h, b, takes, done⟩ := sound.list.mallocLoop_takes _ _ pos fits
    obtain ⟨size, apart, bs', after⟩ := sound.take pos takes
    exact ⟨_, h, _, .block size apart after, fun fuel enough => done fuel (by omega)⟩
  · replace fresh := fresh.resolve_left fits
    have short : ∀ e ∈ baseBlock base :: bs, e.size < n := by
      intro e inside
      rcases List.mem_cons.mp inside with rfl | inside
      · exact pos
      · exact Nat.lt_of_not_le fun large => fits ⟨e, inside, large⟩
    cases answer with
    | none =>
      refine ⟨0, s.heap, ⟨s.top, s.got, []⟩, .refused rfl rfl, fun fuel enough => ?_⟩
      exact sound.list.mallocLoop_refused short (grant_none _ _ _) (by omega)
    | some p =>
      have above := fresh p rfl
      obtain ⟨h, bs', l, last, split, whole, list, frame, again⟩ :=
        sound.list.mallocLoop_grows statics short (by simp only [headerSize] at small; omega)
          (fun e inside => sound.solid e (List.mem_append_left _ inside))
          (grant_core s.got small above) (by simp only [headerSize] at low; omega)
          fun e inside => (sound.within e (List.mem_append_left _ inside)).2.trans above
      have grown := sound.grow low above (le_coreUnits n).2 list split whole frame
      obtain ⟨fits', length⟩ := fits_of_grown split whole pos (le_coreUnits n).1
      obtain ⟨h', b, takes, done⟩ := list.mallocLoop_takes grant
        ⟨p + headerSize * coreUnits n, s.got + coreUnits n, []⟩ pos fits'
      obtain ⟨size, apart, bs'', after⟩ := grown.take pos takes
      refine ⟨_, h', ⟨p + headerSize * coreUnits n, s.got + coreUnits n, []⟩,
        .block size apart after, fun fuel enough => ?_⟩
      obtain ⟨more, rfl⟩ : ∃ more, fuel = more + 1 + bs.length :=
        ⟨fuel - 1 - bs.length, by omega⟩
      rw [again more (by omega)]
      exact done more (by omega)

/-- `sbrk` never returns memory that it has returned before. -/
theorem Sound.malloc_stale (sound : Sound base s bs) (pos : 0 < n) {p : Nat} (stale : p < s.top)
    (short : ∀ e ∈ bs, e.size < n) (fuel : Nat) :
    mallocLoop grant n fuel s.heap.freep (s.heap.mem s.heap.freep).ptr s.heap
      ⟨s.top, s.got, [some p]⟩ = none := by
  have short' : ∀ e ∈ baseBlock base :: bs, e.size < n := List.forall_mem_cons.mpr ⟨pos, short⟩
  obtain ⟨w, reached, size⟩ := sound.list.mallocLoop_none grant
    ⟨s.top, s.got, [some p]⟩ short' fuel
  have core : morecore grant fuel n s.heap ⟨s.top, s.got, [some p]⟩ = none := by
    simp [morecore, grant, Nat.not_le_of_lt stale]
  rw [mallocLoop, if_neg (Nat.not_le_of_lt size), if_pos rfl, core] at reached
  cases done : mallocLoop grant n fuel s.heap.freep (s.heap.mem s.heap.freep).ptr s.heap
      ⟨s.top, s.got, [some p]⟩ with
  | none => rfl
  | some x =>
    rw [mallocLoop_mono done (by omega)] at reached
    cases reached

/-- Whatever `malloc` returns, it is a block of its own or 0. -/
theorem Ready.allocs {fuel nbytes ap : Nat} {h : Heap} {env : Env} (ready : Ready base s)
    (statics : 0 < base) (low : base + headerSize ≤ s.top) (word : nbytes < 2 ^ 32)
    (small : nunits nbytes * headerSize < 2 ^ 31)
    (done : malloc grant base fuel nbytes s.heap ⟨s.top, s.got, [answer]⟩ = some (ap, h, env)) :
    Allocs base (nunits nbytes) { s with heap := initList base s.heap } ap h env := by
  obtain ⟨bs, sound⟩ := ready.listed statics
  by_cases fresh : (∃ e ∈ bs, nunits nbytes ≤ e.size) ∨ ∀ p, answer = some p → s.top ≤ p
  · obtain ⟨ap', h', env', allocs, done'⟩ := sound.malloc statics low (nunits_pos word) small fresh
    have same := (mallocLoop_mono done (Nat.le_max_left _ _)).symm.trans
      (done' _ (Nat.le_max_right fuel _))
    cases same
    exact allocs
  · simp only [not_or, not_exists, not_and, not_forall, Nat.not_le] at fresh
    obtain ⟨short, p, rfl, stale⟩ := fresh
    have none := sound.malloc_stale (nunits_pos word) stale short fuel
    exact absurd (none.symm.trans done) (by simp)

end Malloc

/-! ## Runs -/

/-- The heap is as it should be, and `malloc` and `free` return. -/
structure HeapWorks (base : Nat) (s : State) : Prop where
  ready : Ready base s
  /-- A result other than 0 is a new block with room for the bytes. -/
  result : ∀ fuel nbytes answer s' ap,
    step base s (.malloc fuel nbytes answer) = some (s', .returned ap) → ap ≠ 0 →
    ∃ b, ap = b.start + headerSize ∧ s'.live = b :: s.live ∧
      nbytes + headerSize ≤ headerSize * b.size ∧ ∀ x ∈ s.live, b.Apart headerSize x
  mallocReturns : ∀ nbytes answer, nbytes < 2 ^ 32 → nunits nbytes * headerSize < 2 ^ 31 →
    (∀ p, answer = some p → s.top ≤ p) →
    ∃ fuel r, ∀ more, fuel ≤ more → step base s (.malloc more nbytes answer) = some r
  freeReturns : ∀ b ∈ s.live,
    ∃ fuel r, ∀ more, fuel ≤ more → step base s (.free more (b.start + headerSize)) = some r

/-- `free` is called with fewer than 2^32 units in the heap. -/
def Within (s : State) (e : Event) : Prop := ∀ fuel ap, e = .free fuel ap → s.got < 2 ^ 32

section Runs

variable {base : Nat} {s s' : State} {e : Event} {o : Obs}

theorem Allocs.next {n ap : Nat} {h : Heap} {env : Env} {bs : List Extent}
    (sound : Sound base s bs) (low : base + headerSize ≤ s.top)
    (allocs : Allocs base n s ap h env) : ∃ live, (if ap = 0 then s.live
        else ⟨ap - headerSize, (h.mem (ap - headerSize)).size⟩ :: s.live) = live ∧
      base + headerSize ≤ env.top ∧ (∃ bs', Sound base ⟨h, live, env.top, env.got⟩ bs') ∧
      (ap ≠ 0 → ∃ b, ap = b.start + headerSize ∧ live = b :: s.live ∧ b.size = n ∧
        ∀ x ∈ s.live, b.Apart headerSize x) := by
  cases allocs with
  | refused top got =>
    refine ⟨s.live, if_pos rfl, top ▸ low, ⟨bs, ?_⟩, fun other => absurd rfl other⟩
    rw [top, got]
    exact sound
  | @block b _ _ bs' size apart after =>
    have header : (h.mem b.start).size = b.size := after.headers b List.mem_cons_self
    have bounds := after.within b (List.mem_append_right _ List.mem_cons_self)
    refine ⟨b :: s.live, ?_, ?_, ⟨bs', after⟩, fun _ => ⟨b, rfl, rfl, size, apart⟩⟩
    · rw [if_neg (by simp [headerSize]), Nat.add_sub_cancel, header]
    · exact bounds.1.trans ((start_le_stop b).trans bounds.2)

theorem malloc_step {fuel nbytes : Nat} {answer : Option Nat} (ready : Ready base s)
    (statics : 0 < base) (low : base + headerSize ≤ s.top)
    (taken : step base s (.malloc fuel nbytes answer) = some (s', o)) :
    Ready base s' ∧ base + headerSize ≤ s'.top ∧ ∀ ap, o = .returned ap → ap ≠ 0 →
      ∃ b, ap = b.start + headerSize ∧ s'.live = b :: s.live ∧
        nbytes + headerSize ≤ headerSize * b.size ∧ ∀ x ∈ s.live, b.Apart headerSize x := by
  simp only [step] at taken
  split at taken
  · rename_i request
    obtain ⟨⟨ap, h, env⟩, done, same⟩ := Option.map_eq_some_iff.mp taken
    obtain ⟨bs, sound⟩ := ready.listed statics
    obtain ⟨live, here, low', after, block⟩ :=
      (ready.allocs statics low request.1 request.2 done).next sound low
    dsimp only at here after block same
    rw [here] at same
    cases same
    refine ⟨.inr after, low', fun ap' same other => ?_⟩
    cases same
    obtain ⟨b, start, new, size, apart⟩ := block other
    refine ⟨b, start, new, ?_, apart⟩
    have := request.1
    rw [size]
    simp only [nunits, headerSize]
    omega
  · cases taken

theorem Ready.sound_of_mem {b : Extent} (ready : Ready base s) (inside : b ∈ s.live) :
    ∃ bs, Sound base s bs := by
  rcases ready with ⟨-, empty, -⟩ | sound
  · rw [empty] at inside
    cases inside
  · exact sound

theorem free_step {fuel ap : Nat} (ready : Ready base s)
    (small : s.got < 2 ^ 32) (taken : step base s (.free fuel ap) = some (s', o)) :
    Ready base s' ∧ s'.top = s.top := by
  simp only [step] at taken
  split at taken
  · cases taken
  · rename_i b found
    have inside := List.mem_of_find?_eq_some found
    obtain rfl : b.start + headerSize = ap := by simpa using List.find?_some found
    obtain ⟨h, done, same⟩ := Option.map_eq_some_iff.mp taken
    cases same
    obtain ⟨bs, sound⟩ := ready.sound_of_mem inside
    obtain ⟨h', bs', freed, after⟩ := sound.free inside small
    have same := (free_mono done (Nat.le_max_left fuel (bs.length + 1))).symm.trans
      (freed _ (Nat.le_max_right _ _))
    cases same
    exact ⟨.inr ⟨bs', after⟩, rfl⟩

theorem write_step {addr : Nat} {value : Header} (ready : Ready base s)
    (low : base + headerSize ≤ s.top) (taken : step base s (.write addr value) = some (s', o)) :
    Ready base s' ∧ s'.top = s.top := by
  simp only [step] at taken
  split at taken
  · cases taken
    refine ⟨?_, rfl⟩
    rcases ready with fresh | ⟨bs, sound⟩
    · exact .inl fresh
    · exact .inr ⟨bs, sound.write low value ‹_›⟩
  · cases taken

theorem ready_step (statics : 0 < base) (ready : Ready base s) (low : base + headerSize ≤ s.top)
    (small : Within s e) (taken : step base s e = some (s', o)) :
    Ready base s' ∧ base + headerSize ≤ s'.top := by
  cases e with
  | malloc fuel nbytes answer =>
    obtain ⟨ready', low', -⟩ := malloc_step ready statics low taken
    exact ⟨ready', low'⟩
  | free fuel ap =>
    obtain ⟨ready', top⟩ := free_step ready (small fuel ap rfl) taken
    exact ⟨ready', top ▸ low⟩
  | write addr value =>
    obtain ⟨ready', top⟩ := write_step ready low taken
    exact ⟨ready', top ▸ low⟩

/-- The loop of `free` ends for every block of the program. -/
theorem Ready.freeReturns (ready : Ready base s) {b : Extent} (inside : b ∈ s.live) :
    ∃ fuel r, ∀ more, fuel ≤ more → step base s (.free more (b.start + headerSize)) = some r := by
  obtain ⟨bs, sound⟩ := ready.sound_of_mem inside
  obtain ⟨l, p, r, split, below, -, after⟩ := sound.place inside
  have found : (s.live.find? fun x => x.start + headerSize == b.start + headerSize).isSome := by
    rw [List.find?_isSome]
    exact ⟨b, inside, beq_self_eq_true _⟩
  obtain ⟨x, found⟩ := Option.isSome_iff_exists.mp found
  refine ⟨bs.length + 1, ({ s with
    heap := freeLink s.heap b.start p.start
    live := s.live.erase x }, .silent), fun more enough => ?_⟩
  have place := sound.list.freeLoop_eq split below (fun e later => (after e later).1) enough
  simp only [step, found]
  rw [Malloc.free, Nat.add_sub_cancel, place]
  rfl

theorem Ready.works (ready : Ready base s) (statics : 0 < base) (low : base + headerSize ≤ s.top) :
    HeapWorks base s where
  ready := ready
  result := fun fuel nbytes answer s' ap taken =>
    (malloc_step ready statics low taken).2.2 ap rfl
  mallocReturns := by
    intro nbytes answer word small fresh
    obtain ⟨bs, sound⟩ := ready.listed statics
    obtain ⟨ap, h, env, -, done⟩ := sound.malloc statics low (nunits_pos word) small (.inr fresh)
    refine ⟨2 * bs.length + 3, ({
      heap := h
      live := if ap = 0 then s.live
        else ⟨ap - headerSize, (h.mem (ap - headerSize)).size⟩ :: s.live
      top := env.top
      got := env.got }, .returned ap), fun more enough => ?_⟩
    have done : malloc grant base more nbytes s.heap ⟨s.top, s.got, [answer]⟩ = some (ap, h, env) :=
      done more enough
    simp only [step]
    rw [if_pos ⟨word, small⟩, done]
    rfl
  freeReturns := fun b inside => ready.freeReturns inside

end Runs

/-- In a run that has fewer than 2^32 units whenever it calls `free`, the heap works. -/
theorem heapWorks_of_within {base top : Nat} {mem : Nat → Header} {tr : List (Event × Obs)}
    (statics : 0 < base) (low : base + headerSize ≤ top)
    (small : (machine base).Throughout (start mem top) tr Within) :
    (machine base).Always (start mem top) tr fun _ s => HeapWorks base s := by
  intro pre s inside run
  have both : Ready base s ∧ base + headerSize ≤ s.top :=
    run.invariant (fun _ s => Ready base s ∧ base + headerSize ≤ s.top) (small.of_prefix inside)
      ⟨.inl ⟨rfl, rfl, rfl⟩, low⟩
      fun _ _ _ _ _ _ both ok taken => ready_step statics both.1 both.2 ok taken
  exact both.1.works statics both.2

/-- Memory as the kernel hands it out. -/
def zeroed : Nat → Header := fun _ => ⟨0, 0⟩

/-- The program gets three blocks, of which the last needs memory that does not continue the
    first one, is refused a fourth, and gives all back. -/
def mallocRun : List (Event × Obs) :=
  [(.malloc 9 100 (some 4096), .returned 69520), (.malloc 9 24 none, .returned 69472),
    (.malloc 9 65536 (some 131072), .returned 131088), (.malloc 9 65536 none, .returned 0),
    (.write 69480 ⟨1, 2⟩, .silent), (.free 9 69520, .silent), (.free 9 131088, .silent),
    (.free 9 69472, .silent)]

theorem heapWorks_mallocRun : ∃ s, (machine 16).Run (start zeroed 4096) mallocRun s ∧
    s.got = 8193 ∧ s.heap.mem 4096 = ⟨131072, 4096⟩ ∧
    (machine 16).Always (start zeroed 4096) mallocRun fun _ s => HeapWorks 16 s := by
  have ran : ((machine 16).exec (start zeroed 4096) (mallocRun.map Prod.fst)).map
      (fun r => (r.1, r.2.got, r.2.heap.mem 4096)) = some (mallocRun, 8193, ⟨131072, 4096⟩) := by
    decide +kernel
  obtain ⟨s, run, seen⟩ := Lib.Machine.run_of_exec (fun s : State => (s.got, s.heap.mem 4096)) ran
  have test : (machine 16).allows (fun s _ => decide (s.got < 2 ^ 32)) (start zeroed 4096)
      (mallocRun.map Prod.fst) = true := by decide +kernel
  have small : (machine 16).Throughout (start zeroed 4096) mallocRun Within :=
    fun pre u e o inside earlier fuel ap _ =>
      of_decide_eq_true (Lib.Machine.throughout_of_allows test pre u e o inside earlier)
  simp only [Prod.mk.injEq] at seen
  exact ⟨s, run, seen.1, seen.2, heapWorks_of_within (by decide) (by decide) small⟩

/-- 33 blocks of nearly 2 GiB, one above the other, which the program gives back. -/
def hugeRun : List (Event × Obs) :=
  let block (i : Nat) : Nat := 4096 + i * (2 ^ 31 - 16)
  (List.range 33).map (fun i =>
      (.malloc 9 (2 ^ 31 - 32) (some (block i)), .returned (block i + headerSize))) ++
    (List.range 33).map fun i => (.free 9 (block i + headerSize), .silent)

/-- The size of the one free block has wrapped around: most of the memory is lost. -/
theorem not_heapWorks_hugeRun : ∃ s, (machine 16).Run (start zeroed 4096) hugeRun s ∧
    s.live = [] ∧ s.got = 33 * (2 ^ 27 - 1) ∧ s.heap.mem 16 = ⟨4096, 0⟩ ∧
    s.heap.mem 4096 = ⟨16, 2 ^ 27 - 33⟩ ∧ ¬ HeapWorks 16 s := by
  have ran : ((machine 16).exec (start zeroed 4096) (hugeRun.map Prod.fst)).map
      (fun r => (r.1, (r.2.live, r.2.got), (r.2.heap.mem 16, r.2.heap.mem 4096))) =
      some (hugeRun, ([], 33 * (2 ^ 27 - 1)), (⟨4096, 0⟩, ⟨16, 2 ^ 27 - 33⟩)) := by decide +kernel
  obtain ⟨s, run, seen⟩ := Lib.Machine.run_of_exec (fun s : State =>
    ((s.live, s.got), (s.heap.mem 16, s.heap.mem 4096))) ran
  simp only [Prod.mk.injEq] at seen
  obtain ⟨⟨live, got⟩, base, block⟩ := seen
  refine ⟨s, run, live, got, base, block, fun works => ?_⟩
  rcases works.ready with ⟨-, -, zero⟩ | ⟨bs, sound⟩
  · rw [got] at zero
    cases zero
  · have sum := sound.sum
    obtain ⟨start, linked⟩ := sound.list.linked
    have after := (gapped_cons.mp sound.list.order).1
    rw [show (baseBlock 16).start = 16 from rfl, base, Header.mk.injEq] at start
    -- the list has one block, whose header tells its size
    obtain ⟨b, rest, rfl⟩ : ∃ b rest, bs = b :: rest := by
      cases bs with
      | nil => cases start.1
      | cons b rest => exact ⟨b, rest, rfl⟩
    obtain ⟨here, -⟩ := linked
    rw [show b.start = 4096 from start.1.symm, block, Header.mk.injEq] at here
    have empty : rest = [] := by
      cases rest with
      | nil => rfl
      | cons x rest =>
          have beyond := after x (by simp)
          rw [show x.start = 16 from here.1.symm] at beyond
          exact absurd beyond (Nat.lt_irrefl _)
    simp only [empty, live, got, units_cons, units_nil, ← here.2] at sum
    omega

end Xv6.User.Malloc
