import Xv6.User.Malloc

/-! # The free list

The headers link `base` and the free blocks in the order of their addresses, the last one
back to `base`; `freep` is somewhere in the list. `free` finds the place of a block from
there, and `malloc` a block that is large enough, or `freep` again.
-/

namespace Xv6.User.Malloc

open Lib Extent Function

/-! ## Linked blocks -/

/-- Where blocks that are linked to `z` start. -/
def first : List Extent → Nat → Nat
  | [], z => z
  | e :: _, _ => e.start

@[simp] theorem first_nil (z : Nat) : first [] z = z := rfl

@[simp] theorem first_cons (e : Extent) (es : List Extent) (z : Nat) :
    first (e :: es) z = e.start :=
  rfl

theorem first_append (xs ys : List Extent) (z : Nat) :
    first (xs ++ ys) z = first xs (first ys z) := by
  cases xs <;> rfl

theorem first_mem (es : List Extent) (z : Nat) :
    first es z = z ∨ ∃ e ∈ es, first es z = e.start := by
  cases es with
  | nil => exact .inl rfl
  | cons e es => exact .inr ⟨e, List.mem_cons_self, rfl⟩

/-- The headers link the blocks one after the other, and the last one to `z`. -/
def Seg (mem : Nat → Header) : List Extent → Nat → Prop
  | [], _ => True
  | e :: es, z => mem e.start = ⟨first es z, e.size⟩ ∧ Seg mem es z

section Seg

variable {mem mem' : Nat → Header} {xs ys es : List Extent} {x : Extent} {z : Nat}

@[simp] theorem seg_nil : Seg mem [] z := trivial

@[simp] theorem seg_cons :
    Seg mem (x :: es) z ↔ mem x.start = ⟨first es z, x.size⟩ ∧ Seg mem es z :=
  Iff.rfl

theorem seg_append : Seg mem (xs ++ ys) z ↔ Seg mem xs (first ys z) ∧ Seg mem ys z := by
  induction xs with
  | nil => simp
  | cons x xs ih => simp only [List.cons_append, seg_cons, ih, first_append, and_assoc]

theorem Seg.congr (seg : Seg mem es z) (same : ∀ e ∈ es, mem' e.start = mem e.start) :
    Seg mem' es z := by
  induction es with
  | nil => trivial
  | cons e es ih =>
    refine ⟨?_, ih seg.2 fun e' inside => same e' (List.mem_cons_of_mem _ inside)⟩
    rw [same e List.mem_cons_self]
    exact seg.1

theorem Seg.size (seg : Seg mem es z) (inside : x ∈ es) : (mem x.start).size = x.size := by
  induction es with
  | nil => cases inside
  | cons e es ih =>
    rcases List.mem_cons.mp inside with rfl | inside
    · rw [seg.1]
    · exact ih seg.2 inside

theorem Seg.rotate (seg : Seg mem (xs ++ x :: ys) (first (xs ++ x :: ys) z)) :
    Seg mem (x :: (ys ++ xs)) x.start := by
  obtain ⟨before, after⟩ := seg_append.mp seg
  have start : first (xs ++ x :: ys) z = first xs x.start := first_append _ _ _
  rw [start] at after
  rw [← List.cons_append]
  exact seg_append.mpr ⟨after, before⟩

end Seg

/-! ## The list -/

/-- The block that is always in the list. -/
def baseBlock (base : Nat) : Extent := ⟨base, 0⟩

structure FreeList (base : Nat) (h : Heap) (bs : List Extent) : Prop where
  linked : Seg h.mem (baseBlock base :: bs) base
  order : Gapped headerSize (baseBlock base :: bs)
  freep : ∃ e ∈ baseBlock base :: bs, h.freep = e.start

section Order

variable {es l r : List Extent} {e p x y : Extent}

theorem gapped_start (order : Gapped headerSize (l ++ x :: r)) :
    (∀ e ∈ l, e.start < x.start) ∧ ∀ e ∈ r, x.start < e.start := by
  obtain ⟨-, right, between⟩ := gapped_append.mp order
  obtain ⟨far, -⟩ := gapped_cons.mp right
  exact ⟨fun e early => Nat.lt_of_le_of_lt (start_le_stop e) (between e early x List.mem_cons_self),
    fun e later => Nat.lt_of_le_of_lt (start_le_stop x) (far e later)⟩

/-- Two blocks of the list that start at one place are one. -/
theorem eq_of_start (order : Gapped headerSize es) (here : x ∈ es) (there : y ∈ es)
    (same : x.start = y.start) : x = y := by
  obtain ⟨l, r, rfl⟩ := List.append_of_mem here
  obtain ⟨before, after⟩ := gapped_start order
  rcases List.mem_append.mp there with early | there
  · exact absurd same (Nat.ne_of_gt (before y early))
  · rcases List.mem_cons.mp there with rfl | later
    · rfl
    · exact absurd same (Nat.ne_of_lt (after y later))

/-- The last block below an address that no block starts at. -/
theorem exists_last_below {bp : Nat} (order : Gapped headerSize (e :: es)) (low : e.start < bp)
    (other : ∀ x ∈ es, x.start ≠ bp) :
    ∃ l p r, e :: es = l ++ p :: r ∧ p.start < bp ∧ ∀ x ∈ r, bp < x.start := by
  induction es generalizing e with
  | nil => exact ⟨[], e, [], rfl, low, by simp⟩
  | cons e' es ih =>
    obtain ⟨-, rest⟩ := gapped_cons.mp order
    rcases Nat.lt_or_gt_of_ne (other e' List.mem_cons_self) with below | above
    · obtain ⟨l, p, r, split, low', high⟩ := ih rest below fun x inside =>
        other x (List.mem_cons_of_mem _ inside)
      exact ⟨e :: l, p, r, by rw [split, List.cons_append], low', high⟩
    · refine ⟨[], e, e' :: es, rfl, low, fun x inside => ?_⟩
      rcases List.mem_cons.mp inside with rfl | inside
      · exact above
      · exact above.trans ((gapped_start (l := []) rest).2 x inside)

end Order

namespace FreeList

variable {base : Nat} {h : Heap} {bs l r : List Extent} {p : Extent}

theorem header (list : FreeList base h bs) (split : baseBlock base :: bs = l ++ p :: r) :
    h.mem p.start = ⟨first r base, p.size⟩ := by
  have linked := list.linked
  rw [split] at linked
  exact (seg_append.mp linked).2.1

theorem base_le (list : FreeList base h bs) : ∀ e ∈ baseBlock base :: bs, base ≤ e.start := by
  intro e inside
  rcases List.mem_cons.mp inside with rfl | inside
  · exact le_rfl
  · exact ((gapped_start (l := []) list.order).2 e inside).le

end FreeList

/-! ## The loop of `free` -/

/-- The loop stops at `p`. -/
def Exits (mem : Nat → Header) (bp p : Nat) : Prop :=
  p < bp ∧ bp < (mem p).ptr ∨ (mem p).ptr ≤ p ∧ (p < bp ∨ bp < (mem p).ptr)

section FreeLoop

variable {mem : Nat → Header} {bp p z fuel : Nat} {es : List Extent}

theorem freeLoop_exits (exits : Exits mem bp p) : freeLoop mem bp (fuel + 1) p = some p := by
  rw [freeLoop]
  rcases exits with inner | wrap
  · rw [if_pos inner]
  · rw [if_pos wrap, ite_self]

theorem freeLoop_next (goes : ¬ Exits mem bp p) :
    freeLoop mem bp (fuel + 1) p = freeLoop mem bp fuel (mem p).ptr := by
  rw [Exits, not_or] at goes
  rw [freeLoop, if_neg goes.1, if_neg goes.2]

theorem freeLoop_seg (fuel : Nat) (seg : Seg mem es z) (goes : ∀ e ∈ es, ¬ Exits mem bp e.start) :
    freeLoop mem bp (fuel + es.length) (first es z) = freeLoop mem bp fuel z := by
  induction es with
  | nil => rfl
  | cons e es ih =>
    rw [List.length_cons, ← Nat.add_assoc, first_cons, freeLoop_next (goes e List.mem_cons_self),
      seg.1]
    exact ih seg.2 fun e' inside => goes e' (List.mem_cons_of_mem _ inside)

end FreeLoop

namespace FreeList

variable {base bp : Nat} {h : Heap} {bs l r : List Extent} {p : Extent}

section Place

variable (list : FreeList base h bs) (split : baseBlock base :: bs = l ++ p :: r)
  (below : p.start < bp) (above : ∀ e ∈ r, bp < e.start)

include list split below above

theorem exits_at : Exits h.mem bp p.start := by
  rw [Exits, list.header split]
  cases r with
  | nil => exact .inr ⟨list.base_le p (by rw [split]; simp), .inl below⟩
  | cons q r => exact .inl ⟨below, above q List.mem_cons_self⟩

omit above in
theorem goes_before : ∀ e ∈ l, ¬ Exits h.mem bp e.start := by
  intro e early
  obtain ⟨l₁, l₂, rfl⟩ := List.append_of_mem early
  rw [List.append_assoc, List.cons_append] at split
  have order := list.order
  rw [split] at order
  have after := (gapped_start order).2
  rw [Exits, list.header split, first_append, first_cons]
  -- the next block is not beyond `p`
  have next : e.start < first l₂ p.start ∧ first l₂ p.start ≤ p.start := by
    rcases first_mem l₂ p.start with same | ⟨y, inside, same⟩
    · rw [same]
      exact ⟨after p (by simp), le_rfl⟩
    · rw [same]
      refine ⟨after y (by simp [inside]), ?_⟩
      obtain ⟨-, right, -⟩ := gapped_append.mp order
      exact ((gapped_start (gapped_cons.mp right).2).1 y inside).le
  dsimp only
  omega

theorem goes_after : ∀ e ∈ r, ¬ Exits h.mem bp e.start := by
  intro e later
  have high := above e later
  obtain ⟨r₁, r₂, rfl⟩ := List.append_of_mem later
  have split' : baseBlock base :: bs = (l ++ p :: r₁) ++ e :: r₂ := by rw [split]; simp
  have order := list.order
  rw [split'] at order
  have after := (gapped_start order).2
  have low := list.base_le p (by rw [split]; simp)
  rw [Exits, list.header split']
  rcases first_mem r₂ base with same | ⟨y, inside, same⟩
  · simp only [same]
    omega
  · have := after y inside
    simp only [same]
    omega

/-- The loop finds the place of a block from wherever it starts in the list. -/
theorem freeLoop_eq {fuel : Nat} (enough : bs.length < fuel) :
    freeLoop h.mem bp fuel h.freep = some p.start := by
  have stop := list.exits_at split below above
  have before := list.goes_before split below
  have after := list.goes_after split below above
  have linked := list.linked
  have size : bs.length + 1 = l.length + (r.length + 1) := by
    simpa using congrArg List.length split
  rw [split] at linked
  obtain ⟨left, right⟩ := seg_append.mp linked
  rw [first_cons] at left
  obtain ⟨e, inside, start⟩ := list.freep
  rw [split] at inside
  rw [start]
  have reach : ∀ {fuel : Nat} (l₁ : List Extent), l₁ <:+ l → l₁.length < fuel →
      freeLoop h.mem bp fuel (first l₁ p.start) = some p.start := by
    intro fuel l₁ part enough
    obtain ⟨l₀, rfl⟩ := part
    obtain ⟨more, rfl⟩ : ∃ more, fuel = more + 1 + l₁.length := ⟨fuel - 1 - l₁.length, by omega⟩
    rw [freeLoop_seg _ (seg_append.mp left).2 fun e inside =>
      before e (List.mem_append_right _ inside), freeLoop_exits stop]
  rcases List.mem_append.mp inside with early | inside
  · obtain ⟨l₁, l₂, rfl⟩ := List.append_of_mem early
    exact reach (e :: l₂) (List.suffix_append _ _) (by simp at size ⊢; omega)
  · rcases List.mem_cons.mp inside with rfl | later
    · exact reach [] List.nil_suffix (by simp; omega)
    · -- around the end of the list
      obtain ⟨r₁, r₂, rfl⟩ := List.append_of_mem later
      have tail : Seg h.mem (e :: r₂) base := (seg_append.mp right.2).2
      obtain ⟨more, rfl⟩ : ∃ more, fuel = more + (e :: r₂).length :=
        ⟨fuel - (e :: r₂).length, by simp at size ⊢; omega⟩
      have around := freeLoop_seg more tail fun e' inside =>
        after e' (List.mem_append_right _ inside)
      rw [first_cons] at around
      have whole : first l p.start = base := by
        have := congrArg (first · base) split
        simpa [first_append, baseBlock] using this.symm
      rw [around, ← whole]
      exact reach l List.suffix_rfl (by simp at size enough; omega)

end Place

end FreeList

/-! ## `free` -/

/-- `x` is linked to `y`, or takes it in if they touch. -/
def attach (h : Heap) (x y : Nat) : Heap :=
  if offset x (h.mem x).size = y then
    (h.setSize x (((h.mem x).size + (h.mem y).size) % 2 ^ 32)).setPtr x (h.mem y).ptr
  else h.setPtr x y

theorem freeLink_eq {h : Heap} {bp p : Nat} (other : p ≠ bp) (ahead : (h.mem p).ptr ≠ bp) :
    freeLink h bp p = { attach (attach h bp (h.mem p).ptr) p bp with freep := p } := by
  have left : (h.setSize bp (((h.mem bp).size + (h.mem (h.mem p).ptr).size) % 2 ^ 32)).mem p =
      h.mem p := update_of_ne other _ _
  have right : (h.setSize bp (((h.mem bp).size + (h.mem (h.mem p).ptr).size) % 2 ^ 32)).mem
      (h.mem p).ptr = h.mem (h.mem p).ptr := update_of_ne ahead _ _
  have first : (if offset bp (h.mem bp).size = (h.mem p).ptr then
        let h := h.setSize bp (((h.mem bp).size + (h.mem (h.mem p).ptr).size) % 2 ^ 32)
        h.setPtr bp (h.mem (h.mem p).ptr).ptr
      else h.setPtr bp (h.mem p).ptr) = attach h bp (h.mem p).ptr := by
    simp only [attach, left, right]
  have second : ∀ g : Heap, (if offset p (g.mem p).size = bp then
        let h := g.setSize p (((g.mem p).size + (g.mem bp).size) % 2 ^ 32)
        h.setPtr p (h.mem bp).ptr
      else g.setPtr p bp) = attach g p bp := by
    intro g
    have same : (g.setSize p (((g.mem p).size + (g.mem bp).size) % 2 ^ 32)).mem bp = g.mem bp :=
      update_of_ne other.symm _ _
    simp only [attach, same]
  unfold freeLink
  simp only [first, second]

theorem attach_of_ne (h : Heap) {x y a : Nat} (other : a ≠ x) : (attach h x y).mem a = h.mem a := by
  unfold attach
  split <;> simp [Heap.setPtr, Heap.setSize, other]

theorem attach_seg {h : Heap} {x : Extent} {ys : List Extent} {z : Nat} (seg : Seg h.mem ys z)
    (size : (h.mem x.start).size = x.size) (fresh : ∀ y ∈ ys, y.start ≠ x.start)
    (ends : ys = [] → x.stop headerSize ≠ z) (small : x.size + units ys < 2 ^ 32) :
    Seg (attach h x.start (first ys z)).mem (join headerSize x ys) z := by
  have others : ∀ {es : List Extent}, es <:+ ys → Seg h.mem es z →
      Seg (attach h x.start (first ys z)).mem es z := fun part seg =>
    seg.congr fun e inside => attach_of_ne h (fresh e (part.subset inside))
  cases ys with
  | nil =>
    have apart : offset x.start x.size ≠ z := ends rfl
    simp [join, attach, size, apart, Heap.setPtr]
  | cons y ys =>
    have next : (h.mem y.start).size = y.size := by rw [seg.1]
    have link : (h.mem y.start).ptr = first ys z := by rw [seg.1]
    rw [first_cons] at others ⊢
    rw [join]
    split
    · rename_i touch
      have adjacent : offset x.start x.size = y.start := touch
      refine ⟨?_, others (List.suffix_cons _ _) seg.2⟩
      have room : (x.size + y.size) % 2 ^ 32 = x.size + y.size := by
        refine Nat.mod_eq_of_lt ?_
        simp only [units_cons] at small
        omega
      have taken : (attach h x.start y.start).mem x.start =
          ⟨(h.mem y.start).ptr, ((h.mem x.start).size + (h.mem y.start).size) % 2 ^ 32⟩ := by
        rw [attach, size, if_pos adjacent]
        simp only [Heap.setPtr, Heap.setSize, update_self]
      rw [taken, size, next, link, room]
    · rename_i apart
      have adjacent : offset x.start x.size ≠ y.start := apart
      refine ⟨?_, others List.suffix_rfl seg⟩
      simp [attach, size, adjacent, Heap.setPtr]

namespace FreeList

variable {base : Nat} {h : Heap} {bs l r : List Extent} {p b : Extent}

/-- `base` takes no block in, so it stays the first of the list. -/
theorem join_base (split : baseBlock base :: bs = l ++ p :: r) (low : base < b.start) :
    ∃ bs', baseBlock base :: bs' = l ++ join headerSize p (join headerSize b r) := by
  cases l with
  | nil =>
    simp only [List.nil_append, List.cons.injEq] at split
    obtain ⟨rfl, rfl⟩ := split
    obtain ⟨n, rest, joined, -⟩ := join_eq_cons headerSize b bs
    refine ⟨join headerSize b bs, ?_⟩
    rw [List.nil_append, joined, join, if_neg]
    exact Nat.ne_of_lt low
  | cons e l =>
    simp only [List.cons_append, List.cons.injEq] at split
    obtain ⟨rfl, -⟩ := split
    exact ⟨_, rfl⟩

/-- What is true of the blocks of the list and of the new one, and is kept by coalescing, is
    true of the new list. -/
theorem forall_inserted {Q : Extent → Prop}
    (merge : ∀ x y, Q x → Q y → x.stop headerSize = y.start → Q ⟨x.start, x.size + y.size⟩)
    {bs' : List Extent} (split : baseBlock base :: bs = l ++ p :: r)
    (whole : baseBlock base :: bs' = l ++ join headerSize p (join headerSize b r))
    (low : base < b.start) (olds : ∀ e ∈ bs, Q e) (new : Q b) : ∀ e ∈ bs', Q e := by
  cases l with
  | nil =>
    simp only [List.nil_append, List.cons.injEq] at split whole
    obtain ⟨rfl, rfl⟩ := split
    obtain ⟨n, rest, joined, -⟩ := join_eq_cons headerSize b bs
    have apart : (baseBlock base).stop headerSize ≠ b.start := Nat.ne_of_lt low
    rw [joined, join, if_neg apart, ← joined, List.cons.injEq] at whole
    rw [whole.2]
    exact forall_join merge new olds
  | cons e l =>
    simp only [List.cons_append, List.cons.injEq] at split whole
    obtain ⟨-, rfl⟩ := split
    obtain ⟨-, rfl⟩ := whole
    obtain ⟨early, first, later⟩ : (∀ e ∈ l, Q e) ∧ Q p ∧ ∀ e ∈ r, Q e := by
      simpa [or_imp, forall_and] using olds
    intro e inside
    rcases List.mem_append.mp inside with inside | inside
    · exact early e inside
    · exact forall_join merge first (forall_join merge new later) e inside

/-- `free` of a block that lies between `p` and the blocks after it. -/
theorem free_eq (list : FreeList base h bs) (split : baseBlock base :: bs = l ++ p :: r)
    (size : (h.mem b.start).size = b.size) (solid : 0 < b.size) (low : base < b.start)
    (before : p.stop headerSize ≤ b.start) (apart : p.start ≠ b.start)
    (after : ∀ e ∈ r, b.stop headerSize ≤ e.start)
    (small : p.size + b.size + units r < 2 ^ 32) :
    ∃ h' bs', (∀ fuel, bs.length < fuel → free fuel (b.start + headerSize) h = some h') ∧
      FreeList base h' bs' ∧ baseBlock base :: bs' = l ++ join headerSize p (join headerSize b r) ∧
      ∀ a, a ≠ p.start → a ≠ b.start → h'.mem a = h.mem a := by
  have below : p.start < b.start := Nat.lt_of_le_of_ne ((start_le_stop p).trans before) apart
  have above : ∀ e ∈ r, b.start < e.start := fun e later => by
    have := after e later
    simp only [stop, headerSize] at this
    omega
  have header := list.header split
  have linked := list.linked
  have order := list.order
  rw [split] at linked order
  obtain ⟨left, right⟩ := seg_append.mp linked
  have early := (gapped_start order).1
  have ahead : first r base ≠ b.start := by
    rcases first_mem r base with same | ⟨y, later, same⟩
    · rw [same]
      exact Nat.ne_of_lt low
    · rw [same]
      exact Nat.ne_of_gt (above y later)
  -- the block and what follows it
  have first_seg := attach_seg (x := b) right.2 size (fun y later => Nat.ne_of_gt (above y later))
    (fun _ => Nat.ne_of_gt (Nat.lt_of_lt_of_le low (start_le_stop b))) (by omega)
  obtain ⟨n, rest, joined, -, inside⟩ := join_eq_cons headerSize b r
  have behind : ∀ y ∈ join headerSize b r, p.start < y.start := by
    rw [joined]
    intro y later
    rcases List.mem_cons.mp later with rfl | later
    · exact below
    · exact below.trans (above y (inside.subset later))
  -- `p` and what follows it now
  have second_seg := attach_seg (x := p) first_seg
    (by rw [attach_of_ne h apart, header]) (fun y later => Nat.ne_of_gt (behind y later))
    (fun empty => by rw [joined] at empty; cases empty) (by rw [units_join]; omega)
  have starts : first (join headerSize b r) base = b.start := by rw [joined, first_cons]
  rw [starts] at second_seg
  have frame : ∀ a, a ≠ p.start → a ≠ b.start →
      (attach (attach h b.start (first r base)) p.start b.start).mem a = h.mem a := by
    intro a other other'
    rw [attach_of_ne _ other, attach_of_ne _ other']
  obtain ⟨bs', whole⟩ := join_base (b := b) split low
  obtain ⟨n', rest', joined', -⟩ := join_eq_cons headerSize p (join headerSize b r)
  refine ⟨freeLink h b.start p.start, bs', ?_, ⟨?_, ?_, ?_⟩, whole, ?_⟩
  · intro fuel enough
    rw [free, Nat.add_sub_cancel, list.freeLoop_eq split below above enough]
    rfl
  · rw [whole, freeLink_eq apart (by rw [header]; exact ahead), header]
    refine seg_append.mpr ⟨?_, second_seg⟩
    rw [joined', first_cons]
    exact left.congr fun e inside => frame e.start (Nat.ne_of_lt (early e inside))
      (Nat.ne_of_lt ((early e inside).trans below))
  · rw [whole]
    exact gapped_insert order before after
  · refine ⟨⟨p.start, n'⟩, ?_, rfl⟩
    rw [whole, joined']
    simp
  · rw [freeLink_eq apart (by rw [header]; exact ahead), header]
    exact frame

end FreeList

/-! ## The loop of `malloc` -/

/-- The units that `morecore` asks for. -/
def coreUnits (n : Nat) : Nat := if n < 4096 then 4096 else n

theorem le_coreUnits (n : Nat) : n ≤ coreUnits n ∧ 0 < coreUnits n := by
  unfold coreUnits
  split <;> omega

section MallocLoop

variable {σ : Type} {sbrk : Sbrk σ} {s : σ} {n base : Nat} {h : Heap} {bs l r : List Extent}
  {e p : Extent}

/-- The loop passes blocks that are too small, up to the one after the last of them. -/
theorem mallocLoop_seg (sbrk : Sbrk σ) (s : σ) {x : Extent} {es : List Extent} {z : Nat}
    (seg : Seg h.mem (x :: es) z)
    (pass : ∀ e ∈ es, e.size < n ∧ e.start ≠ h.freep) :
    ∃ w ∈ x :: es, (h.mem w.start).ptr = z ∧ ∀ fuel,
      mallocLoop sbrk n (fuel + es.length) x.start (first es z) h s =
        mallocLoop sbrk n fuel w.start z h s := by
  induction es generalizing x with
  | nil => exact ⟨x, List.mem_cons_self, by rw [seg.1, first_nil], fun fuel => rfl⟩
  | cons e es ih =>
    obtain ⟨w, inside, link, skips⟩ := ih seg.2 fun e' inside =>
      pass e' (List.mem_cons_of_mem _ inside)
    obtain ⟨short, other⟩ := pass e List.mem_cons_self
    refine ⟨w, List.mem_cons_of_mem _ inside, link, fun fuel => ?_⟩
    rw [List.length_cons, ← Nat.add_assoc, first_cons, mallocLoop, seg.2.1,
      if_neg (Nat.not_le_of_lt short), if_neg other]
    exact skips fuel

namespace FreeList

section

variable (list : FreeList base h bs)
include list

theorem from_freep :
    ∃ x vs, h.freep = x.start ∧ (x :: vs).Perm (baseBlock base :: bs) ∧
      Seg h.mem (x :: vs) x.start := by
  obtain ⟨x, inside, start⟩ := list.freep
  obtain ⟨l, r, split⟩ := List.append_of_mem inside
  refine ⟨x, r ++ l, start, ?_, ?_⟩
  · rw [split]
    exact @List.perm_append_comm _ (x :: r) l
  · refine Seg.rotate (z := base) ?_
    rw [← split]
    exact list.linked

theorem pass_freep {x : Extent} {vs : List Extent} (start : h.freep = x.start)
    (perm : (x :: vs).Perm (baseBlock base :: bs)) :
    ∀ e ∈ vs, e.start ≠ h.freep := by
  have distinct : ((x :: vs).map Extent.start).Nodup := by
    refine (perm.map Extent.start).nodup_iff.mpr (List.pairwise_map.mpr ?_)
    exact list.order.imp fun gap => Nat.ne_of_lt (Nat.lt_of_le_of_lt (start_le_stop _) gap)
  rw [List.map_cons, List.nodup_cons] at distinct
  intro e inside same
  exact distinct.1 (List.mem_map.mpr ⟨e, inside, same.trans start⟩)

/-- The loop comes to the first block, from `freep` on, that is large enough. -/
theorem mallocLoop_fits (sbrk : Sbrk σ) (s : σ) (fits : ∃ e ∈ baseBlock base :: bs, n ≤ e.size) :
    ∃ e ∈ baseBlock base :: bs, ∃ w ∈ baseBlock base :: bs, n ≤ e.size ∧
      (h.mem w.start).ptr = e.start ∧ ∀ fuel, bs.length < fuel → ∃ more,
        mallocLoop sbrk n fuel h.freep (h.mem h.freep).ptr h s =
          mallocLoop sbrk n (more + 1) w.start e.start h s := by
  obtain ⟨x, vs, start, perm, seg⟩ := list.from_freep
  have others := list.pass_freep start perm
  have length : vs.length = bs.length := by simpa using perm.length_eq
  obtain ⟨f, inside, large⟩ := fits
  have found : ((vs ++ [x]).find? fun e => decide (n ≤ e.size)).isSome := by
    rw [List.find?_isSome]
    refine ⟨f, ?_, by simpa using large⟩
    simpa [or_comm] using perm.mem_iff.mpr inside
  obtain ⟨e, found⟩ := Option.isSome_iff_exists.mp found
  obtain ⟨enough, before, after, split, short⟩ := List.find?_eq_some_iff_append.mp found
  simp only [decide_eq_true_eq, Bool.not_eq_true', decide_eq_false_iff_not,
    Nat.not_le] at enough short
  have place : before = vs ∧ e = x ∨ ∃ rest, vs = before ++ e :: rest := by
    rcases List.eq_nil_or_concat after with rfl | ⟨rest, y, rfl⟩
    · obtain ⟨same, last⟩ := List.append_inj' split rfl
      exact .inl ⟨same.symm, by simpa using last.symm⟩
    · rw [List.concat_eq_append, ← List.cons_append, ← List.append_assoc] at split
      exact .inr ⟨rest, (List.append_inj' split rfl).1⟩
  have inVs : ∀ w ∈ before, w ∈ vs := by
    rcases place with ⟨rfl, -⟩ | ⟨rest, rfl⟩
    · exact fun w inside => inside
    · exact fun w inside => List.mem_append_left _ inside
  have path : Seg h.mem (x :: before) e.start := by
    rcases place with ⟨rfl, rfl⟩ | ⟨rest, rfl⟩
    · exact seg
    · rw [← List.cons_append] at seg
      exact (seg_append.mp seg).1
  obtain ⟨w, visited, link, skips⟩ := mallocLoop_seg sbrk s path fun e' inside =>
    ⟨short e' inside, others e' (inVs e' inside)⟩
  refine ⟨e, ?_, w, ?_, enough, link, fun fuel big => ?_⟩
  · refine perm.mem_iff.mp ?_
    have : e ∈ vs ++ [x] := by rw [split]; simp
    simpa [or_comm] using this
  · refine perm.mem_iff.mp ?_
    rcases List.mem_cons.mp visited with rfl | visited
    · exact List.mem_cons_self
    · exact List.mem_cons_of_mem _ (inVs w visited)
  · have short' : before.length ≤ vs.length := by
      have := congrArg List.length split
      simp at this
      omega
    refine ⟨fuel - 1 - before.length, ?_⟩
    have ptr : (h.mem h.freep).ptr = first before e.start := by rw [start, path.1]
    rw [← skips, ptr, start]
    congr 1
    omega

/-- The loop comes back to `freep` if no block is large enough. -/
theorem mallocLoop_none (sbrk : Sbrk σ) (s : σ) (short : ∀ e ∈ baseBlock base :: bs, e.size < n)
    (fuel : Nat) :
    ∃ w, mallocLoop sbrk n (fuel + 1 + bs.length) h.freep (h.mem h.freep).ptr h s =
        mallocLoop sbrk n (fuel + 1) w h.freep h s ∧ (h.mem h.freep).size < n := by
  obtain ⟨x, vs, start, perm, seg⟩ := list.from_freep
  have others := list.pass_freep start perm
  have length : vs.length = bs.length := by simpa using perm.length_eq
  obtain ⟨w, -, -, skips⟩ := mallocLoop_seg sbrk s seg fun e inside =>
    ⟨short e (perm.mem_iff.mp (List.mem_cons_of_mem _ inside)), others e inside⟩
  refine ⟨w.start, ?_, ?_⟩
  · rw [start, seg.1, ← length]
    exact skips (fuel + 1)
  · rw [start, seg.1]
    exact short x (perm.mem_iff.mp List.mem_cons_self)

/-- The block that is linked to a block of the list is the one before it. -/
theorem eq_pred {w v : Extent} {t : List Extent}
    (split : baseBlock base :: bs = l ++ w :: e :: t) (inside : v ∈ baseBlock base :: bs)
    (link : (h.mem v.start).ptr = e.start) : v = w := by
  have order := list.order
  rw [split] at order inside
  have before := (gapped_start order).1
  have next : w.start < e.start := (gapped_start order).2 e List.mem_cons_self
  rcases List.mem_append.mp inside with early | inside
  · obtain ⟨l₁, l₂, rfl⟩ := List.append_of_mem early
    rw [list.header (l := l₁) (r := l₂ ++ w :: e :: t) (by rw [split]; simp), first_append,
      first_cons] at link
    dsimp only at link
    rcases first_mem l₂ w.start with same | ⟨y, there, same⟩
    · omega
    · have := before y (by simp [there])
      omega
  · rcases List.mem_cons.mp inside with rfl | later
    · rfl
    · obtain ⟨t₁, t₂, later⟩ := List.append_of_mem later
      have split' : baseBlock base :: bs = (l ++ w :: t₁) ++ v :: t₂ := by rw [split, later]; simp
      have order' := list.order
      rw [split'] at order'
      rw [list.header split'] at link
      dsimp only at link
      have low : base ≤ w.start := list.base_le w (by rw [split]; simp)
      have here : e.start ≤ v.start := by
        cases t₁ with
        | nil =>
          cases later
          exact le_rfl
        | cons y t₁ =>
          cases later
          exact ((gapped_start order').1 e (by simp)).le
      rcases first_mem t₂ base with same | ⟨y, there, same⟩
      · omega
      · have := (gapped_start order').2 y there
        omega

theorem unlink {w : Extent} {t bs' : List Extent}
    (split : baseBlock base :: bs = l ++ w :: e :: t)
    (rest : baseBlock base :: bs' = l ++ w :: t) :
    FreeList base { h.setPtr w.start (h.mem e.start).ptr with freep := w.start } bs' := by
  have linked := list.linked
  have order := list.order
  rw [split] at linked order
  obtain ⟨left, here, next, right⟩ := seg_append.mp linked
  obtain ⟨before, after⟩ := gapped_start order
  refine ⟨?_, ?_, w, by rw [rest]; simp, rfl⟩
  · rw [rest]
    refine seg_append.mpr ⟨left.congr fun x early => ?_, ?_, right.congr fun x later => ?_⟩
    · exact update_of_ne (Nat.ne_of_lt (before x early)) _ _
    · simp [Heap.setPtr, here, next]
    · exact update_of_ne (Nat.ne_of_gt (after x (List.mem_cons_of_mem _ later))) _ _
  · rw [rest]
    exact order.sublist (List.Sublist.append_left (.cons_cons _ (List.sublist_cons_self _ _)) _)

end

/-- `e` loses its last units, which get a header of their own. -/
theorem shrink (list : FreeList base h (l ++ e :: r)) {w : Extent}
    (inside : w ∈ baseBlock base :: (l ++ e :: r)) (pos : 0 < n) (less : n < e.size) :
    FreeList base { (h.setSize e.start (e.size - n)).setSize (carved headerSize n e).start n with
      freep := w.start } (l ++ ⟨e.start, e.size - n⟩ :: r) := by
  have inner : e.start < (carved headerSize n e).start ∧
      (carved headerSize n e).start < e.stop headerSize := by
    simp only [carved, stop, headerSize]
    omega
  have linked := list.linked
  have order := list.order
  rw [← List.cons_append] at linked order
  obtain ⟨left, here, right⟩ := seg_append.mp linked
  obtain ⟨-, tail, -⟩ := gapped_append.mp order
  obtain ⟨far, -⟩ := gapped_cons.mp tail
  obtain ⟨before, -⟩ := gapped_start order
  have outside : ∀ a, a < e.start ∨ e.stop headerSize ≤ a →
      ((h.setSize e.start (e.size - n)).setSize (carved headerSize n e).start n).mem a =
      h.mem a := by
    intro a out
    have other : a ≠ e.start ∧ a ≠ (carved headerSize n e).start := by
      have : e.start ≤ e.stop headerSize := start_le_stop e
      omega
    simp [Heap.setSize, other]
  refine ⟨?_, ?_, ?_⟩
  · rw [← List.cons_append]
    refine seg_append.mpr ⟨left.congr fun x early => ?_, ?_, right.congr fun x later => ?_⟩
    · exact outside _ (.inl (before x early))
    · simp [Heap.setSize, inner.1.ne, here]
    · exact outside _ (.inr (far x later).le)
  · have carved := gapped_carve (n := n) order
    rwa [carve, if_neg less.ne'] at carved
  · simp only [List.mem_cons, List.mem_append] at inside ⊢
    rcases inside with rfl | early | rfl | later
    · exact ⟨_, .inl rfl, rfl⟩
    · exact ⟨w, .inr (.inl early), rfl⟩
    · exact ⟨_, .inr (.inr (.inl rfl)), rfl⟩
    · exact ⟨w, .inr (.inr (.inr later)), rfl⟩

/-- `malloc` has taken a block of `n` units from the end of a free one. -/
structure Takes (base n : Nat) (h : Heap) (bs : List Extent) (h' : Heap) (b : Extent) : Prop where
  block : ∃ l e t, bs = l ++ e :: t ∧ n ≤ e.size ∧ b = carved headerSize n e ∧
    FreeList base h' (l ++ (carve n e ++ t))
  size : (h'.mem b.start).size = n
  frame : ∀ a, (∀ e ∈ baseBlock base :: bs, a ≠ e.start) → a ≠ b.start → h'.mem a = h.mem a

theorem mallocLoop_takes (list : FreeList base h bs) (sbrk : Sbrk σ) (s : σ) (pos : 0 < n)
    (fits : ∃ e ∈ bs, n ≤ e.size) : ∃ h' b, Takes base n h bs h' b ∧ ∀ fuel, bs.length < fuel →
      mallocLoop sbrk n fuel h.freep (h.mem h.freep).ptr h s =
        some (b.start + headerSize, h', s) := by
  obtain ⟨e, inside, w, inside', enough, link, stops⟩ :=
    list.mallocLoop_fits sbrk s (n := n)
      (fits.imp fun e fit => ⟨List.mem_cons_of_mem _ fit.1, fit.2⟩)
  have inBs : e ∈ bs := by
    refine (List.mem_cons.mp inside).resolve_left ?_
    rintro rfl
    exact absurd enough (Nat.not_le_of_lt pos)
  have size := list.linked.size inside
  obtain ⟨l, t, rfl⟩ := List.append_of_mem inBs
  by_cases all : e.size = n
  · rcases List.eq_nil_or_concat (baseBlock base :: l) with empty | ⟨l₀, w', last⟩
    · cases empty
    rw [List.concat_eq_append] at last
    have split : baseBlock base :: (l ++ e :: t) = l₀ ++ w' :: e :: t := by
      rw [← List.cons_append, last]
      simp
    obtain rfl := list.eq_pred split inside' link
    have whole : carved headerSize n e = ⟨e.start, n⟩ := by simp [carved, all]
    have other : e.start ≠ w.start := by
      have order := list.order
      rw [split] at order
      exact Nat.ne_of_gt ((gapped_start order).2 e List.mem_cons_self)
    refine ⟨{ h.setPtr w.start (h.mem e.start).ptr with freep := w.start }, carved headerSize n e,
      ⟨⟨l, e, t, rfl, enough, rfl, ?_⟩, ?_, ?_⟩, fun fuel big => ?_⟩
    · rw [carve, if_pos all, List.nil_append]
      refine list.unlink split ?_
      rw [← List.cons_append, last]
      simp
    · rw [whole]
      simp [Heap.setPtr, update_of_ne other, size, all]
    · intro a others _
      exact update_of_ne (others w inside') _ _
    · obtain ⟨more, stopped⟩ := stops fuel big
      rw [stopped, mallocLoop, size, if_pos enough, if_pos all, whole]
  · have less : n < e.size := Nat.lt_of_le_of_ne enough (Ne.symm all)
    refine ⟨{ (h.setSize e.start (e.size - n)).setSize (carved headerSize n e).start n with
      freep := w.start }, carved headerSize n e, ⟨⟨l, e, t, rfl, enough, rfl, ?_⟩, ?_, ?_⟩,
      fun fuel big => ?_⟩
    · rw [carve, if_neg all]
      exact list.shrink inside' pos less
    · simp [Heap.setSize]
    · intro a others other
      simp [Heap.setSize, others e inside, other]
    · obtain ⟨more, stopped⟩ := stops fuel big
      rw [stopped, mallocLoop, size, if_pos enough, if_neg all]
      simp [Heap.setSize, offset, carved]

/-! ## `morecore` -/

variable {s' : σ}

theorem mallocLoop_refused (list : FreeList base h bs)
    (short : ∀ e ∈ baseBlock base :: bs, e.size < n)
    (answer : sbrk (intArg (coreUnits n * headerSize)) s = some (none, s')) {fuel : Nat}
    (enough : bs.length < fuel) :
    mallocLoop sbrk n fuel h.freep (h.mem h.freep).ptr h s = some (0, h, s') := by
  obtain ⟨more, rfl⟩ : ∃ more, fuel = more + 1 + bs.length := ⟨fuel - 1 - bs.length, by omega⟩
  obtain ⟨w, reached, size⟩ := list.mallocLoop_none sbrk s short more
  have core : morecore sbrk more n h s = some (0, h, s') := by
    rw [coreUnits] at answer
    simp only [morecore, answer]
  rw [reached, mallocLoop, if_neg (Nat.not_le_of_lt size), if_pos rfl, core]
  rfl

/-- `sbrk` returns memory above the list, which becomes its last block, or the end of it;
    the search starts again. -/
theorem mallocLoop_grows (list : FreeList base h bs) (statics : 0 < base)
    (short : ∀ e ∈ baseBlock base :: bs, e.size < n) (small : n < 2 ^ 31)
    (solid : ∀ e ∈ bs, 0 < e.size) {p : Nat}
    (answer : sbrk (intArg (coreUnits n * headerSize)) s = some (some p, s')) (low : base < p)
    (above : ∀ e ∈ bs, e.stop headerSize ≤ p) :
    ∃ h' bs' l last, baseBlock base :: bs = l ++ [last] ∧
      baseBlock base :: bs' = l ++ join headerSize last [⟨p, coreUnits n⟩] ∧ FreeList base h' bs' ∧
      (∀ a, (∀ e ∈ baseBlock base :: bs, a ≠ e.start) → a ≠ p → h'.mem a = h.mem a) ∧
      ∀ fuel, bs.length < fuel →
        mallocLoop sbrk n (fuel + 1 + bs.length) h.freep (h.mem h.freep).ptr h s =
          mallocLoop sbrk n fuel h'.freep (h'.mem h'.freep).ptr h' s' := by
  have stops : ∀ e ∈ baseBlock base :: bs, e.stop headerSize ≤ p ∧ e.start ≠ p := by
    intro e inside
    rcases List.mem_cons.mp inside with rfl | inside
    · exact ⟨low.le, low.ne⟩
    · have top := above e inside
      have size := solid e inside
      refine ⟨top, ?_⟩
      simp only [stop, headerSize] at top
      omega
  rcases List.eq_nil_or_concat (baseBlock base :: bs) with empty | ⟨l, last, split⟩
  · cases empty
  rw [List.concat_eq_append] at split
  have inside : last ∈ baseBlock base :: bs := by rw [split]; simp
  have list₁ : FreeList base (h.setSize p (coreUnits n)) bs :=
    ⟨list.linked.congr fun e inside => update_of_ne (stops e inside).2 _ _, list.order,
      list.freep⟩
  have units : last.size + coreUnits n < 2 ^ 32 := by
    have := short last inside
    unfold coreUnits
    split <;> omega
  obtain ⟨h', bs', freed, list', whole, frame⟩ := list₁.free_eq (b := ⟨p, coreUnits n⟩) split
    (by simp [Heap.setSize]) (le_coreUnits n).2 low (stops last inside).1
    (stops last inside).2 (by simp) (by simpa using units)
  refine ⟨h', bs', l, last, split, by simpa [join] using whole, list', ?_, fun fuel enough => ?_⟩
  · intro a others other
    rw [frame a (others last inside) other]
    exact update_of_ne other _ _
  · obtain ⟨w, reached, size⟩ := list.mallocLoop_none sbrk s short fuel
    have core : morecore sbrk fuel n h s = some (h'.freep, h', s') := by
      have freed := freed fuel enough
      rw [coreUnits] at answer freed
      simp only [morecore, answer, freed, Option.map_some]
    have valid : h'.freep ≠ 0 := by
      obtain ⟨e, inside, start⟩ := list'.freep
      have := list'.base_le e inside
      omega
    rw [reached, mallocLoop, if_neg (Nat.not_le_of_lt size), if_pos rfl, core]
    exact if_neg valid

end FreeList

end MallocLoop

end Xv6.User.Malloc
