import Mathlib

/-! # Doubly linked lists

Nodes of any type with a successor and a predecessor each. A ring through a node `h`
is a chain of links from `h` back to `h`.
-/

namespace Xv6.Lib

structure Links (α : Type) where
  next : α → α
  prev : α → α

namespace Links

variable {α : Type} {l m : Links α} {h x y : α} {xs ys : List α}

/-- Each node of the list is linked with the one after it, both ways. -/
def Chain (l : Links α) : List α → Prop
  | [] => True
  | [_] => True
  | x :: y :: rest => l.next x = y ∧ l.prev y = x ∧ Chain l (y :: rest)

@[simp] theorem chain_single : Chain l [x] := trivial

theorem chain_cons_cons :
    Chain l (x :: y :: ys) ↔ l.next x = y ∧ l.prev y = x ∧ Chain l (y :: ys) :=
  Iff.rfl

theorem chain_append : Chain l (xs ++ y :: ys) ↔ Chain l (xs ++ [y]) ∧ Chain l (y :: ys) := by
  induction xs with
  | nil => simp
  | cons x xs ih =>
    cases xs with
    | nil => simp [chain_cons_cons, and_assoc]
    | cons z zs =>
      simp only [List.cons_append] at ih ⊢
      rw [chain_cons_cons, chain_cons_cons, ih]
      simp only [and_assoc]

/-- Only successors of nodes before the last and predecessors of nodes after the first
    count. -/
theorem Chain.congr (chain : Chain l xs) (next : ∀ a ∈ xs.dropLast, m.next a = l.next a)
    (prev : ∀ b ∈ xs.tail, m.prev b = l.prev b) : Chain m xs := by
  induction xs with
  | nil => trivial
  | cons x xs ih =>
    cases xs with
    | nil => trivial
    | cons y ys =>
      obtain ⟨forth, back, rest⟩ := chain
      refine ⟨(next x (by simp)).trans forth, (prev y (by simp)).trans back, ?_⟩
      refine ih rest (fun a inside => next a ?_) fun b inside => prev b ?_
      · rw [List.dropLast_cons_cons]
        exact List.mem_cons_of_mem x inside
      · exact List.mem_cons_of_mem y inside

/-- The links, followed the other way. -/
def flip (l : Links α) : Links α := ⟨l.prev, l.next⟩

theorem Chain.reverse (chain : Chain l xs) : Chain l.flip xs.reverse := by
  induction xs with
  | nil => trivial
  | cons x xs ih =>
    cases xs with
    | nil => trivial
    | cons y ys =>
      obtain ⟨forth, back, rest⟩ := chain
      have before := ih rest
      rw [List.reverse_cons] at before
      rw [List.reverse_cons, List.reverse_cons, List.append_assoc, List.singleton_append,
        chain_append]
      exact ⟨before, back, forth, trivial⟩

/-- The ring from `h` through `xs` and back. -/
def Ring (l : Links α) (h : α) (xs : List α) : Prop := Chain l (h :: xs ++ [h])

variable [DecidableEq α]

def setNext (l : Links α) (x y : α) : Links α := { l with next := Function.update l.next x y }

def setPrev (l : Links α) (x y : α) : Links α := { l with prev := Function.update l.prev x y }

theorem setNext_next (a : α) : (l.setNext x y).next a = if a = x then y else l.next a :=
  Function.update_apply ..

theorem setPrev_prev (a : α) : (l.setPrev x y).prev a = if a = x then y else l.prev a :=
  Function.update_apply ..

@[simp] theorem setNext_prev : (l.setNext x y).prev = l.prev := rfl

@[simp] theorem setPrev_next : (l.setPrev x y).next = l.next := rfl

/-- `b->next->prev = b->prev; b->prev->next = b->next;` -/
def unlink (l : Links α) (b : α) : Links α :=
  let l := l.setPrev (l.next b) (l.prev b)
  l.setNext (l.prev b) (l.next b)

/-- `b->next = h->next; b->prev = h; h->next->prev = b; h->next = b;` -/
def link (l : Links α) (h b : α) : Links α :=
  let l := l.setNext b (l.next h)
  let l := l.setPrev b h
  let l := l.setPrev (l.next h) b
  l.setNext h b

variable {b n p : α} {as bs : List α}

/-- Taking a node out joins its neighbours. The neighbours may be one node, at both ends. -/
theorem Chain.unlink (chain : Chain l (as ++ p :: b :: n :: bs)) (other : b ≠ n)
    (pFirst : p ∉ as) (pRest : p ∉ (n :: bs).dropLast) (nFirst : n ∉ (as ++ [p]).tail)
    (nRest : n ∉ bs) : Chain (l.unlink b) (as ++ p :: n :: bs) := by
  obtain ⟨before, toB, backP, toN, backB, after⟩ := chain_append.mp chain
  have next : ∀ a, (l.unlink b).next a = if a = p then n else l.next a := by
    intro a
    simp only [Links.unlink, setNext_next, setPrev_prev, setPrev_next, toN, backP, if_neg other]
  have prev : ∀ a, (l.unlink b).prev a = if a = n then p else l.prev a := by
    intro a
    simp only [Links.unlink, setNext_prev, setPrev_prev, toN, backP]
  rw [chain_append]
  refine ⟨before.congr (fun a inside => ?_) fun a inside => ?_, ?_, ?_,
    after.congr (fun a inside => ?_) fun a inside => ?_⟩
  · rw [List.dropLast_concat] at inside
    rw [next, if_neg fun same : a = p => pFirst (same ▸ inside)]
  · rw [prev, if_neg fun same : a = n => nFirst (same ▸ inside)]
  · rw [next, if_pos rfl]
  · rw [prev, if_pos rfl]
  · rw [next, if_neg fun same : a = p => pRest (same ▸ inside)]
  · rw [prev, if_neg fun same : a = n => nRest (same ▸ inside)]

theorem Ring.unlink (ring : Ring l h (xs ++ b :: ys)) (nodup : (h :: xs ++ b :: ys).Nodup) :
    Ring (l.unlink b) h (xs ++ ys) := by
  obtain ⟨left, right, apart⟩ := List.nodup_append.mp nodup
  obtain ⟨single, distinct⟩ := List.nodup_cons.mp right
  have outer : h ∉ ys := fun inside =>
    apart h List.mem_cons_self h (List.mem_cons_of_mem b inside) rfl
  -- the node before `b` and the node after it
  obtain ⟨as, p, before⟩ : ∃ as p, h :: xs = as ++ [p] :=
    ⟨_, _, (List.dropLast_append_getLast (List.cons_ne_nil h xs)).symm⟩
  obtain ⟨n, bs, after⟩ : ∃ n bs, ys ++ [h] = n :: bs :=
    List.exists_cons_of_ne_nil (by simp)
  have inLeft : p ∈ h :: xs := before ▸ List.mem_append_right as List.mem_cons_self
  have inRight : n ∈ ys ++ [h] := after ▸ List.mem_cons_self
  have chain : Chain l (as ++ p :: b :: n :: bs) := by
    have whole : h :: (xs ++ b :: ys) ++ [h] = as ++ p :: b :: n :: bs := by
      rw [← after, List.append_cons as p, ← before]
      simp
    exact whole ▸ ring
  have joined : h :: (xs ++ ys) ++ [h] = as ++ p :: n :: bs := by
    rw [← after, List.append_cons as p, ← before]
    simp
  rw [Ring, joined]
  obtain ⟨-, -, ends⟩ := List.nodup_append.mp (before ▸ left)
  have rest : (n :: bs).Nodup := by
    rw [← after, List.nodup_append_comm]
    exact List.nodup_cons.mpr ⟨outer, distinct⟩
  refine chain.unlink (fun same => ?_) (fun inside => ends p inside p List.mem_cons_self rfl)
    (fun inside => ?_) (fun inside => ?_) (List.nodup_cons.mp rest).1
  · rcases List.mem_append.mp inRight with inside | last
    · exact single (same ▸ inside)
    · exact apart h List.mem_cons_self b List.mem_cons_self
        (same.trans (List.mem_singleton.mp last)).symm
  · rw [← after, List.dropLast_concat] at inside
    exact apart p inLeft p (List.mem_cons_of_mem b inside) rfl
  · rw [← before, List.tail_cons] at inside
    rcases List.mem_append.mp inRight with other | last
    · exact apart n (List.mem_cons_of_mem h inside) n (List.mem_cons_of_mem b other) rfl
    · rw [List.mem_singleton.mp last] at inside
      exact (List.nodup_cons.mp left).1 inside

theorem Ring.link (ring : Ring l h xs) (nodup : (h :: xs).Nodup) (fresh : b ∉ h :: xs) :
    Ring (l.link h b) h (b :: xs) := by
  obtain ⟨n, bs, after⟩ : ∃ n bs, xs ++ [h] = n :: bs := List.exists_cons_of_ne_nil (by simp)
  have old : Chain l (h :: n :: bs) := by
    rw [← after]
    exact ring
  obtain ⟨toN, -, rest⟩ := old
  have notHead : b ≠ h := fun same => fresh (same ▸ List.mem_cons_self)
  have notNode : b ∉ n :: bs := by
    rw [← after]
    intro inside
    rcases List.mem_append.mp inside with inside | last
    · exact fresh (List.mem_cons_of_mem h inside)
    · exact notHead (List.mem_singleton.mp last)
  have notNext : b ≠ n := fun same => notNode (same ▸ List.mem_cons_self)
  have once : n ∉ bs := by
    have distinct : (n :: bs).Nodup := by
      rw [← after, List.nodup_append_comm]
      exact nodup
    exact (List.nodup_cons.mp distinct).1
  have next : ∀ a, (l.link h b).next a = if a = h then b else if a = b then n else l.next a := by
    intro a
    simp only [Links.link, setNext_next, setPrev_next, toN]
  have prev : ∀ a, (l.link h b).prev a = if a = n then b else if a = b then h else l.prev a := by
    intro a
    simp only [Links.link, setNext_prev, setPrev_prev, setPrev_next, setNext_next, toN,
      if_neg notHead.symm]
  have shape : h :: (b :: xs) ++ [h] = h :: b :: n :: bs := by
    rw [← after]
    rfl
  rw [Ring, shape]
  refine ⟨?_, ?_, ?_, ?_, rest.congr (fun a inside => ?_) fun a inside => ?_⟩
  · rw [next, if_pos rfl]
  · rw [prev, if_neg notNext, if_pos rfl]
  · rw [next, if_neg notHead, if_pos rfl]
  · rw [prev, if_pos rfl]
  · have inside' := inside
    rw [← after, List.dropLast_concat] at inside'
    rw [next, if_neg fun same : a = h => (List.nodup_cons.mp nodup).1 (same ▸ inside'),
      if_neg fun same : a = b => notNode (same ▸ List.dropLast_subset _ inside)]
  · rw [List.tail_cons] at inside
    rw [prev, if_neg fun same : a = n => once (same ▸ inside),
      if_neg fun same : a = b => notNode (same ▸ List.mem_cons_of_mem n inside)]

end Links

end Xv6.Lib
