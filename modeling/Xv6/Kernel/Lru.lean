import Xv6.Kernel.Bcache
import Xv6.Lib.Links

/-! # The list of buffers

The doubly linked list of `kernel/bio.c` with its pointers, under `bcache.lock`:
`binit`, the two loops of `bget` and what `brelse` does once it has unlocked the buffer.
A reference count is a number here: every reference belongs to a call of `bget`.
-/

namespace Xv6.Kernel.Lru

open Lib
open Bcache (NBUF)

/-- A buffer, or `bcache.head`. -/
abbrev Node := Option (Fin NBUF)

structure Buf where
  dev : Nat
  blockno : Nat
  refcnt : Nat
  deriving DecidableEq

structure State where
  links : Links Node
  bufs : Fin NBUF → Buf

/-- The pointers that `binit` leaves, in which it puts each buffer in after the head. -/
def binit : Links Node :=
  (List.finRange NBUF).foldl (fun l b => l.link none (some b)) ⟨fun _ => none, fun _ => none⟩

def start : State := ⟨binit, fun _ => ⟨0, 0, 0⟩⟩

/-- A loop of `bget` from `b` on, up to the head: the first buffer that passes the test.
    There is no result if the loop is not over after `fuel` turns. -/
def scan (step : Node → Node) (test : Fin NBUF → Bool) : Nat → Node → Option Node
  | 0, _ => none
  | _ + 1, none => some none
  | fuel + 1, some b => if test b then some (some b) else scan step test fuel (step (some b))

/-- The loop over all buffers. -/
def search (step : Node → Node) (test : Fin NBUF → Bool) : Option Node :=
  scan step test (NBUF + 1) (step none)

inductive Event where
  | bget (dev blockno : Nat)
  | brelse (b : Fin NBUF)
  deriving DecidableEq

inductive Obs where
  | cached (b : Fin NBUF)
  | recycled (b : Fin NBUF)
  /-- `brelse` leaves references to the buffer, or none. -/
  | shared (b : Fin NBUF)
  | freed (b : Fin NBUF)
  deriving DecidableEq

def State.setBuf (s : State) (b : Fin NBUF) (x : Buf) : State :=
  { s with bufs := Function.update s.bufs b x }

def bget (s : State) (dev blockno : Nat) : Option (State × Obs) :=
  match search s.links.next fun b => (s.bufs b).dev = dev ∧ (s.bufs b).blockno = blockno with
  | none => none
  | some (some b) =>
      some (s.setBuf b { s.bufs b with refcnt := (s.bufs b).refcnt + 1 }, .cached b)
  | some none =>
      match search s.links.prev fun b => (s.bufs b).refcnt = 0 with
      | some (some b) => some (s.setBuf b ⟨dev, blockno, 1⟩, .recycled b)
      -- panic("bget: no buffers")
      | _ => none

/-- The caller has a reference. -/
def brelse (s : State) (b : Fin NBUF) : Option (State × Obs) :=
  if (s.bufs b).refcnt = 0 then none
  else
    let s := s.setBuf b { s.bufs b with refcnt := (s.bufs b).refcnt - 1 }
    if (s.bufs b).refcnt = 0 then
      some ({ s with links := (s.links.unlink (some b)).link none (some b) }, .freed b)
    else some (s, .shared b)

def step (s : State) : Event → Option (State × Obs)
  | .bget dev blockno => bget s dev blockno
  | .brelse b => brelse s b

def machine : Machine State Event Obs := ⟨step⟩

/-- How many steps there were up to the last that freed `b`, and 0 if none did. -/
def lastFreed (tr : List (Event × Obs)) (b : Fin NBUF) : Nat :=
  tr.length - tr.reverse.findIdx fun x => x.2 = .freed b

theorem lastFreed_snoc (tr : List (Event × Obs)) (e : Event) (o : Obs) (b : Fin NBUF) :
    lastFreed (tr ++ [(e, o)]) b = if o = .freed b then tr.length + 1 else lastFreed tr b := by
  rw [lastFreed, List.reverse_append, List.reverse_singleton, List.singleton_append,
    List.findIdx_cons, List.length_append, List.length_singleton, lastFreed]
  by_cases now : o = .freed b
  · simp [now]
  · simp [now]

theorem lastFreed_le (tr : List (Event × Obs)) (b : Fin NBUF) : lastFreed tr b ≤ tr.length :=
  Nat.sub_le ..

/-! ## The order of the list -/

/-- The list is a ring through all buffers, those freed last first. -/
structure Ordered (tr : List (Event × Obs)) (l : Links Node) (order : List (Fin NBUF)) : Prop where
  nodup : order.Nodup
  all : ∀ b, b ∈ order
  ring : l.Ring none (order.map some)
  recent : order.Pairwise fun a b => lastFreed tr b ≤ lastFreed tr a

variable {s t : State} {tr : List (Event × Obs)} {e : Event} {o : Obs} {order : List (Fin NBUF)}
  {l : Links Node} {test : Fin NBUF → Bool}

theorem nodup_nodes (nodup : order.Nodup) : ((none : Node) :: order.map some).Nodup :=
  List.nodup_cons.mpr ⟨by simp, nodup.map (Option.some_injective _)⟩

theorem scan_eq (chain : l.Chain (order.map some ++ [none])) {fuel : Nat}
    (enough : order.length < fuel) :
    scan l.next test fuel ((order.map some ++ [none]).head (by simp)) =
      some (order.find? test) := by
  induction order generalizing fuel with
  | nil =>
    cases fuel with
    | zero => exact absurd enough (Nat.not_lt_zero _)
    | succ fuel => rfl
  | cons b order ih =>
    cases fuel with
    | zero => exact absurd enough (Nat.not_lt_zero _)
    | succ fuel =>
      rw [List.find?_cons]
      simp only [List.map_cons, List.cons_append, List.head_cons, scan]
      cases found : test b with
      | true => rfl
      | false =>
        simp only [Bool.false_eq_true, if_false]
        cases order with
        | nil =>
          rw [show l.next (some b) = none from chain.1]
          exact ih trivial (by simpa using enough)
        | cons c order =>
          rw [show l.next (some b) = some c from chain.1]
          exact ih chain.2.2 (by simpa using enough)

theorem search_eq (nodup : order.Nodup) (ring : l.Ring none (order.map some)) :
    search l.next test = some (order.find? test) := by
  have few : order.length < NBUF + 1 := by
    have bound := List.Nodup.length_le_card nodup
    rw [Fintype.card_fin] at bound
    omega
  rw [search]
  cases order with
  | nil =>
    rw [show l.next none = none from ring.1]
    rfl
  | cons b order =>
    rw [show l.next none = some b from ring.1]
    exact scan_eq ring.2.2 few

theorem search_prev_eq (nodup : order.Nodup) (ring : l.Ring none (order.map some)) :
    search l.prev test = some (order.reverse.find? test) := by
  have back : l.flip.Ring none (order.reverse.map some) := by
    have chain := Links.Chain.reverse ring
    simpa [Links.Ring, List.map_reverse] using chain
  exact search_eq (l := l.flip) (List.nodup_reverse.mpr nodup) back

/-! ## What the steps keep -/

theorem ordered_keep (ordered : Ordered tr l order) (quiet : ∀ b, o ≠ .freed b) :
    Ordered (tr ++ [(e, o)]) l order where
  nodup := ordered.nodup
  all := ordered.all
  ring := ordered.ring
  recent := by
    simp only [lastFreed_snoc, quiet, if_false]
    exact ordered.recent

theorem ordered_freed {b : Fin NBUF} (ordered : Ordered tr l order) :
    Ordered (tr ++ [(e, .freed b)]) ((l.unlink (some b)).link none (some b))
      (b :: order.erase b) := by
  obtain ⟨xs, ys, away, split, erased⟩ := List.exists_erase_eq (ordered.all b)
  have nodup := ordered.nodup
  have nodes := nodup_nodes nodup
  have ring := ordered.ring
  rw [split, List.map_append, List.map_cons] at ring nodes
  have rest : (order.erase b).Nodup := nodup.erase b
  have fresh : b ∉ order.erase b := nodup.not_mem_erase
  refine ⟨List.nodup_cons.mpr ⟨fresh, rest⟩, fun a => ?_, ?_, ?_⟩
  · by_cases same : a = b
    · rw [same]
      exact List.mem_cons_self
    · exact List.mem_cons_of_mem b ((List.mem_erase_of_ne same).mpr (ordered.all a))
  · have taken := ring.unlink nodes
    rw [← List.map_append, ← erased] at taken
    exact taken.link (nodup_nodes rest) (by simpa using fresh)
  · refine List.pairwise_cons.mpr ⟨fun a _ => ?_, ?_⟩
    · rw [lastFreed_snoc, lastFreed_snoc, if_pos rfl]
      split
      · exact Nat.le_refl _
      · exact Nat.le_succ_of_le (lastFreed_le tr a)
    · refine ((ordered.recent.sublist List.erase_sublist).imp_of_mem ?_)
      intro a c insideA insideC older
      have other : ∀ {x}, x ∈ order.erase b → Obs.freed b ≠ .freed x := by
        intro x inside same
        cases same
        exact fresh inside
      rwa [lastFreed_snoc, lastFreed_snoc, if_neg (other insideA), if_neg (other insideC)]

theorem ordered_step (ordered : Ordered tr s.links order) (taken : step s e = some (t, o)) :
    ∃ order', Ordered (tr ++ [(e, o)]) t.links order' := by
  cases e with
  | bget dev blockno =>
    simp only [step, bget] at taken
    split at taken
    · cases taken
    · cases taken
      exact ⟨order, ordered_keep ordered (by simp)⟩
    · split at taken <;> cases taken
      exact ⟨order, ordered_keep ordered (by simp)⟩
  | brelse b =>
    simp only [step, brelse] at taken
    split at taken
    · cases taken
    · split at taken <;> cases taken
      · exact ⟨_, ordered_freed ordered⟩
      · exact ⟨order, ordered_keep ordered (by simp)⟩

theorem ring_foldl (bs : List (Fin NBUF)) (order : List (Fin NBUF)) (nodup : (bs ++ order).Nodup)
    (ring : l.Ring none (order.map some)) :
    (bs.foldl (fun l b => l.link none (some b)) l).Ring none ((bs.reverse ++ order).map some) := by
  induction bs generalizing l order with
  | nil => exact ring
  | cons b bs ih =>
    obtain ⟨fresh, rest⟩ := List.nodup_cons.mp nodup
    have notIn : b ∉ order := fun inside => fresh (List.mem_append_right bs inside)
    have linked := ring.link (nodup_nodes (List.nodup_append.mp rest).2.1)
      (b := some b) (by simpa using notIn)
    rw [List.reverse_cons, List.append_assoc, List.singleton_append]
    refine ih (b :: order) ?_ linked
    exact List.nodup_middle.mpr (List.nodup_cons.mpr ⟨fresh, rest⟩)

theorem ordered_run (run : machine.Run start tr s) : ∃ order, Ordered tr s.links order := by
  refine run.always_invariant (fun tr s => ∃ order, Ordered tr s.links order) ?_ ?_
  · refine ⟨(List.finRange NBUF).reverse, ?_, by simp, ?_, ?_⟩
    · exact List.nodup_reverse.mpr (List.nodup_finRange NBUF)
    · have ring := ring_foldl (l := ⟨fun _ => none, fun _ => none⟩) (List.finRange NBUF) []
        (by simpa using List.nodup_finRange NBUF) ⟨rfl, rfl, trivial⟩
      rw [List.append_nil] at ring
      exact ring
    · exact List.pairwise_of_forall fun _ _ => Nat.le_refl 0
  · rintro pre u e o v _ ⟨order, ordered⟩ taken
    exact ordered_step ordered taken

/-! ## The result -/

/-- The list visits every buffer once, `prev` goes back where `next` goes, and the buffer
    that `bget` recycles is the one that has been free for longest. -/
structure WorksAsLru (tr : List (Event × Obs)) (s : State) : Prop where
  visits : ∃ order : List (Fin NBUF), order.Nodup ∧ (∀ b, b ∈ order) ∧
    s.links.Ring none (order.map some)
  inverse : ∀ x, s.links.prev (s.links.next x) = x ∧ s.links.next (s.links.prev x) = x
  ends : ∀ test, (search s.links.next test).isSome ∧ (search s.links.prev test).isSome
  oldest : ∀ dev blockno t b, step s (.bget dev blockno) = some (t, .recycled b) →
    (s.bufs b).refcnt = 0 ∧ ∀ a, (s.bufs a).refcnt = 0 → lastFreed tr b ≤ lastFreed tr a

/-- In a ring through every node each node has a neighbour on either side. -/
theorem ring_inverse (all : ∀ b, b ∈ order) (ring : l.Ring none (order.map some)) (x : Node) :
    l.prev (l.next x) = x ∧ l.next (l.prev x) = x := by
  have inside : x ∈ (none : Node) :: order.map some := by
    cases x with
    | none => exact List.mem_cons_self
    | some b => exact List.mem_cons_of_mem _ (List.mem_map_of_mem (all b))
  -- the link from `x` on
  have forth : l.prev (l.next x) = x := by
    obtain ⟨before, after, split⟩ := List.append_of_mem inside
    rw [Links.Ring, split, List.append_assoc, List.cons_append, Links.chain_append] at ring
    cases after with
    | nil => rw [show l.next x = none from ring.2.1]; exact ring.2.2.1
    | cons y after => rw [show l.next x = y from ring.2.1]; exact ring.2.2.1
  -- and the link to `x`
  have back : l.next (l.prev x) = x := by
    have inside' : x ∈ order.map some ++ [none] := by simpa [or_comm] using inside
    obtain ⟨before, after, split⟩ := List.append_of_mem inside'
    rw [Links.Ring, List.cons_append, split] at ring
    rcases List.eq_nil_or_concat before with rfl | ⟨before, y, rfl⟩
    · rw [show l.prev x = none from ring.2.1]; exact ring.1
    · rw [List.concat_eq_append, List.append_assoc, List.singleton_append, ← List.cons_append,
        Links.chain_append] at ring
      rw [show l.prev x = y from ring.2.2.1]; exact ring.2.1
  exact ⟨forth, back⟩

theorem worksAsLru_run (run : machine.Run start tr s) : WorksAsLru tr s := by
  obtain ⟨order, ordered⟩ := ordered_run run
  refine ⟨⟨order, ordered.nodup, ordered.all, ordered.ring⟩, ring_inverse ordered.all ordered.ring,
    fun test => ?_, ?_⟩
  · rw [search_eq ordered.nodup ordered.ring, search_prev_eq ordered.nodup ordered.ring]
    exact ⟨rfl, rfl⟩
  · intro dev blockno t b taken
    simp only [step, bget] at taken
    split at taken
    · cases taken
    · cases taken
    · split at taken <;> cases taken
      rename_i found
      rw [search_prev_eq ordered.nodup ordered.ring, Option.some.injEq,
        List.find?_eq_some_iff_append] at found
      obtain ⟨free, before, after, split, none_⟩ := found
      refine ⟨of_decide_eq_true free, fun a unused => ?_⟩
      have sorted := List.pairwise_reverse.mpr ordered.recent
      have inside : a ∈ order.reverse := List.mem_reverse.mpr (ordered.all a)
      rw [split] at sorted inside
      -- the buffers that the loop has passed are in use
      rcases List.mem_append.mp inside with passed | rest
      · have used := none_ a passed
        simp [unused] at used
      · rcases List.mem_cons.mp rest with rfl | later
        · exact Nat.le_refl _
        · exact (List.pairwise_cons.mp (List.pairwise_append.mp sorted).2.1).1 a later

/-- The first buffer is taken and released, and the next one taken is another. -/
def recycleRun : List (Event × Obs) :=
  [(.bget 1 1, .recycled ⟨0, by decide⟩), (.brelse ⟨0, by decide⟩, .freed ⟨0, by decide⟩),
    (.bget 1 2, .recycled ⟨1, by decide⟩)]

theorem worksAsLru_recycleRun : ∃ s, machine.Run start recycleRun s ∧ WorksAsLru recycleRun s := by
  have ran : (machine.exec start (recycleRun.map Prod.fst)).map (fun r => (r.1, ())) =
      some (recycleRun, ()) := by
    decide +kernel
  obtain ⟨s, run, -⟩ := Machine.run_of_exec (fun _ : State => ()) ran
  exact ⟨s, run, worksAsLru_run run⟩

end Xv6.Kernel.Lru
