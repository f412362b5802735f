import Mathlib

/-! # Slots that own numbered resources

A slot holds the number of a resource, or 0. That each resource in use is held by exactly
one slot, and that the slots hold nothing else, is one bijection.
-/

namespace Xv6.Lib

open Function

variable {ι : Type} {slot : ι → Nat} {used : Set Nat}

/-- The slots that hold something are in bijection with the resources in use. -/
def Ledger (slot : ι → Nat) (used : Set Nat) : Prop := Set.BijOn slot {i | slot i ≠ 0} used

namespace Ledger

theorem mem (h : Ledger slot used) {i : ι} (holds : slot i ≠ 0) : slot i ∈ used := h.mapsTo holds

theorem unique (h : Ledger slot used) {i j : ι} (holds : slot i ≠ 0) (same : slot i = slot j) :
    i = j :=
  h.injOn holds (show slot j ≠ 0 from same ▸ holds) same

theorem owner (h : Ledger slot used) {b : Nat} (taken : b ∈ used) : ∃ i, slot i = b ∧ b ≠ 0 := by
  obtain ⟨i, holds, rfl⟩ := h.surjOn taken
  exact ⟨i, rfl, holds⟩

theorem empty (zero : ∀ i, slot i = 0) : Ledger slot ∅ := by
  have none_ : {i | slot i ≠ 0} = ∅ := Set.eq_empty_of_forall_notMem fun i holds => holds (zero i)
  rw [Ledger, none_]
  exact Set.bijOn_empty slot

/-- An empty slot takes a resource that is not in use. -/
theorem claim [DecidableEq ι] (h : Ledger slot used) {i : ι} {b : Nat} (free : slot i = 0)
    (fresh : b ∉ used) (nonzero : b ≠ 0) :
    Ledger (update slot i b) (insert b used) := by
  have others : ∀ j, j ≠ i → update slot i b j = slot j := fun j other =>
    update_of_ne other b slot
  refine ⟨?_, ?_, ?_⟩
  · intro j holds
    by_cases same : j = i
    · subst same
      rw [update_self]
      exact Set.mem_insert b used
    · rw [Set.mem_ofPred_eq, others j same] at holds
      rw [others j same]
      exact Set.mem_insert_of_mem b (h.mapsTo holds)
  · intro j holdsJ k holdsK equal
    by_cases left : j = i
    · by_cases right : k = i
      · rw [left, right]
      · rw [Set.mem_ofPred_eq, others k right] at holdsK
        rw [left, update_self, others k right] at equal
        exact absurd (h.mapsTo holdsK) (equal ▸ fresh)
    · rw [Set.mem_ofPred_eq, others j left] at holdsJ
      rw [others j left] at equal
      by_cases right : k = i
      · rw [right, update_self] at equal
        exact absurd (h.mapsTo holdsJ) (equal ▸ fresh)
      · rw [others k right] at equal
        exact h.unique holdsJ equal
  · intro c taken
    rcases Set.mem_insert_iff.mp taken with rfl | taken
    · exact ⟨i, by simpa using nonzero, update_self i c slot⟩
    · obtain ⟨j, rfl, holds⟩ := h.owner taken
      have other : j ≠ i := by
        rintro rfl
        exact holds free
      exact ⟨j, by rwa [Set.mem_ofPred_eq, others j other], others j other⟩

theorem release (h : Ledger slot used) {slot' : ι → Nat} {used' : Set Nat} (gone : ι → Prop)
    (cleared : ∀ i, gone i → slot' i = 0) (others : ∀ i, ¬ gone i → slot' i = slot i)
    (left : ∀ b, b ∈ used' ↔ b ∈ used ∧ ∀ i, gone i → slot i ≠ b) : Ledger slot' used' := by
  have stays : ∀ i, slot' i ≠ 0 → ¬ gone i := fun i holds out => holds (cleared i out)
  refine ⟨?_, ?_, ?_⟩
  · intro i holds
    have kept := stays i holds
    rw [Set.mem_ofPred_eq, others i kept] at holds
    rw [others i kept, left]
    refine ⟨h.mapsTo holds, fun j out same => ?_⟩
    have equal := h.unique (show slot j ≠ 0 from same ▸ holds) same
    exact kept (equal ▸ out)
  · intro i holdsI j holdsJ equal
    have keptI := stays i holdsI
    have keptJ := stays j holdsJ
    rw [others i keptI, others j keptJ] at equal
    rw [Set.mem_ofPred_eq, others i keptI] at holdsI
    exact h.unique holdsI equal
  · intro b taken
    obtain ⟨old, apart⟩ := (left b).mp taken
    obtain ⟨i, rfl, holds⟩ := h.owner old
    have kept : ¬ gone i := fun out => apart i out rfl
    exact ⟨i, by rwa [Set.mem_ofPred_eq, others i kept], others i kept⟩

end Ledger

end Xv6.Lib
