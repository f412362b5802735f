import Mathlib

/-! # Replaying and redoing writes

A store maps keys to values. `replay` performs a list of writes. `redo` copies
saved values back to their keys, in order: done from the start as often as one
likes, in part or in full, it leads to the store that the copies were taken from.
-/

namespace Xv6.Lib

variable {K V : Type} [DecidableEq K]

def replay (writes : List (K × V)) (m : K → V) : K → V :=
  writes.foldl (fun m w => Function.update m w.1 w.2) m

@[simp] theorem replay_nil (m : K → V) : replay [] m = m := rfl

theorem replay_append (ws vs : List (K × V)) (m : K → V) :
    replay (ws ++ vs) m = replay vs (replay ws m) :=
  List.foldl_append

theorem replay_snoc (ws : List (K × V)) (w : K × V) (m : K → V) :
    replay (ws ++ [w]) m = Function.update (replay ws m) w.1 w.2 := by
  rw [replay_append]
  rfl

/-- Copy `copies i`, `copies (i + 1)`, ... to the keys of the list. -/
def redo (copies : Nat → V) : List K → Nat → (K → V) → K → V
  | [], _, m => m
  | k :: ks, i, m => redo copies ks (i + 1) (Function.update m k (copies i))

/-- When every copy is the value of its key in `target`, the keys of the list come
    to agree with `target` and all others keep their value. -/
theorem redo_eq {copies : Nat → V} (target : K → V) {ks : List K} {i : Nat}
    (saved : ∀ j k, ks[j]? = some k → copies (i + j) = target k) (m : K → V) (k : K) :
    redo copies ks i m k = if k ∈ ks then target k else m k := by
  induction ks generalizing i m with
  | nil => simp [redo]
  | cons a ks ih =>
    have first : copies i = target a := saved 0 a rfl
    have rest : ∀ j k, ks[j]? = some k → copies (i + 1 + j) = target k := by
      intro j k found
      rw [Nat.add_assoc, Nat.add_comm 1 j]
      exact saved (j + 1) k found
    rw [redo, ih rest, first]
    by_cases later : k ∈ ks
    · simp [later]
    · by_cases here : k = a
      · simp [here]
      · simp [later, here]

end Xv6.Lib
