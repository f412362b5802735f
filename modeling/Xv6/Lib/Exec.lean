import Mathlib

/-! # Running computations that may fail

Equations for computations over a state with errors: running a sequence whose
first part returns means running the rest from there.
-/

namespace Xv6.Lib

variable {σ ε α β : Type}
variable {f : α → StateT σ (Except ε) β} {s t : σ}

theorem run_bind {m : StateT σ (Except ε) α} {a : α} (first : m s = .ok (a, t)) :
    (m >>= f) s = f a t := by
  simp only [bind, StateT.bind, first]
  rfl

@[simp] theorem run_pure (a : α) (s : σ) : (pure a : StateT σ (Except ε) α) s = .ok (a, s) := rfl

@[simp] theorem run_get (s : σ) : (get : StateT σ (Except ε) σ) s = .ok (s, s) := rfl

@[simp] theorem run_modify (f : σ → σ) (s : σ) :
    (modify f : StateT σ (Except ε) PUnit) s = .ok (⟨⟩, f s) := rfl

@[simp] theorem run_throw (e : ε) (s : σ) : (throw e : StateT σ (Except ε) α) s = .error e := rfl

theorem run_get_bind {f : σ → StateT σ (Except ε) β} (s : σ) : (get >>= f) s = f s s := rfl

theorem run_pure_bind (a : α) (s : σ) :
    ((pure a : StateT σ (Except ε) α) >>= f) s = f a s := rfl

theorem run_modify_bind {f : PUnit → StateT σ (Except ε) β} (h : σ → σ) (s : σ) :
    ((modify h : StateT σ (Except ε) PUnit) >>= f) s = f ⟨⟩ (h s) := rfl

/-- A step that is made under a condition, and what follows it in either case. -/
theorem run_guarded {c : Prop} [Decidable c] {m : StateT σ (Except ε) PUnit}
    {f : PUnit → StateT σ (Except ε) β} (ran : (if c then m else pure ⟨⟩) s = .ok (⟨⟩, t)) :
    (if c then m >>= f else f ⟨⟩) s = f ⟨⟩ t := by
  by_cases yes : c
  · rw [if_pos yes] at ran ⊢
    exact run_bind ran
  · rw [if_neg yes] at ran ⊢
    cases ran
    rfl

theorem run_ite_bind {c : Prop} [Decidable c] {m m' : StateT σ (Except ε) α} {a : α}
    (ran : (if c then m else m') s = .ok (a, t)) :
    (if c then m >>= f else m' >>= f) s = f a t := by
  by_cases holds : c
  · rw [if_pos holds] at ran ⊢
    exact run_bind ran
  · rw [if_neg holds] at ran ⊢
    exact run_bind ran

/-- A loop whose turns shorten what is left does not depend on how much fuel it has, if it has
    enough. -/
theorem fuel_irrelevant (loop : Nat → α → β) (size : α → Nat)
    (stop : ∀ n x, size x = 0 → loop n x = loop 0 x)
    (turn : ∀ n n' x, size x ≠ 0 → (∀ y, size y < size x → loop n y = loop n' y) →
      loop (n + 1) x = loop (n' + 1) x)
    {n n' : Nat} {x : α} (enough : size x ≤ n) (enough' : size x ≤ n') : loop n x = loop n' x := by
  induction n generalizing n' x with
  | zero => rw [stop n' x (Nat.le_zero.mp enough)]
  | succ n ih =>
    cases n' with
    | zero => rw [stop (n + 1) x (Nat.le_zero.mp enough')]
    | succ n' =>
      by_cases finished : size x = 0
      · rw [stop (n + 1) x finished, stop (n' + 1) x finished]
      · exact turn n n' x finished fun y less => ih (by omega) (by omega)

/-- Run from `s`, the computation ends with `Q`, or it fails with an error for which `E` holds. -/
def Outcome (m : StateT σ (Except ε) α) (s : σ) (E : ε → Prop) (Q : α → σ → Prop) : Prop :=
  match m s with
  | .ok (a, t) => Q a t
  | .error e => E e

namespace Outcome

variable {m : StateT σ (Except ε) α} {f : α → StateT σ (Except ε) β} {s : σ} {E : ε → Prop}
variable {Q : α → σ → Prop} {R : β → σ → Prop}
variable {a : α}

theorem ok (h : Outcome m s E Q) {t : σ} (ran : m s = .ok (a, t)) : Q a t := by
  simpa [Outcome, ran] using h

theorem of_ok {t : σ} (ran : m s = .ok (a, t)) (h : Q a t) : Outcome m s E Q := by
  simpa [Outcome, ran] using h

theorem exists_ok (h : Outcome m s E Q) (fine : ∀ e, ¬ E e) : ∃ a t, m s = .ok (a, t) ∧ Q a t := by
  unfold Outcome at h
  split at h
  next a t ran => exact ⟨a, t, ran, h⟩
  next e ran => exact absurd h (fine e)

theorem trivial : Outcome m s (fun _ => True) fun _ _ => True := by
  unfold Outcome
  split <;> exact True.intro

theorem pure (h : Q a s) : Outcome (Pure.pure a : StateT σ (Except ε) α) s E Q := h

theorem get {Q : σ → σ → Prop} (h : Q s s) :
    Outcome (MonadState.get : StateT σ (Except ε) σ) s E Q := h

theorem modified {g : σ → σ} {Q : PUnit → σ → Prop} (h : Q ⟨⟩ (g s)) :
    Outcome (modify g : StateT σ (Except ε) PUnit) s E Q := h

theorem bind (first : Outcome m s E fun a t => Outcome (f a) t E R) : Outcome (m >>= f) s E R := by
  unfold Outcome at first ⊢
  cases ran : m s with
  | ok r =>
    rw [ran] at first
    rw [run_bind ran]
    exact first
  | error e =>
    rw [ran] at first
    have failed : (m >>= f) s = .error e := by
      simp only [Bind.bind, StateT.bind, ran]
      rfl
    rw [failed]
    exact first

theorem mono {Q' : α → σ → Prop} (h : Outcome m s E Q) (weaker : ∀ a t, Q a t → Q' a t) :
    Outcome m s E Q' := by
  unfold Outcome at h ⊢
  split at h
  next a t ran => exact weaker a t h
  next => exact h

end Outcome

end Xv6.Lib
