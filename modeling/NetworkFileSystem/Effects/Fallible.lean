import Mathlib.Algebra.Order.Ring.Int
import Mathlib.Tactic.Common

/-!
# Fallible computations

Small additions to `Except`: guards, inversion of a successful sequence, and `Related`, which
compares two computations that either fail with the same error or succeed with related results.
-/

namespace Effects

variable {ε α β γ δ : Type}

/-- Go on when `c` holds, fail with `e` otherwise. -/
def need (c : Prop) [Decidable c] (e : ε) : Except ε Unit :=
  if c then .ok () else .error e

/-- Go on with the value of an option, fail with `e` when there is none. -/
def orElse (e : ε) : Option α → Except ε α
  | some a => .ok a
  | none => .error e

@[simp] theorem need_eq_ok {c : Prop} [Decidable c] {e : ε} {u : Unit} :
    need c e = .ok u ↔ c := by
  unfold need
  split <;> simp_all

@[simp] theorem orElse_eq_ok {e : ε} {o : Option α} {a : α} :
    orElse e o = .ok a ↔ o = some a := by
  cases o <;> simp [orElse]

@[simp] theorem ok_bind (a : α) (f : α → Except ε β) : (Except.ok a >>= f) = f a := rfl

@[simp] theorem error_bind (e : ε) (f : α → Except ε β) :
    ((Except.error e : Except ε α) >>= f) = .error e := rfl

/-- A sequence succeeds exactly when its parts do. -/
theorem bind_eq_ok {x : Except ε α} {f : α → Except ε β} {b : β} :
    (x >>= f) = .ok b ↔ ∃ a, x = .ok a ∧ f a = .ok b := by
  cases x <;> simp

/-- Returning succeeds with what is returned. -/
theorem pure_eq_ok {a b : α} : (pure a : Except ε α) = .ok b ↔ a = b := by
  simp [pure, Except.pure]

/-- A mapped success comes from a success. -/
theorem map_eq_ok {r : Except ε α} {f : α → β} {b : β} :
    r.map f = .ok b ↔ ∃ a, r = .ok a ∧ f a = b := by
  cases r <;> simp [Except.map]

/-- Whether a computation succeeds. -/
def isOk : Except ε α → Bool
  | .ok _ => true
  | .error _ => false

@[simp] theorem isOk_ok (a : α) : isOk (.ok a : Except ε α) = true := rfl

@[simp] theorem isOk_error (e : ε) : isOk (.error e : Except ε α) = false := rfl

/-- A success has a value. -/
theorem isOk_iff {x : Except ε α} : isOk x = true ↔ ∃ a, x = .ok a := by
  cases x <;> simp

/-- Forgetting the error keeps the successes. -/
theorem toOption_eq_some {x : Except ε α} {a : α} : x.toOption = some a ↔ x = .ok a := by
  cases x <;> simp [Except.toOption]

/-- Every error of the computation satisfies `P`. -/
def ErrorsIn (P : ε → Prop) (x : Except ε α) : Prop := ∀ e, x = .error e → P e

section ErrorsIn

variable {P : ε → Prop}

/-- A success has no error. -/
theorem errorsIn_ok (a : α) : ErrorsIn P (.ok a : Except ε α) := fun _ h => nomatch h

theorem errorsIn_pure (a : α) : ErrorsIn P (pure a : Except ε α) := errorsIn_ok a

theorem errorsIn_error {e : ε} (he : P e) : ErrorsIn P (.error e : Except ε α) := by
  intro e' h
  cases h
  exact he

/-- A condition fails with its own error only. -/
theorem errorsIn_need {c : Prop} [Decidable c] {e : ε} (he : P e) : ErrorsIn P (need c e) := by
  unfold need
  split
  · exact errorsIn_ok _
  · exact errorsIn_error he

/-- A missing value fails with its own error only. -/
theorem errorsIn_orElse {e : ε} (he : P e) (o : Option α) : ErrorsIn P (orElse e o) := by
  cases o with
  | none => exact errorsIn_error he
  | some a => exact errorsIn_ok a

/-- The errors of a sequence are those of its parts. -/
theorem errorsIn_bind {x : Except ε α} {f : α → Except ε β} (hx : ErrorsIn P x)
    (hf : ∀ a, ErrorsIn P (f a)) : ErrorsIn P (x >>= f) := by
  cases x with
  | error e => exact errorsIn_error (hx e rfl)
  | ok a => exact hf a

end ErrorsIn

/-- Both computations fail with the same error, or both succeed with results related by `R`. -/
def Related (R : α → β → Prop) : Except ε α → Except ε β → Prop
  | .ok a, .ok b => R a b
  | .error e, .error e' => e = e'
  | _, _ => False

namespace Related

variable {R : α → β → Prop} {S : γ → δ → Prop} {x : Except ε α} {y : Except ε β}

/-- Related values are related successes. -/
theorem ok {a : α} {b : β} (h : R a b) : Related R (.ok a : Except ε α) (.ok b) := h

/-- The same error on both sides. -/
theorem error (e : ε) : Related R (.error e) (.error e) := rfl

/-- Related computations go on to related ones. -/
theorem bind {f : α → Except ε γ} {g : β → Except ε δ} (h : Related R x y)
    (hfg : ∀ a b, R a b → Related S (f a) (g b)) : Related S (x >>= f) (y >>= g) := by
  cases x with
  | error e => cases y with
    | error e' => exact h
    | ok b => exact h.elim
  | ok a => cases y with
    | error e' => exact h.elim
    | ok b => exact hfg a b h

/-- The same guard on both sides. -/
theorem need_bind {c d : Prop} [Decidable c] [Decidable d] (hcd : c ↔ d) (e : ε)
    {f : Unit → Except ε γ} {g : Unit → Except ε δ} (h : c → Related S (f ()) (g ())) :
    Related S (need c e >>= f) (need d e >>= g) := by
  by_cases hc : c
  · simp only [Effects.need, if_pos hc, if_pos (hcd.mp hc), ok_bind]
    exact h hc
  · simp only [Effects.need, if_neg hc, if_neg (fun hd => hc (hcd.mpr hd)), error_bind]
    exact Related.error e

/-- Equivalent conditions are checked alike. -/
theorem need {c d : Prop} [Decidable c] [Decidable d] (hcd : c ↔ d) (e : ε) :
    Related (fun _ _ => True) (Effects.need c e) (Effects.need d e) := by
  unfold Effects.need
  by_cases hc : c
  · rw [if_pos hc, if_pos (hcd.mp hc)]
    exact Related.ok trivial
  · rw [if_neg hc, if_neg fun hd => hc (hcd.mpr hd)]
    exact Related.error e

/-- A success on the left is matched by one on the right. -/
theorem of_ok {a : α} (h : Related R x y) (hx : x = .ok a) : ∃ b, y = .ok b ∧ R a b := by
  subst hx
  cases y with
  | error e => exact h.elim
  | ok b => exact ⟨b, rfl, h⟩

/-- Both succeed or both fail. -/
theorem isOk_eq (h : Related R x y) : isOk x = isOk y := by
  cases x <;> cases y
  · rfl
  · exact h.elim
  · exact h.elim
  · rfl

end Related

end Effects
