import Mathlib.Algebra.Order.Ring.Int
import Mathlib.Tactic.Common

/-!
# Programs over a signature of calls

A program either returns or issues one call and continues with the answer.  A *machine* says what
a call does to a state; it may also refuse to answer for good (a lock that is never granted, a
process that has exited), and then the program never returns.

Two ways of reasoning about a run are developed here.

* **`wp`** — the weakest precondition of a postcondition, with a separate condition on the
  reasons for which a run may stop.  It composes along `bind` (`wp_bind`), so a program is
  verified one call at a time.
* **`Calls`** — the calls a program can issue whatever the answers are.  When every such call
  moves the state along a preorder, so does a run (`Calls.run_rel`).  This settles frame
  conditions without looking at the program's control flow.  `Gives` does the same for the values
  that are returned.
-/

namespace Effects

/-- A program that issues calls from `E` and returns an `α`. -/
inductive Prog (E : Type → Type) (α : Type) : Type 1
  | ret (a : α) : Prog E α
  | call {β : Type} (e : E β) (k : β → Prog E α) : Prog E α

variable {E : Type → Type} {α β γ σ W : Type}

namespace Prog

/-- Sequencing: the calls of the first program, then those of the second. -/
def bind : Prog E α → (α → Prog E β) → Prog E β
  | ret a, f => f a
  | call e k, f => call e fun b => (k b).bind f

instance : Monad (Prog E) where
  pure := ret
  bind := bind

/-- The program that issues one call and returns its answer. -/
def perform (e : E β) : Prog E β := call e ret

@[simp] theorem ret_bind (a : α) (f : α → Prog E β) : ret a >>= f = f a := rfl

@[simp] theorem call_bind (e : E γ) (k : γ → Prog E α) (f : α → Prog E β) :
    call e k >>= f = call e fun b => k b >>= f := rfl

@[simp] theorem perform_bind (e : E α) (f : α → Prog E β) : perform e >>= f = call e f := rfl

end Prog

namespace Prog

/-- Mapping the identity changes nothing. -/
theorem map_id (p : Prog E α) : id <$> p = p := by
  induction p with
  | ret a => rfl
  | call e k ih => exact congrArg (call e) (funext ih)

/-- Sequences need no brackets. -/
theorem seq_assoc (p : Prog E α) (f : α → Prog E β) (g : β → Prog E γ) :
    p >>= f >>= g = p >>= fun a => f a >>= g := by
  induction p with
  | ret a => rfl
  | call e k ih => exact congrArg (call e) (funext ih)

instance : LawfulMonad (Prog E) := LawfulMonad.mk' _ map_id (fun _ _ => rfl) seq_assoc

end Prog

/-- What each call does: an answer and the next state, or the reason why no answer ever comes. -/
structure Machine (E : Type → Type) (σ W : Type) where
  step : {β : Type} → E β → σ → Except W (β × σ)

namespace Prog

/-- Run a program from a state. -/
def run (m : Machine E σ W) : Prog E α → σ → Except W (α × σ)
  | ret a, s => .ok (a, s)
  | call e k, s => (m.step e s).bind fun r => (k r.1).run m r.2

@[simp] theorem run_ret (m : Machine E σ W) (a : α) (s : σ) :
    (ret a : Prog E α).run m s = .ok (a, s) := rfl

@[simp] theorem run_pure (m : Machine E σ W) (a : α) (s : σ) :
    (pure a : Prog E α).run m s = .ok (a, s) := rfl

/-- A program that begins with a call runs that call first. -/
theorem run_call (m : Machine E σ W) (e : E β) (k : β → Prog E α) (s : σ) :
    (call e k).run m s = (m.step e s).bind fun r => (k r.1).run m r.2 := rfl

/-- A single call is a step of the machine. -/
theorem run_perform (m : Machine E σ W) (e : E α) (s : σ) :
    (perform e).run m s = m.step e s := by
  unfold perform
  rw [run_call]
  cases m.step e s <;> rfl

/-- A sequence runs its first part, then its second from where the first ended. -/
theorem run_bind (m : Machine E σ W) (p : Prog E α) (f : α → Prog E β) (s : σ) :
    (p >>= f).run m s = (p.run m s).bind fun r => (f r.1).run m r.2 := by
  induction p generalizing s with
  | ret a => rfl
  | call e k ih =>
      simp only [call_bind, run_call]
      cases m.step e s with
      | error w => rfl
      | ok r => exact ih r.1 r.2

/-- A mapped run comes from a run. -/
theorem run_map_eq_ok (m : Machine E σ W) {p : Prog E α} {f : α → β} {s t : σ} {b : β} :
    (f <$> p).run m s = .ok (b, t) ↔ ∃ a, p.run m s = .ok (a, t) ∧ f a = b := by
  rw [← bind_pure_comp, run_bind]
  cases p.run m s with
  | error w => simp [Except.bind]
  | ok r =>
      obtain ⟨a, t'⟩ := r
      simp only [Except.bind, run_pure, Except.ok.injEq, Prod.mk.injEq]
      constructor
      · rintro ⟨rfl, rfl⟩
        exact ⟨a, ⟨rfl, rfl⟩, rfl⟩
      · rintro ⟨a', ⟨rfl, rfl⟩, rfl⟩
        exact ⟨rfl, rfl⟩

/-! ## Weakest preconditions -/

/-- Every run from `s` that returns ends in `Q`, and one that stops does so for a reason in `H`. -/
def wp (m : Machine E σ W) (p : Prog E α) (Q : α → σ → Prop) (H : W → Prop) (s : σ) : Prop :=
  match p.run m s with
  | .ok (a, s') => Q a s'
  | .error w => H w

variable {m : Machine E σ W} {Q Q' : α → σ → Prop} {H H' : W → Prop} {s : σ}

@[simp] theorem wp_ret (a : α) : (ret a : Prog E α).wp m Q H s ↔ Q a s := Iff.rfl

@[simp] theorem wp_pure (a : α) : (pure a : Prog E α).wp m Q H s ↔ Q a s := Iff.rfl

/-- **The rule of sequence**: what the second part needs is what the first part has to bring about.
-/
theorem wp_bind (p : Prog E β) (f : β → Prog E α) :
    (p >>= f).wp m Q H s ↔ p.wp m (fun b t => (f b).wp m Q H t) H s := by
  unfold wp
  rw [run_bind]
  cases p.run m s <;> rfl

/-- The rule for a program that begins with a call. -/
theorem wp_call (e : E β) (k : β → Prog E α) :
    (call e k).wp m Q H s ↔ (perform e).wp m (fun b t => (k b).wp m Q H t) H s := by
  unfold wp
  rw [run_call, run_perform]
  cases m.step e s <;> rfl

/-- What a single call guarantees is read off the machine. -/
theorem wp_perform (e : E α) :
    (perform e).wp m Q H s ↔ match m.step e s with
      | .ok (a, s') => Q a s'
      | .error w => H w := by
  unfold wp
  rw [run_perform]

/-- The rule of consequence. -/
theorem wp.mono {p : Prog E α} (h : p.wp m Q H s) (hQ : ∀ a t, Q a t → Q' a t)
    (hH : ∀ w, H w → H' w) : p.wp m Q' H' s := by
  unfold wp at h ⊢
  cases hr : p.run m s with
  | ok r => rw [hr] at h; exact hQ _ _ h
  | error w => rw [hr] at h; exact hH _ h

/-- Consequence on the returning runs only. -/
theorem wp.imp {p : Prog E α} (h : p.wp m Q H s) (hQ : ∀ a t, Q a t → Q' a t) :
    p.wp m Q' H s := h.mono hQ fun _ hw => hw

/-- Two postconditions at once. -/
theorem wp.and {p : Prog E α} (h : p.wp m Q H s) (h' : p.wp m Q' H s) :
    p.wp m (fun a t => Q a t ∧ Q' a t) H s := by
  unfold wp at *
  cases hr : p.run m s with
  | ok r => rw [hr] at h h'; exact ⟨h, h'⟩
  | error w => rw [hr] at h; exact h

/-- From a weakest precondition to a particular run. -/
theorem wp.of_run {p : Prog E α} (h : p.wp m Q H s) {a : α} {t : σ}
    (hr : p.run m s = .ok (a, t)) : Q a t := by
  unfold wp at h
  rwa [hr] at h

/-- A run that cannot stop returns. -/
theorem wp.returns {p : Prog E α} (h : p.wp m Q (fun _ => False) s) :
    ∃ a t, p.run m s = .ok (a, t) ∧ Q a t := by
  unfold wp at h
  cases hr : p.run m s with
  | ok r =>
      rw [hr] at h
      exact ⟨r.1, r.2, rfl, h⟩
  | error w =>
      rw [hr] at h
      exact h.elim

/-- A program whose run is known. -/
theorem wp_of_run_eq {p : Prog E α} {a : α} {t : σ} (hr : p.run m s = .ok (a, t)) :
    p.wp m Q H s ↔ Q a t := by
  unfold wp
  rw [hr]

/-- From all runs to a weakest precondition, when nothing is asked of the runs that stop. -/
theorem wp_of_run {p : Prog E α} (h : ∀ a t, p.run m s = .ok (a, t) → Q a t) :
    p.wp m Q (fun _ => True) s := by
  unfold wp
  cases hr : p.run m s with
  | ok r => exact h _ _ hr
  | error w => trivial

/-! ## The calls a program can issue -/

/-- Whatever the answers, every call that is issued satisfies `A`. -/
def Calls (A : {β : Type} → E β → Prop) : Prog E α → Prop
  | ret _ => True
  | call e k => A e ∧ ∀ b, (k b).Calls A

variable {A : {β : Type} → E β → Prop}

@[simp] theorem calls_ret (a : α) : (ret a : Prog E α).Calls A := trivial

@[simp] theorem calls_pure (a : α) : (pure a : Prog E α).Calls A := trivial

@[simp] theorem calls_call (e : E β) (k : β → Prog E α) :
    (call e k).Calls A ↔ A e ∧ ∀ b, (k b).Calls A := Iff.rfl

@[simp] theorem calls_perform (e : E β) : (perform e).Calls A ↔ A e := by
  simp [perform]

/-- Every call satisfies the true assertion. -/
theorem calls_true (p : Prog E α) : p.Calls fun _ => True := by
  induction p with
  | ret a => trivial
  | call e k ih => exact ⟨trivial, ih⟩

/-- **The embedding rule.**  When one machine does on the images of states what another does on
the states, at least for the calls a program can issue, so do the runs. -/
theorem Calls.run_embed {τ : Type} {m : Machine E σ W} {n : Machine E τ W} {g : σ → τ}
    (hstep : ∀ {β : Type} (e : E β), A e → ∀ s : σ,
      n.step e (g s) = (m.step e s).map fun r => (r.1, g r.2))
    {p : Prog E α} (hp : p.Calls A) (s : σ) :
    p.run n (g s) = (p.run m s).map fun r => (r.1, g r.2) := by
  induction p generalizing s with
  | ret a => rfl
  | call e k ih =>
      rw [run_call, run_call, hstep e hp.1]
      cases m.step e s with
      | error w => rfl
      | ok r => exact ih r.1 (hp.2 r.1) r.2

/-- The embedding rule for every call. -/
theorem run_embed {τ : Type} {m : Machine E σ W} {n : Machine E τ W} {g : σ → τ}
    (hstep : ∀ {β : Type} (e : E β) (s : σ),
      n.step e (g s) = (m.step e s).map fun r => (r.1, g r.2))
    (p : Prog E α) (s : σ) : p.run n (g s) = (p.run m s).map fun r => (r.1, g r.2) :=
  p.calls_true.run_embed (fun e _ => hstep e) s

/-- **The congruence rule.**  Machines that agree on the calls a program can issue run it alike. -/
theorem Calls.run_congr {m n : Machine E σ W}
    (hstep : ∀ {β : Type} (e : E β), A e → ∀ s : σ, n.step e s = m.step e s) {p : Prog E α}
    (hp : p.Calls A) (s : σ) : p.run n s = p.run m s := by
  induction p generalizing s with
  | ret a => rfl
  | call e k ih =>
      rw [run_call, run_call, hstep e hp.1]
      cases m.step e s with
      | error w => rfl
      | ok r => exact ih r.1 (hp.2 r.1) r.2

/-- Both parts of a sequence, whatever the first returns. -/
theorem calls_bind {p : Prog E α} {f : α → Prog E β} (hp : p.Calls A)
    (hf : ∀ a, (f a).Calls A) : (p >>= f).Calls A := by
  induction p with
  | ret a => exact hf a
  | call e k ih => exact ⟨hp.1, fun b => ih b (hp.2 b)⟩

/-- A weaker assertion. -/
theorem Calls.mono {B : {β : Type} → E β → Prop} {p : Prog E α} (hp : p.Calls A)
    (hAB : ∀ {β : Type} (e : E β), A e → B e) : p.Calls B := by
  induction p with
  | ret a => trivial
  | call e k ih => exact ⟨hAB e hp.1, fun b => ih b (hp.2 b)⟩

/-- **The frame rule.**  When every issued call moves the state along a preorder, so does a run. -/
theorem Calls.run_rel {R : σ → σ → Prop} (hrefl : ∀ s, R s s)
    (htrans : ∀ a b c, R a b → R b c → R a c)
    (hstep : ∀ {β : Type} (e : E β), A e →
      ∀ (s : σ) (b : β) (t : σ), m.step e s = .ok (b, t) → R s t)
    {p : Prog E α} (hp : p.Calls A) {s t : σ} {a : α} (hr : p.run m s = .ok (a, t)) : R s t := by
  induction p generalizing s with
  | ret b =>
      cases hr
      exact hrefl _
  | call e k ih =>
      rw [run_call] at hr
      cases he : m.step e s with
      | error w => rw [he] at hr; cases hr
      | ok r =>
          rw [he] at hr
          exact htrans _ _ _ (hstep e hp.1 s r.1 r.2 he) (ih r.1 (hp.2 r.1) hr)

/-- The frame rule as a weakest precondition: the calls also say for which reasons a run stops. -/
theorem Calls.wp {R : σ → σ → Prop} {H : W → Prop} (hrefl : ∀ s, R s s)
    (htrans : ∀ a b c, R a b → R b c → R a c)
    (hstep : ∀ {β : Type} (e : E β), A e → ∀ s : σ, match m.step e s with
      | .ok r => R s r.2
      | .error w => H w)
    {p : Prog E α} (hp : p.Calls A) (s : σ) : p.wp m (fun _ t => R s t) H s := by
  induction p generalizing s with
  | ret b => exact hrefl s
  | call e k ih =>
      rw [wp_call, wp_perform]
      have he := hstep e hp.1 s
      cases hs : m.step e s with
      | error w =>
          rw [hs] at he
          exact he
      | ok r =>
          rw [hs] at he
          exact (ih r.1 (hp.2 r.1) r.2).imp fun _ t ht => htrans _ _ _ he ht

/-! ## What a program can return -/

/-- Whatever the answers, what is returned satisfies `P`. -/
def Gives (P : α → Prop) : Prog E α → Prop
  | ret a => P a
  | call _ k => ∀ b, (k b).Gives P

/-- What the second part returns, after what the first can return. -/
theorem gives_bind {P : β → Prop} {R : α → Prop} {p : Prog E α} {f : α → Prog E β}
    (hp : p.Gives R) (hf : ∀ a, R a → (f a).Gives P) : (p >>= f).Gives P := by
  induction p with
  | ret a => exact hf a hp
  | call e k ih => exact fun b => ih b (hp b)

/-- Every program returns something true. -/
theorem gives_true (p : Prog E α) : p.Gives fun _ => True := by
  induction p with
  | ret a => trivial
  | call e k ih => exact ih

/-- What a program can return holds of what it does return. -/
theorem Gives.of_run {P : α → Prop} {p : Prog E α} (hp : p.Gives P) {s t : σ} {a : α}
    (hr : p.run m s = .ok (a, t)) : P a := by
  induction p generalizing s with
  | ret b =>
      cases hr
      exact hp
  | call e k ih =>
      rw [run_call] at hr
      cases he : m.step e s with
      | error w =>
          rw [he] at hr
          cases hr
      | ok r =>
          rw [he] at hr
          exact ih r.1 (hp r.1) hr

end Prog

end Effects
