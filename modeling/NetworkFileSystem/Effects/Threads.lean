import Mathlib.Logic.Relation
import NetworkFileSystem.Effects.Program

/-!
# Programs whose calls may be answered in several ways

A machine answers a call in one way.  Here an *environment* says which answers a call may get, and
what becomes of the state with each of them; a program is run one call at a time.

* **`Sure`** — whatever the answers, every call satisfies an assertion where it is issued, and what
  is returned satisfies a postcondition.  It composes along `bind` (`sure_bind`).
* **`Takes`** — one call with one of its answers.  `Sure` is kept (`Sure.takes`).
-/

namespace Effects

open Relation

/-- Which answers a call may get in a state, and the state after each of them. -/
abbrev Environment (E : Type → Type) (σ : Type) := {β : Type} → E β → σ → β → σ → Prop

namespace Prog

variable {E : Type → Type} {α β σ : Type} {env env' : Environment E σ}
  {A : {β : Type} → E β → σ → Prop} {Q Q' : α → σ → Prop} {s t : σ}

/-- Whatever the answers, the calls satisfy `A` where they are issued and what is returned
satisfies `Q`. -/
def Sure (env : Environment E σ) (A : {β : Type} → E β → σ → Prop) (Q : α → σ → Prop) :
    Prog E α → σ → Prop
  | ret a, s => Q a s
  | call e k, s => A e s ∧ ∀ b t, env e s b t → (k b).Sure env A Q t

/-- The rule of sequence. -/
theorem sure_bind {p : Prog E β} {f : β → Prog E α} : (p >>= f).Sure env A Q s ↔
    p.Sure env A (fun b t => (f b).Sure env A Q t) s := by
  induction p generalizing s with
  | ret a => exact Iff.rfl
  | call e k ih =>
      rw [call_bind]
      simp only [Sure, ih]

/-- A weaker postcondition. -/
theorem Sure.imp {p : Prog E α} (h : p.Sure env A Q s) (hQ : ∀ a t, Q a t → Q' a t) :
    p.Sure env A Q' s := by
  induction p generalizing s with
  | ret a => exact hQ _ _ h
  | call e k ih => exact ⟨h.1, fun b t hbt => ih b (h.2 b t hbt)⟩

/-- A program whose calls are all in order. -/
theorem Calls.sure {C : {β : Type} → E β → Prop} {p : Prog E α} (hp : p.Calls C)
    (hCA : ∀ {β : Type} (e : E β) (s : σ), C e → A e s) :
    p.Sure env A (fun _ _ => True) s := by
  induction p generalizing s with
  | ret a => trivial
  | call e k ih => exact ⟨hCA e s hp.1, fun b t _ => ih b (hp.2 b)⟩

/-- The frame rule: calls that leave the state alone. -/
theorem Calls.sure_same {C : {β : Type} → E β → Prop} {p : Prog E α} (hp : p.Calls C)
    (hCA : ∀ {β : Type} (e : E β) (s : σ), C e → A e s)
    (hsame : ∀ {β : Type} (e : E β) (s : σ) (b : β) (t : σ), C e → env e s b t → t = s) :
    p.Sure env A (fun _ t => t = s) s := by
  induction p generalizing s with
  | ret a => rfl
  | call e k ih =>
      refine ⟨hCA e s hp.1, fun b t hbt => ?_⟩
      obtain rfl := hsame e s b t hp.1 hbt
      exact ih b (hp.2 b)

/-- One call, with one of its answers. -/
inductive Takes (env : Environment E σ) : Prog E α × σ → Prog E α × σ → Prop
  | mk {β : Type} {e : E β} {k : β → Prog E α} {s t : σ} {b : β} (h : env e s b t) :
      Takes env (call e k, s) (k b, t)

/-- One call, with the program that its answer leads to. -/
theorem takes_call {e : E β} {k : β → Prog E α} {b : β} {p : Prog E α} (h : env e s b t)
    (hk : k b = p) : Takes env (call e k, s) (p, t) := hk ▸ .mk h

/-- An environment with more answers takes the same calls. -/
theorem Takes.mono {p q : Prog E α × σ} (h : Takes env p q)
    (henv : ∀ {β : Type} (e : E β) (s : σ) (b : β) (t : σ), env e s b t → env' e s b t) :
    Takes env' p q := by
  cases h with
  | mk hbt => exact .mk (henv _ _ _ _ hbt)

/-- **`Sure` is kept** by a call. -/
theorem Sure.takes {p q : Prog E α × σ} (h : p.1.Sure env A Q p.2) (hpq : Takes env p q) :
    q.1.Sure env A Q q.2 := by
  cases hpq with
  | mk hbt => exact h.2 _ _ hbt

/-- **`Sure` is kept** by any number of calls. -/
theorem Sure.takes_star {p q : Prog E α × σ} (h : p.1.Sure env A Q p.2)
    (hpq : ReflTransGen (Takes env) p q) : q.1.Sure env A Q q.2 := by
  induction hpq with
  | refl => exact h
  | tail _ hstep ih => exact ih.takes hstep

/-- The first part of a sequence runs as it does alone. -/
theorem takes_bind {p q : Prog E β × σ} (f : β → Prog E α)
    (h : ReflTransGen (Takes env) p q) :
    ReflTransGen (Takes env) (p.1 >>= f, p.2) (q.1 >>= f, q.2) := by
  induction h with
  | refl => exact .refl
  | tail _ hstep ih =>
      cases hstep with
      | mk hbt => exact ih.tail (.mk hbt)

/-- A program whose calls can all be answered without changing the state can return. -/
theorem Calls.returns {C : {β : Type} → E β → Prop} {p : Prog E α} (hp : p.Calls C) (s : σ)
    (hC : ∀ {β : Type} (e : E β), C e → ∃ b, env e s b s) :
    ∃ a, ReflTransGen (Takes env) (p, s) (ret a, s) := by
  induction p with
  | ret a => exact ⟨a, .refl⟩
  | call e k ih =>
      obtain ⟨b, hb⟩ := hC e hp.1
      obtain ⟨a, ha⟩ := ih b (hp.2 b)
      exact ⟨a, .head (.mk hb) ha⟩

end Prog

end Effects
