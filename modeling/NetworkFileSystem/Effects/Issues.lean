import NetworkFileSystem.Effects.Program

/-!
# The calls that a run issues

`Calls` speaks about the calls a program can issue whatever the answers are.  `Each` and `Issues`
speak about one run: the machine gives the answers, and a call is judged together with the state
in which it is issued.  Both also see the calls of a run that never returns.  `EachAmid` lets the
state move between the calls.

An observed machine (`Machine.observe`) keeps notes of the calls beside the state.  The notes
change nothing (**`run_observe`**).
-/

namespace Effects

namespace Prog

variable {E : Type → Type} {α β σ W : Type}

/-- Every call that the run issues satisfies `A` where it is issued. -/
def Each (m : Machine E σ W) (A : {β : Type} → E β → σ → Prop) : Prog E α → σ → Prop
  | ret _, _ => True
  | call e k, s => A e s ∧ ∀ r, m.step e s = .ok r → (k r.1).Each m A r.2

/-- The run issues a call that satisfies `A` where it is issued. -/
def Issues (m : Machine E σ W) (A : {β : Type} → E β → σ → Prop) : Prog E α → σ → Prop
  | ret _, _ => False
  | call e k, s => A e s ∨ ∃ r, m.step e s = .ok r ∧ (k r.1).Issues m A r.2

variable {m : Machine E σ W} {A B : {β : Type} → E β → σ → Prop} {s t : σ}

@[simp] theorem each_ret (a : α) : (ret a : Prog E α).Each m A s := trivial

@[simp] theorem each_pure (a : α) : (pure a : Prog E α).Each m A s := trivial

@[simp] theorem not_issues_ret (a : α) : ¬ (ret a : Prog E α).Issues m A s := id

@[simp] theorem not_issues_pure (a : α) : ¬ (pure a : Prog E α).Issues m A s := id

@[simp] theorem each_perform (e : E β) : (perform e).Each m A s ↔ A e s := by
  simp [perform, Each]

@[simp] theorem issues_perform (e : E β) : (perform e).Issues m A s ↔ A e s := by
  simp [perform, Issues]

/-- The calls of a sequence are those of its first part, then those of its second. -/
theorem each_bind {p : Prog E α} {f : α → Prog E β} : (p >>= f).Each m A s ↔
    p.Each m A s ∧ ∀ a t, p.run m s = .ok (a, t) → (f a).Each m A t := by
  induction p generalizing s with
  | ret a => simp
  | call e k ih =>
      rw [call_bind]
      simp only [Each, ih, run_call]
      cases m.step e s with
      | error w => simp [Except.bind]
      | ok r =>
          simp only [Except.ok.injEq, forall_eq', Except.bind]
          exact and_assoc.symm

/-- A sequence issues a call in its first part, or in its second after the first has returned. -/
theorem issues_bind {p : Prog E α} {f : α → Prog E β} : (p >>= f).Issues m A s ↔
    p.Issues m A s ∨ ∃ a t, p.run m s = .ok (a, t) ∧ (f a).Issues m A t := by
  induction p generalizing s with
  | ret a => simp [Issues]
  | call e k ih =>
      rw [call_bind]
      simp only [Issues, ih, run_call]
      cases m.step e s with
      | error w => simp [Except.bind]
      | ok r =>
          simp only [Except.ok.injEq, exists_eq_left', Except.bind]
          exact or_assoc.symm

/-- What a program issues does not depend on what becomes of its result. -/
theorem each_map {p : Prog E α} {f : α → β} : (f <$> p).Each m A s ↔ p.Each m A s := by
  rw [← bind_pure_comp, each_bind]
  simp

/-- What a program issues does not depend on what becomes of its result. -/
theorem issues_map {p : Prog E α} {f : α → β} : (f <$> p).Issues m A s ↔ p.Issues m A s := by
  rw [← bind_pure_comp, issues_bind]
  simp [pure]

/-- A program whose first part has a known run. -/
theorem each_bind_of_run {p : Prog E α} {f : α → Prog E β} {a : α} (hp : p.Each m A s)
    (hr : p.run m s = .ok (a, t)) : (p >>= f).Each m A s ↔ (f a).Each m A t := by
  rw [each_bind, and_iff_right hp]
  constructor
  · intro h
    exact h a t hr
  · intro h a' t' hr'
    rw [hr] at hr'
    cases hr'
    exact h

/-- Conditions that agree on the calls that are issued. -/
theorem Each.congr {C : {β : Type} → E β → σ → Prop} {p : Prog E α} (hp : p.Each m A s)
    (h : ∀ {β : Type} (e : E β) (s : σ), A e s → (B e s ↔ C e s)) :
    p.Each m B s ↔ p.Each m C s := by
  induction p generalizing s with
  | ret a => exact Iff.rfl
  | call e k ih =>
      refine and_congr (h e s hp.1) (forall₂_congr fun r hr => ?_)
      exact ih r.1 (hp.2 r hr)

/-- A weaker condition. -/
theorem Each.mono {p : Prog E α} (hp : p.Each m A s)
    (h : ∀ {β : Type} (e : E β) (s : σ), A e s → B e s) : p.Each m B s := by
  induction p generalizing s with
  | ret a => trivial
  | call e k ih => exact ⟨h e s hp.1, fun r hr => ih r.1 (hp.2 r hr)⟩

/-- What holds of the calls of a program holds of the calls of its runs. -/
theorem Calls.each {C : {β : Type} → E β → Prop} {p : Prog E α} (hp : p.Calls C)
    (hCA : ∀ {β : Type} (e : E β) (s : σ), C e → A e s) : p.Each m A s := by
  induction p generalizing s with
  | ret a => trivial
  | call e k ih => exact ⟨hCA e s hp.1, fun r _ => ih r.1 (hp.2 r.1)⟩

/-- The frame rule for the calls of one run. -/
theorem Each.run_rel {R : σ → σ → Prop} (hrefl : ∀ s, R s s)
    (htrans : ∀ a b c, R a b → R b c → R a c)
    (hstep : ∀ {β : Type} (e : E β) (s : σ), A e s →
      ∀ (b : β) (t : σ), m.step e s = .ok (b, t) → R s t)
    {p : Prog E α} (hp : p.Each m A s) {a : α} (hr : p.run m s = .ok (a, t)) : R s t := by
  induction p generalizing s with
  | ret b =>
      cases hr
      exact hrefl _
  | call e k ih =>
      rw [run_call] at hr
      cases he : m.step e s with
      | error w => rw [he] at hr; cases hr
      | ok r =>
          rw [he] at hr
          exact htrans _ _ _ (hstep e s hp.1 r.1 r.2 he) (ih r.1 (hp.2 r he) hr)

/-- The congruence rule for one run: another machine that makes the same of its calls, as long as an
invariant holds, runs the program alike. -/
theorem Each.run_congr {n : Machine E σ W} {I : σ → Prop}
    (hstep : ∀ {β : Type} (e : E β) (s : σ), I s → A e s → n.step e s = m.step e s ∧
      ∀ (b : β) (t : σ), n.step e s = .ok (b, t) → I t)
    {p : Prog E α} (hp : p.Each m A s) (hs : I s) :
    p.run n s = p.run m s ∧ ∀ a t, p.run n s = .ok (a, t) → I t := by
  induction p generalizing s with
  | ret a =>
      refine ⟨rfl, fun b t h => ?_⟩
      cases h
      exact hs
  | call e k ih =>
      obtain ⟨heq, hkeep⟩ := hstep e s hs hp.1
      rw [run_call, run_call, heq]
      cases he : m.step e s with
      | error w => exact ⟨rfl, fun a t h => by cases h⟩
      | ok r => exact ih r.1 (hp.2 r he) (hkeep r.1 r.2 (heq.trans he))

/-- An invariant that the calls keep holds at every one of them. -/
theorem Each.invariant {I : σ → Prop} {p : Prog E α} (hp : p.Each m A s) (hs : I s)
    (hstep : ∀ {β : Type} (e : E β) (s : σ), A e s → I s →
      ∀ (b : β) (t : σ), m.step e s = .ok (b, t) → I t) :
    p.Each m (fun e s => A e s ∧ I s) s := by
  induction p generalizing s with
  | ret a => trivial
  | call e k ih =>
      refine ⟨⟨hp.1, hs⟩, fun r hr => ?_⟩
      exact ih r.1 (hp.2 r hr) (hstep e s hp.1 hs r.1 r.2 hr)

/-- Either some call satisfies `A` or every call satisfies the opposite. -/
theorem not_issues_iff {p : Prog E α} :
    ¬ p.Issues m A s ↔ p.Each m (fun e t => ¬ A e t) s := by
  induction p generalizing s with
  | ret a => simp [Issues]
  | call e k ih =>
      simp only [Issues, Each, not_or, not_exists, not_and]
      refine and_congr_right fun _ => forall₂_congr fun r _ => ?_
      exact ih r.1

/-- A first part that does not issue it, and returns: it is left to the second. -/
theorem issues_bind_of_run {p : Prog E α} {f : α → Prog E β} {a : α}
    (hp : p.Each m (fun e t => ¬ A e t) s) (hr : p.run m s = .ok (a, t)) :
    (p >>= f).Issues m A s ↔ (f a).Issues m A t := by
  rw [issues_bind, or_iff_right (not_issues_iff.mpr hp)]
  constructor
  · rintro ⟨a', t', hr', hf⟩
    rw [hr] at hr'
    cases hr'
    exact hf
  · intro hf
    exact ⟨a, t, hr, hf⟩

/-! ## Runs amid changes -/

/-- Every call that the run issues satisfies `A` where it is issued, even when the state moves along
`R` before each call. -/
def EachAmid (m : Machine E σ W) (R : σ → σ → Prop) (A : {β : Type} → E β → σ → Prop) :
    Prog E α → σ → Prop
  | ret _, _ => True
  | call e k, s => ∀ s', R s s' → A e s' ∧ ∀ r, m.step e s' = .ok r → (k r.1).EachAmid m R A r.2

section

variable {R : σ → σ → Prop}

/-- What a program issues does not depend on what becomes of its result. -/
theorem eachAmid_map {p : Prog E α} {f : α → β} :
    (f <$> p).EachAmid m R A s ↔ p.EachAmid m R A s := by
  rw [← bind_pure_comp]
  induction p generalizing s with
  | ret a => exact Iff.rfl
  | call e k ih =>
      refine forall₂_congr fun s' _ => and_congr_right fun _ => ?_
      exact forall₂_congr fun r _ => ih r.1

/-- The state may have moved already. -/
theorem EachAmid.of_rel (htrans : ∀ a b c, R a b → R b c → R a c) {p : Prog E α}
    (hp : p.EachAmid m R A s) (hst : R s t) : p.EachAmid m R A t := by
  cases p with
  | ret a => trivial
  | call e k => exact fun s' hs' => hp s' (htrans _ _ _ hst hs')

/-- In particular when nothing moves. -/
theorem EachAmid.each (hrefl : ∀ s, R s s) {p : Prog E α} (hp : p.EachAmid m R A s) :
    p.Each m A s := by
  induction p generalizing s with
  | ret a => trivial
  | call e k ih =>
      obtain ⟨he, hk⟩ := hp s (hrefl s)
      exact ⟨he, fun r hr => ih r.1 (hk r hr)⟩

end

/-! ## Runs that may wait -/

/-- All calls satisfy `A` up to one, and after this one they satisfy `B`. -/
def Until (A B : {β : Type} → E β → Prop) : Prog E α → Prop
  | ret _ => True
  | call e k => (A e ∧ ∀ b, (k b).Until A B) ∨ ∀ b, (k b).Calls B

section

variable {C D : {β : Type} → E β → Prop}

@[simp] theorem until_pure (a : α) : (pure a : Prog E α).Until C D := trivial

/-- A first part whose calls all satisfy `A`. -/
theorem until_bind {p : Prog E α} {f : α → Prog E β} (hp : p.Calls C)
    (hf : ∀ a, (f a).Until C D) : (p >>= f).Until C D := by
  induction p with
  | ret a => exact hf a
  | call e k ih => exact .inl ⟨hp.1, fun b => ih b (hp.2 b)⟩

/-- The one call, and what follows it. -/
theorem until_perform {e : E β} {f : β → Prog E α} (hf : ∀ b, (f b).Calls D) :
    (perform e >>= f).Until C D := .inr hf

/-- What becomes of the result does not matter. -/
theorem until_map {p : Prog E α} {f : α → β} (hp : p.Until C D) : (f <$> p).Until C D := by
  induction p with
  | ret a => trivial
  | call e k ih =>
      rcases hp with ⟨he, hk⟩ | hk
      · exact .inl ⟨he, fun b => ih b (hk b)⟩
      · refine .inr fun b => ?_
        show (f <$> k b).Calls D
        rw [← bind_pure_comp]
        exact calls_bind (hk b) fun _ => trivial

/-- Calls that cannot wait. -/
theorem Calls.run_ok (hD : ∀ {β : Type} (e : E β) (s : σ), D e → ∃ r, m.step e s = .ok r)
    {p : Prog E α} (hp : p.Calls D) (s : σ) : ∃ r, p.run m s = .ok r := by
  induction p generalizing s with
  | ret a => exact ⟨_, rfl⟩
  | call e k ih =>
      obtain ⟨r, hr⟩ := hD e s hp.1
      rw [run_call, hr]
      exact ih r.1 (hp.2 r.1) r.2

/-- **A run that waits before it acts.**  When the calls before the one keep an invariant and those
after it cannot wait, a run returns or the invariant holds at each of its calls. -/
theorem Until.waits {I : σ → Prop}
    (hC : ∀ {β : Type} (e : E β) (s : σ), C e → I s →
      ∀ (b : β) (t : σ), m.step e s = .ok (b, t) → I t)
    (hD : ∀ {β : Type} (e : E β) (s : σ), D e → ∃ r, m.step e s = .ok r)
    {p : Prog E α} (hp : p.Until C D) (hs : I s) :
    (∃ r, p.run m s = .ok r) ∨ p.Each m (fun _ s => I s) s := by
  induction p generalizing s with
  | ret a => exact .inl ⟨_, rfl⟩
  | call e k ih =>
      rw [run_call]
      cases he : m.step e s with
      | error w =>
          refine .inr ⟨hs, fun r hr => ?_⟩
          cases he.symm.trans hr
      | ok r =>
          rcases hp with ⟨hCe, hk⟩ | hk
          · rcases ih r.1 (hk r.1) (hC e s hCe hs r.1 r.2 he) with hrun | heach
            · exact .inl hrun
            · refine .inr ⟨hs, fun r' hr' => ?_⟩
              obtain rfl := Except.ok.inj (he.symm.trans hr')
              exact heach
          · exact .inl ((hk r.1).run_ok hD r.2)

end

end Prog

/-! ## Notes -/

/-- The machine with the notes that are taken of its calls. -/
def Machine.observe {E : Type → Type} {σ W τ : Type} (m : Machine E σ W)
    (note : {β : Type} → E β → σ → β × σ → List τ) : Machine E (σ × List τ) W where
  step e s := (m.step e s.1).map fun r => (r.1, r.2, s.2 ++ note e s.1 r)

namespace Prog

variable {E : Type → Type} {α β σ W τ : Type} {m : Machine E σ W}
  {note : {β : Type} → E β → σ → β × σ → List τ}

/-- An observed run is a run. -/
theorem run_observe (m : Machine E σ W) (note : {β : Type} → E β → σ → β × σ → List τ)
    (p : Prog E α) (s : σ) (l : List τ) :
    (p.run (m.observe note) (s, l)).map (fun r => (r.1, r.2.1)) = p.run m s := by
  induction p generalizing s l with
  | ret a => rfl
  | call e k ih =>
      rw [run_call, run_call]
      simp only [Machine.observe]
      cases m.step e s with
      | error w => rfl
      | ok r => exact ih r.1 r.2 _

end Prog

end Effects
