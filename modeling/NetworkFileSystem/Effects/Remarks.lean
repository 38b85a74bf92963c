import NetworkFileSystem.Effects.Issues

/-!
# Programs that comment on what they do

A program may make remarks between its calls: messages that are printed along the way and whose
answer nobody waits for.  `silence` leaves the remarks out.  As long as nobody hears them, a program
does what its silent version does (**`run_unheard`**).

Whether somebody hears them can depend on what the program itself has done so far.  `Within` says
which calls a program makes when the answers it gets are possible ones, and what it returns then;
`Calls` and `Gives` are the cases in which every answer is possible.

Remarks that are heard move the state between the calls, and what the silent program does amid such
changes is what the program does (**`each_aloud`**).
-/

namespace Effects

variable {E : Type → Type} {N α β γ σ W : Type}

/-- Calls of `E`, and remarks from `N` between them. -/
inductive Remarked (N : Type) (E : Type → Type) (β : Type) : Type
  | call (e : E β)
  | remark (n : N) (answer : Unit → β)

namespace Prog

/-- A remark. -/
def remark (n : N) : Prog (Remarked N E) Unit := perform (.remark n id)

/-- A remark that is made in some cases. -/
def remarkIf (c : Prop) [Decidable c] (n : N) : Prog (Remarked N E) Unit :=
  if c then remark n else pure ()

/-- The program without its remarks. -/
def silence : Prog (Remarked N E) α → Prog E α
  | ret a => ret a
  | call (.call e) k => call e fun b => (k b).silence
  | call (.remark _ answer) k => (k (answer ())).silence

@[simp] theorem silence_ret (a : α) : (ret a : Prog (Remarked N E) α).silence = ret a := rfl

@[simp] theorem silence_pure (a : α) : (pure a : Prog (Remarked N E) α).silence = pure a := rfl

@[simp] theorem silence_call (e : E β) : (perform (.call e) : Prog (Remarked N E) β).silence =
    perform e := rfl

@[simp] theorem silence_remark (n : N) : (remark n : Prog (Remarked N E) Unit).silence = pure () :=
  rfl

@[simp] theorem silence_bind (p : Prog (Remarked N E) α) (f : α → Prog (Remarked N E) β) :
    (p >>= f).silence = p.silence >>= fun a => (f a).silence := by
  induction p with
  | ret a => rfl
  | call e k ih =>
      cases e with
      | call e => exact congrArg (call e) (funext ih)
      | remark n answer => exact ih (answer ())

@[simp] theorem silence_remarkIf (c : Prop) [Decidable c] (n : N) :
    (remarkIf c n : Prog (Remarked N E) Unit).silence = pure () := by
  unfold remarkIf
  split <;> rfl

@[simp] theorem silence_map (f : α → β) (p : Prog (Remarked N E) α) :
    (f <$> p).silence = f <$> p.silence := by
  rw [← bind_pure_comp, silence_bind, ← bind_pure_comp]
  rfl

@[simp] theorem silence_ite (c : Prop) [Decidable c] (p q : Prog (Remarked N E) α) :
    (if c then p else q).silence = if c then p.silence else q.silence := by
  split <;> rfl

/-! ## Possible answers -/

/-- Whenever the answers are possible ones, every call is allowed and what is returned satisfies
`Q`. -/
def Within (A : {β : Type} → E β → Prop) (G : {β : Type} → E β → β → Prop) (Q : α → Prop) :
    Prog E α → Prop
  | ret a => Q a
  | call e k => A e ∧ ∀ b, G e b → (k b).Within A G Q

section

variable {A : {β : Type} → E β → Prop} {G : {β : Type} → E β → β → Prop} {Q : α → Prop}
  {R : β → Prop}

@[simp] theorem within_ret (a : α) : (ret a : Prog E α).Within A G Q ↔ Q a := Iff.rfl

@[simp] theorem within_pure (a : α) : (pure a : Prog E α).Within A G Q ↔ Q a := Iff.rfl

@[simp] theorem within_perform {e : E α} :
    (perform e).Within A G Q ↔ A e ∧ ∀ a, G e a → Q a := Iff.rfl

@[simp] theorem within_ite (c : Prop) [Decidable c] (p q : Prog E α) :
    (if c then p else q).Within A G Q ↔ if c then p.Within A G Q else q.Within A G Q := by
  split <;> rfl

/-- What comes first returns something from which the rest is within bounds. -/
@[simp] theorem within_bind (p : Prog E α) (f : α → Prog E β) :
    (p >>= f).Within A G R ↔ p.Within A G fun a => (f a).Within A G R := by
  induction p with
  | ret a => rfl
  | call e k ih => exact and_congr_right fun _ => forall₂_congr fun b _ => ih b

@[simp] theorem within_map (f : α → β) (p : Prog E α) :
    (f <$> p).Within A G R ↔ p.Within A G fun a => R (f a) := by
  rw [← bind_pure_comp, within_bind]
  rfl

/-- **Remarks that nobody hears.**  Where an invariant makes remarks go unheard, a program that
keeps it does what its silent version does, and keeps it. -/
theorem run_unheard {n : Machine (Remarked N E) σ W} {m : Machine E σ W} {I : σ → Prop}
    (hremark : ∀ {β : Type} (r : N) (answer : Unit → β) (s : σ), I s →
      n.step (.remark r answer) s = .ok (answer (), s))
    (hcall : ∀ {β : Type} (e : E β), A e → ∀ s, I s → n.step (.call e) s = m.step e s)
    (hkeep : ∀ {β : Type} (e : E β), A e → ∀ s b t, I s → m.step e s = .ok (b, t) → G e b ∧ I t)
    {p : Prog (Remarked N E) α} (hp : p.silence.Within A G Q) {s : σ} (hs : I s) :
    p.run n s = p.silence.run m s ∧ ∀ a t, p.silence.run m s = .ok (a, t) → I t := by
  induction p generalizing s with
  | ret a =>
      refine ⟨rfl, fun b t h => ?_⟩
      cases h
      exact hs
  | call e k ih =>
      cases e with
      | call e =>
          rw [silence, run_call, run_call, hcall e hp.1 s hs]
          cases he : m.step e s with
          | error w => exact ⟨rfl, fun a t h => by cases h⟩
          | ok r =>
              obtain ⟨hb, ht⟩ := hkeep e hp.1 s r.1 r.2 hs he
              exact ih r.1 (hp.2 r.1 hb) ht
      | remark r answer =>
          rw [silence, run_call, hremark r answer s hs]
          exact ih (answer ()) hp hs

/-- **Remarks on both sides.**  A program runs alike on two machines that make the same of the calls
it can issue and whose remarks have the same effect; what both keep of an invariant is kept. -/
theorem run_aloud {τ : Type} {m : Machine (Remarked N E) σ W} {n : Machine (Remarked N E) τ W}
    {g : σ → τ} {I : σ → Prop}
    (hremark : ∀ {β : Type} (r : N) (answer : Unit → β) (s : σ), I s → ∃ t,
      m.step (.remark r answer) s = .ok (answer (), t) ∧
      n.step (.remark r answer) (g s) = .ok (answer (), g t) ∧ I t)
    (hcall : ∀ {β : Type} (e : E β), A e → ∀ s, I s →
      n.step (.call e) (g s) = (m.step (.call e) s).map (fun r => (r.1, g r.2)) ∧
        ∀ b t, m.step (.call e) s = .ok (b, t) → I t)
    {p : Prog (Remarked N E) α} (hp : p.silence.Calls A) {s : σ} (hs : I s) :
    p.run n (g s) = (p.run m s).map (fun r => (r.1, g r.2)) ∧
      ∀ a t, p.run m s = .ok (a, t) → I t := by
  induction p generalizing s with
  | ret a =>
      refine ⟨rfl, fun b t h => ?_⟩
      cases h
      exact hs
  | call e k ih =>
      cases e with
      | call e =>
          obtain ⟨hstep, hkeep⟩ := hcall e hp.1 s hs
          rw [run_call, run_call, hstep]
          cases he : m.step (.call e) s with
          | error w => exact ⟨rfl, fun a t h => by cases h⟩
          | ok r => exact ih r.1 (hp.2 r.1) (hkeep r.1 r.2 he)
      | remark r answer =>
          obtain ⟨t, hm, hn, ht⟩ := hremark r answer s hs
          rw [run_call, run_call, hm, hn]
          exact ih (answer ()) hp ht

end

/-! ## Remarks that move the state -/

/-- A condition on the calls; nothing is asked of the remarks. -/
def OnCalls (A : {β : Type} → E β → σ → Prop) {β : Type} : Remarked N E β → σ → Prop
  | .call e, s => A e s
  | .remark _ _, _ => True

/-- **Remarks that are heard.**  The calls of a program are those of its silent version when every
remark moves the state along `R`. -/
theorem each_aloud {n : Machine (Remarked N E) σ W} {m : Machine E σ W} {R : σ → σ → Prop}
    {B : {β : Type} → E β → σ → Prop} (hrefl : ∀ s, R s s)
    (htrans : ∀ a b c, R a b → R b c → R a c)
    (hremark : ∀ {β : Type} (r : N) (answer : Unit → β) (s : σ) (b : β) (t : σ),
      n.step (.remark r answer) s = .ok (b, t) → b = answer () ∧ R s t)
    (hcall : ∀ {β : Type} (e : E β) (s : σ), n.step (.call e) s = m.step e s)
    {p : Prog (Remarked N E) α} {s : σ} (hp : p.silence.EachAmid m R B s) :
    p.Each n (OnCalls B) s := by
  induction p generalizing s with
  | ret a => trivial
  | call e k ih =>
      cases e with
      | call e =>
          obtain ⟨he, hk⟩ := hp s (hrefl s)
          refine ⟨he, fun r hr => ih r.1 (hk r ?_)⟩
          rwa [hcall] at hr
      | remark r answer =>
          refine ⟨trivial, fun q hq => ?_⟩
          obtain ⟨hb, hrel⟩ := hremark r answer s q.1 q.2 hq
          rw [hb]
          exact ih (answer ()) (hp.of_rel htrans hrel)

end Prog

end Effects
