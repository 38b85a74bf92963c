import NetworkFileSystem.Effects.Program

/-!
# Runs of a system that answers requests one after the other

`Runs step s tr t` says that answering a sequence of requests takes the state `s` to `t`; the
trace `tr` keeps, for each request, the answer and the states around it, so that properties of
the whole history (an earlier request that was never revoked, say) can be stated.
-/

namespace Effects

/-- One request of a run, with its answer and the states before and after it. -/
structure Event (ι ρ σ : Type) where
  pre : σ
  input : ι
  output : ρ
  post : σ

variable {ι ρ σ W : Type}

/-- The sequences of events that requests give rise to, in order. -/
inductive Runs (step : ι → σ → Except W (ρ × σ)) (s : σ) : List (Event ι ρ σ) → σ → Prop
  | nil : Runs step s [] s
  | snoc {tr : List (Event ι ρ σ)} {e : Event ι ρ σ} (h : Runs step s tr e.pre)
      (hs : step e.input e.pre = .ok (e.output, e.post)) : Runs step s (tr ++ [e]) e.post

namespace Runs

variable {step : ι → σ → Except W (ρ × σ)} {s t : σ} {tr : List (Event ι ρ σ)}

/-- Every event of a run is a step of the system. -/
theorem step_of_mem (h : Runs step s tr t) {e : Event ι ρ σ} (he : e ∈ tr) :
    step e.input e.pre = .ok (e.output, e.post) := by
  induction h with
  | nil => cases he
  | snoc h hs ih =>
      rcases List.mem_append.mp he with he | he
      · exact ih he
      · rw [List.mem_singleton.mp he]
        exact hs

/-- A run of one step. -/
theorem single {i : ι} {o : ρ} (hs : step i s = .ok (o, t)) : Runs step s [⟨s, i, o, t⟩] t :=
  .snoc (e := ⟨s, i, o, t⟩) .nil hs

/-- A condition on each event together with the events before it. -/
def Along (C : List (Event ι ρ σ) → Event ι ρ σ → Prop) (tr : List (Event ι ρ σ)) : Prop :=
  ∀ past e rest, tr = past ++ e :: rest → C past e

/-- Nothing has happened yet. -/
theorem along_nil {C : List (Event ι ρ σ) → Event ι ρ σ → Prop} : Along C [] := by
  intro past e rest h
  simp at h

/-- One more event, with all that was before it. -/
theorem along_snoc {C : List (Event ι ρ σ) → Event ι ρ σ → Prop} {e : Event ι ρ σ} :
    Along C (tr ++ [e]) ↔ Along C tr ∧ C tr e := by
  constructor
  · intro h
    refine ⟨fun past e' rest htr => h past e' (rest ++ [e]) (by simp [htr]), h tr e [] rfl⟩
  · rintro ⟨h, he⟩ past e' rest htr
    rcases List.eq_nil_or_concat rest with rfl | ⟨rest', x, rfl⟩
    · obtain ⟨rfl, hx⟩ := List.append_inj' htr rfl
      cases hx
      exact he
    · have htr' : tr ++ [e] = (past ++ e' :: rest') ++ [x] := by simp [htr]
      exact h past e' rest' (List.append_inj' htr' rfl).1

/-- One event, with nothing before it. -/
theorem along_single {C : List (Event ι ρ σ) → Event ι ρ σ → Prop} {e : Event ι ρ σ} :
    Along C [e] ↔ C [] e := by
  rw [← List.nil_append [e], along_snoc]
  exact and_iff_right along_nil

/-- A condition that does not look at the past. -/
theorem along_mem {C : Event ι ρ σ → Prop} : Along (fun _ => C) tr ↔ ∀ e ∈ tr, C e := by
  constructor
  · intro h e he
    obtain ⟨past, rest, htr⟩ := List.append_of_mem he
    exact h past e rest htr
  · intro h past e rest htr
    exact h e (by simp [htr])

/-- **The invariant rule.**  What holds at the start and is kept by every step that meets the
condition holds at the end of every run whose steps all meet it. -/
theorem invariant {I : List (Event ι ρ σ) → σ → Prop}
    {C : List (Event ι ρ σ) → Event ι ρ σ → Prop} (hinit : I [] s)
    (hstep : ∀ past (e : Event ι ρ σ), I past e.pre →
      step e.input e.pre = .ok (e.output, e.post) → C past e → I (past ++ [e]) e.post)
    (h : Runs step s tr t) (hc : Along C tr) : I tr t := by
  induction h with
  | nil => exact hinit
  | snoc h hs ih =>
      rw [along_snoc] at hc
      exact hstep _ _ (ih hc.1) hs hc.2

/-- What is proved of every event from the invariant before it holds along the whole run. -/
theorem along_of_invariant {I : List (Event ι ρ σ) → σ → Prop}
    {C P : List (Event ι ρ σ) → Event ι ρ σ → Prop} (hinit : I [] s)
    (hstep : ∀ past (e : Event ι ρ σ), I past e.pre →
      step e.input e.pre = .ok (e.output, e.post) → C past e → I (past ++ [e]) e.post ∧ P past e)
    (h : Runs step s tr t) (hc : Along C tr) : Along P tr := by
  induction h with
  | nil => exact along_nil
  | snoc h hs ih =>
      rw [along_snoc] at hc ⊢
      have hi := h.invariant hinit (fun past e hi hs hc => (hstep past e hi hs hc).1) hc.1
      exact ⟨ih hc.1, (hstep _ _ hi hs hc.2).2⟩

/-- **The equivalence rule.**  Two conditions agree along every run whose steps meet `D` when they
agree at every such step before which the first one has held so far, and the first one keeps what
the comparison needs. -/
theorem along_iff_under {J : List (Event ι ρ σ) → σ → Prop}
    {D P C : List (Event ι ρ σ) → Event ι ρ σ → Prop} (hinit : J [] s)
    (hstep : ∀ past (e : Event ι ρ σ), J past e.pre →
      step e.input e.pre = .ok (e.output, e.post) → D past e →
      (P past e ↔ C past e) ∧ (P past e → J (past ++ [e]) e.post))
    (h : Runs step s tr t) (hD : Along D tr) : Along P tr ↔ Along C tr := by
  suffices (Along P tr ↔ Along C tr) ∧ (Along P tr → J tr t) from this.1
  induction h with
  | nil => exact ⟨iff_of_true along_nil along_nil, fun _ => hinit⟩
  | @snoc tr e h hs ih =>
      rw [along_snoc] at hD
      obtain ⟨hiff, hkeep⟩ := ih hD.1
      simp only [along_snoc]
      constructor
      · rw [← hiff]
        exact and_congr_right fun hp => (hstep tr e (hkeep hp) hs hD.2).1
      · rintro ⟨hp, he⟩
        exact (hstep tr e (hkeep hp) hs hD.2).2 he

/-- The equivalence rule when no condition is put on the steps. -/
theorem along_iff {J : List (Event ι ρ σ) → σ → Prop}
    {P C : List (Event ι ρ σ) → Event ι ρ σ → Prop} (hinit : J [] s)
    (hstep : ∀ past (e : Event ι ρ σ), J past e.pre →
      step e.input e.pre = .ok (e.output, e.post) →
      (P past e ↔ C past e) ∧ (P past e → J (past ++ [e]) e.post))
    (h : Runs step s tr t) : Along P tr ↔ Along C tr :=
  h.along_iff_under (D := fun _ _ => True) hinit (fun past e hj hs _ => hstep past e hj hs)
    fun _ _ _ _ => trivial

end Runs

/-! ## Refinement -/

section

variable {ι' ρ' σ' W' : Type} {step : ι → σ → Except W (ρ × σ)}
  {step' : ι' → σ' → Except W' (ρ' × σ')} {s t : σ} {s' : σ'} {tr : List (Event ι ρ σ)}

/-- A trace in the terms of another system: each event is one event there, or it is skipped. -/
inductive Reads (R : Event ι ρ σ → Event ι' ρ' σ' → Prop) (S : Event ι ρ σ → Prop) :
    List (Event ι ρ σ) → List (Event ι' ρ' σ') → Prop
  | nil : Reads R S [] []
  | step {tr : List (Event ι ρ σ)} {tr' : List (Event ι' ρ' σ')} {e : Event ι ρ σ}
      {e' : Event ι' ρ' σ'} (h : Reads R S tr tr') (he : R e e') :
      Reads R S (tr ++ [e]) (tr' ++ [e'])
  | skip {tr : List (Event ι ρ σ)} {tr' : List (Event ι' ρ' σ')} {e : Event ι ρ σ}
      (h : Reads R S tr tr') (he : S e) : Reads R S (tr ++ [e]) tr'

/-- **The simulation rule.**  A run whose steps all meet `C` has a counterpart in another system
when, from states that `H` relates, each of its steps is a step there or can be skipped. -/
theorem Runs.simulated {H : σ → σ' → Prop} {C : Event ι ρ σ → Prop}
    {R : Event ι ρ σ → Event ι' ρ' σ' → Prop} {S : Event ι ρ σ → Prop}
    (hstep : ∀ (e : Event ι ρ σ) (u : σ'), H e.pre u →
      step e.input e.pre = .ok (e.output, e.post) → C e →
        (∃ i o u', step' i u = .ok (o, u') ∧ H e.post u' ∧ R e ⟨u, i, o, u'⟩) ∨
          (H e.post u ∧ S e))
    (hinit : H s s') (h : Runs step s tr t) (hC : ∀ e ∈ tr, C e) :
    ∃ tr' t', Runs step' s' tr' t' ∧ H t t' ∧ Reads R S tr tr' := by
  induction h with
  | nil => exact ⟨[], s', .nil, hinit, .nil⟩
  | @snoc tr e h hs ih =>
      obtain ⟨tr', u, hrun, hu, hreads⟩ := ih fun a ha => hC a (List.mem_append_left _ ha)
      have he : C e := hC e (List.mem_append_right _ (List.mem_singleton_self e))
      rcases hstep e u hu hs he with ⟨i, o, u', hs', hu', hR⟩ | ⟨hu', hS⟩
      · exact ⟨tr' ++ [⟨u, i, o, u'⟩], u', hrun.snoc hs', hu', hreads.step hR⟩
      · exact ⟨tr', u, hrun, hu', hreads.skip hS⟩

/-- **The refinement rule.**  A run whose steps all meet `C` is one of another system over the same
states when each of its steps is a step there or does nothing. -/
theorem Runs.refined {step' : ι' → σ → Except W (ρ' × σ)} {C : Event ι ρ σ → Prop}
    {R : Event ι ρ σ → Event ι' ρ' σ → Prop} {S : Event ι ρ σ → Prop}
    (hstep : ∀ e : Event ι ρ σ, step e.input e.pre = .ok (e.output, e.post) → C e →
      (∃ i o, step' i e.pre = .ok (o, e.post) ∧ R e ⟨e.pre, i, o, e.post⟩) ∨
        (e.post = e.pre ∧ S e)) (h : Runs step s tr t) (hC : ∀ e ∈ tr, C e) :
    ∃ tr', Runs step' s tr' t ∧ Reads R S tr tr' := by
  have hsim : ∃ tr' t', Runs step' s tr' t' ∧ t = t' ∧ Reads R S tr tr' := by
    refine h.simulated (fun e u hu hs he => ?_) rfl hC
    subst hu
    rcases hstep e hs he with ⟨i, o, hs', he⟩ | ⟨hpost, he⟩
    · exact .inl ⟨i, o, e.post, hs', rfl, he⟩
    · exact .inr ⟨hpost, he⟩
  obtain ⟨tr', t', hrun, rfl, hreads⟩ := hsim
  exact ⟨tr', hrun, hreads⟩

/-- Every event of the other trace comes from one of this. -/
theorem Reads.exists_of_mem {R : Event ι ρ σ → Event ι' ρ' σ' → Prop} {S : Event ι ρ σ → Prop}
    {tr' : List (Event ι' ρ' σ')} (h : Reads R S tr tr') {e' : Event ι' ρ' σ'} (he : e' ∈ tr') :
    ∃ e ∈ tr, R e e' := by
  induction h with
  | nil => cases he
  | step h hr ih =>
      rcases List.mem_append.mp he with he | he
      · obtain ⟨e, hmem, hr'⟩ := ih he
        exact ⟨e, List.mem_append_left _ hmem, hr'⟩
      · rw [List.mem_singleton.mp he]
        exact ⟨_, List.mem_append_right _ (List.mem_singleton_self _), hr⟩
  | skip h hs ih =>
      obtain ⟨e, hmem, hr⟩ := ih he
      exact ⟨e, List.mem_append_left _ hmem, hr⟩

/-- What can be read off the events is the same in both traces. -/
theorem Reads.filterMap_eq {R : Event ι ρ σ → Event ι' ρ' σ' → Prop} {S : Event ι ρ σ → Prop}
    {γ : Type} {f : Event ι ρ σ → Option γ} {g : Event ι' ρ' σ' → γ}
    {tr' : List (Event ι' ρ' σ')} (h : Reads R S tr tr') (hR : ∀ e e', R e e' → f e = some (g e'))
    (hS : ∀ e, S e → f e = none) : tr.filterMap f = tr'.map g := by
  induction h with
  | nil => rfl
  | step h he ih => simp [ih, hR _ _ he]
  | skip h he ih => simp [ih, hS _ he]

/-- A run whose steps are also steps of another system is a run of it. -/
theorem Runs.of_steps {step' : ι → σ → Except W (ρ × σ)} {I : σ → Prop}
    {C : Event ι ρ σ → Prop} (h : Runs step s tr t)
    (hstep : ∀ e : Event ι ρ σ, I e.pre → step e.input e.pre = .ok (e.output, e.post) → C e →
      step' e.input e.pre = .ok (e.output, e.post) ∧ I e.post)
    (hinit : I s) (hC : ∀ e ∈ tr, C e) : Runs step' s tr t ∧ I t := by
  induction h with
  | nil => exact ⟨.nil, hinit⟩
  | @snoc tr e h hs ih =>
      obtain ⟨hrun, hpre⟩ := ih fun a ha => hC a (List.mem_append_left _ ha)
      have he : C e := hC e (List.mem_append_right _ (List.mem_singleton_self e))
      obtain ⟨hs', hpost⟩ := hstep e hpre hs he
      exact ⟨hrun.snoc hs', hpost⟩

/-- **A run is determined by its requests.** -/
theorem Runs.unique {tr' : List (Event ι ρ σ)} {t' : σ} (h : Runs step s tr t)
    (h' : Runs step s tr' t') (hinputs : tr.map Event.input = tr'.map Event.input) :
    tr = tr' ∧ t = t' := by
  induction h generalizing tr' t' with
  | nil =>
      cases h' with
      | nil => exact ⟨rfl, rfl⟩
      | snoc h' hs' => simp at hinputs
  | @snoc tr e h hs ih =>
      cases h' with
      | nil => simp at hinputs
      | @snoc tr₂ e' h' hs' =>
          simp only [List.map_append, List.map_cons, List.map_nil] at hinputs
          obtain ⟨hpast, hlast⟩ := List.append_inj' hinputs rfl
          obtain ⟨rfl, hpre⟩ := ih h' hpast
          obtain ⟨pre, input, output, post⟩ := e
          obtain ⟨pre', input', output', post'⟩ := e'
          obtain rfl : pre = pre' := hpre
          obtain rfl : input = input' := List.singleton_inj.mp hlast
          obtain ⟨rfl, rfl⟩ := Prod.mk.inj (Except.ok.inj (hs.symm.trans hs'))
          exact ⟨rfl, rfl⟩

end

end Effects
