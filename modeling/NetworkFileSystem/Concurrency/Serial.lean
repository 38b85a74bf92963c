import Mathlib.Algebra.Order.Ring.Int
import Mathlib.Data.List.Nodup
import Mathlib.Logic.Function.Basic
import Mathlib.Logic.Relation

/-!
# Workers that might as well have run one after the other

Any number of workers take turns in a shared state; each of them gives a reply in the end.  A run
is put in order by saying at which step a worker *takes effect*: its reply is settled from then on,
and what the others are to see of the state goes over to what it would be if the worker had just
run alone.  All other steps change nothing that is to be seen.

* **`exists_serial`** — then there is an order in which the workers, run one after the other, give
  the same replies and leave the same state.
-/

namespace Concurrency

open Relation

variable {ι C S R : Type*} {alone : ι → S → R → S → Prop} {reply reply' : ι → Option R} {s t : S}
  {l : List ι}

/-- The workers of a list run one after the other, each of them alone. -/
inductive Serially (alone : ι → S → R → S → Prop) (reply : ι → Option R) (s : S) :
    List ι → S → Prop
  | nil : Serially alone reply s [] s
  | snoc {l : List ι} {t u : S} {i : ι} {r : R} (h : Serially alone reply s l t)
      (hr : reply i = some r) (hi : alone i t r u) : Serially alone reply s (l ++ [i]) u

/-- Only the replies of the workers on the list matter. -/
theorem Serially.congr (h : Serially alone reply s l t) (hr : ∀ i ∈ l, reply' i = reply i) :
    Serially alone reply' s l t := by
  induction h with
  | nil => exact .nil
  | @snoc l t u i r _ hi ha ih =>
      refine .snoc (ih fun j hj => hr j (by simp [hj])) ?_ ha
      rw [hr i (by simp), hi]

/-- Nobody has worked, so nothing has changed. -/
theorem Serially.of_nil (h : Serially alone reply s l t) (hl : l = []) : t = s := by
  cases h with
  | nil => rfl
  | snoc _ _ _ => simp at hl

/-- The first worker runs in the state that there is at the start. -/
theorem Serially.head {i : ι} {l' : List ι} (h : Serially alone reply s l t) (hl : l = i :: l') :
    ∃ r u, reply i = some r ∧ alone i s r u := by
  induction h generalizing l' with
  | nil => cases hl
  | @snoc l t u j r hserial hr ha ih =>
      cases l with
      | nil =>
          obtain ⟨rfl, -⟩ := List.cons.inj hl
          exact ⟨r, u, hr, hserial.of_nil rfl ▸ ha⟩
      | cons k l =>
          obtain ⟨rfl, -⟩ := List.cons.inj hl
          exact ih rfl

/-- One worker takes effect: it has its reply now, and what is seen is what it leaves alone. -/
def TakesEffect [DecidableEq ι] (alone : ι → S → R → S → Prop) (verdict verdict' : ι → Option R)
    (view view' : S) : Prop :=
  ∃ i r, verdict i = none ∧ verdict' = Function.update verdict i (some r) ∧ alone i view r view'

/-- **The order in which the workers take effect.** -/
theorem exists_serial [DecidableEq ι] {step : C → C → Prop} {J : C → Prop} {view : C → S}
    {verdict : C → ι → Option R} {c₀ c : C} (hinit : J c₀) (hnone : ∀ i, verdict c₀ i = none)
    (hstep : ∀ c c', J c → step c c' → J c' ∧
      ((verdict c' = verdict c ∧ view c' = view c) ∨
        TakesEffect alone (verdict c) (verdict c') (view c) (view c')))
    (h : ReflTransGen step c₀ c) :
    J c ∧ ∃ l : List ι, l.Nodup ∧ (∀ i, i ∈ l ↔ (verdict c i).isSome) ∧
      Serially alone (verdict c) (view c₀) l (view c) := by
  induction h with
  | refl => exact ⟨hinit, [], List.nodup_nil, by simp [hnone], .nil⟩
  | @tail c c' _ hcc' ih =>
      obtain ⟨hJ, l, hnodup, hmem, hserial⟩ := ih
      obtain ⟨hJ', ⟨hverdict, hview⟩ | ⟨i, r, hi, hverdict, halone⟩⟩ := hstep c c' hJ hcc'
      · rw [hverdict, hview]
        exact ⟨hJ', l, hnodup, hmem, hserial⟩
      · have hnotin : i ∉ l := by simp [hmem, hi]
        refine ⟨hJ', l ++ [i], ?_, ?_, ?_⟩
        · exact hnodup.append (List.nodup_singleton i) (by simpa using hnotin)
        · intro j
          rw [List.mem_append, List.mem_singleton, hmem, hverdict]
          by_cases hj : j = i
          · subst hj
            simp
          · simp [hj]
        · refine .snoc (hserial.congr fun j hj => ?_) ?_ halone
          swap
          · rw [hverdict, Function.update_self]
          have hne : j ≠ i := fun h => hnotin (h ▸ hj)
          rw [hverdict, Function.update_of_ne hne]

end Concurrency
