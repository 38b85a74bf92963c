import Mathlib.Algebra.Order.Ring.Int
import Mathlib.Data.Fintype.Card
import Mathlib.Data.Fintype.EquivFin
import Mathlib.Logic.Relation
import Mathlib.Order.WellFounded

/-!
# Processes that wait for exclusive locks

Any number of processes take turns.  A process makes steps of its own and steps for which it must
be granted a lock that nobody holds.  A deadlock is a cycle of processes each of which holds a lock
that the next one asks for.

* **`not_deadlocked`** — processes that ask for locks along an acyclic relation only are never in a
  deadlock.
* **`exists_deadlocked`** — when each pair of the relation stands for a process that takes the one
  lock and then asks for the other, and the relation has a cycle, a deadlock can be reached.
-/

namespace Concurrency

open Relation

/-! ## Cycles of a relation -/

section

variable {α : Type*} {r : α → α → Prop}

/-- A walk back to its start stays in a finite set. -/
theorem exists_finset_of_transGen {a b : α} (h : TransGen r a b) :
    ∃ C : Finset α, a ∈ C ∧ ∀ x ∈ C, ∃ y, r x y ∧ (y ∈ C ∨ y = b) := by
  classical
  induction h using TransGen.head_induction_on with
  | @single a h =>
      refine ⟨{a}, Finset.mem_singleton_self a, fun x hx => ?_⟩
      obtain rfl := Finset.mem_singleton.mp hx
      exact ⟨b, h, .inr rfl⟩
  | @head a c h _ ih =>
      obtain ⟨C, hc, hC⟩ := ih
      refine ⟨insert a C, Finset.mem_insert_self a C, fun x hx => ?_⟩
      rcases Finset.mem_insert.mp hx with rfl | hx
      · exact ⟨c, h, .inl (Finset.mem_insert_of_mem hc)⟩
      · obtain ⟨y, hy, hyC⟩ := hC x hx
        exact ⟨y, hy, hyC.imp_left Finset.mem_insert_of_mem⟩

/-- A cycle goes through finitely many members, each of which leads to another one. -/
theorem exists_finset_of_cycle {a : α} (h : TransGen r a a) :
    ∃ C : Finset α, a ∈ C ∧ ∀ x ∈ C, ∃ y ∈ C, r x y := by
  obtain ⟨C, ha, hC⟩ := exists_finset_of_transGen h
  refine ⟨C, ha, fun x hx => ?_⟩
  obtain ⟨y, hy, hyC⟩ := hC x hx
  exact ⟨y, hyC.elim id fun h => h ▸ ha, hy⟩

/-- Where everybody in a finite set has a predecessor in it, there is a cycle. -/
theorem exists_cycle {C : Finset α} {a : α} (ha : a ∈ C) (hC : ∀ x ∈ C, ∃ y ∈ C, r y x) :
    ∃ x, TransGen r x x := by
  by_contra hno
  push Not at hno
  let s : C → C → Prop := fun x y => TransGen r x y
  have : IsTrans C s := ⟨fun _ _ _ => TransGen.trans⟩
  have : Std.Irrefl s := ⟨fun x => hno x⟩
  have hwf := Finite.wellFounded_of_trans_of_irrefl s
  obtain ⟨x, -, hmin⟩ := hwf.has_min Set.univ ⟨⟨a, ha⟩, trivial⟩
  obtain ⟨y, hy, hyx⟩ := hC x x.2
  exact hmin ⟨y, hy⟩ trivial (.single hyx)

/-- Where a rank grows along the relation, there is no cycle. -/
theorem not_cycle_of_rank {β : Type*} [Preorder β] (f : α → β) (h : ∀ x y, r x y → f x < f y)
    (x : α) : ¬ TransGen r x x := by
  intro hx
  have hgrows : ∀ y, TransGen r x y → f x < f y := by
    intro y hy
    induction hy with
    | single hxy => exact h _ _ hxy
    | tail _ hyz ih => exact ih.trans (h _ _ hyz)
  exact lt_irrefl _ (hgrows x hx)

end

/-! ## Locks -/

/-- What a process does by itself: the steps that wait for no lock, those that take one, and the
locks that it holds. -/
structure Locking (P D : Type*) where
  step : P → P → Prop
  take : P → D → P → Prop
  holds : P → D → Prop

variable {ι P D : Type*} (L : Locking P D)

namespace Locking

/-- One process makes a step; a lock that it takes is held by nobody. -/
def Turn (s t : ι → P) : Prop :=
  ∃ i, (∀ j, j ≠ i → t j = s j) ∧
    (L.step (s i) (t i) ∨ ∃ d, L.take (s i) d (t i) ∧ ∀ j, ¬ L.holds (s j) d)

/-- A process waits for a lock. -/
def Asks (p : P) (d : D) : Prop := ∃ q, L.take p d q

/-- `j` holds a lock that `i` asks for. -/
def Blocks (s : ι → P) (j i : ι) : Prop := ∃ d, L.holds (s j) d ∧ L.Asks (s i) d

/-- A cycle of processes, each of which holds a lock that the next one asks for. -/
def Deadlocked (s : ι → P) : Prop := ∃ i, TransGen (L.Blocks s) i i

/-- What a process can do, whatever the others do. -/
def Own (p q : P) : Prop := L.step p q ∨ ∃ d, L.take p d q

variable {L}

/-- The others do not change a process. -/
theorem own_of_turns {s₀ s : ι → P} (h : ReflTransGen L.Turn s₀ s) (i : ι) :
    ReflTransGen L.Own (s₀ i) (s i) := by
  induction h with
  | refl => exact .refl
  | @tail s t _ hturn ih =>
      obtain ⟨j, hothers, hj⟩ := hturn
      by_cases hij : i = j
      · subst hij
        exact ih.tail (hj.imp_right fun ⟨d, hd, _⟩ => ⟨d, hd⟩)
      · rwa [hothers i hij]

/-- Along a chain of waiting processes the locks follow the relation, from the one that the last
process asks for to the one that the first process holds. -/
theorem order_of_blocks {R : D → D → Prop} {s : ι → P} {i j : ι}
    (hR : ∀ k d e, L.holds (s k) d → L.Asks (s k) e → R d e) (h : TransGen (L.Blocks s) j i) :
    ∃ d e, L.holds (s j) d ∧ L.Asks (s i) e ∧ ReflTransGen R e d := by
  induction h with
  | single h =>
      obtain ⟨d, hd, he⟩ := h
      exact ⟨d, d, hd, he, .refl⟩
  | @tail i k _ h ih =>
      obtain ⟨d, e, hd, he, hed⟩ := ih
      obtain ⟨e', he', ha⟩ := h
      exact ⟨d, e', hd, ha, .head (hR i e' e he' he) hed⟩

/-- **Locks in order.** -/
theorem not_deadlocked {R : D → D → Prop} {s : ι → P} (hacyclic : ∀ d, ¬ TransGen R d d)
    (hR : ∀ k d e, L.holds (s k) d → L.Asks (s k) e → R d e) : ¬ L.Deadlocked s := by
  rintro ⟨i, h⟩
  obtain ⟨d, e, hd, he, hed⟩ := order_of_blocks hR h
  exact hacyclic d (.head' (hR i d e hd he) hed)

/-! ## Locks out of order -/

/-- A process can come to hold the lock `d` alone and to ask for `e`. -/
structure Hop (L : Locking P D) (p₀ : P) (d e : D) (r : P) : Prop where
  path : ∃ p q, ReflTransGen L.step p₀ p ∧ (∀ x, ¬ L.holds p x) ∧ L.take p d q ∧
    ReflTransGen L.step q r
  holds_iff : ∀ x, L.holds r x ↔ x = d
  asks : L.Asks r e

section

variable {s s₀ : ι → P} {i : ι} {d e : D} {p q r : P}

/-- Steps of one process. -/
theorem turns_of_steps [DecidableEq ι] (h : ReflTransGen L.step p q) :
    ReflTransGen L.Turn (Function.update s i p) (Function.update s i q) := by
  induction h with
  | refl => exact .refl
  | @tail q r _ hstep ih =>
      refine ih.tail ⟨i, fun j hj => ?_, .inl ?_⟩
      · simp [hj]
      · simpa using hstep

/-- One process takes its first lock, which nobody holds. -/
theorem turns_of_hop [DecidableEq ι] (hop : L.Hop (s i) d e r)
    (hfree : ∀ j, j ≠ i → ¬ L.holds (s j) d) :
    ReflTransGen L.Turn s (Function.update s i r) := by
  obtain ⟨p, q, hp, hnone, htake, hq⟩ := hop.path
  have hbefore : ReflTransGen L.Turn s (Function.update s i p) := by
    have hsteps := turns_of_steps (s := s) (i := i) hp
    rwa [Function.update_eq_self] at hsteps
  refine (hbefore.tail ⟨i, fun j hj => ?_, .inr ⟨d, ?_, fun j => ?_⟩⟩).trans (turns_of_steps hq)
  · simp [hj]
  · simpa using htake
  · by_cases hj : j = i
    · subst hj
      simpa using hnone d
    · simpa [hj] using hfree j hj

/-- **A deadlock can be reached** when the relation has a cycle: every process on it takes its
first lock. -/
theorem exists_deadlocked {R : D → D → Prop} (first : ι → D)
    (hedge : ∀ d e, R d e → ∃ i r, first i = d ∧ L.Hop (s₀ i) d e r)
    (hfree : ∀ i d, ¬ L.holds (s₀ i) d) (hcycle : ∃ d, TransGen R d d) :
    ∃ s, ReflTransGen L.Turn s₀ s ∧ L.Deadlocked s := by
  classical
  obtain ⟨d₀, hd₀⟩ := hcycle
  obtain ⟨C, hmem, hC⟩ := exists_finset_of_cycle hd₀
  choose! next hnext hR using hC
  have hhop : ∀ d ∈ C, ∃ i r, first i = d ∧ L.Hop (s₀ i) d (next d) r := fun d hd =>
    hedge d (next d) (hR d hd)
  obtain ⟨i₀, r₀, -⟩ := hhop d₀ hmem
  have : Nonempty ι := ⟨i₀⟩
  have : Nonempty P := ⟨r₀⟩
  choose! proc state hfirst hhop using hhop
  have hproc : ∀ d ∈ C, ∀ e ∈ C, proc d = proc e → d = e := by
    intro d hd e he h
    rw [← hfirst d hd, ← hfirst e he, h]
  -- The processes take their first locks one after the other.
  have hreach : ∀ B ⊆ C, ∃ s, ReflTransGen L.Turn s₀ s ∧ (∀ d ∈ B, s (proc d) = state d) ∧
      ∀ i, (∀ d ∈ B, i ≠ proc d) → s i = s₀ i := by
    intro B
    induction B using Finset.induction_on with
    | empty =>
        intro _
        exact ⟨s₀, .refl, fun d hd => absurd hd (Finset.notMem_empty d), fun _ _ => rfl⟩
    | @insert d B hd ih =>
        intro hsub
        obtain ⟨s, hs, hin, hout⟩ := ih ((Finset.subset_insert d B).trans hsub)
        have hdC : d ∈ C := hsub (Finset.mem_insert_self d B)
        have hBC : ∀ e ∈ B, e ∈ C := fun e he => hsub (Finset.mem_insert_of_mem he)
        have hne : ∀ e ∈ B, proc d ≠ proc e := fun e he h =>
          hd (hproc d hdC e (hBC e he) h ▸ he)
        have hstart : s (proc d) = s₀ (proc d) := hout _ hne
        have hfree : ∀ j, j ≠ proc d → ¬ L.holds (s j) d := by
          intro j hj
          by_cases hjB : ∃ e ∈ B, j = proc e
          · obtain ⟨e, he, rfl⟩ := hjB
            rw [hin e he, (hhop e (hBC e he)).holds_iff]
            rintro rfl
            exact hd he
          · push Not at hjB
            rw [hout j hjB]
            exact hfree j d
        refine ⟨_, hs.trans (turns_of_hop (hstart ▸ hhop d hdC) hfree), ?_, ?_⟩
        · intro e he
          rcases Finset.mem_insert.mp he with rfl | he
          · simp
          · rw [Function.update_of_ne (hne e he).symm, hin e he]
        · intro i hi
          have hid : i ≠ proc d := hi d (Finset.mem_insert_self d B)
          rw [Function.update_of_ne hid]
          exact hout i fun e he => hi e (Finset.mem_insert_of_mem he)
  obtain ⟨s, hs, hin, -⟩ := hreach C (Finset.Subset.refl C)
  have hblocks : ∀ d ∈ C, L.Blocks s (proc (next d)) (proc d) := by
    intro d hd
    refine ⟨next d, ?_, ?_⟩
    · rw [hin _ (hnext d hd), (hhop _ (hnext d hd)).holds_iff]
    · rw [hin d hd]
      exact (hhop d hd).asks
  refine ⟨s, hs, ?_⟩
  refine exists_cycle (C := C.image proc) (Finset.mem_image_of_mem proc hmem) fun i hi => ?_
  obtain ⟨d, hd, rfl⟩ := Finset.mem_image.mp hi
  exact ⟨_, Finset.mem_image_of_mem proc (hnext d hd), hblocks d hd⟩

end

end Locking

end Concurrency
