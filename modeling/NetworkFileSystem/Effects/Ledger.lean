import Mathlib.Algebra.Order.Ring.Int
import Mathlib.Data.List.Induction
import Mathlib.Data.List.Nodup

/-!
# Resources that are given out and taken back

Some events of a history give out a resource, some take one back.  The ledger of the history lists
the resources that are out, each with the event that gave it out.
-/

namespace Effects

variable {ε κ : Type}

/-- Which resource an event gives out, and which one it takes back. -/
structure Ledger (ε κ : Type) where
  gives : ε → Option κ
  takes : ε → Option κ

namespace Ledger

variable [DecidableEq κ] (L : Ledger ε κ)

/-- What is out after one more event. -/
def next (l : List (κ × ε)) (e : ε) : List (κ × ε) :=
  (L.gives e).toList.map (fun k => (k, e)) ++ l.filter fun x => L.takes e ≠ some x.1

/-- What is out after a history. -/
def out (tr : List ε) : List (κ × ε) := tr.foldl L.next []

/-- The resources that are out. -/
def keys (tr : List ε) : List κ := (L.out tr).map (·.1)

@[simp] theorem out_nil : L.out [] = [] := rfl

@[simp] theorem keys_nil : L.keys [] = [] := rfl

/-- What is out after one more event. -/
theorem out_snoc (tr : List ε) (e : ε) : L.out (tr ++ [e]) = L.next (L.out tr) e := by
  rw [out, List.foldl_concat]
  rfl

/-- The keys that are out after one more event. -/
theorem keys_snoc (tr : List ε) (e : ε) :
    L.keys (tr ++ [e]) =
      (L.gives e).toList ++ (L.keys tr).filter fun k => L.takes e ≠ some k := by
  rw [keys, out_snoc, next, List.map_append, List.map_map, keys, List.filter_map]
  cases L.gives e <;> rfl

variable {L} {tr : List ε} {e : ε} {k : κ}

/-- One more event: what it gives out is out, and so is what was and is not taken back. -/
theorem mem_out_snoc {x : κ × ε} : x ∈ L.out (tr ++ [e]) ↔
    (L.gives e = some x.1 ∧ x.2 = e) ∨ (x ∈ L.out tr ∧ L.takes e ≠ some x.1) := by
  rw [out_snoc, next, List.mem_append, List.mem_filter, decide_eq_true_eq]
  refine or_congr_left ?_
  simp only [List.mem_map, Option.mem_toList]
  constructor
  · rintro ⟨k, hk, rfl⟩
    exact ⟨hk, rfl⟩
  · rintro ⟨hk, rfl⟩
    exact ⟨x.1, hk, rfl⟩

/-- **What being out means.**  The resource was given out, and has not been taken back since. -/
theorem mem_out : (k, e) ∈ L.out tr ↔
    ∃ past rest, tr = past ++ e :: rest ∧ L.gives e = some k ∧
      ∀ e' ∈ rest, L.takes e' ≠ some k := by
  induction tr using List.reverseRecOn with
  | nil => simp
  | append_singleton tr x ih =>
      rw [mem_out_snoc, ih]
      constructor
      · rintro (⟨hg, rfl⟩ | ⟨⟨past, rest, rfl, hg, hrest⟩, hx⟩)
        · exact ⟨tr, [], rfl, hg, fun e' he' => nomatch he'⟩
        · refine ⟨past, rest ++ [x], by simp, hg, fun e' he' => ?_⟩
          rcases List.mem_append.mp he' with he' | he'
          · exact hrest e' he'
          · rwa [List.mem_singleton.mp he']
      · rintro ⟨past, rest, htr, hg, hrest⟩
        rcases List.eq_nil_or_concat rest with rfl | ⟨rest', y, rfl⟩
        · obtain ⟨rfl, hx⟩ := List.append_inj' htr rfl
          cases hx
          exact .inl ⟨hg, rfl⟩
        · have htr' : tr ++ [x] = (past ++ e :: rest') ++ [y] := by simp [htr]
          obtain ⟨hinit, hx⟩ := List.append_inj' htr' rfl
          cases hx
          exact .inr ⟨⟨past, rest', hinit, hg, fun e' he' => hrest e' (by simp [he'])⟩,
            hrest x (by simp)⟩

/-- An event that only gives out. -/
theorem keys_gives (hg : L.gives e = some k) (ht : L.takes e = none) :
    L.keys (tr ++ [e]) = k :: L.keys tr := by
  simp [keys_snoc, hg, ht]

/-- An event that does neither. -/
theorem keys_neither (hg : L.gives e = none) (ht : L.takes e = none) :
    L.keys (tr ++ [e]) = L.keys tr := by
  simp [keys_snoc, hg, ht]

/-- An event that only takes back. -/
theorem keys_takes (hg : L.gives e = none) (ht : L.takes e = some k) :
    L.keys (tr ++ [e]) = (L.keys tr).filter (· ≠ k) := by
  rw [keys_snoc, hg, ht]
  refine List.filter_congr fun x _ => ?_
  simp [eq_comm]

/-- Taking back something that is out, once, makes the ledger shorter by one. -/
theorem length_keys_takes (hg : L.gives e = none) (ht : L.takes e = some k)
    (hnodup : (L.keys tr).Nodup) :
    (L.keys (tr ++ [e])).length + (if k ∈ L.keys tr then 1 else 0) = (L.keys tr).length := by
  have herase : (L.keys tr).filter (· ≠ k) = (L.keys tr).erase k := by
    rw [hnodup.erase_eq_filter]
    exact List.filter_congr fun x _ => by rw [Bool.eq_iff_iff]; simp
  rw [keys_takes hg ht, herase]
  split
  · next hk =>
    rw [List.length_erase_of_mem hk]
    have := List.length_pos_of_mem hk
    omega
  · next hk => rw [List.erase_of_not_mem hk, Nat.add_zero]

end Ledger

end Effects
