import Mathlib.Algebra.Order.Ring.Int
import Mathlib.Data.List.Basic

/-!
# Reading a sequence piece by piece

A reader wants `size` elements from `offset` on and asks for them in rounds.  A round that has
`total` elements before it gets `most k total` of them, or what is left of the sequence; a round
that gets nothing is the last one.  The sequence may be another one in every round.

* `gather_constant`: from a sequence that stays the same, the slice that was asked for.
* `gather_switch`: from a sequence that is replaced once, a part of the old slice, then the rest of
  the new one.
-/

namespace Sequences

variable {α : Type}

/-- The elements from `offset` on, `n` at most. -/
def slice (l : List α) (offset n : ℕ) : List α := (l.drop offset).take n

/-- What the rounds from the `k`-th on collect. -/
def gather (contents : ℕ → List α) (most : ℕ → ℕ → ℕ) (size offset : ℕ) : ℕ → ℕ → ℕ → List α
  | 0, _, _ => []
  | n + 1, k, total =>
    if total < size then
      let p := slice (contents k) (offset + total) (most k total)
      if p.length = 0 then []
      else p ++ gather contents most size offset n (k + 1) (total + p.length)
    else []

/-- Every round may get something, and never more than what is missing. -/
def Feeds (most : ℕ → ℕ → ℕ) (size : ℕ) : Prop :=
  ∀ k total, total < size → 0 < most k total ∧ total + most k total ≤ size

/-- How far the rounds before the `k`-th have come in a sequence of length `len`. -/
def progress (most : ℕ → ℕ → ℕ) (size offset len : ℕ) : ℕ → ℕ
  | 0 => 0
  | k + 1 =>
    let total := progress most size offset len k
    total + if total < size then min (most k total) (len - (offset + total)) else 0

variable {contents : ℕ → List α} {most : ℕ → ℕ → ℕ} {size offset k total n : ℕ} {l l' : List α}

theorem length_slice (l : List α) (offset n : ℕ) :
    (slice l offset n).length = min n (l.length - offset) := by
  simp [slice]

theorem slice_zero (l : List α) (offset : ℕ) : slice l offset 0 = [] := by
  simp [slice]

theorem slice_of_le (h : l.length ≤ offset) : slice l offset n = [] := by
  simp [slice, List.drop_eq_nil_of_le h]

/-- A slice in two parts. -/
theorem slice_append (l : List α) (offset m n : ℕ) (h : m ≤ n) :
    slice l offset m ++ slice l (offset + m) (n - m) = slice l offset n := by
  unfold slice
  rw [← List.drop_drop, ← List.take_add, Nat.add_sub_cancel' h]

/-- What a slice holds fits its length. -/
theorem slice_length (l : List α) (offset n : ℕ) :
    slice l offset (slice l offset n).length = slice l offset n := by
  simp [slice]

theorem gather_done (h : size ≤ total) : gather contents most size offset n k total = [] := by
  cases n with
  | zero => rfl
  | succ n => rw [gather, if_neg (by omega)]

/-- At the end of the sequence there is nothing to collect. -/
theorem gather_end (h : (contents k).length ≤ offset + total) :
    gather contents most size offset n k total = [] := by
  cases n with
  | zero => rfl
  | succ n =>
      rw [gather, slice_of_le h]
      by_cases hlt : total < size
      · rw [if_pos hlt]
        rfl
      · rw [if_neg hlt]

/-- One round before the end. -/
theorem gather_succ (hmost : Feeds most size) (hlt : total < size)
    (hlen : offset + total < (contents k).length) :
    gather contents most size offset (n + 1) k total =
      slice (contents k) (offset + total) (most k total) ++
        gather contents most size offset n (k + 1)
          (total + (slice (contents k) (offset + total) (most k total)).length) := by
  have hfeed := hmost k total hlt
  have hne : ¬ (slice (contents k) (offset + total) (most k total)).length = 0 := by
    rw [length_slice]
    omega
  rw [gather, if_pos hlt]
  simp only [hne, if_false]

/-- **One sequence.**  What is collected is what was asked for. -/
theorem gather_constant (hmost : Feeds most size) (hc : ∀ j, k ≤ j → contents j = l)
    (hn : size - total < n) :
    gather contents most size offset n k total = slice l (offset + total) (size - total) := by
  induction n generalizing k total with
  | zero => cases hn
  | succ n ih =>
      by_cases hlt : total < size
      · by_cases hlen : l.length ≤ offset + total
        · rw [gather_end (by rw [hc k (Nat.le_refl k)]; exact hlen), slice_of_le hlen]
        · have hck := hc k (Nat.le_refl k)
          have hfeed := hmost k total hlt
          have hle := length_slice l (offset + total) (most k total)
          rw [gather_succ hmost hlt (by rw [hck]; omega), hck,
            ih (fun j hj => hc j (by omega)) (by omega)]
          have happend := slice_append l (offset + total)
            (slice l (offset + total) (most k total)).length (size - total) (by omega)
          rw [← happend, slice_length]
          congr 2
          · omega
          · omega
      · rw [gather_done (by omega), show size - total = 0 by omega, slice_zero]

/-! ## A sequence that is replaced -/

/-- The rounds from the `k`-th to before the `m`-th have come to the end. -/
def Ended (most : ℕ → ℕ → ℕ) (size offset len k m : ℕ) : Prop :=
  ∃ j, k ≤ j ∧ j < m ∧ progress most size offset len j = min size (len - offset)

instance (most : ℕ → ℕ → ℕ) (size offset len k m : ℕ) :
    Decidable (Ended most size offset len k m) :=
  decidable_of_iff (∃ j, j < m ∧ k ≤ j ∧ progress most size offset len j = min size (len - offset))
    ⟨fun ⟨j, hm, hk, h⟩ => ⟨j, hk, hm, h⟩, fun ⟨j, hk, hm, h⟩ => ⟨j, hm, hk, h⟩⟩

theorem ended_succ {len m : ℕ}
    (h : progress most size offset len k ≠ min size (len - offset)) :
    Ended most size offset len k m ↔ Ended most size offset len (k + 1) m := by
  constructor
  · rintro ⟨j, hj, hjm, hjend⟩
    refine ⟨j, ?_, hjm, hjend⟩
    rcases Nat.eq_or_lt_of_le hj with rfl | hj
    · exact absurd hjend h
    · exact hj
  · rintro ⟨j, hj, hjm, hjend⟩
    exact ⟨j, by omega, hjm, hjend⟩

/-- One more round. -/
theorem progress_succ (h : progress most size offset n k < size) :
    progress most size offset n (k + 1) = progress most size offset n k +
      min (most k (progress most size offset n k))
        (n - (offset + progress most size offset n k)) := by
  rw [progress, if_pos h]

/-- No more is collected than was asked for and is there. -/
theorem progress_le (hmost : Feeds most size) (len k : ℕ) :
    progress most size offset len k ≤ min size (len - offset) := by
  induction k with
  | zero => exact Nat.zero_le _
  | succ k ih =>
      rw [progress]
      by_cases hlt : progress most size offset len k < size
      · rw [if_pos hlt]
        have hfeed := hmost k _ hlt
        omega
      · rw [if_neg hlt]
        exact ih

/-- What is collected only grows. -/
theorem progress_mono (most : ℕ → ℕ → ℕ) (size offset len : ℕ) {j k : ℕ} (h : j ≤ k) :
    progress most size offset len j ≤ progress most size offset len k := by
  induction h with
  | refl => exact Nat.le_refl _
  | step h ih => exact Nat.le_trans ih (Nat.le_add_right _ _)

/-- **Two sequences.**  What is collected when the sequence `l` is replaced by `l'` before the
`m`-th round: all of the old slice, if the rounds before had come to its end; otherwise what they
have collected, and the rest of the new one. -/
theorem gather_switch (hmost : Feeds most size) {m : ℕ}
    (hc : ∀ j, contents j = if j < m then l else l') (hk : k ≤ m)
    (hn : size - progress most size offset l.length k < n) :
    gather contents most size offset n k (progress most size offset l.length k) =
      if Ended most size offset l.length k m then
        slice l (offset + progress most size offset l.length k)
          (size - progress most size offset l.length k)
      else slice l (offset + progress most size offset l.length k)
          (progress most size offset l.length m - progress most size offset l.length k) ++
        slice l' (offset + progress most size offset l.length m)
          (size - progress most size offset l.length m) := by
  induction hd : m - k generalizing k n with
  | zero =>
      obtain rfl : k = m := by omega
      have hnot : ¬ Ended most size offset l.length k k := by
        rintro ⟨j, hkj, hj, -⟩
        omega
      rw [if_neg hnot, Nat.sub_self, slice_zero, List.nil_append]
      refine gather_constant hmost (fun j hj => ?_) hn
      rw [hc, if_neg (by omega)]
  | succ c ih =>
      have hle := @progress_le most size offset hmost l.length k
      have hck : contents k = l := by rw [hc, if_pos (by omega)]
      by_cases hend : progress most size offset l.length k = min size (l.length - offset)
      · -- The end has been reached: the next round gets nothing.
        rw [if_pos ⟨k, Nat.le_refl k, by omega, hend⟩]
        by_cases hlt : progress most size offset l.length k < size
        · have hlen : l.length ≤ offset + progress most size offset l.length k := by omega
          rw [gather_end (by rw [hck]; exact hlen), slice_of_le hlen]
        · rw [gather_done (by omega), Nat.sub_eq_zero_of_le (by omega), slice_zero]
      · have hlt : progress most size offset l.length k < size := by omega
        have hlen : offset + progress most size offset l.length k < l.length := by omega
        obtain ⟨n, rfl⟩ : ∃ n', n = n' + 1 := ⟨n - 1, by omega⟩
        let total := progress most size offset l.length k
        let p := slice l (offset + total) (most k total)
        have hfeed := hmost k total hlt
        have hplen : p.length = min (most k total) (l.length - (offset + total)) :=
          length_slice _ _ _
        have hnext : progress most size offset l.length (k + 1) = total + p.length := by
          rw [progress_succ hlt, hplen]
        have hmono := progress_mono most size offset l.length (show k + 1 ≤ m by omega)
        have hrest := @ih (k + 1) n (by omega) (by omega) (by omega)
        rw [hnext] at hrest
        have hfirst : slice l (offset + total) p.length = p := slice_length _ _ _
        rw [gather_succ hmost hlt (by rw [hck]; exact hlen), hck, hrest]
        by_cases he : Ended most size offset l.length k m
        · rw [if_pos he, if_pos ((ended_succ hend).mp he)]
          have happend := slice_append l (offset + total) p.length (size - total) (by omega)
          rw [← happend, hfirst]
          congr 2
          · omega
          · omega
        · rw [if_neg he, if_neg fun h => he ((ended_succ hend).mpr h), ← List.append_assoc]
          have happend := slice_append l (offset + total) p.length
            (progress most size offset l.length m - total) (by omega)
          rw [← happend, hfirst]
          congr 3
          · omega
          · omega

end Sequences
