import Mathlib.Algebra.Order.Ring.Int
import Mathlib.Data.List.TakeWhile
import Mathlib.Data.Vector.Basic

/-!
# Strings in arrays of characters

A string lies in an array up to its first NUL.  The routines that fill an array write where they
are told; one that would write outside the array has no defined outcome (`none`).

The arrays that occur are padded with NULs (`padded`), and on these the routines are computed
(`memset_zero`, `put_padded`, `strncat_padded`).
-/

namespace Strings

variable {n m k : ℕ} {s t : List Char}

/-- An array of `n` characters. -/
abbrev Chars (n : ℕ) := List.Vector Char n

/-- Write `s` from the index `k` on. -/
def put (a : Chars n) (k : ℕ) (s : List Char) : Option (Chars n) :=
  if h : k + s.length ≤ n then
    some ⟨a.toList.take k ++ s ++ a.toList.drop (k + s.length), by simp; omega⟩
  else none

/-- `memset`, from the start of the array. -/
def memset (a : Chars n) (c : Char) (m : ℕ) : Option (Chars n) :=
  put a 0 (List.replicate m c)

/-- `strncpy`: `m` characters of the string, with NULs after its end. -/
def strncpy (a : Chars n) (src : List Char) (m : ℕ) : Option (Chars n) :=
  if m ≤ n then put a 0 (src.take m ++ List.replicate (m - src.length) '\x00') else none

/-- Whether a NUL ends the string in the array. -/
def Terminated (a : Chars n) : Prop := '\x00' ∈ a.toList

instance (a : Chars n) : Decidable (Terminated a) :=
  inferInstanceAs (Decidable ('\x00' ∈ a.toList))

/-- The string in the array. -/
def string (a : Chars n) : Option (List Char) :=
  if Terminated a then some (a.toList.takeWhile (· ≠ '\x00')) else none

/-- `strncat`: at most `m` characters of the string behind the one in the array, then a NUL. -/
def strncat (a : Chars n) (src : List Char) (m : ℕ) : Option (Chars n) := do
  let s ← string a
  put a s.length (src.take m ++ ['\x00'])

/-- The array that holds `s` with NULs behind it. -/
def padded (n : ℕ) (s : List Char) : Chars n :=
  ⟨(s ++ List.replicate n '\x00').take n, by simp⟩

/-- A write behind the buffer is none. -/
theorem put_eq_none {a : Chars n} (h : n < k + s.length) : put a k s = none :=
  dif_neg (by omega)

/-- A padded buffer is the text and then zeros. -/
theorem toList_padded (h : s.length ≤ n) :
    (padded n s).toList = s ++ List.replicate (n - s.length) '\x00' := by
  rw [padded, List.Vector.toList_mk, List.take_append, List.take_of_length_le h,
    List.take_replicate, Nat.min_eq_left (by omega)]

/-- A NUL behind the string is there already. -/
theorem padded_concat (h : s.length < n) : padded n (s ++ ['\x00']) = padded n s := by
  have hlen : (s ++ ['\x00']).length = s.length + 1 := List.length_append
  refine List.Vector.eq _ _ ?_
  rw [toList_padded (by omega), toList_padded (by omega), hlen, List.append_assoc,
    List.singleton_append, ← List.replicate_succ]
  congr 2
  omega

/-- `memset` of the whole buffer empties it. -/
theorem memset_zero (a : Chars n) : memset a '\x00' n = some (padded n []) := by
  rw [memset, put, dif_pos (by simp)]
  refine congrArg some (List.Vector.eq _ _ ?_)
  rw [toList_padded (by simp)]
  simp

/-- Text that is put behind the text of a buffer. -/
theorem put_padded (h : s.length + t.length ≤ n) :
    put (padded n s) s.length t = some (padded n (s ++ t)) := by
  have hlen : (s ++ t).length = s.length + t.length := List.length_append
  rw [put, dif_pos h]
  refine congrArg some (List.Vector.eq _ _ ?_)
  rw [List.Vector.toList_mk, toList_padded (by omega), toList_padded (by omega), List.take_left,
    ← List.drop_drop, List.drop_left, List.drop_replicate, hlen, Nat.sub_sub]

/-- `strncpy` of no more than the source has. -/
theorem strncpy_padded (hm : m ≤ n) (hs : m ≤ s.length) :
    strncpy (padded n []) s m = some (padded n (s.take m)) := by
  have h : ([] : List Char).length + (s.take m).length ≤ n := by
    rw [List.length_take, List.length_nil]
    omega
  rw [strncpy, if_pos hm, Nat.sub_eq_zero_of_le hs, List.replicate_zero, List.append_nil]
  exact put_padded h

/-- A text that is shorter than the buffer is terminated. -/
theorem terminated_padded (h : s.length < n) : Terminated (padded n s) := by
  rw [Terminated, toList_padded (by omega)]
  refine List.mem_append_right s (List.mem_replicate.mpr ⟨?_, rfl⟩)
  omega

/-- The string in a buffer is the text that was put there. -/
theorem string_padded (hnul : '\x00' ∉ s) (h : s.length < n) : string (padded n s) = some s := by
  obtain ⟨k, rfl⟩ : ∃ k, n = s.length + (k + 1) := ⟨n - s.length - 1, by omega⟩
  have hall : ∀ c ∈ s, decide (c ≠ '\x00') = true := by
    intro c hc
    simp only [decide_eq_true_eq]
    rintro rfl
    exact hnul hc
  rw [string, if_pos (terminated_padded h), toList_padded (by omega),
    List.takeWhile_append_of_pos hall]
  simp [List.replicate_succ]

/-- A string leaves room for its NUL. -/
theorem string_length {a : Chars n} (h : string a = some s) : s.length < n := by
  rw [string] at h
  split at h
  · next hnul =>
    rw [← Option.some.inj h]
    have hle := (List.takeWhile_prefix (fun c => decide (c ≠ '\x00')) (l := a.toList)).length_le
    refine lt_of_lt_of_eq (lt_of_le_of_ne hle fun hlen => ?_) a.toList_length
    have hall := (List.takeWhile_prefix (fun c => decide (c ≠ '\x00'))).eq_of_length hlen
    have hne := List.takeWhile_eq_self_iff.mp hall _ hnul
    simp at hne
  · cases h

/-- `strncat` fits exactly when its terminator does. -/
theorem strncat_padded (hnul : '\x00' ∉ s) (h : s.length < n) :
    strncat (padded n s) t m =
      if s.length + (t.take m).length < n then some (padded n (s ++ t.take m)) else none := by
  have hlen : (t.take m ++ ['\x00']).length = (t.take m).length + 1 := List.length_append
  rw [strncat, string_padded hnul h]
  change put (padded n s) s.length (t.take m ++ ['\x00']) = _
  split
  · next hfit =>
    rw [put_padded (by omega), ← List.append_assoc, padded_concat]
    rw [List.length_append]
    exact hfit
  · next hover => exact put_eq_none (by omega)

end Strings
