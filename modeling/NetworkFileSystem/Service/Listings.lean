import Mathlib.Data.List.GetD
import Mathlib.Data.List.Induction
import NetworkFileSystem.Server.Handlers

/-!
# How a listing lies in its buffer (`bb_readdir_6_svc`, lines 457-490)

The loop copies every name to a running offset of a zeroed buffer and steps over one more byte, so
the names lie in the buffer one after the other, each with a NUL behind it (`layout`).  Nothing in
the loop looks at the size of the buffer: **`writes_inBounds_iff`** says when it stays inside.
-/

namespace DFS

open Posix

/-- The names of a directory as they lie in the buffer. -/
def layout (names : List Name) : List Char := names.flatMap fun name => name ++ ['\x00']

/-- What the names need of the buffer. -/
def packedSize (names : List Name) : ℕ := (names.map fun name => name.length + 1).sum

/-- What `readdir` returns as a name: not empty, without NUL, at most 255 bytes. -/
def EntryName (name : Name) : Prop := name ≠ [] ∧ '\x00' ∉ name ∧ name.length ≤ 255

/-- The result of `bb_readdir_6_svc` for the names that it has read. -/
def listing (names : List Name) : ReaddirRet where
  count := (packNames names).count
  entries := (List.range maxSize).map (packNames names).buf
  ret := 0

/-- The index `k` of the buffer is written in some round of the loop. -/
def Writes (names : List Name) (k : ℕ) : Prop :=
  ∃ past name rest, names = past ++ name :: rest ∧ (packNames past).offset ≤ k ∧
    k < (packNames past).offset + name.length

variable {names : List Name}

@[simp] theorem layout_nil : layout [] = [] := rfl

@[simp] theorem layout_cons (name : Name) (names : List Name) :
    layout (name :: names) = name ++ '\x00' :: layout names := by
  simp [layout]

theorem layout_concat (names : List Name) (name : Name) :
    layout (names ++ [name]) = layout names ++ (name ++ ['\x00']) := by
  simp [layout]

@[simp] theorem packedSize_nil : packedSize [] = 0 := rfl

@[simp] theorem packedSize_append (names names' : List Name) :
    packedSize (names ++ names') = packedSize names + packedSize names' := by
  simp [packedSize]

@[simp] theorem packedSize_cons (name : Name) (names : List Name) :
    packedSize (name :: names) = name.length + 1 + packedSize names := by
  simp [packedSize]

theorem length_layout (names : List Name) : (layout names).length = packedSize names := by
  induction names with
  | nil => rfl
  | cons name names ih =>
      simp only [layout_cons, List.length_append, List.length_cons, ih, packedSize_cons]
      omega

/-! ## The loop -/

theorem packNames_concat (names : List Name) (name : Name) :
    packNames (names ++ [name]) = (packNames names).add name :=
  List.foldl_concat _ _ _ _

@[simp] theorem packNames_offset (names : List Name) :
    (packNames names).offset = packedSize names := by
  induction names using List.reverseRecOn with
  | nil => rfl
  | append_singleton names name ih => simp [packNames_concat, Packing.add, ih]

@[simp] theorem packNames_count (names : List Name) : (packNames names).count = names.length := by
  induction names using List.reverseRecOn with
  | nil => rfl
  | append_singleton names name ih => simp [packNames_concat, Packing.add, ih]

/-- **The invariant of the loop**: the names so far are laid out, and zeros follow. -/
theorem packNames_buf (names : List Name) (k : ℕ) :
    (packNames names).buf k = (layout names).getD k '\x00' := by
  induction names using List.reverseRecOn with
  | nil => simp [packNames]
  | append_singleton names name ih =>
      have hlen := length_layout names
      rw [packNames_concat, layout_concat]
      show memcpyAt (packNames names).buf (packNames names).offset name k = _
      unfold memcpyAt
      rw [packNames_offset, ih]
      by_cases hlow : k < packedSize names
      · rw [if_neg (by omega), List.getD_append _ _ _ _ (by omega)]
      · rw [List.getD_append_right _ _ _ _ (by omega), hlen]
        by_cases hin : k < packedSize names + name.length
        · rw [if_pos (by omega), List.getD_append _ _ _ _ (by omega)]
        · have hzero : ∀ n, ['\x00'].getD n '\x00' = '\x00' := by
            intro n
            cases n <;> simp
          rw [if_neg (by omega), List.getD_append_right _ _ _ _ (by omega), hzero,
            List.getD_eq_default _ _ (by omega)]

/-- The bytes that go out are those of the buffer, up to its size. -/
theorem listing_entries (names : List Name) :
    (listing names).entries = (layout names ++ List.replicate maxSize '\x00').take maxSize := by
  have hlen : (layout names ++ List.replicate maxSize '\x00').length =
      (layout names).length + maxSize := by simp
  refine List.ext_getElem ?_ fun k hk hk' => ?_
  · rw [List.length_take, hlen, Nat.min_eq_left (by omega)]
    simp [listing]
  · have hk₀ : k < maxSize := by simpa [listing] using hk
    rw [List.getElem_take]
    simp only [listing, List.getElem_map, List.getElem_range, packNames_buf]
    by_cases hin : k < (layout names).length
    · rw [List.getD_eq_getElem _ _ hin, List.getElem_append_left hin]
    · rw [List.getD_eq_default _ _ (by omega), List.getElem_append_right (by omega),
        List.getElem_replicate]

/-- A listing that fits is followed by zeros. -/
theorem listing_entries_of_fits (h : packedSize names ≤ maxSize) :
    (listing names).entries =
      layout names ++ List.replicate (maxSize - packedSize names) '\x00' := by
  have hlen := length_layout names
  rw [listing_entries, List.take_append, List.take_of_length_le (by omega), List.take_replicate,
    hlen, Nat.min_eq_left (by omega)]

theorem lt_of_writes {k : ℕ} (h : packedSize names ≤ maxSize + 1) (hk : Writes names k) :
    k < maxSize := by
  obtain ⟨past, name, rest, rfl, -, hk⟩ := hk
  rw [packNames_offset] at hk
  simp only [packedSize_append, packedSize_cons] at h
  omega

/-- **When the loop stays inside the buffer**: the last name may even lack its terminator. -/
theorem writes_inBounds_iff (hne : ∀ name ∈ names, name ≠ []) :
    (∀ k, Writes names k → k < maxSize) ↔ packedSize names ≤ maxSize + 1 := by
  constructor
  · intro h
    rcases List.eq_nil_or_concat names with rfl | ⟨past, name, rfl⟩
    · exact Nat.zero_le _
    · have hpos := List.length_pos_iff.mpr (hne name (by simp))
      have hlast := h (packedSize past + (name.length - 1))
        ⟨past, name, [], by simp, by rw [packNames_offset]; omega,
          by rw [packNames_offset]; omega⟩
      simp only [List.concat_eq_append, packedSize_append, packedSize_cons, packedSize_nil]
      omega
  · exact fun h _ hk => lt_of_writes h hk

end DFS
