import Mathlib.Data.List.Nodup
import NetworkFileSystem.Posix.Tree

/-!
# The descriptor table of a process

A finite table from descriptor numbers to open files in which every number occurs once; this is
part of the type, so that closing a descriptor takes exactly one entry away.  A new descriptor
gets the least number that is free.
-/

namespace Posix

inductive LockMode
  | sh | ex
  deriving DecidableEq, Repr

/-- What a descriptor stands for. -/
structure OpenFile where
  /-- The inode; none for sockets and terminals. -/
  ino : Option Ino
  readable : Bool
  writable : Bool
  append : Bool
  /-- Opened with `O_PATH`: good for nothing but naming the file. -/
  pathOnly : Bool
  /-- How many entries of a directory have been read. -/
  pos : ℕ
  lock : Option LockMode
  deriving DecidableEq, Repr

/-- The least number that is not in the list. -/
def leastFree (used : List ℕ) : ℕ :=
  ((List.range (used.length + 1)).find? (· ∉ used)).getD 0

/-- The least free number is free. -/
theorem leastFree_notMem (used : List ℕ) : leastFree used ∉ used := by
  unfold leastFree
  cases hf : (List.range (used.length + 1)).find? (· ∉ used) with
  | some n => simpa using List.find?_some hf
  | none =>
      -- One of `used.length + 1` numbers is missing from the list.
      have hall : ∀ n ∈ List.range (used.length + 1), n ∈ used := by
        simpa [List.find?_eq_none] using hf
      have hle := List.Nodup.length_le_of_subset List.nodup_range hall
      rw [List.length_range] at hle
      omega

/-- The open descriptors of a process. -/
structure Descriptors where
  entries : List (ℕ × OpenFile)
  nodup : (entries.map (·.1)).Nodup

namespace Descriptors

variable (t : Descriptors)

/-- The open file behind a number. -/
def file (fd : Int) : Option OpenFile :=
  (t.entries.find? fun e => (e.1 : Int) = fd).map (·.2)

/-- How many descriptors are open. -/
def count : ℕ := t.entries.length

/-- The number that the next descriptor gets. -/
def nextFd : ℕ := leastFree (t.entries.map (·.1))

def addFile (f : OpenFile) : Descriptors where
  entries := (t.nextFd, f) :: t.entries
  nodup := List.nodup_cons.mpr ⟨leastFree_notMem _, t.nodup⟩

/-- Change the open file behind a number. -/
def setFile (fd : Int) (f : OpenFile → OpenFile) : Descriptors where
  entries := t.entries.map fun e => if (e.1 : Int) = fd then (e.1, f e.2) else e
  nodup := by
    have hfst : ∀ e : ℕ × OpenFile, (if (e.1 : Int) = fd then (e.1, f e.2) else e).1 = e.1 := by
      intro e
      split <;> rfl
    simpa [List.map_map, Function.comp_def, hfst] using t.nodup

/-- Forget a number. -/
def dropFile (fd : Int) : Descriptors where
  entries := t.entries.filter fun e => (e.1 : Int) ≠ fd
  nodup := (List.filter_sublist.map _).nodup t.nodup

/-- Add several open files, the last of the list first. -/
def addFiles (l : List OpenFile) : Descriptors := l.foldr (fun f t => t.addFile f) t

variable {t}

/-- The table as a relation. -/
theorem file_eq_some {fd : Int} {f : OpenFile} :
    t.file fd = some f ↔ ∃ n : ℕ, (n, f) ∈ t.entries ∧ (n : Int) = fd := by
  constructor
  · intro h
    obtain ⟨e, he, rfl⟩ := Option.map_eq_some_iff.mp h
    exact ⟨e.1, List.mem_of_find?_eq_some he, by simpa using List.find?_some he⟩
  · rintro ⟨n, hmem, rfl⟩
    unfold file
    cases hf : t.entries.find? fun e => (e.1 : Int) = n with
    | none =>
        have hall := List.find?_eq_none.mp hf (n, f) hmem
        simp at hall
    | some e =>
        have hen : (e.1 : Int) = n := by simpa using List.find?_some hf
        have he : e = (n, f) := List.inj_on_of_nodup_map t.nodup
          (List.mem_of_find?_eq_some hf) hmem (by exact_mod_cast hen)
        rw [he]
        rfl

/-- No negative number is a descriptor. -/
theorem file_of_neg {fd : Int} (h : fd < 0) : t.file fd = none := by
  cases hf : t.file fd with
  | none => rfl
  | some f =>
      obtain ⟨n, -, hn⟩ := file_eq_some.mp hf
      omega

/-- The next descriptor is not open yet. -/
theorem file_nextFd : t.file t.nextFd = none := by
  cases h : t.file t.nextFd with
  | none => rfl
  | some f =>
      obtain ⟨n, hmem, hn⟩ := file_eq_some.mp h
      have hfst : t.nextFd ∈ t.entries.map (·.1) :=
        List.mem_map.mpr ⟨(n, f), hmem, by exact_mod_cast hn⟩
      exact absurd hfst (leastFree_notMem _)

/-- An open descriptor is not the next one. -/
theorem ne_nextFd {fd : Int} {f : OpenFile} (h : t.file fd = some f) : fd ≠ t.nextFd := by
  rintro rfl
  rw [file_nextFd] at h
  cases h

/-- The table after an `open`. -/
theorem file_addFile (f : OpenFile) (k : Int) :
    (t.addFile f).file k = if k = t.nextFd then some f else t.file k := by
  by_cases hk : (t.nextFd : Int) = k
  · simp [file, addFile, hk]
  · have hk' : ¬ k = t.nextFd := fun h => hk h.symm
    simp [file, addFile, hk, hk']

/-- Open files stay what they are when others are added. -/
theorem file_addFiles {fd : Int} {g : OpenFile} (h : t.file fd = some g) (l : List OpenFile) :
    (t.addFiles l).file fd = some g := by
  induction l with
  | nil => exact h
  | cons f l ih =>
      change ((t.addFiles l).addFile f).file fd = some g
      rw [file_addFile, if_neg (ne_nextFd ih), ih]

/-- The table after one open file has changed. -/
theorem file_setFile (fd k : Int) (f : OpenFile → OpenFile) :
    (t.setFile fd f).file k = if k = fd then (t.file k).map f else t.file k := by
  have hfst : ∀ e : ℕ × OpenFile, (if (e.1 : Int) = fd then (e.1, f e.2) else e).1 = e.1 := by
    intro e
    split <;> rfl
  unfold file setFile
  simp only [List.find?_map, Function.comp_def, hfst, Option.map_map]
  cases hf : t.entries.find? fun e => (e.1 : Int) = k with
  | none => simp
  | some e =>
      have hek : (e.1 : Int) = k := by simpa using List.find?_some hf
      by_cases hk : k = fd <;> simp [hek, hk]

/-- The table after a `close`. -/
theorem file_dropFile (fd k : Int) :
    (t.dropFile fd).file k = if k = fd then none else t.file k := by
  ext f
  rw [file_eq_some]
  simp only [dropFile, List.mem_filter, decide_eq_true_eq]
  by_cases hk : k = fd
  · rw [if_pos hk]
    constructor
    · rintro ⟨n, ⟨-, hn⟩, rfl⟩
      exact absurd hk hn
    · intro h
      cases h
  · rw [if_neg hk, file_eq_some]
    constructor
    · rintro ⟨n, ⟨hmem, -⟩, hn⟩
      exact ⟨n, hmem, hn⟩
    · rintro ⟨n, hmem, rfl⟩
      exact ⟨n, ⟨hmem, hk⟩, rfl⟩

/-! ## A descriptor that was just opened -/

@[ext] theorem ext {t t' : Descriptors} (h : t.entries = t'.entries) : t = t' := by
  obtain ⟨entries, nodup⟩ := t
  obtain rfl : entries = t'.entries := h
  rfl

/-- No entry has the number of the next descriptor. -/
theorem ne_nextFd_of_mem {e : ℕ × OpenFile} (he : e ∈ t.entries) : e.1 ≠ t.nextFd := by
  intro h
  have hmem : t.nextFd ∈ t.entries.map (·.1) := h ▸ List.mem_map_of_mem he
  exact leastFree_notMem _ hmem

@[simp] theorem nextFd_setFile (fd : Int) (f : OpenFile → OpenFile) :
    (t.setFile fd f).nextFd = t.nextFd := by
  have hfst : ∀ e : ℕ × OpenFile, (if (e.1 : Int) = fd then (e.1, f e.2) else e).1 = e.1 := by
    intro e
    split <;> rfl
  simp [nextFd, setFile, Function.comp_def, hfst]

/-- Changing the newest descriptor. -/
theorem setFile_addFile (f : OpenFile) (g : OpenFile → OpenFile) :
    (t.addFile f).setFile t.nextFd g = t.addFile (g f) := by
  have hrest : t.entries.map (fun e => if (e.1 : Int) = t.nextFd then (e.1, g e.2) else e) =
      t.entries := by
    refine (List.map_congr_left fun e he => ?_).trans (List.map_id _)
    rw [if_neg (by exact_mod_cast ne_nextFd_of_mem he)]
    rfl
  ext1
  simp only [setFile, addFile, List.map_cons, if_true, hrest]

/-- Changing another descriptor. -/
theorem setFile_addFile_of_ne {fd : Int} (h : fd ≠ t.nextFd) (f : OpenFile)
    (g : OpenFile → OpenFile) : (t.addFile f).setFile fd g = (t.setFile fd g).addFile f := by
  have hnext : (t.setFile fd g).nextFd = t.nextFd := nextFd_setFile fd g
  ext1
  simp only [setFile, addFile, List.map_cons] at hnext ⊢
  rw [if_neg (Ne.symm h), hnext]

/-- Closing the newest descriptor. -/
theorem dropFile_addFile (f : OpenFile) : (t.addFile f).dropFile t.nextFd = t := by
  have hrest : t.entries.filter (fun e => decide ((e.1 : Int) ≠ t.nextFd)) = t.entries := by
    refine List.filter_eq_self.mpr fun e he => ?_
    have hne : (e.1 : Int) ≠ t.nextFd := by exact_mod_cast ne_nextFd_of_mem he
    simpa using hne
  ext1
  simp only [dropFile, addFile]
  rw [List.filter_cons_of_neg (by simp), hrest]

/-! ## Locks -/

/-- No open file is locked. -/
def Unlocked (t : Descriptors) : Prop := ∀ fd f, t.file fd = some f → f.lock = none

/-- Whether some open file of the inode is locked. -/
def locks (t : Descriptors) (i : Ino) : Bool :=
  t.entries.any fun e => e.2.ino = some i ∧ e.2.lock.isSome

/-- No entry has a lock. -/
theorem Unlocked.of_mem (h : t.Unlocked) {e : ℕ × OpenFile} (he : e ∈ t.entries) :
    e.2.lock = none :=
  h e.1 e.2 (file_eq_some.mpr ⟨e.1, he, rfl⟩)

/-- Without locks no file is locked. -/
theorem Unlocked.locks_eq (h : t.Unlocked) (i : Ino) : t.locks i = false := by
  rw [locks, List.any_eq_false]
  intro e he
  simp [h.of_mem he]

/-- A file that is opened without a lock adds none. -/
theorem Unlocked.addFile (h : t.Unlocked) {f : OpenFile} (hf : f.lock = none) :
    (t.addFile f).Unlocked := by
  intro fd g hg
  rw [file_addFile] at hg
  split at hg
  · cases hg
    exact hf
  · exact h fd g hg

/-- Adding files keeps a table free of locks exactly when the files are not locked. -/
theorem unlocked_addFiles (h : t.Unlocked) {l : List OpenFile} :
    (t.addFiles l).Unlocked ↔ ∀ f ∈ l, f.lock = none := by
  induction l with
  | nil => exact iff_of_true h fun _ hf => nomatch hf
  | cons f l ih =>
      have hcons : t.addFiles (f :: l) = (t.addFiles l).addFile f := rfl
      rw [List.forall_mem_cons, ← ih, hcons]
      constructor
      · intro hu
        have hf : f.lock = none := hu (t.addFiles l).nextFd f (by rw [file_addFile, if_pos rfl])
        refine ⟨hf, fun fd g hg => hu fd g ?_⟩
        rw [file_addFile, if_neg (ne_nextFd hg), hg]
      · rintro ⟨hf, hu⟩
        exact hu.addFile hf

/-- Closing adds no lock. -/
theorem Unlocked.dropFile (h : t.Unlocked) (fd : Int) : (t.dropFile fd).Unlocked := by
  intro k f hf
  rw [file_dropFile] at hf
  split at hf
  · cases hf
  · exact h k f hf

/-! ## How many descriptors are open -/

@[simp] theorem count_addFile (f : OpenFile) : (t.addFile f).count = t.count + 1 := rfl

/-- Several files opened one after the other. -/
theorem count_addFiles (l : List OpenFile) : (t.addFiles l).count = t.count + l.length := by
  induction l with
  | nil => rfl
  | cons f l ih => exact congrArg (· + 1) ih

@[simp] theorem count_setFile (fd : Int) (f : OpenFile → OpenFile) :
    (t.setFile fd f).count = t.count := by
  simp [count, setFile]

/-- Closing an open descriptor takes one entry away. -/
theorem count_dropFile {fd : Int} {f : OpenFile} (h : t.file fd = some f) :
    (t.dropFile fd).count + 1 = t.count := by
  obtain ⟨n, hmem, rfl⟩ := file_eq_some.mp h
  have herase : (t.dropFile n).entries = t.entries.erase (n, f) := by
    rw [List.Nodup.erase_eq_filter (List.Nodup.of_map _ t.nodup)]
    refine List.filter_congr fun e he => ?_
    have hiff : (e.1 : Int) ≠ n ↔ e ≠ (n, f) := by
      constructor
      · rintro hne rfl
        exact hne rfl
      · intro hne hen
        exact hne (List.inj_on_of_nodup_map t.nodup he hmem (by exact_mod_cast hen))
    rw [Bool.eq_iff_iff]
    simpa using hiff
  unfold count
  rw [herase, List.length_erase_of_mem hmem]
  have := List.length_pos_of_mem hmem
  omega

end Descriptors

end Posix
