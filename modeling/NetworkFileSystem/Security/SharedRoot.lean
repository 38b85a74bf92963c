import NetworkFileSystem.Posix.Names
import NetworkFileSystem.Service.Refinement

/-!
# Deleting and renaming in the shared root

Everyone may write to `/DFS`, so `is_parent_dir_valid` lets only the owner of an entry remove it
from there.  The special case is chosen by comparing strings: the parent of the path with `/DFS`,
the name of the operation with `rmdir` and `unlink`.

**`root_kept_iff`** says exactly when an `unlink`, `rmdir` or `rename` leaves the entries of others
alone: when it is not `Exposed`.  A request is exposed when it comes to its system call past these
comparisons: every `rename` does, and so does every path that reaches `/DFS` under another
spelling, through a symbolic link.
-/

namespace Posix

open Effects

namespace FS

variable {fs : FS} {p : CStr} {d i : Ino} {x : Name}

/-- `lstat` looks at the inode that the slot of the path names. -/
theorem lresolve_of_slot (hs : fs.slot p = .ok (d, x)) (hx : special x = false)
    (hi : fs.child d x = .ok i) (htr : trailing p = true → fs.isDir i = true) :
    fs.lresolve p = .ok i := by
  obtain ⟨hg, -, way, hway, hw, -⟩ := slot_eq_ok.mp ⟨hs, ne_nil_of_special hx⟩
  unfold lresolve walkComps
  rw [hg, ok_bind, hway]
  by_cases ht : trailing p = true
  · -- A slash at the end: the walk goes into the directory.
    obtain ⟨n, hn, hkind⟩ := isDir_iff.mp (htr ht)
    obtain ⟨parent, es, hb⟩ : ∃ parent es, n.body = .dir parent es := by
      cases hb : n.body <;> simp_all [Inode.kind, Body.kind]
    have hlink : fs.linkTarget i = none := by simp [linkTarget, hn, hb]
    have hwalk : fs.walk maxSymlinks fs.root (way ++ [x]) = .ok i := by
      refine walk_append hw fun b => walk_cons_eq_ok.mpr ⟨i, hi, .inl ⟨hlink, walk_nil⟩⟩
    simp only [ht, if_true, List.getLast?_append, List.getLast?_singleton, Option.some_or,
      List.dropLast_concat, hwalk, ok_bind]
    exact child_eq_ok.mpr ⟨parent, es, dir_eq_ok.mpr ⟨n, hn, hb⟩, by decide, by simp [pick],
      by rw [hn]; rfl⟩
  · simp only [ht, List.append_nil, List.getLast?_append, List.getLast?_singleton, Option.some_or,
      List.dropLast_concat, hw, ok_bind, hi, Bool.false_eq_true, if_false]

end FS

end Posix

namespace DFS

open Effects Posix

/-- The entry `x` of the directory `/DFS` names the inode `k`. -/
def RootEntry (fs : FS) (x : Name) (k : Ino) : Prop :=
  FS.special x = false ∧ ∃ d, fs.lresolve dfsRoot = .ok d ∧ fs.child d x = .ok k

/-- The inode does not belong to `id`. -/
def foreign (fs : FS) (k : Ino) (id : Int32) : Prop :=
  ∃ n, fs.node k = some n ∧ n.uid.toInt32 ≠ id

/-- Every entry of `/DFS` that does not belong to `id` is still there and names the same inode. -/
def RootKept (id : Int32) (fs fs' : FS) : Prop :=
  ∀ x k, RootEntry fs x k → foreign fs k id → RootEntry fs' x k

/-- The entry `x` of the directory `d` is one of `/DFS` that does not belong to `id`. -/
def ForeignSlot (fs : FS) (id : Int32) (d : Ino) (x : Name) : Prop :=
  fs.lresolve dfsRoot = .ok d ∧ ∃ k, RootEntry fs x k ∧ foreign fs k id

/-- The name of `/DFS` in the root directory. -/
def dfsName : Name := ['D', 'F', 'S']

/-- The client of a request that removes or moves names. -/
def Request.remover : Request → Option CStr
  | .unlink arg => some arg.ip
  | .rmdir arg => some arg.ip
  | .rename arg => some arg.ip
  | _ => none

/-- An `unlink` or a `rmdir` that is let through, although the path was not recognised as one
directly in `/DFS`, and removes such an entry of somebody else. -/
def ExposedRemoval (fs : FS) (id : Int32) (p : CStr) (op : OpName) (r : Except Errno FS) : Prop :=
  getParentPath p ≠ dfsRoot ∧ parentDirValid fs (getParentPath p) p id op = true ∧
    lockable fs (getParentPath p) = true ∧ isOk r = true ∧
    ∃ d x, fs.slot p = .ok (d, x) ∧ ForeignSlot fs id d x

/-- A `rename` that is let through and takes an entry of somebody else away from `/DFS`, gives its
name to something else, or takes `/DFS` itself away. -/
def ExposedRename (fs : FS) (id : Int32) (p q : CStr) : Prop :=
  parentDirValid fs (getParentPath p) p id .rename = true ∧
    parentDirValid fs (getParentPath q) q id .rename = true ∧
    lockable fs (getParentPath p) = true ∧
    (getParentPath p = getParentPath q ∨ lockable fs (getParentPath q) = true) ∧
    isOk (fs.rename p q) = true ∧
    ∃ d₁ x₁ d₂ x₂, fs.slot p = .ok (d₁, x₁) ∧ fs.slot q = .ok (d₂, x₂) ∧
      fs.child d₁ x₁ ≠ fs.child d₂ x₂ ∧
      (ForeignSlot fs id d₁ x₁ ∨ ForeignSlot fs id d₂ x₂ ∨
        ((d₁ = fs.root ∧ x₁ = dfsName) ∧ ∃ d x, ForeignSlot fs id d x))

/-- The requests that reach somebody else's entry of `/DFS`. -/
def Exposed (fs : FS) : Request → Prop
  | .unlink arg => ExposedRemoval fs (atoi arg.ip) (translateAbspath arg.path) .unlink
      (fs.unlink (translateAbspath arg.path))
  | .rmdir arg => ExposedRemoval fs (atoi arg.ip) (translateAbspath arg.path) .rmdir
      (fs.rmdir (translateAbspath arg.path))
  | .rename arg => ExposedRename fs (atoi arg.ip) (translateAbspath arg.path)
      (translateAbspath arg.newpath)
  | _ => False

/-! ## The entries of the shared root -/

theorem lresolve_dfsRoot (fs : FS) : fs.lresolve dfsRoot = fs.child fs.root dfsName := by
  have hg : getname dfsRoot = .ok () := by decide
  have hc : walkComps dfsRoot = [dfsName] := by decide
  unfold FS.lresolve
  rw [hg, ok_bind, hc]
  rfl

/-- The entries of `/DFS`. -/
theorem rootEntry_iff {fs : FS} {x : Name} {k : Ino} : RootEntry fs x k ↔
    FS.special x = false ∧ ∃ d, fs.child fs.root dfsName = .ok d ∧ fs.child d x = .ok k := by
  rw [RootEntry, lresolve_dfsRoot]

theorem special_dfsName : FS.special dfsName = false := by decide

theorem rootKept_refl (id : Int32) (fs : FS) : RootKept id fs fs := fun _ _ h _ => h

/-- Removing one name keeps the entries of others, unless it is one of them, or `/DFS` with such
entries. -/
theorem rootKept_removed {fs fs' : FS} {d : Ino} {x : Name} {id : Int32}
    (h : FS.Removed fs fs' d x) : RootKept id fs fs' ↔
      ¬(ForeignSlot fs id d x ∨ ((d = fs.root ∧ x = dfsName) ∧ ∃ e y, ForeignSlot fs id e y)) := by
  have hentry : ∀ y k, RootEntry fs' y k ↔ FS.special y = false ∧ ∃ e,
      (fs.child fs.root dfsName = .ok e ∧ ¬(fs.root = d ∧ dfsName = x)) ∧
      fs.child e y = .ok k ∧ ¬(e = d ∧ y = x) := by
    intro y k
    rw [rootEntry_iff, h.root_eq]
    constructor
    · rintro ⟨hy, e, he, hk⟩
      exact ⟨hy, e, (h.child_iff _ _ _ special_dfsName).mp he, (h.child_iff _ _ _ hy).mp hk⟩
    · rintro ⟨hy, e, he, hk⟩
      exact ⟨hy, e, (h.child_iff _ _ _ special_dfsName).mpr he, (h.child_iff _ _ _ hy).mpr hk⟩
  constructor
  · rintro hkept (⟨hd, k, hk, hf⟩ | ⟨⟨rfl, rfl⟩, e, y, -, k, hk, hf⟩)
    · obtain ⟨-, e, ⟨he, -⟩, -, hne⟩ := (hentry x k).mp (hkept x k hk hf)
      rw [lresolve_dfsRoot, he] at hd
      cases hd
      exact hne ⟨rfl, rfl⟩
    · obtain ⟨-, -, ⟨-, hne⟩, -⟩ := (hentry y k).mp (hkept y k hk hf)
      exact hne ⟨rfl, rfl⟩
  · intro hno y k hk hf
    have hk' := hk
    obtain ⟨hy, e, he, hek⟩ := rootEntry_iff.mp hk'
    have hslot : ForeignSlot fs id e y := ⟨by rw [lresolve_dfsRoot, he], k, hk, hf⟩
    refine (hentry y k).mpr ⟨hy, e, ⟨he, ?_⟩, hek, ?_⟩
    · rintro ⟨rfl, rfl⟩
      exact hno (.inr ⟨⟨rfl, rfl⟩, e, y, hslot⟩)
    · rintro ⟨rfl, rfl⟩
      exact hno (.inl hslot)

/-- Moving a name keeps the entries of others, unless its old or its new place is one of them, or
it is `/DFS` with such entries. -/
theorem rootKept_moved {fs fs' : FS} {d₁ d₂ i : Ino} {x₁ x₂ : Name} {id : Int32}
    (h : FS.Moved fs fs' d₁ x₁ d₂ x₂ i) (hi : fs.child d₁ x₁ = .ok i)
    (hne : fs.child d₂ x₂ ≠ .ok i)
    (hempty : ∀ j y k, fs.child d₂ x₂ = .ok j → FS.special y = false → fs.child j y ≠ .ok k) :
    RootKept id fs fs' ↔ ¬(ForeignSlot fs id d₁ x₁ ∨ ForeignSlot fs id d₂ x₂ ∨
      ((d₁ = fs.root ∧ x₁ = dfsName) ∧ ∃ e y, ForeignSlot fs id e y)) := by
  -- The name of a directory with an entry in it is not taken by another inode.
  have hroot : ∀ e y k, fs.child fs.root dfsName = .ok e → FS.special y = false →
      fs.child e y = .ok k → ¬(fs.root = d₂ ∧ dfsName = x₂) := by
    rintro e y k he hy hk ⟨rfl, rfl⟩
    exact hempty e y k he hy hk
  have hkeeps : ∀ y k, RootEntry fs y k → (RootEntry fs' y k ↔
      ¬(fs.root = d₁ ∧ dfsName = x₁) ∧ ∃ e, fs.child fs.root dfsName = .ok e ∧
        ¬(e = d₁ ∧ y = x₁) ∧ ¬(e = d₂ ∧ y = x₂)) := by
    intro y k hk
    obtain ⟨hy, e, he, hek⟩ := rootEntry_iff.mp hk
    rw [rootEntry_iff, h.root_eq]
    constructor
    · rintro ⟨-, e', he', hek'⟩
      rcases (h.child_iff _ _ _ special_dfsName).mp he' with ⟨hr, hn, -⟩ | ⟨-, hne₁, he''⟩
      · exact absurd ⟨hr, hn⟩ (hroot e y k he hy hek)
      · obtain rfl : e = e' := by simpa [he] using he''
        refine ⟨hne₁, e, he, ?_⟩
        rcases (h.child_iff _ _ _ hy).mp hek' with ⟨rfl, rfl, rfl⟩ | ⟨hne₂, hne₁', -⟩
        · exact absurd hek hne
        · exact ⟨hne₁', hne₂⟩
    · rintro ⟨hne₁, e', he', hne₁', hne₂⟩
      obtain rfl : e = e' := by simpa [he] using he'
      exact ⟨hy, e,
        (h.child_iff _ _ _ special_dfsName).mpr (.inr ⟨hroot e y k he hy hek, hne₁, he⟩),
        (h.child_iff _ _ _ hy).mpr (.inr ⟨hne₂, hne₁', hek⟩)⟩
  constructor
  · rintro hkept (⟨hd, k, hk, hf⟩ | ⟨hd, k, hk, hf⟩ | ⟨⟨rfl, rfl⟩, e, y, -, k, hk, hf⟩)
    · obtain ⟨-, e, he, hne₁, -⟩ := (hkeeps x₁ k hk).mp (hkept x₁ k hk hf)
      rw [lresolve_dfsRoot, he] at hd
      cases hd
      exact hne₁ ⟨rfl, rfl⟩
    · obtain ⟨-, e, he, -, hne₂⟩ := (hkeeps x₂ k hk).mp (hkept x₂ k hk hf)
      rw [lresolve_dfsRoot, he] at hd
      cases hd
      exact hne₂ ⟨rfl, rfl⟩
    · obtain ⟨hne₁, -⟩ := (hkeeps y k hk).mp (hkept y k hk hf)
      exact hne₁ ⟨rfl, rfl⟩
  · intro hno y k hk hf
    have hk' := hk
    obtain ⟨hy, e, he, hek⟩ := rootEntry_iff.mp hk'
    have hslot : ForeignSlot fs id e y := ⟨by rw [lresolve_dfsRoot, he], k, hk, hf⟩
    refine (hkeeps y k hk).mpr ⟨?_, e, he, ?_, ?_⟩
    · rintro ⟨rfl, rfl⟩
      exact hno (.inr (.inr ⟨⟨rfl, rfl⟩, e, y, hslot⟩))
    · rintro ⟨rfl, rfl⟩
      exact hno (.inl hslot)
    · rintro ⟨rfl, rfl⟩
      exact hno (.inr (.inl hslot))

/-! ## The check of the owner -/

/-- A path whose parent is spelled `/DFS` names an entry that the check looks at. -/
theorem not_foreign_of_valid {fs : FS} {id : Int32} {p : CStr} {op : OpName} {d i : Ino} {x : Name}
    (hop : op = .rmdir ∨ op = .unlink) (hp : getParentPath p = dfsRoot)
    (hv : parentDirValid fs (getParentPath p) p id op = true) (hi : fs.lresolve p = .ok i)
    (hchild : fs.child d x = .ok i) : ¬ ForeignSlot fs id d x := by
  rintro ⟨hd, k, hk, n, hn, huid⟩
  obtain ⟨-, e, he, hek⟩ := hk
  obtain rfl : d = e := by simpa [hd] using he
  obtain rfl : i = k := by simpa [hchild] using hek
  rw [parentDirValid, if_pos hp, if_pos hop] at hv
  have hattrs : attrs fs p = .ok n := by simp [attrs, hi, hn]
  have hverdict : rootdirOpValidToDelete fs p id = 0 := by
    simp only [rootdirOpValidToDelete, hattrs, if_neg (Ne.symm huid)]
  rw [hverdict] at hv
  exact absurd hv (by decide)

/-- The outcome of `unlink` and `rmdir`: two checks and a call. -/
def removal (fs : FS) (id : Int32) (p : CStr) (op : OpName) (r : Except Errno FS) : Outcome :=
  check fs (parentDirValid fs (getParentPath p) p id op) (-EACCES) <|
  check fs (lockable fs (getParentPath p)) (-1) <|
  attempt fs r fun fs₁ => ⟨0, fs₁⟩

theorem removal_cases (fs : FS) (id : Int32) (p : CStr) (op : OpName) (r : Except Errno FS) :
    ((removal fs id p op r).fs = fs ∧ ¬(parentDirValid fs (getParentPath p) p id op = true ∧
      lockable fs (getParentPath p) = true ∧ isOk r = true)) ∨
    ∃ fs', r = .ok fs' ∧ (removal fs id p op r).fs = fs' ∧
      parentDirValid fs (getParentPath p) p id op = true ∧
      lockable fs (getParentPath p) = true := by
  unfold removal check attempt
  cases hv : parentDirValid fs (getParentPath p) p id op <;>
    cases hl : lockable fs (getParentPath p) <;> cases r <;> simp

/-- A removal keeps the entries of others unless it is exposed. -/
theorem removal_iff {fs : FS} {id : Int32} {p : CStr} {op : OpName} {r : Except Errno FS}
    (hop : op = .rmdir ∨ op = .unlink)
    (hr : ∀ fs', r = .ok fs' → ∃ d x i, fs.slot p = .ok (d, x) ∧ FS.special x = false ∧
      fs.child d x = .ok i ∧ (trailing p = true → fs.isDir i = true) ∧
      (∀ y k, FS.special y = false → fs.child i y ≠ .ok k) ∧ FS.Removed fs fs' d x) :
    RootKept id fs (removal fs id p op r).fs ↔ ¬ ExposedRemoval fs id p op r := by
  rcases removal_cases fs id p op r with ⟨hfs, hno⟩ | ⟨fs', rfl, hfs, hv, hl⟩
  · rw [hfs]
    refine iff_of_true (rootKept_refl id fs) ?_
    rintro ⟨-, hv, hl, hok, -⟩
    exact hno ⟨hv, hl, hok⟩
  · obtain ⟨d, x, i, hs, hx, hi, htr, hempty, hrem⟩ := hr fs' rfl
    rw [hfs, rootKept_removed hrem]
    have hroot : ¬((d = fs.root ∧ x = dfsName) ∧ ∃ e y, ForeignSlot fs id e y) := by
      rintro ⟨⟨rfl, rfl⟩, e, y, -, k, hk, -⟩
      obtain ⟨hy, e', he', hk'⟩ := rootEntry_iff.mp hk
      obtain rfl : i = e' := by simpa [hi] using he'
      exact hempty y k hy hk'
    constructor
    · rintro hno ⟨-, -, -, -, d', x', hs', hf⟩
      obtain ⟨rfl, rfl⟩ : d = d' ∧ x = x' := by simpa [hs] using hs'
      exact hno (.inl hf)
    · rintro hno (hf | hf)
      · by_cases hp : getParentPath p = dfsRoot
        · exact not_foreign_of_valid hop hp hv (FS.lresolve_of_slot hs hx hi htr) hi hf
        · exact hno ⟨hp, hv, hl, rfl, d, x, hs, hf⟩
      · exact hroot hf

/-- **`unlink`** keeps the entries of others unless they are exposed. -/
theorem unlinkOp_iff (fs : FS) (arg : UnlinkArg) :
    RootKept (atoi arg.ip) fs (unlinkOp fs arg).fs ↔ ¬ Exposed fs (.unlink arg) := by
  refine removal_iff (.inr rfl) fun fs' h => ?_
  obtain ⟨d, x, i, hs, hx, hi, hdir, ht, -⟩ := FS.unlink_eq_ok.mp h
  obtain ⟨d', x', -, hs', -, -, -, hrem⟩ := FS.unlink_removed h
  obtain ⟨rfl, rfl⟩ : d = d' ∧ x = x' := by simpa [hs] using hs'
  refine ⟨d, x, i, hs, hx, hi, fun ht' => ?_, fun y k hy hk => ?_, hrem⟩
  · rw [ht] at ht'
    cases ht'
  · -- What is unlinked is no directory.
    obtain ⟨parent, es, hes, -⟩ := (FS.child_eq_ok_of_special hy).mp hk
    obtain ⟨n, hn, hb⟩ := FS.dir_eq_ok.mp hes
    rw [FS.isDir_iff.mpr ⟨n, hn, by simp [Inode.kind, hb, Body.kind]⟩] at hdir
    cases hdir

/-- So does `rmdir`. -/
theorem rmdirOp_iff (fs : FS) (arg : RmdirArg) :
    RootKept (atoi arg.ip) fs (rmdirOp fs arg).fs ↔ ¬ Exposed fs (.rmdir arg) := by
  refine removal_iff (.inl rfl) fun fs' h => ?_
  obtain ⟨d, x, i, parent, hs, hx, hi, hes, hrem⟩ := FS.rmdir_removed h
  obtain ⟨n, hn, hb⟩ := FS.dir_eq_ok.mp hes
  refine ⟨d, x, i, hs, hx, hi, fun _ => ?_, fun y k hy hk => ?_, hrem⟩
  · exact FS.isDir_iff.mpr ⟨n, hn, by simp [Inode.kind, hb, Body.kind]⟩
  · -- What is removed is empty.
    obtain ⟨parent', es', hes', -, hl, -⟩ := (FS.child_eq_ok_of_special hy).mp hk
    rw [hes] at hes'
    cases hes'
    cases hl

/-- So does `rename`. -/
theorem renameOp_iff (fs : FS) (arg : RenameArg) :
    RootKept (atoi arg.ip) fs (renameOp fs arg).fs ↔ ¬ Exposed fs (.rename arg) := by
  simp only [Exposed, renameOp]
  generalize translateAbspath arg.path = p
  generalize translateAbspath arg.newpath = q
  unfold ExposedRename
  by_cases hc : parentDirValid fs (getParentPath p) p (atoi arg.ip) .rename = true ∧
      parentDirValid fs (getParentPath q) q (atoi arg.ip) .rename = true ∧
      lockable fs (getParentPath p) = true ∧
      (getParentPath p = getParentPath q ∨ lockable fs (getParentPath q) = true) ∧
      isOk (fs.rename p q) = true
  · obtain ⟨hv, hv', hl, hl', hok⟩ := hc
    obtain ⟨fs', hfs⟩ := isOk_iff.mp hok
    have hl'' : (decide (getParentPath p = getParentPath q) ||
        lockable fs (getParentPath q)) = true := by simpa using hl'
    simp only [check, hv, hv', hl, hl'', if_true, attempt, hfs, isOk_ok, true_and, hl']
    obtain ⟨d₁, x₁, d₂, x₂, i, hs₁, hs₂, -, -, hi, ⟨hj, rfl⟩ | ⟨hne, hmv, hempty⟩⟩ :=
      FS.rename_moved hfs
    · refine iff_of_true (rootKept_refl _ _) ?_
      rintro ⟨d₁', x₁', d₂', x₂', hs₁', hs₂', hne, -⟩
      obtain ⟨rfl, rfl⟩ : d₁ = d₁' ∧ x₁ = x₁' := by simpa [hs₁] using hs₁'
      obtain ⟨rfl, rfl⟩ : d₂ = d₂' ∧ x₂ = x₂' := by simpa [hs₂] using hs₂'
      exact hne (hi.trans hj.symm)
    · rw [rootKept_moved hmv hi hne hempty]
      refine not_congr ⟨fun hf => ⟨d₁, x₁, d₂, x₂, hs₁, hs₂, ?_, hf⟩, ?_⟩
      · rw [hi]
        exact Ne.symm hne
      · rintro ⟨d₁', x₁', d₂', x₂', hs₁', hs₂', -, hf⟩
        obtain ⟨rfl, rfl⟩ : d₁ = d₁' ∧ x₁ = x₁' := by simpa [hs₁] using hs₁'
        obtain ⟨rfl, rfl⟩ : d₂ = d₂' ∧ x₂ = x₂' := by simpa [hs₂] using hs₂'
        exact hf
  · refine iff_of_true ?_ fun hm => hc ⟨hm.1, hm.2.1, hm.2.2.1, hm.2.2.2.1, hm.2.2.2.2.1⟩
    -- A check, a lock or the call itself fails.
    have hrefl := rootKept_refl (atoi arg.ip) fs
    refine check_rel hrefl fun hv =>
      check_rel hrefl fun hv' => check_rel hrefl fun hl => check_rel hrefl fun hl' =>
      attempt_rel hrefl fun fs' hfs => ?_
    exact absurd ⟨hv, hv', hl, by simpa using hl', by rw [hfs]; rfl⟩ hc

/-- **When the entries of others stay in the shared root.**  After an `unlink`, a `rmdir` or a
`rename`, every entry of `/DFS` that does not belong to the client is as it was exactly when the
request was not exposed. -/
theorem root_kept_iff {a : Arrival} {h h' : Host} {reply : Reply} {ip : CStr}
    (hip : a.request.remover = some ip) (hr : serve a h = .ok (reply, h')) :
    RootKept (atoi ip) h.os.fs h'.os.fs ↔ ¬ Exposed h.os.fs a.request := by
  obtain ⟨r, stale, peer⟩ := a
  cases r <;> simp only [Request.remover, Option.some.injEq, reduceCtorEq] at hip
  case unlink arg =>
    subst hip
    rw [(compute6_treeOp (o := unlinkOp h.os.fs arg) rfl hr).2.1]
    exact unlinkOp_iff _ arg
  case rmdir arg =>
    subst hip
    rw [(compute6_treeOp (o := rmdirOp h.os.fs arg) rfl hr).2.1]
    exact rmdirOp_iff _ arg
  case rename arg =>
    subst hip
    rw [(compute6_treeOp (o := renameOp h.os.fs arg) rfl hr).2.1]
    exact renameOp_iff _ arg

/-- `/DFS` with a file `f` of client 1. -/
def sharedFile : FS := .ofNodes [
  .plain (.dir 0 [("DFS".toList, 1)]) 0 0o755,
  .plain (.dir 0 [("f".toList, 2)]) 0 0o777,
  .plain (.reg [1]) 1 0o600]

/-- Somebody else's file is not removed. -/
theorem root_kept_iff_unlink : ∃ reply h,
    serve (.alone (.unlink ⟨"2".toList, ⟨1, 1⟩, "/f".toList⟩)) (.start sharedFile) =
      .ok (reply, h) ∧
    (RootKept 2 sharedFile h.os.fs ↔
      ¬ Exposed sharedFile (.unlink ⟨"2".toList, ⟨1, 1⟩, "/f".toList⟩)) := by
  have hrun : (serve (.alone (.unlink ⟨"2".toList, ⟨1, 1⟩, "/f".toList⟩))
      (.start sharedFile)).map (fun r => r.1.ret) = .ok (-EACCES) := by rfl
  obtain ⟨⟨reply, h⟩, hs, -⟩ := map_eq_ok.mp hrun
  exact ⟨reply, h, hs, @root_kept_iff _ _ _ _ "2".toList rfl hs⟩

/-- Nobody checks the owner in a rename: client 2 renames client 1's file. -/
theorem rename_takes_name : ¬ ∀ (a : Arrival) (h h' : Host) (reply : Reply) (ip : CStr),
    a.request.remover = some ip → serve a h = .ok (reply, h') →
    RootKept (atoi ip) h.os.fs h'.os.fs := by
  intro hall
  have hrun : (serve (.alone (.rename ⟨"2".toList, ⟨1, 1⟩, "/f".toList, "/g".toList⟩))
      (.start sharedFile)).map (fun r => (r.2.os.fs.lresolve dfsRoot,
        r.2.os.fs.child 1 "f".toList)) = .ok (.ok 1, .error ENOENT) := by rfl
  obtain ⟨⟨reply, h⟩, hs, hfs⟩ := map_eq_ok.mp hrun
  obtain ⟨hroot, hgone⟩ := Prod.mk.inj hfs
  have hentry : RootEntry sharedFile "f".toList 2 := ⟨by decide, 1, by rfl, by rfl⟩
  have hforeign : foreign sharedFile 2 2 := ⟨.plain (.reg [1]) 1 0o600, by rfl, by decide⟩
  obtain ⟨-, d, hd, hk⟩ := hall _ _ _ _ "2".toList rfl hs "f".toList 2 hentry hforeign
  obtain rfl : 1 = d := by simpa [hroot] using hd
  cases hgone.symm.trans hk

end DFS
