import NetworkFileSystem.Posix.Lookup
import NetworkFileSystem.Posix.Names
import NetworkFileSystem.Posix.Paths

/-!
# The last component of a path

`FS.lresolve` looks at the last component itself, `FS.resolve` and `FS.final` go through it when it
is a symbolic link.  The three agree on everything but a link: **`resolve_of_lresolve`** and
**`final_of_walk`**.  What `FS.resolve` finds through a non-empty path is never a link
(`resolve_not_link`), so on a link they always differ.
-/

namespace Posix

open Effects

namespace FS

variable {fs fs' : FS} {p : CStr} {d i j k cur : Ino} {x : Name} {n m : ℕ} {l r : List Name}
  {umask flags mode : UInt32}

/-! ## Parts of a walk -/

/-- A walk along two lists walks along the first one first. -/
theorem walk_split (h : fs.walk n cur (l ++ r) = .ok k) :
    ∃ d m, m ≤ n ∧ fs.walk n cur l = .ok d ∧ fs.walk m d r = .ok k := by
  induction n using Nat.strongRecOn generalizing cur l with
  | _ n ihn =>
    induction l generalizing cur with
    | nil => exact ⟨cur, n, Nat.le_refl n, walk_nil, h⟩
    | cons x l ihl =>
        obtain ⟨i, hi, ⟨ht, hw⟩ | ⟨t, n', ht, rfl, hw⟩⟩ := walk_cons_eq_ok.mp h
        · obtain ⟨d, m, hm, hd, hr⟩ := ihl hw
          exact ⟨d, m, hm, walk_cons_eq_ok.mpr ⟨i, hi, .inl ⟨ht, hd⟩⟩, hr⟩
        · have hw' : fs.walk n' (fs.base cur t) ((walkComps t ++ l) ++ r) = .ok k := by
            rw [List.append_assoc]
            exact hw
          obtain ⟨d, m, hm, hd, hr⟩ := ihn n' (Nat.lt_succ_self n') hw'
          exact ⟨d, m, by omega, walk_cons_eq_ok.mpr ⟨i, hi, .inr ⟨t, n', ht, rfl, hd⟩⟩, hr⟩

/-- A directory is no link. -/
theorem linkTarget_of_dir {e : Ino × List (Name × Ino)} (h : fs.dir d = .ok e) :
    fs.linkTarget d = none := by
  obtain ⟨n, hn, hb⟩ := dir_eq_ok.mp h
  simp [linkTarget, hn, hb]

/-- Where a walk of at least one step ends is not a symbolic link. -/
theorem walk_not_link (h : fs.walk n cur (x :: l) = .ok k) : fs.linkTarget k = none := by
  induction n using Nat.strongRecOn generalizing cur x l with
  | _ n ihn =>
    induction l generalizing cur x with
    | nil =>
        obtain ⟨i, hi, ⟨ht, hw⟩ | ⟨t, n', ht, rfl, hw⟩⟩ := walk_cons_eq_ok.mp h
        · rw [walk_nil] at hw
          cases hw
          exact ht
        · rw [List.append_nil] at hw
          cases hc : walkComps t with
          | cons y l =>
              rw [hc] at hw
              exact ihn n' (Nat.lt_succ_self n') hw
          | nil =>
              -- An empty target leads back to the directory of the link.
              rw [hc, walk_nil, walkComps_eq_nil.mp hc] at hw
              cases hw
              obtain ⟨_, _, hdir, -⟩ := child_eq_ok.mp hi
              exact linkTarget_of_dir hdir
    | cons y l ihl =>
        obtain ⟨i, hi, ⟨ht, hw⟩ | ⟨t, n', ht, rfl, hw⟩⟩ := walk_cons_eq_ok.mp h
        · exact ihl hw
        · cases hc : walkComps t ++ y :: l with
          | nil => simp at hc
          | cons z l =>
              rw [hc] at hw
              exact ihn n' (Nat.lt_succ_self n') hw

/-! ## Looking at the last component -/

/-- `lresolve` finds the root or looks the last component up. -/
theorem lresolve_eq_ok : fs.lresolve p = .ok i ↔ getname p = .ok () ∧
    ∃ way x d, walkComps p = way ++ [x] ∧ fs.walk maxSymlinks fs.root way = .ok d ∧
      fs.child d x = .ok i := by
  unfold lresolve
  simp only [bind_eq_ok]
  constructor
  · rintro ⟨⟨⟩, hg, h⟩
    refine ⟨hg, ?_⟩
    cases hl : (walkComps p).getLast? with
    | none =>
        have hnil := walkComps_eq_nil.mp (List.getLast?_eq_none_iff.mp hl)
        exact absurd hnil (getname_eq_ok.mp hg).1
    | some x =>
        rw [hl] at h
        simp only [bind_eq_ok] at h
        obtain ⟨d, hw, hc⟩ := h
        obtain ⟨way, hway⟩ := List.getLast?_eq_some_iff.mp hl
        rw [hway, List.dropLast_concat] at hw
        exact ⟨way, x, d, hway, hw, hc⟩
  · rintro ⟨hg, way, x, d, hway, hw, hc⟩
    refine ⟨(), hg, ?_⟩
    rw [hway]
    simp only [List.getLast?_append, List.getLast?_singleton, Option.some_or,
      List.dropLast_concat, bind_eq_ok]
    exact ⟨d, hw, hc⟩

/-- A lookup is a walk from the root along the components. -/
theorem resolve_eq_ok : fs.resolve p = .ok i ↔ getname p = .ok () ∧
    fs.walk maxSymlinks fs.root (walkComps p) = .ok i := by
  unfold resolve
  simp only [bind_eq_ok]
  constructor
  · rintro ⟨⟨⟩, hg, h⟩
    exact ⟨hg, h⟩
  · rintro ⟨hg, h⟩
    exact ⟨(), hg, h⟩

/-- What is not a link is found either way. -/
theorem resolve_of_lresolve (h : fs.lresolve p = .ok i) (hl : fs.linkTarget i = none) :
    fs.resolve p = .ok i := by
  obtain ⟨hg, way, x, d, hway, hw, hc⟩ := lresolve_eq_ok.mp h
  refine resolve_eq_ok.mpr ⟨hg, ?_⟩
  rw [hway]
  refine walk_append hw fun m => ?_
  exact walk_cons_eq_ok.mpr ⟨i, hc, .inl ⟨hl, walk_nil⟩⟩

/-- What a path leads to is never a link. -/
theorem resolve_not_link (h : fs.resolve p = .ok i) : fs.linkTarget i = none := by
  obtain ⟨hg, hw⟩ := resolve_eq_ok.mp h
  cases hc : walkComps p with
  | nil => exact absurd (walkComps_eq_nil.mp hc) (getname_eq_ok.mp hg).1
  | cons x l =>
      rw [hc] at hw
      exact walk_not_link hw

/-- The two lookups agree exactly when there is no link in the last place. -/
theorem resolve_eq_lresolve_iff (h : fs.lresolve p = .ok j) (hr : fs.resolve p = .ok i) :
    j = i ↔ fs.linkTarget j = none := by
  constructor
  · rintro rfl
    exact resolve_not_link hr
  · intro hl
    have hj := resolve_of_lresolve h hl
    rw [hr] at hj
    exact (Except.ok.inj hj).symm

/-! ## Where a name may be created -/

/-- A slash at the end of an intermediate part of the way changes nothing. -/
theorem walk_skip_dot (h : fs.walk n cur (l ++ dot :: r) = .ok k) :
    fs.walk n cur (l ++ r) = .ok k := by
  induction n using Nat.strongRecOn generalizing cur l with
  | _ n ihn =>
    induction l generalizing cur with
    | nil =>
        obtain ⟨i, hi, hw⟩ := walk_cons_eq_ok.mp h
        obtain ⟨_, _, hdir, -, hp, -⟩ := child_eq_ok.mp hi
        obtain rfl : cur = i := by simpa [pick] using hp
        have hlink := linkTarget_of_dir hdir
        rcases hw with ⟨-, hw⟩ | ⟨t, m, ht, -⟩
        · exact hw
        · rw [hlink] at ht
          cases ht
    | cons x l ihl =>
        obtain ⟨i, hi, ⟨ht, hw⟩ | ⟨t, m, ht, rfl, hw⟩⟩ := walk_cons_eq_ok.mp h
        · exact walk_cons_eq_ok.mpr ⟨i, hi, .inl ⟨ht, ihl hw⟩⟩
        · have hjump : fs.walk m (fs.base cur t) (walkComps t ++ (l ++ r)) = .ok k := by
            rw [← List.append_assoc]
            refine ihn m (Nat.lt_succ_self m) ?_
            rw [List.append_assoc]
            exact hw
          exact walk_cons_eq_ok.mpr ⟨i, hi, .inr ⟨t, m, ht, rfl, hjump⟩⟩

/-- A trailing slash only asks for more: without it the walk ends at the same inode. -/
theorem walk_components {t : CStr} (h : fs.walk n cur (walkComps t ++ l) = .ok k) :
    fs.walk n cur (components t ++ l) = .ok k := by
  unfold walkComps at h
  split at h
  · rw [List.append_assoc] at h
    exact walk_skip_dot h
  · rwa [List.append_nil] at h

/-- The way to a name that is not a link is the way a walk takes. -/
theorem final_of_walk (hw : fs.walk n cur l = .ok d) (hc : fs.child d x = .ok i)
    (hl : fs.linkTarget i = none) : fs.final n cur (l ++ [x]) = .ok (d, x) := by
  induction n using Nat.strongRecOn generalizing cur l with
  | _ n ihn =>
    induction l generalizing cur with
    | nil =>
        rw [walk_nil] at hw
        cases hw
        cases n <;> simp [final, finalWith, hc, hl]
    | cons y l ihl =>
        obtain ⟨k, hk, ⟨ht, hrest⟩ | ⟨t, m, ht, rfl, hjump⟩⟩ := walk_cons_eq_ok.mp hw
        · have hrest := ihl hrest
          cases n <;> simpa [final, finalWith, hk, ht] using hrest
        · have hjump := ihn m (Nat.lt_succ_self m) (walk_components hjump)
          rw [List.append_assoc] at hjump
          simpa [final, finalWith, hk, ht] using hjump

/-- The name that a call creates or removes is the one that `lresolve` looks up. -/
theorem slot_of_lresolve (h : fs.lresolve p = .ok i) (ht : trailing p = false)
    (hs : fs.slot p = .ok (d, x)) : fs.child d x = .ok i := by
  obtain ⟨hg, way, x', d', hway, hw, hc⟩ := lresolve_eq_ok.mp h
  have hcomps : components p = way ++ [x'] := by
    rw [← hway, walkComps, ht]
    simp
  unfold slot at hs
  rw [hcomps, hg] at hs
  simp only [ok_bind, List.getLast?_append, List.getLast?_singleton, Option.some_or,
    List.dropLast_concat, hw, bind_eq_ok, pure_eq_ok, Prod.mk.injEq] at hs
  obtain ⟨_, -, rfl, rfl⟩ := hs
  exact hc

/-- Opening an existing file with `O_CREAT` finds it, unless it goes through a link. -/
theorem finalSlot_of_lresolve (h : fs.lresolve p = .ok i)
    (hl : fs.linkTarget i = none ∨ hasBit flags O_NOFOLLOW = true) (ht : trailing p = false)
    (hs : fs.finalSlot flags p = .ok (d, x)) : fs.child d x = .ok i := by
  unfold finalSlot at hs
  by_cases hno : hasBit flags O_NOFOLLOW = true
  · rw [if_pos hno] at hs
    exact slot_of_lresolve h ht hs
  · obtain ⟨-, way, x', d', hway, hw, hc⟩ := lresolve_eq_ok.mp h
    have hcomps : components p = way ++ [x'] := by
      rw [← hway, walkComps, ht]
      simp
    rw [if_neg hno, hcomps, final_of_walk hw hc (hl.resolve_right hno)] at hs
    cases hs
    exact hc

/-- What is opened as it stands is no link. -/
theorem openExisting_inode (h : fs.openExisting flags j = .ok (i, fs')) :
    j = i ∧ fs.linkTarget j = none := by
  unfold openExisting at h
  simp only [bind_eq_ok, need_eq_ok, orElse_eq_ok, exists_const] at h
  obtain ⟨n, hn, hk, -, -, -, h⟩ := h
  have hlink : fs.linkTarget j = none := by
    unfold linkTarget
    rw [hn]
    cases hb : n.body <;> simp_all [Inode.kind, Body.kind]
  split at h
  · cases h
    exact ⟨rfl, hlink⟩
  · cases h
    exact ⟨rfl, hlink⟩

/-- Flags with which `open` makes a file without a name. -/
def unnamed (flags : UInt32) : Bool := hasBit flags O_TMPFILE_BIT && !hasBit flags O_PATH

/-- **What `open` opens.**  It is the inode in the last place of the path, except through a
symbolic link that it may follow, and except for a file without a name. -/
theorem openAt_inode_iff (hj : fs.lresolve p = .ok j)
    (h : fs.openAt umask p flags mode = .ok (i, fs')) :
    j = i ↔ unnamed flags = false ∧
      (fs.linkTarget j = none ∨ hasBit flags O_NOFOLLOW = true) := by
  have hnew : j ≠ fs.next := by
    obtain ⟨-, -, _, _, -, -, hc⟩ := lresolve_eq_ok.mp hj
    obtain ⟨n, hn⟩ := Option.isSome_iff_exists.mp (isSome_of_child hc)
    exact ne_next hn
  -- The lookup of the calls that create nothing.
  have hlookup : ∀ {k}, (if hasBit flags O_NOFOLLOW = true then fs.lresolve p
      else fs.resolve p) = .ok k → (j = k ↔
        (fs.linkTarget j = none ∨ hasBit flags O_NOFOLLOW = true)) := by
    intro k hk
    by_cases hno : hasBit flags O_NOFOLLOW = true
    · rw [if_pos hno, hj] at hk
      exact iff_of_true (Except.ok.inj hk) (.inr hno)
    · rw [if_neg hno] at hk
      rw [resolve_eq_lresolve_iff hj hk, or_iff_left hno]
  unfold openAt at h
  simp only at h
  by_cases hp : hasBit flags O_PATH = true
  · rw [if_pos hp] at h
    simp only [bind_eq_ok, need_eq_ok, exists_const, pure_eq_ok, Prod.mk.injEq] at h
    obtain ⟨k, hk, -, rfl, rfl⟩ := h
    simpa [unnamed, hp] using hlookup hk
  · rw [if_neg hp] at h
    by_cases htmp : hasBit flags O_TMPFILE_BIT = true
    · rw [if_pos htmp] at h
      simp only [bind_eq_ok, need_eq_ok, orElse_eq_ok, exists_const, pure_eq_ok,
        Prod.mk.injEq] at h
      obtain ⟨-, -, -, -, -, -, -, rfl, -⟩ := h
      refine iff_of_false hnew ?_
      simp [unnamed, htmp, hp]
    · rw [if_neg htmp] at h
      have hun : unnamed flags = false := by simp [unnamed, htmp]
      rw [hun, eq_self_iff_true, true_and]
      by_cases hcreat : hasBit flags O_CREAT = true
      · rw [if_pos hcreat] at h
        simp only [bind_eq_ok, need_eq_ok, exists_const] at h
        obtain ⟨-, -, -, ht, h⟩ := h
        split at h
        · -- `O_EXCL`: the name is taken.
          obtain ⟨d, x, parent, hv, -⟩ := create_eq_ok.mp h
          obtain ⟨hs, -, -, hfree, -⟩ := vacant_eq_ok.mp hv
          rw [slot_of_lresolve hj ht hs] at hfree
          cases hfree
        · simp only [openOrCreate, bind_eq_ok, need_eq_ok, exists_const, Prod.exists] at h
          obtain ⟨d, x, hs, -, -, h⟩ := h
          by_cases hl : fs.linkTarget j = none ∨ hasBit flags O_NOFOLLOW = true
          · rw [finalSlot_of_lresolve hj hl ht hs] at h
            exact iff_of_true (openExisting_inode h).1 hl
          · refine iff_of_false ?_ hl
            rintro rfl
            split at h
            · obtain ⟨rfl, hlink⟩ := openExisting_inode h
              exact hl (.inl hlink)
            · obtain ⟨_, -, hi, -⟩ := createAt_eq_ok.mp h
              exact hnew hi
      · rw [if_neg hcreat] at h
        simp only [bind_eq_ok] at h
        obtain ⟨k, hk, h⟩ := h
        obtain ⟨rfl, -⟩ := openExisting_inode h
        exact hlookup hk

end FS

end Posix
