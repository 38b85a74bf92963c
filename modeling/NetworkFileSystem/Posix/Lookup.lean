import NetworkFileSystem.Posix.Changes

/-!
# Lookups in a tree that has grown

`FS.Extends fs fs'` says that every name of `fs` still leads to the same inode in `fs'`, and that
the symbolic links among these inodes are the same.  A walk that succeeds in `fs` then takes the
same way in `fs'` (`walk_extends`).  Adding a name that was free extends the tree; so a path whose
last component has just been created leads to what was created (`resolve_created`,
`lresolve_created`).
-/

namespace Posix

open Effects

namespace FS

variable {fs fs' : FS} {p : CStr} {d i k cur : Ino} {x : Name} {n : ℕ} {l r : List Name}

/-! ## Walking step by step -/

@[simp] theorem walk_nil : fs.walk n cur [] = .ok cur := by
  cases n <;> rfl

/-- Where a walk goes on from a symbolic link, when the budget allows for another one. -/
def follow (fs : FS) : ℕ → Ino → List Name → Except Errno Ino
  | 0, _, _ => .error ELOOP
  | n + 1, cur, l => fs.walk n cur l

/-- A walk looks at the first name and goes through a link. -/
theorem walk_cons : fs.walk n cur (x :: l) = (do
    let i ← fs.child cur x
    match fs.linkTarget i with
    | some t => fs.follow n (fs.base cur t) (walkComps t ++ l)
    | none => fs.walk n i l) := by
  cases n <;> rfl

/-- One step of a walk that succeeds. -/
theorem walk_cons_eq_ok : fs.walk n cur (x :: l) = .ok k ↔ ∃ i, fs.child cur x = .ok i ∧
    ((fs.linkTarget i = none ∧ fs.walk n i l = .ok k) ∨
      ∃ t m, fs.linkTarget i = some t ∧ n = m + 1 ∧
        fs.walk m (fs.base cur t) (walkComps t ++ l) = .ok k) := by
  rw [walk_cons, bind_eq_ok]
  constructor
  · rintro ⟨i, hi, h⟩
    refine ⟨i, hi, ?_⟩
    cases ht : fs.linkTarget i with
    | none =>
        rw [ht] at h
        exact .inl ⟨rfl, h⟩
    | some t =>
        rw [ht] at h
        cases n with
        | zero => cases h
        | succ m => exact .inr ⟨t, m, rfl, rfl, h⟩
  · rintro ⟨i, hi, ⟨ht, h⟩ | ⟨t, m, ht, rfl, h⟩⟩
    · exact ⟨i, hi, by rw [ht]; exact h⟩
    · exact ⟨i, hi, by rw [ht]; exact h⟩

/-- A walk that succeeds can be continued by one that needs no symbolic links. -/
theorem walk_append (h : fs.walk n cur l = .ok d) (hr : ∀ m, fs.walk m d r = .ok k) :
    fs.walk n cur (l ++ r) = .ok k := by
  induction n using Nat.strongRecOn generalizing cur l with
  | _ n ihn =>
    induction l generalizing cur with
    | nil =>
        rw [walk_nil] at h
        cases h
        exact hr n
    | cons x l ihl =>
        obtain ⟨i, hi, ⟨ht, hw⟩ | ⟨t, m, ht, rfl, hw⟩⟩ := walk_cons_eq_ok.mp h
        · exact walk_cons_eq_ok.mpr ⟨i, hi, .inl ⟨ht, ihl hw⟩⟩
        · have hjump : fs.walk m (fs.base cur t) (walkComps t ++ (l ++ r)) = .ok k := by
            rw [← List.append_assoc]
            exact ihn m (Nat.lt_succ_self m) hw
          exact walk_cons_eq_ok.mpr ⟨i, hi, .inr ⟨t, m, ht, rfl, hjump⟩⟩

/-! ## Extension -/

/-- Every name still leads where it led, over the same symbolic links. -/
structure Extends (fs fs' : FS) : Prop where
  root_eq : fs'.root = fs.root
  child_eq : ∀ d x i, fs.child d x = .ok i → fs'.child d x = .ok i
  link_eq : ∀ i, (fs.node i).isSome → fs'.linkTarget i = fs.linkTarget i

/-- An entry names an inode that is there. -/
theorem isSome_of_child (h : fs.child d x = .ok i) : (fs.node i).isSome := by
  obtain ⟨-, -, -, -, -, hi⟩ := child_eq_ok.mp h
  exact hi

/-- A walk goes the same way in a tree with more entries. -/
theorem walk_extends (he : Extends fs fs') (h : fs.walk n cur l = .ok k) :
    fs'.walk n cur l = .ok k := by
  induction n using Nat.strongRecOn generalizing cur l with
  | _ n ihn =>
    induction l generalizing cur with
    | nil => rwa [walk_nil] at h ⊢
    | cons x l ihl =>
        obtain ⟨i, hi, hw⟩ := walk_cons_eq_ok.mp h
        have hlink := he.link_eq i (isSome_of_child hi)
        have hbase : ∀ t, fs'.base cur t = fs.base cur t := by
          intro t
          rw [base, base, he.root_eq]
        refine walk_cons_eq_ok.mpr ⟨i, he.child_eq _ _ _ hi, ?_⟩
        rcases hw with ⟨ht, hw⟩ | ⟨t, m, ht, rfl, hw⟩
        · exact .inl ⟨hlink.trans ht, ihl hw⟩
        · refine .inr ⟨t, m, hlink.trans ht, rfl, ?_⟩
          rw [hbase]
          exact ihn m (Nat.lt_succ_self m) hw

/-! ## The last component -/

/-- A path with a slot is the way to its directory followed by its last component. -/
theorem slot_eq_ok : fs.slot p = .ok (d, x) ∧ x ≠ [] ↔ getname p = .ok () ∧ x ≠ [] ∧
    ∃ way, components p = way ++ [x] ∧ fs.walk maxSymlinks fs.root way = .ok d ∧
      ∃ r, fs.dir d = .ok r := by
  unfold slot
  simp only [bind_eq_ok]
  constructor
  · rintro ⟨⟨⟨⟩, hg, h⟩, hx⟩
    refine ⟨hg, hx, ?_⟩
    cases hl : (components p).getLast? with
    | none =>
        rw [hl] at h
        cases h
        exact absurd rfl hx
    | some y =>
        rw [hl] at h
        simp only [bind_eq_ok, pure_eq_ok, Prod.mk.injEq] at h
        obtain ⟨d', hw, r, hr, rfl, rfl⟩ := h
        refine ⟨(components p).dropLast, ?_, hw, r, hr⟩
        obtain ⟨way, hway⟩ := List.getLast?_eq_some_iff.mp hl
        rw [hway, List.dropLast_concat]
  · rintro ⟨hg, hx, way, hway, hw, r, hr⟩
    refine ⟨⟨(), hg, ?_⟩, hx⟩
    rw [hway]
    simp only [List.getLast?_append, List.getLast?_singleton, Option.some_or,
      List.dropLast_concat, bind_eq_ok, pure_eq_ok]
    exact ⟨d, hw, r, hr, rfl⟩

/-- An ordinary name is not empty. -/
theorem ne_nil_of_special (h : special x = false) : x ≠ [] := by
  rintro rfl
  cases h

/-! ## Adding a free name -/

/-- A link and its target. -/
theorem linkTarget_eq_some {t : CStr} :
    fs.linkTarget i = some t ↔ ∃ n, fs.node i = some n ∧ n.body = .symlink t := by
  unfold linkTarget
  constructor
  · intro h
    split at h
    · next n hn =>
      split at h
      · next t' hb =>
        cases h
        exact ⟨n, hn, hb⟩
      · cases h
    · cases h
  · rintro ⟨n, hn, hb⟩
    simp [hn, hb]

/-- What an inode looks like after an entry has been added to the directory `d`. -/
theorem addEntry_node (k : Ino) (links : ℕ → ℕ) : (fs.addEntry d x i links).node k =
    if k = d then (fs.node k).map (Inode.onEntries (fun es => (x, i) :: es) links)
    else fs.node k := rfl

/-- The situation in which a name is made: a directory, and a name that is free there. -/
structure Free (fs : FS) (d : Ino) (x : Name) : Prop where
  isDir : ∃ r, fs.dir d = .ok r
  notSpecial : special x = false
  short : x.length ≤ 255
  free : isOk (fs.child d x) = false

/-- Where something can be made, the name is free. -/
theorem free_of_vacant {dirOk : Bool} (h : fs.vacant p dirOk = .ok (d, x)) : fs.Free d x := by
  obtain ⟨hs, hsp, hlen, hfree, -⟩ := vacant_eq_ok.mp h
  obtain ⟨-, -, way, -, -, hr⟩ := slot_eq_ok.mp ⟨hs, ne_nil_of_special hsp⟩
  exact ⟨hr, hsp, hlen, hfree⟩

section Created

variable {links : ℕ → ℕ} {m : Inode}

/-- The inodes that were there, after something was made. -/
theorem created_node_of_some {k : Ino} {n : Inode} (h : fs.node k = some n) :
    (fs.created d x links m).node k =
      some (if k = d then n.onEntries (fun es => (x, fs.next) :: es) links else n) := by
  rw [created, addEntry_node, alloc_node_of_some h]
  split <;> rfl

/-- The directories that were there, after something was made. -/
theorem created_dir {k parent : Ino} {es : List (Name × Ino)} (h : fs.dir k = .ok (parent, es)) :
    (fs.created d x links m).dir k =
      .ok (parent, if k = d then (x, fs.next) :: es else es) := by
  obtain ⟨n, hn, hb⟩ := dir_eq_ok.mp h
  refine dir_eq_ok.mpr ⟨_, created_node_of_some hn, ?_⟩
  by_cases hk : k = d
  · simp [hk, Inode.onEntries, hb]
  · simp [hk, hb]

/-- Making a name extends the tree. -/
theorem created_extends (hf : fs.Free d x) : Extends fs (fs.created d x links m) where
  root_eq := rfl
  child_eq k y i hi := by
    obtain ⟨parent, es, hdir, hlen, hp, hsome⟩ := child_eq_ok.mp hi
    obtain ⟨n, hn⟩ := Option.isSome_iff_exists.mp hsome
    refine child_eq_ok.mpr ⟨parent, _, created_dir hdir, hlen, ?_, by
      rw [created_node_of_some hn]; rfl⟩
    by_cases hk : k = d
    · subst hk
      have hyx : y ≠ x := by
        rintro rfl
        have hfree := hf.free
        rw [hi] at hfree
        cases hfree
      rw [if_pos rfl]
      unfold pick at hp ⊢
      rw [List.lookup_cons, show (y == x) = false by simpa using hyx]
      exact hp
    · rw [if_neg hk]
      exact hp
  link_eq i hi := by
    obtain ⟨n, hn⟩ := Option.isSome_iff_exists.mp hi
    unfold linkTarget
    rw [created_node_of_some hn, hn]
    by_cases hd : i = d
    · obtain ⟨⟨parent, es⟩, hr⟩ := hf.isDir
      obtain ⟨n', hn', hb⟩ := dir_eq_ok.mp hr
      obtain rfl : n = n' := by simpa [hd, hn'] using hn.symm
      simp [hd, Inode.onEntries, hb]
    · simp [hd]

/-- The new name leads to the new inode. -/
theorem created_child (hf : fs.Free d x) : (fs.created d x links m).child d x = .ok fs.next := by
  obtain ⟨⟨parent, es⟩, hr⟩ := hf.isDir
  obtain ⟨n, hn, -⟩ := dir_eq_ok.mp hr
  have hx : x ≠ dot ∧ x ≠ dotdot := by
    have hsp := hf.notSpecial
    unfold special at hsp
    simp only [decide_eq_false_iff_not, not_or] at hsp
    exact hsp.2
  refine child_eq_ok.mpr ⟨parent, _, created_dir hr, hf.short, ?_, ?_⟩
  · rw [if_pos rfl]
    simp [pick, hx.1, hx.2]
  · rw [created_node (Option.isSome_of_eq_some hn)]
    rfl

/-- A path under which something other than a link has been made leads to it. -/
theorem resolve_created {dirOk : Bool} (h : fs.vacant p dirOk = .ok (d, x))
    (hlink : m.kind ≠ .symlink) (hdir : dirOk = true → m.kind = .dir) :
    (fs.created d x links m).resolve p = .ok fs.next := by
  have hf := free_of_vacant h
  have he : Extends fs (fs.created d x links m) := created_extends hf
  obtain ⟨hs, hsp, -, -, htr⟩ := vacant_eq_ok.mp h
  obtain ⟨hg, -, way, hway, hw, ⟨_, hr⟩⟩ := slot_eq_ok.mp ⟨hs, ne_nil_of_special hsp⟩
  obtain ⟨n, hn, -⟩ := dir_eq_ok.mp hr
  have hnew : (fs.created d x links m).node fs.next = some m :=
    created_node (Option.isSome_of_eq_some hn)
  have hnotlink : (fs.created d x links m).linkTarget fs.next = none := by
    unfold linkTarget
    rw [hnew]
    cases hb : m.body <;> simp_all [Inode.kind, Body.kind]
  unfold resolve walkComps
  rw [hg, ok_bind, hway, List.append_assoc, he.root_eq]
  refine walk_append (walk_extends he hw) fun b => ?_
  refine walk_cons_eq_ok.mpr ⟨fs.next, created_child hf, .inl ⟨hnotlink, ?_⟩⟩
  by_cases htrail : trailing p = true
  · -- A slash at the end: one more step, to the new directory itself.
    have hkind : m.kind = .dir := by
      rcases htr with hd | ht
      · exact hdir hd
      · rw [htrail] at ht
        cases ht
    obtain ⟨parent, es, hb⟩ : ∃ parent es, m.body = .dir parent es := by
      cases hb : m.body <;> simp_all [Inode.kind, Body.kind]
    rw [if_pos htrail]
    refine walk_cons_eq_ok.mpr ⟨fs.next, ?_, .inl ⟨hnotlink, walk_nil⟩⟩
    exact child_eq_ok.mpr ⟨parent, es, dir_eq_ok.mpr ⟨m, hnew, hb⟩, by decide, by simp [pick],
      by rw [hnew]; rfl⟩
  · rw [if_neg htrail]
    exact walk_nil

/-- The same without following a link in the last place. -/
theorem lresolve_created (h : fs.vacant p false = .ok (d, x)) :
    (fs.created d x links m).lresolve p = .ok fs.next := by
  have hf := free_of_vacant h
  have he : Extends fs (fs.created d x links m) := created_extends hf
  obtain ⟨hs, hsp, -, -, htr⟩ := vacant_eq_ok.mp h
  obtain ⟨hg, -, way, hway, hw, -⟩ := slot_eq_ok.mp ⟨hs, ne_nil_of_special hsp⟩
  have htrail : ¬ trailing p = true := by simpa using htr
  have hcomps : walkComps p = way ++ [x] := by
    rw [walkComps, hway, if_neg htrail, List.append_nil]
  unfold lresolve
  rw [hg, ok_bind, hcomps]
  simp only [List.getLast?_append, List.getLast?_singleton, Option.some_or,
    List.dropLast_concat, he.root_eq, walk_extends he hw, ok_bind]
  exact created_child hf

end Created

end FS

end Posix
