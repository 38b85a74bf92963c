import NetworkFileSystem.Posix.Lookup

/-!
# Which names a call moves

`FS.child` after the calls that remove and move names: one name is gone, another one leads to
what was moved, and every other name leads where it led.  Only ordinary names are concerned; `..`
is no entry.

**`unlink_removed`**, **`rmdir_removed`** and **`rename_moved`** say so for the calls, in terms of
the slots they address.
-/

namespace Posix

open Effects

namespace FS

variable {fs fs' : FS} {p : CStr} {d e i j k : Ino} {x y : Name}

/-- An ordinary name is looked up among the entries. -/
theorem pick_of_special (h : special y = false) (parent : Ino) (es : List (Name × Ino)) :
    pick d parent es y = es.lookup y := by
  unfold special at h
  simp only [decide_eq_false_iff_not, not_or] at h
  rw [pick, if_neg h.2.1, if_neg h.2.2]

/-- A name in a directory is an entry that leads to an inode. -/
theorem child_eq_ok_of_special (h : special y = false) : fs.child d y = .ok k ↔
    ∃ parent es, fs.dir d = .ok (parent, es) ∧ y.length ≤ 255 ∧ es.lookup y = some k ∧
      (fs.node k).isSome := by
  rw [child_eq_ok]
  constructor
  · rintro ⟨parent, es, hd, hy, hp, hk⟩
    rw [pick_of_special h] at hp
    exact ⟨parent, es, hd, hy, hp, hk⟩
  · rintro ⟨parent, es, hd, hy, hp, hk⟩
    exact ⟨parent, es, hd, hy, by rwa [pick_of_special h], hk⟩

/-- Changing an inode makes none and removes none. -/
theorem modify_node_isSome (i k : Ino) (f : Inode → Inode) :
    ((fs.modify i f).node k).isSome = (fs.node k).isSome := by
  rw [modify_node]
  split <;> simp

/-- The entries of a directory after one inode has been rewritten. -/
theorem modify_dir_eq_ok {f : Inode → Inode} {parent : Ino} {es : List (Name × Ino)} :
    (fs.modify i f).dir d = .ok (parent, es) ↔ ∃ n, fs.node d = some n ∧
      (if d = i then f n else n).body = .dir parent es := by
  rw [dir_eq_ok]
  by_cases hd : d = i
  · subst hd
    simp [Option.map_eq_some_iff]
  · simp [modify_node_ne f hd, hd]

/-- Rewriting an inode without touching entries moves no name. -/
theorem modify_child (hf : ∀ n parent es, n.body = .dir parent es →
      ∃ parent', (f n).body = .dir parent' es)
    (hf' : ∀ n parent es, (f n).body = .dir parent es → ∃ parent', n.body = .dir parent' es)
    (hy : special y = false) :
    (fs.modify i f).child d y = .ok k ↔ fs.child d y = .ok k := by
  rw [child_eq_ok_of_special hy, child_eq_ok_of_special hy]
  simp only [modify_dir_eq_ok, modify_node_isSome]
  constructor
  · rintro ⟨parent, es, ⟨n, hn, hb⟩, hlen, hl, hk⟩
    by_cases hd : d = i
    · rw [if_pos hd] at hb
      obtain ⟨parent', hb'⟩ := hf' n _ _ hb
      exact ⟨parent', es, dir_eq_ok.mpr ⟨n, hn, hb'⟩, hlen, hl, hk⟩
    · rw [if_neg hd] at hb
      exact ⟨parent, es, dir_eq_ok.mpr ⟨n, hn, hb⟩, hlen, hl, hk⟩
  · rintro ⟨parent, es, hdir, hlen, hl, hk⟩
    obtain ⟨n, hn, hb⟩ := dir_eq_ok.mp hdir
    by_cases hd : d = i
    · obtain ⟨parent', hb'⟩ := hf n _ _ hb
      exact ⟨parent', es, ⟨n, hn, by rwa [if_pos hd]⟩, hlen, hl, hk⟩
    · exact ⟨parent, es, ⟨n, hn, by rwa [if_neg hd]⟩, hlen, hl, hk⟩

/-- Link counts do not change what a name leads to. -/
theorem setLinks_child {g : ℕ → ℕ} (hy : special y = false) :
    (fs.modify i (Inode.setLinks g)).child d y = .ok k ↔ fs.child d y = .ok k :=
  modify_child (fun _ parent _ h => ⟨parent, h⟩) (fun _ parent _ h => ⟨parent, h⟩) hy

/-- Nor does the parent, for an ordinary name. -/
theorem setParent_child (hy : special y = false) :
    (fs.modify i (Inode.setParent e)).child d y = .ok k ↔ fs.child d y = .ok k := by
  refine modify_child (fun n parent es h => ⟨e, by simp [Inode.setParent, h]⟩) ?_ hy
  intro n parent es h
  unfold Inode.setParent at h
  split at h
  · next parent' es' hb =>
    cases h
    exact ⟨parent', hb⟩
  · exact ⟨parent, h⟩

/-- The entries without one name. -/
theorem lookup_dropName {es : List (Name × Ino)} :
    (dropName x es).lookup y = if y = x then none else es.lookup y := by
  induction es with
  | nil => simp [dropName]
  | cons e es ih =>
      obtain ⟨z, i⟩ := e
      unfold dropName at ih ⊢
      by_cases hz : z = x
      · subst hz
        rw [List.filter_cons_of_neg (by simp), ih]
        by_cases hy : y = z
        · simp [hy]
        · simp [hy, List.lookup_cons, show (y == z) = false by simpa using hy]
      · rw [List.filter_cons_of_pos (by simpa using hz), List.lookup_cons, List.lookup_cons, ih]
        by_cases hy : y = z
        · subst hy
          simp [hz]
        · simp [show (y == z) = false by simpa using hy]

/-- A name that is removed leads nowhere; the others lead where they led. -/
theorem delEntry_child {links : ℕ → ℕ} (hy : special y = false) :
    (fs.delEntry d x links).child e y = .ok k ↔
      fs.child e y = .ok k ∧ ¬(e = d ∧ y = x) := by
  rw [child_eq_ok_of_special hy, child_eq_ok_of_special hy]
  simp only [delEntry, modify_dir_eq_ok, modify_node_isSome]
  constructor
  · rintro ⟨parent, es, ⟨n, hn, hb⟩, hlen, hl, hk⟩
    by_cases he : e = d
    · rw [if_pos he] at hb
      obtain ⟨es', hb', rfl⟩ := Inode.onEntries_body_eq_dir.mp hb
      rw [lookup_dropName] at hl
      split at hl
      · cases hl
      · next hyx =>
        exact ⟨⟨parent, es', dir_eq_ok.mpr ⟨n, hn, hb'⟩, hlen, hl, hk⟩, fun h => hyx h.2⟩
    · rw [if_neg he] at hb
      exact ⟨⟨parent, es, dir_eq_ok.mpr ⟨n, hn, hb⟩, hlen, hl, hk⟩, fun h => he h.1⟩
  · rintro ⟨⟨parent, es, hdir, hlen, hl, hk⟩, hne⟩
    obtain ⟨n, hn, hb⟩ := dir_eq_ok.mp hdir
    by_cases he : e = d
    · refine ⟨parent, dropName x es, ⟨n, hn, ?_⟩, hlen, ?_, hk⟩
      · rw [if_pos he]
        exact Inode.onEntries_body_eq_dir.mpr ⟨es, hb, rfl⟩
      · rw [lookup_dropName, if_neg fun h => hne ⟨he, h⟩, hl]
    · exact ⟨parent, es, ⟨n, hn, by rwa [if_neg he]⟩, hlen, hl, hk⟩

/-- A name that is added leads to its inode; the others lead where they led. -/
theorem addEntry_child {links : ℕ → ℕ} (hy : special y = false) (hd : ∃ r, fs.dir d = .ok r)
    (hx : x.length ≤ 255) (hi : (fs.node i).isSome) :
    (fs.addEntry d x i links).child e y = .ok k ↔
      (e = d ∧ y = x ∧ k = i) ∨ (¬(e = d ∧ y = x) ∧ fs.child e y = .ok k) := by
  rw [child_eq_ok_of_special hy, child_eq_ok_of_special hy]
  simp only [addEntry, modify_dir_eq_ok, modify_node_isSome]
  constructor
  · rintro ⟨parent, es, ⟨n, hn, hb⟩, hlen, hl, hk⟩
    by_cases he : e = d
    · rw [if_pos he] at hb
      obtain ⟨es', hb', rfl⟩ := Inode.onEntries_body_eq_dir.mp hb
      rw [List.lookup_cons] at hl
      by_cases hyx : y = x
      · rw [hyx, beq_self_eq_true] at hl
        exact .inl ⟨he, hyx, (Option.some.inj hl).symm⟩
      · rw [show (y == x) = false by simpa using hyx] at hl
        exact .inr ⟨fun h => hyx h.2, parent, es', dir_eq_ok.mpr ⟨n, hn, hb'⟩, hlen, hl, hk⟩
    · rw [if_neg he] at hb
      exact .inr ⟨fun h => he h.1, parent, es, dir_eq_ok.mpr ⟨n, hn, hb⟩, hlen, hl, hk⟩
  · rintro (⟨rfl, rfl, rfl⟩ | ⟨hne, parent, es, hdir, hlen, hl, hk⟩)
    · obtain ⟨⟨parent, es⟩, hr⟩ := hd
      obtain ⟨n, hn, hb⟩ := dir_eq_ok.mp hr
      refine ⟨parent, (y, k) :: es, ⟨n, hn, ?_⟩, hx, by simp, hi⟩
      rw [if_pos rfl]
      exact Inode.onEntries_body_eq_dir.mpr ⟨es, hb, rfl⟩
    · obtain ⟨n, hn, hb⟩ := dir_eq_ok.mp hdir
      by_cases he : e = d
      · refine ⟨parent, (x, i) :: es, ⟨n, hn, ?_⟩, hlen, ?_, hk⟩
        · rw [if_pos he]
          exact Inode.onEntries_body_eq_dir.mpr ⟨es, hb, rfl⟩
        · have hyx : y ≠ x := fun h => hne ⟨he, h⟩
          rw [List.lookup_cons, show (y == x) = false by simpa using hyx, hl]
      · exact ⟨parent, es, ⟨n, hn, by rwa [if_neg he]⟩, hlen, hl, hk⟩

/-! ## The calls -/

/-- The entry `x` of `d` is gone, and no other. -/
structure Removed (fs fs' : FS) (d : Ino) (x : Name) : Prop where
  root_eq : fs'.root = fs.root
  child_iff : ∀ e y k, special y = false →
    (fs'.child e y = .ok k ↔ fs.child e y = .ok k ∧ ¬(e = d ∧ y = x))

/-- The entry `x₁` of `d₁` is gone, the entry `x₂` of `d₂` leads to `i`, and nothing else has
moved. -/
structure Moved (fs fs' : FS) (d₁ : Ino) (x₁ : Name) (d₂ : Ino) (x₂ : Name) (i : Ino) : Prop where
  root_eq : fs'.root = fs.root
  child_iff : ∀ e y k, special y = false →
    (fs'.child e y = .ok k ↔ (e = d₂ ∧ y = x₂ ∧ k = i) ∨
      (¬(e = d₂ ∧ y = x₂) ∧ ¬(e = d₁ ∧ y = x₁) ∧ fs.child e y = .ok k))

/-- **`unlink`** takes away one name. -/
theorem unlink_removed (h : fs.unlink p = .ok fs') :
    ∃ d x i, fs.slot p = .ok (d, x) ∧ special x = false ∧ fs.child d x = .ok i ∧
      trailing p = false ∧ Removed fs fs' d x := by
  obtain ⟨d, x, i, hs, hx, hi, -, ht, rfl⟩ := unlink_eq_ok.mp h
  refine ⟨d, x, i, hs, hx, hi, ht, rfl, fun e y k hy => ?_⟩
  rw [setLinks_child hy, delEntry_child hy]

/-- **`rmdir`** takes away the name of an empty directory. -/
theorem rmdir_removed (h : fs.rmdir p = .ok fs') :
    ∃ d x i parent, fs.slot p = .ok (d, x) ∧ special x = false ∧ fs.child d x = .ok i ∧
      fs.dir i = .ok (parent, []) ∧ Removed fs fs' d x := by
  obtain ⟨d, x, i, parent, hs, hx, hi, hes, -, rfl⟩ := rmdir_eq_ok.mp h
  refine ⟨d, x, i, parent, hs, hx, hi, hes, rfl, fun e y k hy => ?_⟩
  rw [setLinks_child hy, delEntry_child hy]

/-- What a rename replaces loses its name. -/
theorem displace_removed : Removed fs (fs.displace d x j) d x where
  root_eq := by
    unfold displace
    split <;> rfl
  child_iff e y k hy := by
    unfold displace
    split <;> rw [setLinks_child hy, delEntry_child hy]

/-- A directory remains one. -/
theorem delEntry_isOk_dir {links : ℕ → ℕ} (h : ∃ r, fs.dir e = .ok r) :
    ∃ r, (fs.delEntry d x links).dir e = .ok r := by
  obtain ⟨⟨parent, es⟩, hr⟩ := h
  obtain ⟨n, hn, hb⟩ := dir_eq_ok.mp hr
  by_cases he : e = d
  · refine ⟨(parent, dropName x es), modify_dir_eq_ok.mpr ⟨n, hn, ?_⟩⟩
    rw [if_pos he]
    exact Inode.onEntries_body_eq_dir.mpr ⟨es, hb, rfl⟩
  · exact ⟨(parent, es), modify_dir_eq_ok.mpr ⟨n, hn, by rwa [if_neg he]⟩⟩

theorem delEntry_node_isSome {links : ℕ → ℕ} :
    ((fs.delEntry d x links).node k).isSome = (fs.node k).isSome := modify_node_isSome _ _ _

theorem setLinks_isOk_dir {g : ℕ → ℕ} (h : ∃ r, fs.dir e = .ok r) :
    ∃ r, (fs.modify i (Inode.setLinks g)).dir e = .ok r := by
  obtain ⟨⟨parent, es⟩, hr⟩ := h
  obtain ⟨n, hn, hb⟩ := dir_eq_ok.mp hr
  exact ⟨(parent, es), modify_dir_eq_ok.mpr ⟨n, hn, by split <;> exact hb⟩⟩

theorem displace_isOk_dir (h : ∃ r, fs.dir e = .ok r) : ∃ r, (fs.displace d x j).dir e = .ok r := by
  unfold displace
  split <;> exact setLinks_isOk_dir (delEntry_isOk_dir h)

theorem displace_node_isSome : ((fs.displace d x j).node k).isSome = (fs.node k).isSome := by
  unfold displace
  split <;> rw [modify_node_isSome, delEntry_node_isSome]

/-- **A rename** moves one name. -/
theorem moveEntry_moved {d₁ d₂ : Ino} {x₁ x₂ : Name} (hd : ∃ r, fs.dir d₂ = .ok r)
    (hx : x₂.length ≤ 255) (hi : (fs.node i).isSome) :
    Moved fs (fs.moveEntry d₁ x₁ d₂ x₂ i) d₁ x₁ d₂ x₂ i where
  root_eq := by
    unfold moveEntry
    split <;> rfl
  child_iff e y k hy := by
    have hmove : ∀ l₁ l₂ : ℕ → ℕ, ((fs.delEntry d₁ x₁ l₁).addEntry d₂ x₂ i l₂).child e y = .ok k ↔
        (e = d₂ ∧ y = x₂ ∧ k = i) ∨
          (¬(e = d₂ ∧ y = x₂) ∧ ¬(e = d₁ ∧ y = x₁) ∧ fs.child e y = .ok k) := by
      intro l₁ l₂
      rw [addEntry_child hy (delEntry_isOk_dir hd) hx (by rwa [delEntry_node_isSome]),
        delEntry_child hy]
      tauto
    unfold moveEntry
    split
    · rw [setParent_child hy, hmove]
    · exact hmove id id

/-- What gives its name to another inode holds no entries. -/
theorem replaceable_empty (h : fs.replaceable i j = .ok ()) (hy : special y = false) :
    fs.child j y ≠ .ok k := by
  intro hk
  obtain ⟨parent, es, hdir, -, hl, -⟩ := (child_eq_ok_of_special hy).mp hk
  unfold replaceable at h
  split at h
  · simp only [hdir, ok_bind, need_eq_ok] at h
    rw [h] at hl
    cases hl
  · obtain ⟨n, hn, hb⟩ := dir_eq_ok.mp hdir
    rw [need_eq_ok] at h
    have hd : fs.isDir j = true := isDir_iff.mpr ⟨n, hn, by simp [Inode.kind, hb, Body.kind]⟩
    rw [hd] at h
    cases h

/-- What a rename that succeeded has done to the names. -/
theorem rename_moved {old new : CStr} (h : fs.rename old new = .ok fs') :
    ∃ d₁ x₁ d₂ x₂ i, fs.slot old = .ok (d₁, x₁) ∧ fs.slot new = .ok (d₂, x₂) ∧
      special x₁ = false ∧ special x₂ = false ∧ fs.child d₁ x₁ = .ok i ∧
      ((fs.child d₂ x₂ = .ok i ∧ fs' = fs) ∨
        (fs.child d₂ x₂ ≠ .ok i ∧ Moved fs fs' d₁ x₁ d₂ x₂ i ∧
          ∀ j y k, fs.child d₂ x₂ = .ok j → special y = false → fs.child j y ≠ .ok k)) := by
  obtain ⟨d₁, x₁, d₂, x₂, i, h₁, h₂, hx₁, hx₂, hi, hlen, -, hcase⟩ := rename_eq_ok h
  refine ⟨d₁, x₁, d₂, x₂, i, h₁, h₂, hx₁, hx₂, hi, ?_⟩
  obtain ⟨-, -, way, -, -, hd₂⟩ := slot_eq_ok.mp ⟨h₂, ne_nil_of_special hx₂⟩
  have hsome : (fs.node i).isSome := isSome_of_child hi
  rcases hcase with ⟨hfree, rfl⟩ | ⟨hj, rfl⟩ | ⟨j, hj, hij, hrep, rfl⟩
  · have hnone : ∀ j, fs.child d₂ x₂ ≠ .ok j := by
      intro j hc
      rw [hc] at hfree
      cases hfree
    exact .inr ⟨hnone i, moveEntry_moved hd₂ hlen hsome, fun j _ _ hc => absurd hc (hnone j)⟩
  · exact .inl ⟨hj, rfl⟩
  · refine .inr ⟨fun hc => hij ?_, ?_, fun j' y k hj' hy => ?_⟩
    · simpa [hj] using hc.symm
    · -- The target goes first, then the entry moves.
      have hdis : Removed fs (fs.displace d₂ x₂ j) d₂ x₂ := displace_removed
      have hd : ∃ r, (fs.displace d₂ x₂ j).dir d₂ = .ok r := displace_isOk_dir hd₂
      have hs : ((fs.displace d₂ x₂ j).node i).isSome := by rwa [displace_node_isSome]
      have hmv : Moved _ (moveEntry _ d₁ x₁ d₂ x₂ i) d₁ x₁ d₂ x₂ i := moveEntry_moved hd hlen hs
      refine ⟨hmv.root_eq.trans hdis.root_eq, fun e y k hy => ?_⟩
      rw [hmv.child_iff e y k hy, hdis.child_iff e y k hy]
      tauto
    · obtain rfl : j = j' := by simpa [hj] using hj'
      exact replaceable_empty hrep hy

end FS

end Posix
