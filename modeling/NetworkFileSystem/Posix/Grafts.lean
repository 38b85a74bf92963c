import NetworkFileSystem.Posix.Subtree

/-!
# Calls keep the shape of a subtree

Every call that changes names gives at most one inode a new name.  `FS.Grafts` says so, and
**`Rooted.graft`** what the new name must be like for the tree below an entry of the root to keep
its shape.  The calls are instances of it: what they make is empty and knows its directory, what
they link is no directory, and what they move from below is told its new directory.
-/

namespace Posix

open Effects

namespace FS

variable {fs fs' fs₁ : FS} {top x y : Name} {d e i j k : Ino} {m : Inode} {f : Inode → Inode}
  {r : Ino × List (Name × Ino)} {links : ℕ → ℕ} {p q : CStr} {umask mode flags : UInt32}

/-! ## No entry leads nowhere -/

/-- Every entry leads to an inode as before when none is added. -/
theorem whole_modify (hW : fs.Whole) (hf : ∀ n parent es, (f n).body = .dir parent es →
      ∃ parent' es', n.body = .dir parent' es' ∧ es ⊆ es') : (fs.modify i f).Whole := by
  intro d r hr e he
  rw [modify_node_isSome]
  obtain ⟨n, hn, hb⟩ := modify_dir_eq_ok.mp hr
  split at hb
  · obtain ⟨parent', es', hb', hsub⟩ := hf n _ _ hb
    exact hW d (parent', es') (dir_eq_ok.mpr ⟨n, hn, hb'⟩) e (hsub he)
  · exact hW d r (dir_eq_ok.mpr ⟨n, hn, hb⟩) e he

/-- A name for an inode that is there. -/
theorem whole_addEntry (hW : fs.Whole) (hi : (fs.node i).isSome) :
    (fs.addEntry d x i links).Whole := by
  intro e r hr a ha
  rw [addEntry, modify_node_isSome]
  obtain ⟨n, hn, hb⟩ := modify_dir_eq_ok.mp hr
  split at hb
  · obtain ⟨es', hb', hes⟩ := Inode.onEntries_body_eq_dir.mp hb
    rw [hes, List.mem_cons] at ha
    rcases ha with rfl | ha
    · exact hi
    · exact hW e (r.1, es') (dir_eq_ok.mpr ⟨n, hn, hb'⟩) a ha
  · exact hW e r (dir_eq_ok.mpr ⟨n, hn, hb⟩) a ha

/-- A new inode has no entries yet. -/
theorem whole_alloc (hW : fs.Whole) (hm : ∀ parent es, m.body = .dir parent es → es = []) :
    (fs.alloc m).Whole := by
  intro d r hr e he
  obtain ⟨n, hn, hb⟩ := dir_eq_ok.mp hr
  rw [alloc_node] at hn
  split at hn
  · cases hn
    rw [hm _ _ hb] at he
    cases he
  · obtain ⟨n', hn'⟩ := Option.isSome_iff_exists.mp (hW d r (dir_eq_ok.mpr ⟨n, hn, hb⟩) e he)
    rw [alloc_node_of_some hn']
    rfl

/-- A name less. -/
theorem whole_delEntry (hW : fs.Whole) : (fs.delEntry d x links).Whole := by
  refine whole_modify hW fun n parent es hb => ?_
  obtain ⟨es', hb', rfl⟩ := Inode.onEntries_body_eq_dir.mp hb
  exact ⟨parent, es', hb', fun _ he => List.mem_of_mem_filter he⟩

theorem whole_setLinks (hW : fs.Whole) {g : ℕ → ℕ} : (fs.modify i (Inode.setLinks g)).Whole :=
  whole_modify hW fun _ parent es hb => ⟨parent, es, hb, List.Subset.refl es⟩

theorem whole_setParent (hW : fs.Whole) : (fs.modify i (Inode.setParent d)).Whole := by
  refine whole_modify hW fun n parent es hb => ?_
  unfold Inode.setParent at hb
  split at hb
  · next parent' es' hb' =>
    cases hb
    exact ⟨parent', es, hb', List.Subset.refl es⟩
  · exact ⟨parent, es, hb, List.Subset.refl es⟩

/-- What a rename replaces. -/
theorem whole_displace (hW : fs.Whole) : (fs.displace d x j).Whole := by
  unfold displace
  split <;> exact whole_setLinks (whole_delEntry hW)

/-- A name moves. -/
theorem whole_moveEntry {d₁ d₂ : Ino} {x₁ x₂ : Name} (hW : fs.Whole) (hi : (fs.node i).isSome) :
    (fs.moveEntry d₁ x₁ d₂ x₂ i).Whole := by
  have hadd : ∀ l₁ l₂ : ℕ → ℕ, ((fs.delEntry d₁ x₁ l₁).addEntry d₂ x₂ i l₂).Whole := by
    intro l₁ l₂
    exact whole_addEntry (whole_delEntry hW) (by rwa [delEntry_node_isSome])
  unfold moveEntry
  split
  · exact whole_setParent (hadd _ _)
  · exact hadd _ _

/-! ## Directories know where they are -/

/-- A directory that has not been moved was one before, in the same directory. -/
def SameParent (fs fs' : FS) (i : Ino) : Prop :=
  ∀ r', fs'.dir i = .ok r' → ∃ r, fs.dir i = .ok r ∧ r.1 = r'.1

/-- The parent is the same after two changes as before. -/
theorem SameParent.trans (h : SameParent fs fs₁ i) (h' : SameParent fs₁ fs' i) :
    SameParent fs fs' i := by
  intro r' hr'
  obtain ⟨r₁, hr₁, h₁⟩ := h' r' hr'
  obtain ⟨r, hr, h₀⟩ := h r₁ hr₁
  exact ⟨r, hr, h₀.trans h₁⟩

/-- A change that keeps what directories say of their parents. -/
theorem sameParent_modify (hf : ∀ n parent es, (f n).body = .dir parent es →
      ∃ es', n.body = .dir parent es') : SameParent fs (fs.modify j f) i := by
  intro r' hr'
  obtain ⟨n, hn, hb⟩ := modify_dir_eq_ok.mp hr'
  split at hb
  · obtain ⟨es', hb'⟩ := hf n _ _ hb
    exact ⟨(r'.1, es'), dir_eq_ok.mpr ⟨n, hn, hb'⟩, rfl⟩
  · exact ⟨r', dir_eq_ok.mpr ⟨n, hn, hb⟩, rfl⟩

/-- Entries are not parents. -/
theorem sameParent_onEntries {g : List (Name × Ino) → List (Name × Ino)} :
    SameParent fs (fs.modify j (Inode.onEntries g links)) i := by
  refine sameParent_modify fun n parent es hb => ?_
  obtain ⟨es', hb', -⟩ := Inode.onEntries_body_eq_dir.mp hb
  exact ⟨es', hb'⟩

theorem sameParent_setLinks {g : ℕ → ℕ} : SameParent fs (fs.modify j (Inode.setLinks g)) i :=
  sameParent_modify fun _ _ es hb => ⟨es, hb⟩

/-- A new inode changes the parent of no other. -/
theorem sameParent_alloc (hi : i ≠ fs.next) : SameParent fs (fs.alloc m) i := by
  intro r' hr'
  obtain ⟨n, hn, hb⟩ := dir_eq_ok.mp hr'
  rw [alloc_node_ne m hi] at hn
  exact ⟨r', dir_eq_ok.mpr ⟨n, hn, hb⟩, rfl⟩

/-- What a rename replaces keeps its parent. -/
theorem sameParent_displace : SameParent fs (fs.displace d x j) i := by
  unfold displace
  split <;> exact sameParent_onEntries.trans sameParent_setLinks

/-- What is moved is told its new directory. -/
theorem moveEntry_parent {d₁ d₂ : Ino} {x₁ x₂ : Name} {r' : Ino × List (Name × Ino)}
    (h : (fs.moveEntry d₁ x₁ d₂ x₂ i).dir k = .ok r') :
    (k = i → r'.1 = d₂ ∧ ∃ r, fs.dir i = .ok r) ∧
      (k ≠ i → ∃ r, fs.dir k = .ok r ∧ r.1 = r'.1) := by
  have hmoved : ∀ l₁ l₂ : ℕ → ℕ,
      SameParent fs ((fs.delEntry d₁ x₁ l₁).addEntry d₂ x₂ i l₂) k := by
    intro l₁ l₂
    exact sameParent_onEntries.trans sameParent_onEntries
  unfold moveEntry at h
  split at h
  · constructor
    · rintro rfl
      obtain ⟨n, hn, hb⟩ := modify_dir_eq_ok.mp h
      rw [if_pos rfl] at hb
      unfold Inode.setParent at hb
      split at hb
      · next parent es hes =>
        cases hb
        obtain ⟨r, hr, -⟩ := hmoved _ _ _ (dir_eq_ok.mpr ⟨n, hn, hes⟩)
        exact ⟨rfl, r, hr⟩
      · next hno => exact absurd hb (hno _ _)
    · intro hk
      have hdir : ((fs.delEntry d₁ x₁ (· - 1)).addEntry d₂ x₂ i (· + 1)).dir k = .ok r' := by
        simpa only [dir, modify_node_ne _ hk] using h
      exact hmoved _ _ _ hdir
  · next hdir =>
    have hk := hmoved _ _ _ h
    refine ⟨?_, fun _ => hk⟩
    rintro rfl
    obtain ⟨r, hr, -⟩ := hk
    obtain ⟨n, hn, hb⟩ := dir_eq_ok.mp hr
    exact absurd (isDir_iff.mpr ⟨n, hn, by simp [Inode.kind, hb, Body.kind]⟩) hdir

/-! ## One new name -/

/-- Names are gone or lead where they led, but for the name `x` of `d`, which may lead to `k`. -/
structure Grafts (fs fs' : FS) (d : Ino) (x : Name) (k : Ino) : Prop where
  root_eq : fs'.root = fs.root
  child : ∀ e y i, special y = false → fs'.child e y = .ok i →
    (e = d ∧ y = x ∧ i = k) ∨ fs.child e y = .ok i
  link_eq : ∀ i, (fs.node i).isSome → fs'.linkTarget i = fs.linkTarget i
  parent : ∀ i, i ≠ k → SameParent fs fs' i

/-- What can be named without harm: it is below already or nothing has a name in it, it is no link
in the place of the entry, and a directory knows its new place, where it has no other name. -/
structure Fitting (fs fs' : FS) (top : Name) (d : Ino) (x : Name) (k : Ino) : Prop where
  below : Below fs top k ∨ ∀ y i, special y = false → fs'.child k y ≠ .ok i
  entry : d = fs.root → x = top → fs'.child d x = .ok k → fs'.linkTarget k = none
  alone : ∀ r', fs'.dir k = .ok r' → r'.1 = d ∧ ∀ e y, Below fs top e → special y = false →
    fs'.child e y = .ok k → e = d ∧ y = x

/-- What is below after a new name has been given. -/
theorem Grafts.below (h : Grafts fs fs' d x k) (htop : special top = false)
    (hk : Below fs top k ∨ ∀ y i, special y = false → fs'.child k y ≠ .ok i)
    (hi : Below fs' top i) : Below fs top i ∨ i = k := by
  induction hi with
  | entry hc =>
      rw [h.root_eq] at hc
      rcases h.child _ _ _ htop hc with ⟨-, -, rfl⟩ | hc
      · exact .inr rfl
      · exact .inl (.entry hc)
  | @child e i y _ hy hc ih =>
      rcases h.child _ _ _ hy hc with ⟨-, -, rfl⟩ | hc'
      · exact .inr rfl
      · rcases ih with he | rfl
        · exact .inl (.child he hy hc')
        · rcases hk with hk | hk
          · exact .inl (.child hk hy hc')
          · exact absurd hc (hk y i hy)

/-- **One new name keeps the shape.** -/
theorem Rooted.graft (hR : fs.Rooted top) (htop : special top = false)
    (h : Grafts fs fs' d x k) (hk : Fitting fs fs' top d x k) (hW : fs'.Whole) :
    fs'.Rooted top := by
  -- Names below are names of inodes that were below.
  have hbelow : ∀ e y i, Below fs' top e → special y = false → fs'.child e y = .ok i →
      Below fs top e := by
    intro e y i he hy hc
    rcases h.below htop hk.below he with he | rfl
    · exact he
    · rcases hk.below with hk | hno
      · exact hk
      · exact absurd hc (hno y i hy)
  refine ⟨hW, ?_, ?_, ?_⟩
  · intro i hc
    rw [h.root_eq] at hc
    rcases h.child _ _ _ htop hc with ⟨hd, hx, rfl⟩ | hold
    · exact hk.entry hd.symm hx.symm (by rwa [← hd, ← hx])
    · rw [h.link_eq i (isSome_of_child hold)]
      exact hR.entry i hold
  · intro e y i r' he hy hc hr'
    have he' := hbelow e y i he hy hc
    by_cases hik : i = k
    · subst hik
      obtain ⟨hparent, hname⟩ := hk.alone r' hr'
      rw [hparent, (hname e y he' hy hc).1]
    · rcases h.child e y i hy hc with ⟨-, -, rfl⟩ | hc
      · exact absurd rfl hik
      · obtain ⟨r, hr, hrr'⟩ := h.parent i hik r' hr'
        rw [← hrr']
        exact hR.parent e y i r he' hy hc hr
  · intro e y z i r' he hy hz hcy hcz hr'
    have he' := hbelow e y i he hy hcy
    by_cases hik : i = k
    · subst hik
      obtain ⟨-, hname⟩ := hk.alone r' hr'
      rw [(hname e y he' hy hcy).2, (hname e z he' hz hcz).2]
    · rcases h.child e y i hy hcy with ⟨-, -, rfl⟩ | hcy
      · exact absurd rfl hik
      rcases h.child e z i hz hcz with ⟨-, -, rfl⟩ | hcz
      · exact absurd rfl hik
      obtain ⟨r, hr, -⟩ := h.parent i hik r' hr'
      exact hR.single e y z i r he' hy hz hcy hcz hr

/-! ## The calls -/

/-- What is below stays so in a tree with more entries. -/
theorem Below.of_extends (h : Extends fs fs') (hi : Below fs top i) : Below fs' top i := by
  induction hi with
  | entry hc => exact .entry (h.root_eq.symm ▸ h.child_eq _ _ _ hc)
  | child _ hx hc ih => exact .child ih hx (h.child_eq _ _ _ hc)

/-- The same names are no fewer names. -/
theorem SameNames.extends (h : SameNames fs fs') : Extends fs fs' where
  root_eq := h.root_eq
  child_eq d x i hc := by rw [h.child_eq, hc]
  link_eq i _ := h.link_eq i

theorem SameNames.refl : SameNames fs fs :=
  ⟨rfl, fun _ => rfl, fun _ => rfl, fun _ => rfl⟩

/-- The same names, from the other side. -/
theorem SameNames.symm (h : SameNames fs fs') : SameNames fs' fs where
  root_eq := h.root_eq.symm
  dir_eq d := (h.dir_eq d).symm
  link_eq i := (h.link_eq i).symm
  some_eq i := (h.some_eq i).symm

/-- A change that moves no name keeps the shape of the tree. -/
theorem Rooted.of_sameNames (hR : fs.Rooted top) (h : SameNames fs fs') : fs'.Rooted top where
  whole d r hr e he := by
    rw [h.dir_eq] at hr
    rw [h.some_eq]
    exact hR.whole d r hr e he
  entry i hc := by
    rw [h.root_eq, h.child_eq] at hc
    rw [h.link_eq]
    exact hR.entry i hc
  parent d x i r hd hx hc hr := by
    rw [h.child_eq] at hc
    rw [h.dir_eq] at hr
    exact hR.parent d x i r (hd.of_extends h.symm.extends) hx hc hr
  single d x y i r hd hx hy hcx hcy hr := by
    rw [h.child_eq] at hcx hcy
    rw [h.dir_eq] at hr
    exact hR.single d x y i r (hd.of_extends h.symm.extends) hx hy hcx hcy hr

/-- Without the entry nothing is below. -/
theorem Rooted.of_absent (hW : fs.Whole) (h : ∀ i, fs.child fs.root top ≠ .ok i) :
    fs.Rooted top := by
  have hno : ∀ i, ¬ Below fs top i := by
    intro i hi
    induction hi with
    | entry hc => exact h _ hc
    | child _ _ _ ih => exact ih
  exact ⟨hW, fun i hc => absurd hc (h i), fun d _ _ _ hd => absurd hd (hno d),
    fun d _ _ _ _ hd => absurd hd (hno d)⟩

/-- If anything is below, the top entry is there. -/
theorem Below.exists_entry (h : Below fs top i) : ∃ j, fs.child fs.root top = .ok j := by
  induction h with
  | entry hc => exact ⟨_, hc⟩
  | child _ _ _ ih => exact ih

/-- What is below is the entry itself, or the entry has names in it. -/
theorem Below.first (h : Below fs top i) (hj : fs.child fs.root top = .ok j) :
    i = j ∨ ∃ y k, special y = false ∧ fs.child j y = .ok k := by
  induction h with
  | entry hc => exact .inl (Except.ok.inj (hc.symm.trans hj))
  | child _ hx hc ih =>
      rcases ih with rfl | hfirst
      · exact .inr ⟨_, _, hx, hc⟩
      · exact .inr hfirst

/-! ### Making names -/

/-- A new inode that holds no entries is no way to a name. -/
theorem child_of_alloc (hW : fs.Whole) (hm : ∀ parent es, m.body = .dir parent es → es = [])
    (hy : special y = false) (hc : (fs.alloc m).child e y = .ok i) : fs.child e y = .ok i := by
  obtain ⟨parent, es, hes, hlen, hl, -⟩ := (child_eq_ok_of_special hy).mp hc
  obtain ⟨n, hn, hb⟩ := dir_eq_ok.mp hes
  rw [alloc_node] at hn
  split at hn
  · cases hn
    rw [hm _ _ hb] at hl
    cases hl
  · have hes' := dir_eq_ok.mpr ⟨n, hn, hb⟩
    obtain ⟨l₁, l₂, rfl, -⟩ := List.lookup_eq_some_iff.mp hl
    exact (child_eq_ok_of_special hy).mpr
      ⟨parent, _, hes', hlen, hl, hW e _ hes' (y, i) (by simp)⟩

/-- Making an inode makes one name. -/
theorem grafts_created (hW : fs.Whole) (hf : fs.Free d x)
    (hm : ∀ parent es, m.body = .dir parent es → es = []) :
    Grafts fs (fs.created d x links m) d x fs.next where
  root_eq := rfl
  child e y i hy hc := by
    obtain ⟨r, hr⟩ := hf.isDir
    obtain ⟨n, hn, hb⟩ := dir_eq_ok.mp hr
    have hdir : (fs.alloc m).dir d = .ok r := dir_eq_ok.mpr ⟨n, alloc_node_of_some hn, hb⟩
    rw [created, addEntry_child hy ⟨r, hdir⟩ hf.short (by simp)] at hc
    rcases hc with hnew | ⟨-, hc⟩
    · exact .inl hnew
    · exact .inr (child_of_alloc hW hm hy hc)
  link_eq i hi := link_of_persists (persists_created stable_target links m) hi
  parent i hi := (sameParent_alloc hi).trans sameParent_onEntries

/-- A new inode: an empty directory that knows where it is, or no directory at all. -/
theorem Rooted.created (hR : fs.Rooted top) (htop : special top = false) (hf : fs.Free d x)
    (hm : ∀ parent es, m.body = .dir parent es → parent = d ∧ es = [])
    (hentry : d = fs.root → x = top → m.kind ≠ .symlink) :
    (fs.created d x links m).Rooted top := by
  obtain ⟨r, hr⟩ := hf.isDir
  obtain ⟨n, hn, -⟩ := dir_eq_ok.mp hr
  have hnew : (fs.created d x links m).node fs.next = some m :=
    created_node (Option.isSome_of_eq_some hn)
  have hempty : ∀ parent es, m.body = .dir parent es → es = [] := fun _ _ hb => (hm _ _ hb).2
  have hgraft := @grafts_created fs x d m links hR.whole hf hempty
  have hbody : ∀ r', (fs.created d x links m).dir fs.next = .ok r' → m.body = .dir r'.1 r'.2 := by
    intro r' hr'
    obtain ⟨n', hn', hb⟩ := dir_eq_ok.mp hr'
    obtain rfl := Option.some.inj (hnew.symm.trans hn')
    exact hb
  refine hR.graft htop hgraft ⟨.inr fun y i hy hc => ?_, fun hd hx _ => ?_, fun r' hr' => ?_⟩ ?_
  · obtain ⟨parent, es, hes, -, hl, -⟩ := (child_eq_ok_of_special hy).mp hc
    have hnil : es = [] := hempty _ _ (hbody (parent, es) hes)
    rw [hnil] at hl
    cases hl
  · unfold linkTarget
    rw [hnew]
    have hkind := hentry hd hx
    cases hb : m.body with
    | symlink t => exact absurd (by simp [Inode.kind, hb, Body.kind]) hkind
    | _ => simp [hb]
  · refine ⟨(hm _ _ (hbody r' hr')).1, fun e y _ hy hc => ?_⟩
    rcases hgraft.child e y _ hy hc with ⟨rfl, rfl, -⟩ | hc
    · exact ⟨rfl, rfl⟩
    · have hsome := isSome_of_child hc
      simp at hsome
  · exact whole_addEntry (whole_alloc hR.whole hempty) (by simp)

/-- What has been made under a name below is below. -/
theorem below_created (htop : special top = false) (hf : fs.Free d x)
    (hd : Inward fs top d [x]) : Below (fs.created d x links m) top fs.next := by
  have hext : Extends fs (fs.created d x links m) := created_extends hf
  rcases hd with hd | ⟨rfl, hx⟩
  · exact .child (hd.of_extends hext) hf.notSpecial (created_child hf)
  · rcases (enters_cons htop).mp hx with rfl | ⟨rfl, -⟩
    · exact .entry (created_child hf)
    · cases hf.notSpecial

/-- A path leads to an inode that is there. -/
theorem isSome_of_lresolve (h : fs.lresolve p = .ok i) : (fs.node i).isSome := by
  obtain ⟨-, _, _, _, -, -, hc⟩ := lresolve_eq_ok.mp h
  exact isSome_of_child hc

/-- Linking makes one name. -/
theorem grafts_link (hf : fs.Free d x) (hi : (fs.node i).isSome) {g : ℕ → ℕ} :
    Grafts fs ((fs.addEntry d x i links).modify i (Inode.setLinks g)) d x i where
  root_eq := rfl
  child e y k hy hk := by
    rw [setLinks_child hy, addEntry_child hy hf.isDir hf.short hi] at hk
    rcases hk with hnew | ⟨-, hk⟩
    · exact .inl hnew
    · exact .inr hk
  link_eq _ hk := link_of_persists ((persists_addEntry stable_target links).modify stable_target i
    fun n => stable_target.links n g) hk
  parent _ _ := sameParent_onEntries.trans sameParent_setLinks

/-- A second name for something that is no directory. -/
theorem Rooted.link (hR : fs.Rooted top) (htop : special top = false)
    (h : fs.link p q = .ok fs') (hold : ∀ i, fs.lresolve p = .ok i → Below fs top i) :
    fs'.Rooted top := by
  obtain ⟨i, d, x, hi, hv, hdir, rfl⟩ := link_eq_ok.mp h
  have hf := free_of_vacant hv
  have hbelow := hold i hi
  have hsome := isSome_of_lresolve hi
  refine hR.graft htop (grafts_link hf hsome) ⟨.inl hbelow, ?_, ?_⟩ ?_
  · rintro rfl rfl -
    obtain ⟨j, hj⟩ := hbelow.exists_entry
    have hfree := hf.free
    rw [hj] at hfree
    cases hfree
  · intro r' hr'
    obtain ⟨r, hr, -⟩ := (sameParent_onEntries.trans sameParent_setLinks :
      SameParent fs ((fs.addEntry d x i id).modify i (Inode.setLinks (· + 1))) i) r' hr'
    obtain ⟨n, hn, hb⟩ := dir_eq_ok.mp hr
    rw [isDir_iff.mpr ⟨n, hn, by simp [Inode.kind, hb, Body.kind]⟩] at hdir
    cases hdir
  · exact whole_setLinks (whole_addEntry hR.whole hsome)

/-! ### Removing names -/

/-- Taking a name away makes none. -/
theorem delEntry_child_old {g : ℕ → ℕ} (hy : special y = false)
    (h : ((fs.delEntry d x links).modify i (Inode.setLinks g)).child e y = .ok k) :
    fs.child e y = .ok k := by
  rw [setLinks_child hy, delEntry_child hy] at h
  exact h.1

/-- Taking a name away puts nothing anywhere. -/
theorem grafts_delEntry {g : ℕ → ℕ} :
    Grafts fs ((fs.delEntry d x links).modify i (Inode.setLinks g)) d x j where
  root_eq := rfl
  child _ _ _ hy hk := .inr (delEntry_child_old hy hk)
  link_eq _ hk := link_of_persists ((persists_delEntry stable_target links).modify stable_target i
    fun n => stable_target.links n g) hk
  parent _ _ := sameParent_onEntries.trans sameParent_setLinks

/-- A name less. -/
theorem Rooted.delEntry {g : ℕ → ℕ} (hR : fs.Rooted top) (htop : special top = false) :
    ((fs.delEntry d x links).modify i (Inode.setLinks g)).Rooted top := by
  -- No name is new: it would lead to an inode that is not there.
  have hgraft : Grafts fs ((fs.delEntry d x links).modify i (Inode.setLinks g)) d x fs.next :=
    grafts_delEntry
  have hnone : ∀ r',
      ((fs.delEntry d x links).modify i (Inode.setLinks g)).dir fs.next ≠ .ok r' := by
    intro r' hr'
    obtain ⟨r, hr, -⟩ := (sameParent_onEntries.trans sameParent_setLinks :
      SameParent fs ((fs.delEntry d x links).modify i (Inode.setLinks g)) fs.next) r' hr'
    obtain ⟨n, hn, -⟩ := dir_eq_ok.mp hr
    simp at hn
  refine hR.graft htop hgraft ⟨.inr fun y k hy hk => ?_, fun hd hx hk => ?_,
    fun r' hr' => absurd hr' (hnone r')⟩ (whole_setLinks (whole_delEntry hR.whole))
  · obtain ⟨_, _, hdir, -⟩ := child_eq_ok.mp hk
    exact hnone _ hdir
  · have hsome := isSome_of_child (delEntry_child_old (hx ▸ htop) hk)
    simp at hsome

/-- `unlink` keeps the shape of the tree. -/
theorem Rooted.unlink (hR : fs.Rooted top) (htop : special top = false)
    (h : fs.unlink p = .ok fs') : fs'.Rooted top := by
  obtain ⟨d, x, i, -, -, -, -, -, rfl⟩ := unlink_eq_ok.mp h
  exact hR.delEntry htop

/-- So does `rmdir`. -/
theorem Rooted.rmdir (hR : fs.Rooted top) (htop : special top = false)
    (h : fs.rmdir p = .ok fs') : fs'.Rooted top := by
  obtain ⟨d, x, i, parent, -, -, -, -, -, rfl⟩ := rmdir_eq_ok.mp h
  exact hR.delEntry htop

/-! ### Moving names -/

/-- What a rename that moved something has done. -/
structure Renaming (fs fs' : FS) (d₁ : Ino) (x₁ : Name) (d₂ : Ino) (x₂ : Name) (i : Ino) :
    Prop where
  ordinary : special x₁ = false ∧ special x₂ = false
  source : fs.child d₁ x₁ = .ok i
  target : fs.child d₂ x₂ ≠ .ok i
  empty : ∀ j y k, fs.child d₂ x₂ = .ok j → special y = false → fs.child j y ≠ .ok k
  moved : Moved fs fs' d₁ x₁ d₂ x₂ i
  link_eq : ∀ k, (fs.node k).isSome → fs'.linkTarget k = fs.linkTarget k
  /-- What is moved knows its new directory, and nothing else has another one. -/
  parent : ∀ k r', fs'.dir k = .ok r' → (k = i → r'.1 = d₂ ∧ ∃ r, fs.dir i = .ok r) ∧
    (k ≠ i → ∃ r, fs.dir k = .ok r ∧ r.1 = r'.1)
  whole : fs.Whole → fs'.Whole
  node_eq : ∀ k, k ≠ d₁ → k ≠ d₂ → k ≠ i → fs.child d₂ x₂ ≠ .ok k → fs'.node k = fs.node k

/-- A move leaves every other inode alone. -/
theorem moveEntry_node_ne {d₁ d₂ : Ino} {x₁ x₂ : Name} (h₁ : k ≠ d₁) (h₂ : k ≠ d₂) (hi : k ≠ i) :
    (fs.moveEntry d₁ x₁ d₂ x₂ i).node k = fs.node k := by
  unfold moveEntry addEntry delEntry
  split
  · rw [modify_node_ne _ hi, modify_node_ne _ h₂, modify_node_ne _ h₁]
  · rw [modify_node_ne _ h₂, modify_node_ne _ h₁]

/-- So does the replacement of an entry. -/
theorem displace_node_ne (hd : k ≠ d) (hj : k ≠ j) : (fs.displace d x j).node k = fs.node k := by
  unfold displace delEntry
  split <;> rw [modify_node_ne _ hj, modify_node_ne _ hd]

/-- **`rename`** changes nothing, or moves one entry. -/
theorem rename_renaming (h : fs.rename p q = .ok fs') : fs' = fs ∨ ∃ d₁ x₁ d₂ x₂ i,
    fs.slot p = .ok (d₁, x₁) ∧ fs.slot q = .ok (d₂, x₂) ∧ Renaming fs fs' d₁ x₁ d₂ x₂ i := by
  obtain ⟨d₁, x₁, d₂, x₂, i, h₁, h₂, hx₁, hx₂, hi, hcase⟩ := rename_moved h
  rcases hcase with ⟨-, rfl⟩ | ⟨hne, hmoved, hempty⟩
  · exact .inl rfl
  obtain ⟨d₁', x₁', d₂', x₂', i', h₁', h₂', -, -, hi', -, -, hdone⟩ := rename_eq_ok h
  obtain ⟨rfl, rfl⟩ : d₁ = d₁' ∧ x₁ = x₁' := by simpa [h₁] using h₁'
  obtain ⟨rfl, rfl⟩ : d₂ = d₂' ∧ x₂ = x₂' := by simpa [h₂] using h₂'
  obtain rfl : i = i' := by simpa [hi] using hi'
  have hsome := isSome_of_child hi
  have hlink : ∀ k, (fs.node k).isSome → fs'.linkTarget k = fs.linkTarget k :=
    fun k hk => link_of_persists (persists_rename stable_target h) hk
  refine .inr ⟨d₁, x₁, d₂, x₂, i, h₁, h₂, ?_⟩
  rcases hdone with ⟨-, rfl⟩ | ⟨hsame, -⟩ | ⟨j, hj, -, -, rfl⟩
  · exact ⟨⟨hx₁, hx₂⟩, hi, hne, hempty, hmoved, hlink, fun k r' hr' => moveEntry_parent hr',
      fun hW => whole_moveEntry hW hsome, fun k hk₁ hk₂ hki _ => moveEntry_node_ne hk₁ hk₂ hki⟩
  · exact absurd hsame hne
  · refine ⟨⟨hx₁, hx₂⟩, hi, hne, hempty, hmoved, hlink,
      fun k r' hr' => ⟨fun hk => ?_, fun hk => ?_⟩,
      fun hW => whole_moveEntry (whole_displace hW) (by rwa [displace_node_isSome]),
      fun k hk₁ hk₂ hki hkj => ?_⟩
    · obtain ⟨hd, r, hr⟩ := (moveEntry_parent hr').1 hk
      obtain ⟨r₀, hr₀, -⟩ := sameParent_displace r hr
      exact ⟨hd, r₀, hr₀⟩
    · obtain ⟨r, hr, hrr'⟩ := (moveEntry_parent hr').2 hk
      obtain ⟨r₀, hr₀, hr₀r⟩ := sameParent_displace r hr
      exact ⟨r₀, hr₀, hr₀r.trans hrr'⟩
    · have hne : k ≠ j := by
        rintro rfl
        exact hkj hj
      rw [moveEntry_node_ne hk₁ hk₂ hki, displace_node_ne hk₂ hne]

section

variable {d₁ d₂ : Ino} {x₁ x₂ : Name}

/-- A move puts one inode under one name. -/
theorem Renaming.grafts (h : Renaming fs fs' d₁ x₁ d₂ x₂ i) : Grafts fs fs' d₂ x₂ i where
  root_eq := h.moved.root_eq
  child e y k hy hk := by
    rcases (h.moved.child_iff e y k hy).mp hk with hnew | ⟨-, -, hk⟩
    · exact .inl hnew
    · exact .inr hk
  link_eq := h.link_eq
  parent k hk r' hr' := (h.parent k r' hr').2 hk

/-- What is moved from below is below. -/
theorem Inward.child (htop : special top = false) (h : Inward fs top d [x])
    (hx : special x = false) (hc : fs.child d x = .ok i) : Below fs top i := by
  rcases h with hd | ⟨rfl, hx'⟩
  · exact .child hd hx hc
  · rcases (enters_cons htop).mp hx' with rfl | ⟨rfl, -⟩
    · exact .entry hc
    · cases hx

/-- Moving something that was below, wherever it goes. -/
theorem Renaming.rooted (h : Renaming fs fs' d₁ x₁ d₂ x₂ i) (hR : fs.Rooted top)
    (htop : special top = false) (hold : Inward fs top d₁ [x₁]) : fs'.Rooted top := by
  have hbelow : Below fs top i := hold.child htop h.ordinary.1 h.source
  -- The new name is not the entry's: that leads to `i` or to something with `i` below it.
  have htarget : ¬(d₂ = fs.root ∧ x₂ = top) := by
    rintro ⟨rfl, rfl⟩
    obtain ⟨j, hj⟩ := hbelow.exists_entry
    rcases hbelow.first hj with rfl | ⟨y, k, hy, hk⟩
    · exact h.target hj
    · exact h.empty j y k hj hy hk
  by_cases hentry : d₁ = fs.root ∧ x₁ = top
  · refine Rooted.of_absent (h.whole hR.whole) fun k hk => ?_
    rw [h.moved.root_eq, h.moved.child_iff _ _ _ htop] at hk
    rcases hk with ⟨hd, hx, -⟩ | ⟨-, hgone, -⟩
    · exact htarget ⟨hd.symm, hx.symm⟩
    · exact hgone ⟨hentry.1.symm, hentry.2.symm⟩
  have hd₁ : Below fs top d₁ := by
    rcases hold with hd | ⟨hd, hx⟩
    · exact hd
    · rcases (enters_cons htop).mp hx with hx | ⟨hx, -⟩
      · exact absurd ⟨hd, hx⟩ hentry
      · exact absurd h.ordinary.1 (by rw [hx]; decide)
  refine hR.graft htop h.grafts ⟨.inl hbelow, fun hd hx _ => absurd ⟨hd, hx⟩ htarget, ?_⟩
    (h.whole hR.whole)
  intro r' hr'
  obtain ⟨hd₂, r, hr⟩ := (h.parent i r' hr').1 rfl
  refine ⟨hd₂, fun e y he hy hk => ?_⟩
  rcases (h.moved.child_iff e y i hy).mp hk with ⟨hed, hyx, -⟩ | ⟨-, hgone, hk⟩
  · exact ⟨hed, hyx⟩
  · -- A directory has one name below, and that one is gone.
    have he' := hR.parent e y i r he hy hk hr
    obtain rfl : d₁ = e := (hR.parent d₁ x₁ i r hd₁ h.ordinary.1 h.source hr).symm.trans he'
    exact absurd ⟨rfl, hR.single d₁ y x₁ i r he hy h.ordinary.1 hk h.source hr⟩ hgone

end

/-- `rename` keeps the shape of the tree when what it moves comes from below. -/
theorem Rooted.rename (hR : fs.Rooted top) (htop : special top = false)
    (h : fs.rename p q = .ok fs')
    (hold : ∀ d x, fs.slot p = .ok (d, x) → special x = false → Inward fs top d [x]) :
    fs'.Rooted top := by
  rcases rename_renaming h with rfl | ⟨d₁, x₁, d₂, x₂, i, h₁, -, hmove⟩
  · exact hR
  · exact hmove.rooted hR htop (hold d₁ x₁ h₁ hmove.ordinary.1)

/-! ### Opening -/

theorem body_of_reg (h : m.kind = .reg) : ∃ data, m.body = .reg data := by
  unfold Inode.kind at h
  cases hb : m.body with
  | reg data => exact ⟨data, rfl⟩
  | _ => simp [hb, Body.kind] at h

/-- Rewriting a file. -/
theorem sameNames_setData {n : Inode} (hn : fs.node i = some n) (hreg : n.kind = .reg)
    (data : List UInt8) : SameNames fs (fs.modify i (Inode.setData data)) := by
  refine sameNames_modify fun n' hn' => .inr ?_
  obtain rfl : n = n' := by simpa [hn] using hn'
  obtain ⟨data', hd⟩ := body_of_reg hreg
  exact ⟨data', data, hd, rfl⟩

/-- A file without a name makes none. -/
theorem grafts_alloc (hW : fs.Whole) (hm : m.kind = .reg) :
    Grafts fs (fs.alloc m) fs.next x fs.next where
  root_eq := rfl
  child e y k hy hk := by
    refine .inr (child_of_alloc hW (fun parent es hb => ?_) hy hk)
    simp [Inode.kind, hb, Body.kind] at hm
  link_eq _ hk := link_of_persists (persists_alloc stable_target.refl m) hk
  parent _ hk := sameParent_alloc hk

/-- There are no names in it either. -/
theorem alloc_child_next (hm : m.kind = .reg) : (fs.alloc m).child fs.next y ≠ .ok k := by
  intro hk
  obtain ⟨_, _, hdir, -⟩ := child_eq_ok.mp hk
  obtain ⟨n, hn, hb⟩ := dir_eq_ok.mp hdir
  rw [alloc_node_next] at hn
  cases hn
  simp [Inode.kind, hb, Body.kind] at hm

/-- So does a new file. -/
theorem Rooted.alloc (hR : fs.Rooted top) (htop : special top = false) (hm : m.kind = .reg) :
    (fs.alloc m).Rooted top := by
  have hgraft : Grafts fs (fs.alloc m) fs.next top fs.next := grafts_alloc hR.whole hm
  refine hR.graft htop hgraft ⟨.inr fun _ _ _ => alloc_child_next hm,
    fun _ _ hk => absurd hk (alloc_child_next hm), fun r' hr' => ?_⟩
    (whole_alloc hR.whole fun parent es hb => ?_)
  · obtain ⟨n, hn, hb⟩ := dir_eq_ok.mp hr'
    rw [alloc_node_next] at hn
    cases hn
    simp [Inode.kind, hb, Body.kind] at hm
  · simp [Inode.kind, hb, Body.kind] at hm

/-- No name has moved, and one inode at most has been rewritten. -/
structure Rewritten (fs fs' : FS) (i : Ino) : Prop where
  names : SameNames fs fs'
  node_eq : ∀ k, k ≠ i → fs'.node k = fs.node k

/-- Opening what is there changes a content at most. -/
theorem rewritten_openExisting (h : fs.openExisting flags i = .ok (k, fs')) :
    k = i ∧ Rewritten fs fs' i := by
  obtain ⟨rfl, n, hn, ⟨rfl, -⟩ | ⟨hreg, -, rfl⟩⟩ := openExisting_eq_ok h
  · exact ⟨rfl, SameNames.refl, fun _ _ => rfl⟩
  · exact ⟨rfl, sameNames_setData hn hreg [], fun _ hk => modify_node_ne _ hk⟩

/-- The last name of a path for `open`, which may follow a link there. -/
def LastName (fs : FS) (p : CStr) (flags : UInt32) (d : Ino) (x : Name) : Prop :=
  fs.slot p = .ok (d, x) ∨
    (followsLast flags = true ∧ fs.final maxSymlinks fs.root (components p) = .ok (d, x))

/-- Where `open` gets the inode from: a lookup, a new file without a name, or the last name of the
path, which it may make. -/
inductive Opening (fs : FS) (p : CStr) (flags : UInt32) (i : Ino) : FS → Prop
  | found {fs₂ : FS} (h : fs.lresolve p = .ok i ∨ (followsLast flags = true ∧ fs.resolve p = .ok i))
      (hs : Rewritten fs fs₂ i) : Opening fs p flags i fs₂
  | nameless (m : Inode) (hm : m.kind = .reg) (hi : i = fs.next) : Opening fs p flags i (fs.alloc m)
  | named {fs₂ : FS} (d : Ino) (x : Name) (h : fs.LastName p flags d x) (hx : special x = false)
      (hc : fs.child d x = .ok i) (hs : Rewritten fs fs₂ i) : Opening fs p flags i fs₂
  | made (d : Ino) (x : Name) (m : Inode) (h : fs.LastName p flags d x) (hf : fs.Free d x)
      (hm : m.kind = .reg) (hi : i = fs.next) : Opening fs p flags i (fs.created d x id m)

/-- **What `open` does**: it opens what is there, or makes a file. -/
theorem openAt_opening (h : fs.openAt umask p flags mode = .ok (i, fs')) :
    Opening fs p flags i fs' := by
  unfold openAt at h
  simp only at h
  have hborn : ∀ parent : Inode,
      (parent.born (.reg []) (mode &&& 0o7777 &&& ~~~umask)).kind = .reg := fun _ => rfl
  by_cases hp : hasBit flags O_PATH = true
  · have hfound : ∀ {k}, (if hasBit flags O_NOFOLLOW = true then fs.lresolve p
        else fs.resolve p) = .ok k →
          fs.lresolve p = .ok k ∨ (followsLast flags = true ∧ fs.resolve p = .ok k) := by
      intro k hk
      by_cases hno : hasBit flags O_NOFOLLOW = true
      · rw [if_pos hno] at hk
        exact .inl hk
      · rw [if_neg hno] at hk
        exact .inr ⟨by simp [followsLast, hno, hp], hk⟩
    rw [if_pos hp] at h
    simp only [bind_eq_ok, need_eq_ok, exists_const, pure_eq_ok, Prod.mk.injEq] at h
    obtain ⟨k, hk, -, rfl, rfl⟩ := h
    exact .found (hfound hk) ⟨SameNames.refl, fun _ _ => rfl⟩
  rw [if_neg hp] at h
  by_cases htmp : hasBit flags O_TMPFILE_BIT = true
  · rw [if_pos htmp] at h
    simp only [bind_eq_ok, need_eq_ok, orElse_eq_ok, exists_const, pure_eq_ok,
      Prod.mk.injEq] at h
    obtain ⟨-, -, -, -, -, parent, -, rfl, rfl⟩ := h
    exact .nameless _ (hborn parent) rfl
  rw [if_neg htmp] at h
  by_cases hcreat : hasBit flags O_CREAT = true
  · rw [if_pos hcreat] at h
    simp only [bind_eq_ok, need_eq_ok, exists_const] at h
    obtain ⟨-, -, -, -, h⟩ := h
    split at h
    · obtain ⟨d, x, parent, hv, -, rfl, rfl⟩ := create_eq_ok.mp h
      exact .made d x _ (.inl (vacant_eq_ok.mp hv).1) (free_of_vacant hv) (hborn parent) rfl
    · next hexcl =>
      simp only [openOrCreate, bind_eq_ok, need_eq_ok, exists_const, Prod.exists] at h
      obtain ⟨d, x, hs, hx, hlen, h⟩ := h
      have hslot : fs.LastName p flags d x := by
        unfold finalSlot at hs
        by_cases hno : hasBit flags O_NOFOLLOW = true
        · rw [if_pos hno] at hs
          exact .inl hs
        · rw [if_neg hno] at hs
          exact .inr ⟨by simp [followsLast, hno, hexcl], hs⟩
      split at h
      · next j hj =>
        obtain ⟨rfl, hsame⟩ := rewritten_openExisting h
        exact .named d x hslot hx hj hsame
      · next e he =>
        obtain ⟨parent, -, rfl, rfl⟩ := createAt_eq_ok.mp h
        have hdir : ∃ r, fs.dir d = .ok r := by
          rcases hslot with hs | ⟨-, hs⟩
          · obtain ⟨-, -, way, -, -, hr⟩ := slot_eq_ok.mp ⟨hs, ne_nil_of_special hx⟩
            exact hr
          · exact final_dir (ne_nil_of_special hx) hs
        exact .made d x _ hslot ⟨hdir, hx, hlen, by rw [he]; rfl⟩ (hborn parent) rfl
  · rw [if_neg hcreat] at h
    simp only [bind_eq_ok] at h
    obtain ⟨j, hj, h⟩ := h
    obtain ⟨rfl, hsame⟩ := rewritten_openExisting h
    refine .found ?_ hsame
    by_cases hno : hasBit flags O_NOFOLLOW = true
    · rw [if_pos hno] at hj
      exact .inl hj
    · rw [if_neg hno] at hj
      exact .inr ⟨by simp [followsLast, hno, hcreat], hj⟩

/-- `open` keeps the shape of the tree. -/
theorem Rooted.openAt (hR : fs.Rooted top) (htop : special top = false)
    (h : fs.openAt umask p flags mode = .ok (i, fs')) : fs'.Rooted top := by
  cases openAt_opening h with
  | found _ hs => exact hR.of_sameNames hs.names
  | nameless m hm => exact hR.alloc htop hm
  | named d x _ _ _ hs => exact hR.of_sameNames hs.names
  | made d x m _ hf hm =>
      refine hR.created htop hf (fun parent es hb => ?_) fun _ _ => by simp [hm]
      simp [Inode.kind, hb, Body.kind] at hm

/-- The last name for `open` is the entry's or in a directory below. -/
theorem LastName.inward (h : fs.LastName p flags d x) (hR : fs.Rooted top)
    (htop : special top = false) (hs : fs.staysIn top (followsLast flags) p = true)
    (hx : special x = false) : Inward fs top d [x] := by
  rcases h with hslot | ⟨hfollow, hfinal⟩
  · exact slot_inward htop hR hs hslot hx
  · rw [hfollow] at hs
    obtain ⟨henters, hwalk⟩ := staysIn_iff.mp hs
    rw [← List.append_nil (walkComps p)] at hwalk
    have hcomps := stays_components hwalk
    rw [List.append_nil] at hcomps
    exact final_inward htop hR (nil_notMem_components p) (.inr ⟨rfl, henters⟩) hcomps hfinal

/-- **What `open` opens is below**, or it is a file without a name. -/
theorem below_openAt (hR : fs.Rooted top) (htop : special top = false)
    (hs : fs.staysIn top (followsLast flags) p = true)
    (h : fs.openAt umask p flags mode = .ok (i, fs')) :
    Below fs' top i ∨ (fs.node i).isSome = false := by
  cases openAt_opening h with
  | found hfound hsame =>
      refine .inl (Below.of_extends hsame.names.extends ?_)
      rcases hfound with hl | ⟨hfollow, hr⟩
      · exact lresolve_below htop hR hs hl
      · rw [hfollow] at hs
        exact resolve_below htop hR hs hr
  | nameless m hm hi => exact .inr (by simp [hi])
  | named d x hl hx hc hsame =>
      refine .inl (Below.of_extends hsame.names.extends ?_)
      exact (hl.inward hR htop hs hx).child htop hx hc
  | made d x m hl hf hm hi =>
      rw [hi]
      exact .inl (below_created htop hf (hl.inward hR htop hs hf.notSpecial))

end FS

end Posix
