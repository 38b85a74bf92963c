import NetworkFileSystem.Posix.Grafts

/-!
# What is outside a subtree stays as it is

`FS.Spares` compares two trees outside the part at and below an entry of the root: the inodes there
are the same, none of them has come below, and in the root itself only the entry may have another
meaning.  A call spares what is outside when the names it takes and the inodes it finds are at or
below the entry.

What is below, and which lookups stay there, depends on the names only (**`SameNames.staysIn_eq`**).
-/

namespace Posix

open Effects

namespace FS

variable {fs fs' fs₁ : FS} {top x : Name} {d i k : Ino} {m : Inode} {f : Inode → Inode}
  {links : ℕ → ℕ} {p q : CStr} {umask mode flags : UInt32}

/-- Nothing outside has changed or come below. -/
structure Spares (fs fs' : FS) (top : Name) : Prop where
  root_eq : fs'.root = fs.root
  some : ∀ i, (fs.node i).isSome → (fs'.node i).isSome
  below : ∀ i, (fs.node i).isSome → Below fs' top i → Below fs top i
  node_eq : ∀ i, (fs.node i).isSome → ¬ Below fs top i → i ≠ fs.root → fs'.node i = fs.node i
  name_iff : (fs.node fs.root).isSome → ¬ Below fs top fs.root → ∀ y k, special y = false →
    y ≠ top → (fs'.child fs.root y = .ok k ↔ fs.child fs.root y = .ok k)

theorem Spares.refl : Spares fs fs top :=
  ⟨rfl, fun _ h => h, fun _ _ h => h, fun _ _ _ _ => rfl, fun _ _ _ _ _ _ => Iff.rfl⟩

/-- A change of one inode below that moves no name. -/
theorem Rewritten.spares (h : Rewritten fs fs' i) (hi : Below fs top i) : Spares fs fs' top where
  root_eq := h.names.root_eq
  some k hk := by rwa [h.names.some_eq]
  below _ _ hb := hb.of_extends h.names.symm.extends
  node_eq k _ hb _ := h.node_eq k fun hki => hb (hki ▸ hi)
  name_iff _ _ y k _ _ := by rw [h.names.child_eq]

/-- Where an entry comes below from outside, it is the top entry of the root. -/
theorem Inward.outside (htop : special top = false) (h : Inward fs top d [x])
    (hd : ¬ Below fs top d) : d = fs.root ∧ (x = top ∨ special x = true) := by
  rcases h with hb | ⟨rfl, hx⟩
  · exact absurd hb hd
  · refine ⟨rfl, ?_⟩
    rcases (enters_cons htop).mp hx with rfl | ⟨rfl, -⟩
    · exact .inl rfl
    · exact .inr rfl

/-- One name that is taken at or below the entry. -/
theorem Grafts.spares (h : Grafts fs fs' d x k) (htop : special top = false)
    (hd : Inward fs top d [x]) (hx : special x = false)
    (hk : Below fs top k ∨ ((fs.node k).isSome = false ∧
      ∀ y i, special y = false → fs'.child k y ≠ .ok i))
    (hsome : ∀ i, (fs.node i).isSome → (fs'.node i).isSome)
    (hnode : ∀ i, (fs.node i).isSome → ¬ Below fs top i → i ≠ fs.root → fs'.node i = fs.node i)
    (hkept : ¬ Below fs top fs.root → ∀ y i, special y = false → y ≠ top →
      fs.child fs.root y = .ok i → fs'.child fs.root y = .ok i) : Spares fs fs' top where
  root_eq := h.root_eq
  some := hsome
  below i hi hb := by
    rcases h.below htop (hk.imp_right And.right) hb with hb | rfl
    · exact hb
    · rcases hk with hk | ⟨hnone, -⟩
      · exact hk
      · rw [hnone] at hi
        cases hi
  node_eq := hnode
  name_iff _ hroot y i hy hne := by
    constructor
    · intro hc
      rcases h.child fs.root y i hy hc with ⟨rfl, rfl, -⟩ | hc
      · rcases (hd.outside htop hroot).2 with heq | hsp
        · exact absurd heq hne
        · rw [hx] at hsp
          cases hsp
      · exact hc
    · exact hkept hroot y i hy hne

/-! ## The calls -/

/-- Making something below leaves what is outside alone. -/
theorem spares_created (hW : fs.Whole) (htop : special top = false) (hf : fs.Free d x)
    (hd : Inward fs top d [x]) (hm : ∀ parent es, m.body = .dir parent es → es = []) :
    Spares fs (fs.created d x links m) top := by
  have hext : Extends fs (fs.created d x links m) := created_extends hf
  obtain ⟨r, hr⟩ := hf.isDir
  obtain ⟨n, hn, -⟩ := dir_eq_ok.mp hr
  have hnew : (fs.created d x links m).node fs.next = some m :=
    created_node (Option.isSome_of_eq_some hn)
  refine (grafts_created hW hf hm).spares htop hd hf.notSpecial (.inr ⟨by simp, ?_⟩) ?_ ?_
    fun _ y i _ _ hc => hext.child_eq _ _ _ hc
  · intro y i hy hc
    obtain ⟨parent, es, hes, -, hl, -⟩ := (child_eq_ok_of_special hy).mp hc
    obtain ⟨n', hn', hb⟩ := dir_eq_ok.mp hes
    obtain rfl : m = n' := by simpa [hnew] using hn'
    rw [hm _ _ hb] at hl
    cases hl
  · intro i hi
    obtain ⟨n', hn'⟩ := Option.isSome_iff_exists.mp hi
    rw [created_node_of_some hn']
    split <;> rfl
  · intro i hi hb hroot
    obtain ⟨n', hn'⟩ := Option.isSome_iff_exists.mp hi
    have hne : i ≠ d := by
      rintro rfl
      exact hroot (hd.outside htop hb).1
    rw [created_node_of_some hn', if_neg hne, hn']

/-- So does `link`, when the file and the new name are below. -/
theorem spares_link (htop : special top = false) (h : fs.link p q = .ok fs')
    (hold : ∀ i, fs.lresolve p = .ok i → Below fs top i)
    (hnew : ∀ d x, fs.slot q = .ok (d, x) → special x = false → Inward fs top d [x]) :
    Spares fs fs' top := by
  obtain ⟨i, d, x, hi, hv, -, rfl⟩ := link_eq_ok.mp h
  have hf := free_of_vacant hv
  obtain ⟨hs, hx, -⟩ := vacant_eq_ok.mp hv
  have hbelow := hold i hi
  have hd := hnew d x hs hx
  refine (grafts_link hf (isSome_of_lresolve hi)).spares htop hd hx (.inl hbelow) ?_ ?_ ?_
  · intro k hk
    rwa [modify_node_isSome, addEntry, modify_node_isSome]
  · intro k _ hb hroot
    have hki : k ≠ i := fun hk => hb (hk ▸ hbelow)
    have hkd : k ≠ d := by
      rintro rfl
      exact hroot (hd.outside htop hb).1
    rw [modify_node_ne _ hki, addEntry, modify_node_ne _ hkd]
  · intro _ y k hy hne hc
    rw [setLinks_child hy, addEntry_child hy hf.isDir hf.short (isSome_of_lresolve hi)]
    refine .inr ⟨?_, hc⟩
    rintro ⟨rfl, rfl⟩
    have hfree := hf.free
    rw [hc] at hfree
    cases hfree

/-- So does taking away a name below. -/
theorem spares_delEntry {g : ℕ → ℕ} (htop : special top = false) (hd : Inward fs top d [x])
    (hx : special x = false) (hc : fs.child d x = .ok i) :
    Spares fs ((fs.delEntry d x links).modify i (Inode.setLinks g)) top := by
  have hbelow := hd.child htop hx hc
  refine grafts_delEntry.spares htop hd hx (.inl hbelow) ?_ ?_ ?_
  · intro k hk
    rwa [modify_node_isSome, delEntry_node_isSome]
  · intro k _ hb hroot
    have hki : k ≠ i := fun hk => hb (hk ▸ hbelow)
    have hkd : k ≠ d := by
      rintro rfl
      exact hroot (hd.outside htop hb).1
    rw [modify_node_ne _ hki, delEntry, modify_node_ne _ hkd]
  · intro hroot y k hy hne hk
    rw [setLinks_child hy, delEntry_child hy]
    refine ⟨hk, ?_⟩
    rintro ⟨rfl, rfl⟩
    rcases (hd.outside htop hroot).2 with heq | hsp
    · exact hne heq
    · rw [hx] at hsp
      cases hsp

/-- So does `unlink`. -/
theorem spares_unlink (htop : special top = false) (h : fs.unlink p = .ok fs')
    (hp : ∀ d x, fs.slot p = .ok (d, x) → special x = false → Inward fs top d [x]) :
    Spares fs fs' top := by
  obtain ⟨d, x, i, hs, hx, hi, -, -, rfl⟩ := unlink_eq_ok.mp h
  exact spares_delEntry htop (hp d x hs hx) hx hi

/-- So does `rmdir`. -/
theorem spares_rmdir (htop : special top = false) (h : fs.rmdir p = .ok fs')
    (hp : ∀ d x, fs.slot p = .ok (d, x) → special x = false → Inward fs top d [x]) :
    Spares fs fs' top := by
  obtain ⟨d, x, i, parent, hs, hx, hi, -, -, rfl⟩ := rmdir_eq_ok.mp h
  exact spares_delEntry htop (hp d x hs hx) hx hi

/-- So does `rename`, when both names are below. -/
theorem spares_rename (htop : special top = false) (h : fs.rename p q = .ok fs')
    (hold : ∀ d x, fs.slot p = .ok (d, x) → special x = false → Inward fs top d [x])
    (hnew : ∀ d x, fs.slot q = .ok (d, x) → special x = false → Inward fs top d [x]) :
    Spares fs fs' top := by
  have hsome : ∀ k, (fs.node k).isSome → (fs'.node k).isSome := by
    intro k hk
    obtain ⟨n, hn⟩ := Option.isSome_iff_exists.mp hk
    obtain ⟨n', hn', -⟩ := persists_rename stable_target h k n hn
    rw [hn']
    rfl
  rcases rename_renaming h with rfl | ⟨d₁, x₁, d₂, x₂, i, h₁, h₂, hmove⟩
  · exact .refl
  have hd₁ := hold d₁ x₁ h₁ hmove.ordinary.1
  have hd₂ := hnew d₂ x₂ h₂ hmove.ordinary.2
  have hbelow := hd₁.child htop hmove.ordinary.1 hmove.source
  refine hmove.grafts.spares htop hd₂ hmove.ordinary.2 (.inl hbelow) hsome ?_ ?_
  · intro k _ hb hroot
    refine hmove.node_eq k ?_ ?_ (fun hk => hb (hk ▸ hbelow)) fun hk => ?_
    · rintro rfl
      exact hroot (hd₁.outside htop hb).1
    · rintro rfl
      exact hroot (hd₂.outside htop hb).1
    · exact hb (hd₂.child htop hmove.ordinary.2 hk)
  · intro hroot y k hy hne hk
    have hapart : ∀ {d x}, Inward fs top d [x] → special x = false → ¬(fs.root = d ∧ y = x) := by
      rintro d x hd hx ⟨rfl, rfl⟩
      rcases (hd.outside htop hroot).2 with heq | hsp
      · exact hne heq
      · rw [hx] at hsp
        cases hsp
    rw [hmove.moved.child_iff _ _ _ hy]
    exact .inr ⟨hapart hd₂ hmove.ordinary.2, hapart hd₁ hmove.ordinary.1, hk⟩

/-! ### Attributes and content -/

/-- So does a file that has no name yet. -/
theorem spares_alloc (hW : fs.Whole) (htop : special top = false) (hm : m.kind = .reg) :
    Spares fs (fs.alloc m) top := by
  have hnode : ∀ k, (fs.node k).isSome → (fs.alloc m).node k = fs.node k := by
    intro k hk
    obtain ⟨n, hn⟩ := Option.isSome_iff_exists.mp hk
    rw [alloc_node_of_some hn, hn]
  have hgraft : Grafts fs (fs.alloc m) fs.next top fs.next := grafts_alloc hW hm
  refine ⟨rfl, fun k hk => by rwa [hnode k hk], fun k hk hb => ?_, fun k hk _ _ => hnode k hk, ?_⟩
  · rcases hgraft.below htop (.inr fun _ _ _ => alloc_child_next hm) hb with hb | rfl
    · exact hb
    · simp at hk
  · intro hroot _ y k hy _
    have hdir : (fs.alloc m).dir fs.root = fs.dir fs.root := by
      unfold dir
      rw [hnode _ hroot]
    constructor
    · intro hc
      rcases hgraft.child _ _ _ hy hc with ⟨hnext, -, -⟩ | hc
      · rw [hnext] at hroot
        simp at hroot
      · exact hc
    · intro hc
      obtain ⟨parent, es, hes, hlen, hl, hk⟩ := (child_eq_ok_of_special hy).mp hc
      rw [child_eq_ok_of_special hy, hdir, hnode k hk]
      exact ⟨parent, es, hes, hlen, hl, hk⟩

/-- So does `open`, when the path stays inside. -/
theorem spares_openAt (hR : fs.Rooted top) (htop : special top = false)
    (hs : fs.staysIn top (followsLast flags) p = true)
    (h : fs.openAt umask p flags mode = .ok (i, fs')) : Spares fs fs' top := by
  cases openAt_opening h with
  | found hfound hw =>
      refine hw.spares ?_
      rcases hfound with hl | ⟨hfollow, hr⟩
      · exact lresolve_below htop hR hs hl
      · rw [hfollow] at hs
        exact resolve_below htop hR hs hr
  | nameless m hm => exact spares_alloc hR.whole htop hm
  | named d x hl hx hc hw => exact hw.spares ((hl.inward hR htop hs hx).child htop hx hc)
  | made d x m hl hf hm =>
      have hd := hl.inward hR htop hs hf.notSpecial
      refine spares_created hR.whole htop hf hd fun parent es hb => ?_
      simp [Inode.kind, hb, Body.kind] at hm

/-! ## Which links there are -/

/-- Every symbolic link has an admissible target. -/
def Linked (T : CStr → Prop) (fs : FS) : Prop := ∀ i t, fs.linkTarget i = some t → T t

section

variable {T : CStr → Prop}

/-- No link target is added when no inode becomes a link. -/
theorem Linked.modify (h : fs.Linked T)
    (hf : ∀ n t, (f n).body = .symlink t → n.body = .symlink t) : (fs.modify i f).Linked T := by
  intro k t ht
  obtain ⟨n, hn, hb⟩ := linkTarget_eq_some.mp ht
  rw [modify_node] at hn
  split at hn
  · obtain ⟨n', hn', rfl⟩ := Option.map_eq_some_iff.mp hn
    exact h k t (linkTarget_eq_some.mpr ⟨n', hn', hf n' t hb⟩)
  · exact h k t (linkTarget_eq_some.mpr ⟨n, hn, hb⟩)

/-- A new inode is no link, or one with an allowed target. -/
theorem Linked.alloc (h : fs.Linked T) (hm : ∀ t, m.body = .symlink t → T t) :
    (fs.alloc m).Linked T := by
  intro k t ht
  obtain ⟨n, hn, hb⟩ := linkTarget_eq_some.mp ht
  rw [alloc_node] at hn
  split at hn
  · cases hn
    exact hm t hb
  · exact h k t (linkTarget_eq_some.mpr ⟨n, hn, hb⟩)

theorem Linked.entries (h : fs.Linked T) {g : List (Name × Ino) → List (Name × Ino)} :
    (fs.modify d (Inode.onEntries g links)).Linked T := by
  refine h.modify fun n t hb => ?_
  unfold Inode.onEntries at hb
  split at hb
  · cases hb
  · exact hb

theorem Linked.setLinks (h : fs.Linked T) {g : ℕ → ℕ} :
    (fs.modify i (Inode.setLinks g)).Linked T := h.modify fun _ _ hb => hb

/-- Something new under a path is no link, or one with an allowed target. -/
theorem Linked.created (h : fs.Linked T) (hm : ∀ t, m.body = .symlink t → T t) :
    (fs.created d x links m).Linked T := (h.alloc hm).entries

theorem Linked.setData (h : fs.Linked T) (data : List UInt8) :
    (fs.modify i (Inode.setData data)).Linked T := h.modify fun _ _ hb => by cases hb

/-- `rename` makes no link. -/
theorem Linked.rename (h : fs.Linked T) (hr : fs.rename p q = .ok fs') : fs'.Linked T := by
  have hmove : ∀ {fs : FS} {d₁ d₂ : Ino} {x₁ x₂ : Name} {i : Ino}, fs.Linked T →
      (fs.moveEntry d₁ x₁ d₂ x₂ i).Linked T := by
    intro fs d₁ d₂ x₁ x₂ i h
    unfold moveEntry
    split
    · refine (h.entries.entries).modify fun n t hb => ?_
      unfold Inode.setParent at hb
      split at hb
      · cases hb
      · exact hb
    · exact h.entries.entries
  obtain ⟨d₁, x₁, d₂, x₂, i, -, -, -, -, -, -, -, hcase⟩ := rename_eq_ok hr
  rcases hcase with ⟨-, rfl⟩ | ⟨-, rfl⟩ | ⟨j, -, -, -, rfl⟩
  · exact hmove h
  · exact h
  · refine hmove ?_
    unfold displace
    split <;> exact h.entries.setLinks

/-- Nor does `open`. -/
theorem Linked.openAt (h : fs.Linked T) (ho : fs.openAt umask p flags mode = .ok (i, fs')) :
    fs'.Linked T := by
  have hreg : ∀ {m : Inode}, m.kind = .reg → ∀ t, m.body = .symlink t → T t := by
    intro m hm t hb
    simp [Inode.kind, hb, Body.kind] at hm
  have hsame : SameNames fs fs' → fs'.Linked T := by
    intro hs k t ht
    rw [hs.link_eq] at ht
    exact h k t ht
  cases openAt_opening ho with
  | found _ hw => exact hsame hw.names
  | nameless m hm => exact h.alloc (hreg hm)
  | named d x _ _ _ hw => exact hsame hw.names
  | made d x m _ _ hm => exact h.created (hreg hm)

end

/-! ## The same names -/

theorem SameNames.trans (h : SameNames fs fs₁) (h' : SameNames fs₁ fs') : SameNames fs fs' where
  root_eq := h'.root_eq.trans h.root_eq
  dir_eq d := (h'.dir_eq d).trans (h.dir_eq d)
  link_eq i := (h'.link_eq i).trans (h.link_eq i)
  some_eq i := (h'.some_eq i).trans (h.some_eq i)

/-- The same inodes are below. -/
theorem SameNames.below_iff (h : SameNames fs fs') : Below fs' top i ↔ Below fs top i :=
  ⟨Below.of_extends h.symm.extends, Below.of_extends h.extends⟩

/-- The same walks stay below. -/
theorem SameNames.stays_eq (h : SameNames fs fs') (follow : Bool) (n : ℕ) (cur : Ino)
    (l : List Name) : fs'.stays top follow n cur l = fs.stays top follow n cur l := by
  have hwith : ∀ (jump jump' : Ino → List Name → Bool) (cur : Ino) (l : List Name),
      (∀ i l, jump' i l = jump i l) →
        fs'.staysWith top follow jump' cur l = fs.staysWith top follow jump cur l := by
    intro jump jump' cur l hjump
    induction l generalizing cur with
    | nil => rfl
    | cons x l ih =>
        simp only [staysWith, isTop, h.child_eq, h.link_eq, h.root_eq, base, hjump, ih]
  induction n generalizing cur l with
  | zero => exact hwith _ _ cur l fun _ _ => rfl
  | succ n ihn => exact hwith _ _ cur l ihn

/-- The same lookups stay below. -/
theorem SameNames.staysIn_eq (h : SameNames fs fs') (follow : Bool) (p : CStr) :
    fs'.staysIn top follow p = fs.staysIn top follow p := by
  simp only [staysIn, h.root_eq, h.stays_eq]

/-- The entries of a directory that gets a new one. -/
theorem addEntry_dir (e : Ino) : (fs.addEntry d x i links).dir e =
    (fs.dir e).map fun r => if e = d then (r.1, (x, i) :: r.2) else r := by
  unfold addEntry dir
  rw [modify_node]
  by_cases he : e = d
  · simp only [he, if_true]
    cases fs.node d with
    | none => rfl
    | some n => cases hb : n.body <;> simp [Inode.onEntries, hb, Except.map]
  · simp only [he, if_false]
    cases fs.node e with
    | none => rfl
    | some n => cases hb : n.body <;> simp [hb, Except.map]

theorem addEntry_linkTarget (k : Ino) :
    (fs.addEntry d x i links).linkTarget k = fs.linkTarget k := by
  unfold addEntry linkTarget
  rw [modify_node]
  by_cases hk : k = d
  · simp only [hk, if_true]
    cases fs.node d with
    | none => rfl
    | some n => cases hb : n.body <;> simp [Inode.onEntries, hb]
  · rw [if_neg hk]

/-- The same new name on both sides. -/
theorem SameNames.addEntry (h : SameNames fs fs') :
    SameNames (fs.addEntry d x i links) (fs'.addEntry d x i links) where
  root_eq := h.root_eq
  dir_eq e := by rw [addEntry_dir, addEntry_dir, h.dir_eq]
  link_eq k := by rw [addEntry_linkTarget, addEntry_linkTarget, h.link_eq]
  some_eq k := by
    unfold FS.addEntry
    rw [modify_node_isSome, modify_node_isSome, h.some_eq]

theorem sameNames_setLinks {g : ℕ → ℕ} : SameNames fs (fs.modify i (Inode.setLinks g)) :=
  sameNames_modify fun _ _ => .inl rfl

/-- `link` makes the same of the same names. -/
theorem SameNames.link (h : SameNames fs fs') (hl : fs'.link p q = .ok fs₁) :
    ∃ fs₂, fs.link p q = .ok fs₂ ∧ SameNames fs₂ fs₁ := by
  obtain ⟨i, d, x, hi, hv, hdir, rfl⟩ := link_eq_ok.mp hl
  rw [h.lresolve_eq] at hi
  rw [h.vacant_eq] at hv
  rw [h.isDir_eq] at hdir
  refine ⟨_, link_eq_ok.mpr ⟨i, d, x, hi, hv, hdir, rfl⟩, ?_⟩
  exact (sameNames_setLinks.symm.trans h.addEntry).trans sameNames_setLinks

end FS

end Posix
