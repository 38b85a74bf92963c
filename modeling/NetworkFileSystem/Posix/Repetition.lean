import NetworkFileSystem.Posix.Links
import NetworkFileSystem.Posix.Persistence

/-!
# A change that is made a second time

A call that makes, removes or moves a name has nothing left to do when it is repeated: the name
is taken, or it is gone.  To see this one has to know that the path still leads to the same
directory, although names have changed since.  `Follows` says what a change may do to names, and
**`slot_follows`** that a path without symbolic links is then not led astray.

Attributes and contents that are set a second time are what they were (`setOwner_setOwner`,
`resize_resize` and their like).
-/

namespace Posix

open Effects

/-- The target of a symbolic link. -/
def Inode.target? (n : Inode) : Option CStr :=
  match n.body with
  | .symlink t => some t
  | _ => none

/-- Nothing that happens to names changes the target of a link. -/
theorem stable_target : Stable fun n n' => n'.target? = n.target? := by
  refine Stable.of_field _ ?_ ?_ ?_
  · intro n f links
    cases hb : n.body <;> simp [Inode.onEntries, Inode.target?, hb]
  · intro n f
    rfl
  · intro n d
    cases hb : n.body <;> simp [Inode.setParent, Inode.target?, hb]

namespace FS

variable {fs fs' fs₁ fs₂ : FS} {p : CStr} {d d' e i j k cur : Ino} {x x' y : Name} {n m : ℕ}
  {l : List Name} {Gone : Ino → Prop}

theorem linkTarget_eq_target (fs : FS) (i : Ino) :
    fs.linkTarget i = (fs.node i).bind Inode.target? := by
  unfold linkTarget
  cases fs.node i with
  | none => rfl
  | some n => cases hb : n.body <;> simp [Inode.target?, hb]

/-! ## Paths without symbolic links -/

/-- No symbolic link along the way. -/
def Straight (fs : FS) : Ino → List Name → Prop
  | _, [] => True
  | cur, x :: rest => ∀ i, fs.child cur x = .ok i → fs.linkTarget i = none ∧ Straight fs i rest

/-- A path of ordinary names that has no symbolic link among the parents. -/
structure Direct (fs : FS) (p : CStr) : Prop where
  ordinary : ∀ x ∈ walkComps p, special x = false
  straight : fs.Straight fs.root (walkComps p).dropLast

theorem Direct.walkComps_eq (h : fs.Direct p) : walkComps p = components p := by
  have hdot : dot ∉ walkComps p := by
    intro hd
    cases h.ordinary dot hd
  unfold walkComps at hdot ⊢
  split
  · next ht => simp [ht] at hdot
  · simp

/-! ## What a change may do to names -/

/-- No name leads on from here. -/
def DeadEnd (fs : FS) (k : Ino) : Prop := ∀ z m, special z = false → fs.child k z ≠ .ok m

/-- A name that leads somewhere before and after the change leads to the same inode, unless it
led to something that is gone and from which no name led on. -/
structure Follows (fs fs' : FS) (Gone : Ino → Prop) : Prop where
  root_eq : fs'.root = fs.root
  child_eq : ∀ e y k k', special y = false → fs.child e y = .ok k → fs'.child e y = .ok k' →
    k' = k ∨ Gone k
  dead : ∀ k, Gone k → fs.DeadEnd k
  link_eq : ∀ k, (fs.node k).isSome → fs'.linkTarget k = fs.linkTarget k

/-- Inodes that keep their targets are links as before. -/
theorem link_of_persists (h : Persists (fun n n' => n'.target? = n.target?) fs fs')
    (hk : (fs.node k).isSome) : fs'.linkTarget k = fs.linkTarget k := by
  obtain ⟨n, hn⟩ := Option.isSome_iff_exists.mp hk
  obtain ⟨n', hn', ht⟩ := h k n hn
  rw [linkTarget_eq_target, linkTarget_eq_target, hn, hn']
  exact ht

/-- A straight way is not led astray. -/
theorem walk_follows (hf : Follows fs fs' Gone) (hl : ∀ y ∈ l, special y = false)
    (hs : fs.Straight cur l) (hw : fs.walk n cur l = .ok d) (hw' : fs'.walk m cur l = .ok d')
    (hd : ¬ Gone d) : d' = d := by
  induction l generalizing cur with
  | nil =>
      rw [walk_nil] at hw hw'
      cases hw
      cases hw'
      rfl
  | cons y l ih =>
      have hy : special y = false := hl y (by simp)
      obtain ⟨k, hk, hwk⟩ := walk_cons_eq_ok.mp hw
      obtain ⟨k', hk', hwk'⟩ := walk_cons_eq_ok.mp hw'
      obtain ⟨hlink, hrest⟩ := hs k hk
      have hwalk : fs.walk n k l = .ok d := by
        rcases hwk with ⟨-, h⟩ | ⟨t, _, ht, -⟩
        · exact h
        · rw [hlink] at ht
          cases ht
      rcases hf.child_eq _ _ _ _ hy hk hk' with rfl | hgone
      · refine ih (fun z hz => hl z (by simp [hz])) hrest hwalk ?_
        rcases hwk' with ⟨-, h⟩ | ⟨t, _, ht, -⟩
        · exact h
        · rw [hf.link_eq _ (isSome_of_child hk), hlink] at ht
          cases ht
      · -- The way cannot go on from what is gone, nor end there.
        cases l with
        | nil =>
            rw [walk_nil] at hwalk
            cases hwalk
            exact absurd hgone hd
        | cons z l =>
            obtain ⟨k₂, hk₂, -⟩ := walk_cons_eq_ok.mp hwalk
            exact absurd hk₂ (hf.dead k hgone z k₂ (hl z (by simp)))

/-- **A direct path keeps its slot**, as long as it leads to a directory at all. -/
theorem slot_follows (hf : Follows fs fs' Gone) (hp : fs.Direct p)
    (h : fs.slot p = .ok (d, x)) (hx : special x = false) (hd : ¬ Gone d)
    (h' : fs'.slot p = .ok (d', x')) : d' = d ∧ x' = x := by
  obtain ⟨-, -, way, hway, hw, -⟩ := slot_eq_ok.mp ⟨h, ne_nil_of_special hx⟩
  have hx' : x' = x := by
    unfold slot at h'
    rw [hway] at h'
    simp only [bind_eq_ok, List.getLast?_append, List.getLast?_singleton, Option.some_or,
      pure_eq_ok, Prod.mk.injEq] at h'
    obtain ⟨_, -, _, -, _, -, -, rfl⟩ := h'
    rfl
  subst hx'
  obtain ⟨-, -, way', hway', hw', -⟩ := slot_eq_ok.mp ⟨h', ne_nil_of_special hx⟩
  obtain ⟨rfl, -⟩ := List.append_inj' (hway.symm.trans hway') rfl
  refine ⟨walk_follows hf ?_ ?_ hw (hf.root_eq ▸ hw') hd, rfl⟩
  · intro y hy
    exact hp.ordinary y (by simp [hp.walkComps_eq, hway, hy])
  · have hs := hp.straight
    rwa [hp.walkComps_eq, hway, List.dropLast_concat] at hs

/-! ## What the calls do to names -/

/-- Where something can be made there is a directory. -/
theorem isSome_of_vacant {b : Bool} (h : fs.vacant p b = .ok (d, x)) : (fs.node d).isSome := by
  obtain ⟨⟨parent, es⟩, hr⟩ := (free_of_vacant h).isDir
  obtain ⟨n, hn, -⟩ := dir_eq_ok.mp hr
  exact Option.isSome_of_eq_some hn

/-- Making something moves no other name. -/
theorem follows_created {b : Bool} (h : fs.vacant p b = .ok (d, x)) (links : ℕ → ℕ) (m : Inode) :
    Follows fs (fs.created d x links m) fun _ => False where
  root_eq := rfl
  child_eq e y k k' _ hk hk' := by
    have hall : Extends fs (fs.created d x links m) := created_extends (free_of_vacant h)
    have hext := hall.child_eq e y k hk
    rw [hk'] at hext
    exact .inl (Except.ok.inj hext)
  dead k hk := hk.elim
  link_eq k hk := link_of_persists (persists_created stable_target links m) hk

/-- Nor does `link`. -/
theorem follows_link {q : CStr} (h : fs.link p q = .ok fs') :
    Follows fs fs' fun _ => False where
  root_eq := by
    obtain ⟨_, _, _, _, _, _, rfl⟩ := link_eq_ok.mp h
    rfl
  child_eq e y k k' hy hk hk' := by
    obtain ⟨i, d, x, hi, hv, -, rfl⟩ := link_eq_ok.mp h
    have hf := free_of_vacant hv
    have hsome : (fs.node i).isSome := by
      obtain ⟨-, _, _, _, -, -, hc⟩ := lresolve_eq_ok.mp hi
      exact isSome_of_child hc
    rw [setLinks_child hy, addEntry_child hy hf.isDir hf.short hsome] at hk'
    rcases hk' with ⟨rfl, rfl, -⟩ | ⟨-, hk'⟩
    · have hfree := hf.free
      rw [hk] at hfree
      cases hfree
    · rw [hk'] at hk
      exact .inl (Except.ok.inj hk)
  dead k hk := hk.elim
  link_eq k hk := link_of_persists (persists_link stable_target h) hk

/-- Nor does taking a name away. -/
theorem follows_removed (h : Removed fs fs' d x)
    (hp : Persists (fun n n' => n'.target? = n.target?) fs fs') :
    Follows fs fs' fun _ => False where
  root_eq := h.root_eq
  child_eq e y k k' hy hk hk' := by
    rw [h.child_iff e y k' hy] at hk'
    rw [hk'.1] at hk
    exact .inl (Except.ok.inj hk)
  dead k hk := hk.elim
  link_eq k hk := link_of_persists hp hk

/-- A rename moves no other name, but for the one that it replaces. -/
theorem follows_moved {d₁ d₂ : Ino} {x₁ x₂ : Name} (h : Moved fs fs' d₁ x₁ d₂ x₂ i)
    (hdead : ∀ j y k, fs.child d₂ x₂ = .ok j → special y = false → fs.child j y ≠ .ok k)
    (hp : Persists (fun n n' => n'.target? = n.target?) fs fs') :
    Follows fs fs' fun k => fs.child d₂ x₂ = .ok k where
  root_eq := h.root_eq
  child_eq e y k k' hy hk hk' := by
    rw [h.child_iff e y k' hy] at hk'
    rcases hk' with ⟨rfl, rfl, -⟩ | ⟨-, -, hk'⟩
    · exact .inr hk
    · rw [hk'] at hk
      exact .inl (Except.ok.inj hk)
  dead k hk z m hz := hdead k z m hk hz
  link_eq k hk := link_of_persists hp hk

theorem setOwner_child {uid gid : UInt32} (hy : special y = false) :
    (fs.modify i (Inode.setOwner uid gid)).child e y = .ok k ↔ fs.child e y = .ok k :=
  modify_child (fun _ parent _ hb => ⟨parent, hb⟩) (fun _ parent _ hb => ⟨parent, hb⟩) hy

/-- The owner of an inode is no matter of names. -/
theorem Follows.setOwner (h : Follows fs fs' Gone) (i : Ino) (uid gid : UInt32) :
    Follows fs (fs'.modify i (Inode.setOwner uid gid)) Gone where
  root_eq := h.root_eq
  child_eq e y k k' hy hk hk' := by
    rw [setOwner_child hy] at hk'
    exact h.child_eq e y k k' hy hk hk'
  dead := h.dead
  link_eq k hk := by
    rw [← h.link_eq k hk, linkTarget_eq_target, linkTarget_eq_target, modify_node]
    split
    · cases fs'.node k <;> rfl
    · rfl

/-! ## Names that are made or taken away a second time -/

/-- The path has a name after the change that had none before. -/
structure Made (fs fs' : FS) (p : CStr) : Prop where
  follows : Follows fs fs' fun _ => False
  taken : ∃ d x i, fs.slot p = .ok (d, x) ∧ special x = false ∧ fs'.child d x = .ok i

/-- The name of the path leads nowhere after the change. -/
structure Emptied (fs fs' : FS) (p : CStr) : Prop where
  gone : ∃ d x Gone, Follows fs fs' Gone ∧ fs.slot p = .ok (d, x) ∧ special x = false ∧
    ¬ Gone d ∧ ∀ k, fs'.child d x ≠ .ok k

/-- What was made is under its path. -/
theorem made_created {b : Bool} (h : fs.vacant p b = .ok (d, x)) (links : ℕ → ℕ) (m : Inode) :
    Made fs (fs.created d x links m) p where
  follows := follows_created h links m
  taken := by
    obtain ⟨hs, hx, -⟩ := vacant_eq_ok.mp h
    exact ⟨d, x, fs.next, hs, hx, created_child (free_of_vacant h)⟩

/-- So is what was linked. -/
theorem made_link {q : CStr} (h : fs.link q p = .ok fs') : Made fs fs' p where
  follows := follows_link h
  taken := by
    obtain ⟨i, d, x, hi, hv, -, rfl⟩ := link_eq_ok.mp h
    obtain ⟨hs, hx, -⟩ := vacant_eq_ok.mp hv
    obtain ⟨-, _, _, _, -, -, hc⟩ := lresolve_eq_ok.mp hi
    have hf := free_of_vacant hv
    refine ⟨d, x, i, hs, hx, ?_⟩
    rw [setLinks_child hx, addEntry_child hx hf.isDir hf.short (isSome_of_child hc)]
    exact .inl ⟨rfl, rfl, rfl⟩

/-- Changing an owner takes nothing away. -/
theorem Made.setOwner (h : Made fs fs' p) (i : Ino) (uid gid : UInt32) :
    Made fs (fs'.modify i (Inode.setOwner uid gid)) p where
  follows := h.follows.setOwner i uid gid
  taken := by
    obtain ⟨d, x, k, hs, hx, hc⟩ := h.taken
    exact ⟨d, x, k, hs, hx, (setOwner_child hx).mpr hc⟩

/-- A name that was made is taken. -/
theorem Made.not_vacant (h : Made fs fs' p) (hp : fs.Direct p) (b : Bool) (r : Ino × Name) :
    fs'.vacant p b ≠ .ok r := by
  intro hv
  obtain ⟨d, x, i, hs, hx, hc⟩ := h.taken
  obtain ⟨hs', -, -, hfree, -⟩ := vacant_eq_ok.mp hv
  obtain ⟨hd, hx'⟩ := slot_follows h.follows hp hs hx id hs'
  rw [hd, hx', hc] at hfree
  cases hfree

/-- A name that was taken away leads nowhere. -/
theorem Emptied.not_child (h : Emptied fs fs' p) (hp : fs.Direct p)
    (hs : fs'.slot p = .ok (d, x)) (k : Ino) : fs'.child d x ≠ .ok k := by
  obtain ⟨d₀, x₀, Gone, hf, hs₀, hx₀, hd₀, hno⟩ := h.gone
  obtain ⟨rfl, rfl⟩ := slot_follows hf hp hs₀ hx₀ hd₀ hs
  exact hno k

/-- After `unlink` the path is free. -/
theorem emptied_unlink (h : fs.unlink p = .ok fs') : Emptied fs fs' p where
  gone := by
    obtain ⟨d, x, i, hs, hx, -, -, hr⟩ := unlink_removed h
    refine ⟨d, x, _, follows_removed hr (persists_unlink stable_target h), hs, hx, id, ?_⟩
    intro k hk
    exact ((hr.child_iff d x k hx).mp hk).2 ⟨rfl, rfl⟩

/-- After `rmdir` the path is free. -/
theorem emptied_rmdir (h : fs.rmdir p = .ok fs') : Emptied fs fs' p where
  gone := by
    obtain ⟨d, x, i, parent, hs, hx, -, -, hr⟩ := rmdir_removed h
    refine ⟨d, x, _, follows_removed hr (persists_rmdir stable_target h), hs, hx, id, ?_⟩
    intro k hk
    exact ((hr.child_iff d x k hx).mp hk).2 ⟨rfl, rfl⟩

/-- The old name of a rename is taken away, unless nothing happened at all. -/
theorem emptied_rename {q : CStr} (h : fs.rename p q = .ok fs') :
    fs' = fs ∨ Emptied fs fs' p := by
  obtain ⟨d₁, x₁, d₂, x₂, i, hs₁, -, hx₁, -, hi, ⟨-, rfl⟩ | ⟨hne, hm, hdead⟩⟩ := rename_moved h
  · exact .inl rfl
  · have hdir : fs.child d₂ x₂ ≠ .ok d₁ := fun hc => hdead d₁ x₁ i hc hx₁ hi
    refine .inr ⟨d₁, x₁, _, follows_moved hm hdead (persists_rename stable_target h), hs₁, hx₁,
      hdir, ?_⟩
    intro k hk
    rcases (hm.child_iff d₁ x₁ k hx₁).mp hk with ⟨rfl, rfl, -⟩ | ⟨-, hno, -⟩
    · exact hne hi
    · exact hno ⟨rfl, rfl⟩

/-! ## Attributes and contents -/

/-- The same names lead to the same inodes. -/
structure SameNames (fs fs' : FS) : Prop where
  root_eq : fs'.root = fs.root
  dir_eq : ∀ d, fs'.dir d = fs.dir d
  link_eq : ∀ i, fs'.linkTarget i = fs.linkTarget i
  some_eq : ∀ i, (fs'.node i).isSome = (fs.node i).isSome

theorem SameNames.child_eq (h : SameNames fs fs') (d : Ino) (x : Name) :
    fs'.child d x = fs.child d x := by
  unfold child
  simp only [h.dir_eq, h.some_eq]

theorem SameNames.walk_eq (h : SameNames fs fs') (n : ℕ) (cur : Ino) (l : List Name) :
    fs'.walk n cur l = fs.walk n cur l := by
  induction n generalizing cur l with
  | zero =>
      induction l generalizing cur with
      | nil => rfl
      | cons x l ih => simp only [walk_cons, h.child_eq, h.link_eq, follow, ih]
  | succ n ihn =>
      induction l generalizing cur with
      | nil => rfl
      | cons x l ih =>
          simp only [walk_cons, h.child_eq, h.link_eq, follow, base, h.root_eq, ih, ihn]

theorem SameNames.resolve_eq (h : SameNames fs fs') (p : CStr) : fs'.resolve p = fs.resolve p := by
  unfold resolve
  rw [h.root_eq]
  simp only [h.walk_eq]

/-- Rewriting an inode without touching entries and targets. -/
theorem sameNames_modify {f : Inode → Inode} (hf : ∀ n, fs.node i = some n →
    (f n).body = n.body ∨ ∃ d d', n.body = .reg d ∧ (f n).body = .reg d') :
    SameNames fs (fs.modify i f) where
  root_eq := rfl
  dir_eq d := by
    by_cases hd : d = i
    · subst hd
      unfold dir
      rw [modify_node_self]
      cases hn : fs.node d with
      | none => rfl
      | some n =>
          rcases hf n hn with hb | ⟨_, _, hb, hb'⟩
          · simp [hb]
          · simp [hb, hb']
    · simp only [dir, modify_node_ne f hd]
  link_eq k := by
    by_cases hk : k = i
    · subst hk
      rw [linkTarget_eq_target, linkTarget_eq_target, modify_node_self]
      cases hn : fs.node k with
      | none => rfl
      | some n =>
          rcases hf n hn with hb | ⟨_, _, hb, hb'⟩
          · simp [Inode.target?, hb]
          · simp [Inode.target?, hb, hb']
    · simp only [linkTarget, modify_node_ne f hk]
  some_eq k := by
    rw [modify_node]
    split <;> simp

/-- Two volumes with the same inodes are the same. -/
theorem eq_of_nodes {fs fs' : FS} (hr : fs.root = fs'.root) (hn : ∀ i, fs.node i = fs'.node i)
    (hx : fs.next = fs'.next) : fs = fs' := by
  obtain ⟨root, node, next, fresh⟩ := fs
  obtain ⟨root', node', next', fresh'⟩ := fs'
  obtain rfl : root = root' := hr
  obtain rfl : node = node' := funext hn
  obtain rfl : next = next' := hx
  rfl

/-- Rewriting an inode a second time to what it is already. -/
theorem modify_modify {f : Inode → Inode} (hf : ∀ n, fs.node i = some n → f (f n) = f n) :
    (fs.modify i f).modify i f = fs.modify i f := by
  refine eq_of_nodes rfl (fun k => ?_) rfl
  by_cases hk : k = i
  · subst hk
    cases hn : fs.node k with
    | none => simp [hn]
    | some n => simp [hn, hf n hn]
  · rw [modify_node_ne f hk]

/-- Cutting a file to a length twice is cutting it once. -/
theorem resize_resize (d : List UInt8) (len : ℕ) : resize (resize d len) len = resize d len := by
  have hlen : (resize d len).length = len := by
    simp only [resize, List.length_append, List.length_take, List.length_replicate]
    omega
  rw [resize, hlen, Nat.sub_self, List.replicate_zero, List.append_nil]
  exact List.take_of_length_le (Nat.le_of_eq hlen)

/-- The set-id bits are cleared once and for all. -/
theorem setOwner_setOwner (uid gid : UInt32) (n : Inode) :
    Inode.setOwner uid gid (Inode.setOwner uid gid n) = Inode.setOwner uid gid n := by
  have hgrp : hasBit (n.perm &&& ~~~S_ISUID &&& ~~~S_ISGID) S_IXGRP = hasBit n.perm S_IXGRP := by
    unfold hasBit
    rw [UInt32.and_assoc, UInt32.and_assoc]
    rfl
  have hown : hasBit (n.perm &&& ~~~S_ISUID) S_IXGRP = hasBit n.perm S_IXGRP := by
    unfold hasBit
    rw [UInt32.and_assoc]
    rfl
  have hclear : n.perm &&& ~~~S_ISUID &&& ~~~S_ISGID &&& ~~~S_ISUID &&& ~~~S_ISGID =
      n.perm &&& ~~~S_ISUID &&& ~~~S_ISGID := by
    simp only [UInt32.and_assoc]
    rfl
  have hclear' : n.perm &&& ~~~S_ISUID &&& ~~~S_ISUID = n.perm &&& ~~~S_ISUID := by
    rw [UInt32.and_assoc, UInt32.and_self]
  unfold Inode.setOwner
  simp only [Inode.mk.injEq, and_true, true_and, Inode.kind]
  refine ⟨by split <;> rfl, by split <;> rfl, ?_⟩
  by_cases hdir : n.body.kind = .dir
  · simp only [hdir, if_true]
  · by_cases hg : hasBit n.perm S_IXGRP = true
    · simp only [hdir, hg, hgrp, hclear, if_true, if_false]
    · simp only [hdir, hg, hown, hclear', Bool.false_eq_true, if_false]

end FS

end Posix
