import NetworkFileSystem.Posix.Lookup

/-!
# What the calls leave alone

The calls that make, move and remove names rewrite the entries, the link counts and the parents of
inodes and nothing else.  A relation between an inode and its later self that survives these
rewritings is *stable*; every such call persists it.  The owner, the permission bits and the
content are such relations.

`openAt` is inverted here as well: it creates, truncates, or changes nothing.
-/

namespace Posix

open Effects

/-- A relation that survives what happens to an inode when names are made, moved and removed. -/
structure Stable (P : Inode → Inode → Prop) : Prop where
  refl : ∀ n, P n n
  trans : ∀ a b c, P a b → P b c → P a c
  entries : ∀ n f links, P n (Inode.onEntries f links n)
  links : ∀ n f, P n (Inode.setLinks f n)
  parent : ∀ n d, P n (Inode.setParent d n)

/-- A property of an inode that nothing of this changes. -/
theorem Stable.of_field {γ : Type} (g : Inode → γ)
    (hentries : ∀ n f links, g (Inode.onEntries f links n) = g n)
    (hlinks : ∀ n f, g (Inode.setLinks f n) = g n)
    (hparent : ∀ n d, g (Inode.setParent d n) = g n) : Stable fun n n' => g n' = g n where
  refl _ := rfl
  trans _ _ _ h h' := h'.trans h
  entries := hentries
  links := hlinks
  parent := hparent

namespace FS

variable {fs fs' : FS} {P : Inode → Inode → Prop} {d i : Ino} {x : Name} {p : CStr}
  {umask mode flags : UInt32}

theorem Persists.modify (hP : Stable P) (h : Persists P fs fs') (i : Ino) {f : Inode → Inode}
    (hf : ∀ n, P n (f n)) : Persists P fs (fs'.modify i f) :=
  h.trans hP.trans (persists_modify hP.refl fun n _ => hf n)

/-- What is done to a new inode does not matter. -/
theorem Persists.modify_next (h : Persists P fs fs') (f : Inode → Inode) :
    Persists P fs (fs'.modify fs.next f) := by
  intro k n hn
  obtain ⟨n', hn', hp⟩ := h k n hn
  exact ⟨n', by rw [modify_node_ne f (ne_next hn), hn'], hp⟩

/-- What holds of every inode survives something new. -/
theorem persists_created (hP : Stable P) (links : ℕ → ℕ) (m : Inode) :
    Persists P fs (fs.created d x links m) :=
  (persists_alloc hP.refl m).modify hP d fun n => hP.entries n _ _

theorem persists_addEntry (hP : Stable P) (links : ℕ → ℕ) :
    Persists P fs (fs.addEntry d x i links) :=
  (Persists.refl hP.refl fs).modify hP d fun n => hP.entries n _ _

theorem persists_delEntry (hP : Stable P) (links : ℕ → ℕ) :
    Persists P fs (fs.delEntry d x links) :=
  (Persists.refl hP.refl fs).modify hP d fun n => hP.entries n _ _

/-- It survives what a rename replaces. -/
theorem persists_displace (hP : Stable P) (j : Ino) : Persists P fs (fs.displace d x j) := by
  unfold displace
  split
  · exact (persists_delEntry hP _).modify hP j fun n => hP.links n _
  · exact (persists_delEntry hP _).modify hP j fun n => hP.links n _

/-- It survives a move. -/
theorem persists_moveEntry (hP : Stable P) (d₂ : Ino) (x₂ : Name) :
    Persists P fs (fs.moveEntry d x d₂ x₂ i) := by
  unfold moveEntry
  split
  · exact ((persists_delEntry hP _).trans hP.trans (persists_addEntry hP _)).modify hP i
      fun n => hP.parent n _
  · exact (persists_delEntry hP _).trans hP.trans (persists_addEntry hP _)

/-- It survives `mkdir`. -/
theorem persists_mkdir (hP : Stable P) (h : fs.mkdir umask p mode = .ok fs') :
    Persists P fs fs' := by
  obtain ⟨d, x, parent, -, -, rfl⟩ := mkdir_eq_ok.mp h
  exact persists_created hP _ _

/-- It survives `link`. -/
theorem persists_link (hP : Stable P) {q : CStr} (h : fs.link p q = .ok fs') :
    Persists P fs fs' := by
  obtain ⟨i, d, x, -, -, -, rfl⟩ := link_eq_ok.mp h
  exact (persists_addEntry hP _).modify hP i fun n => hP.links n _

/-- It survives `unlink`. -/
theorem persists_unlink (hP : Stable P) (h : fs.unlink p = .ok fs') : Persists P fs fs' := by
  obtain ⟨d, x, i, -, -, -, -, -, rfl⟩ := unlink_eq_ok.mp h
  exact (persists_delEntry hP _).modify hP i fun n => hP.links n _

/-- It survives `rmdir`. -/
theorem persists_rmdir (hP : Stable P) (h : fs.rmdir p = .ok fs') : Persists P fs fs' := by
  obtain ⟨d, x, i, parent, -, -, -, -, -, rfl⟩ := rmdir_eq_ok.mp h
  exact (persists_delEntry hP _).modify hP i fun n => hP.links n _

/-- It survives `rename`. -/
theorem persists_rename (hP : Stable P) {q : CStr} (h : fs.rename p q = .ok fs') :
    Persists P fs fs' := by
  obtain ⟨d₁, x₁, d₂, x₂, i, -, -, -, -, -, -, -, h⟩ := rename_eq_ok h
  rcases h with ⟨-, rfl⟩ | ⟨-, rfl⟩ | ⟨j, -, -, -, rfl⟩
  · exact persists_moveEntry hP _ _
  · exact Persists.refl hP.refl _
  · exact (persists_displace hP j).trans hP.trans (persists_moveEntry hP _ _)

/-! ## Opening -/

/-- Opening what is there truncates a regular file, or changes nothing. -/
theorem openExisting_eq_ok {k : Ino} (h : fs.openExisting flags i = .ok (k, fs')) :
    k = i ∧ ∃ n, fs.node i = some n ∧
      ((fs' = fs ∧ ¬ (n.kind = .reg ∧ hasBit flags O_TRUNC = true)) ∨
        (n.kind = .reg ∧ hasBit flags O_TRUNC = true ∧
          fs' = fs.modify i (Inode.setData []))) := by
  unfold openExisting at h
  simp only [bind_eq_ok, need_eq_ok, orElse_eq_ok, exists_const] at h
  obtain ⟨n, hn, -, -, -, -, h⟩ := h
  by_cases ht : n.kind = .reg ∧ hasBit flags O_TRUNC = true
  · rw [if_pos ht, pure_eq_ok, Prod.mk.injEq] at h
    exact ⟨h.1.symm, n, hn, .inr ⟨ht.1, ht.2, h.2.symm⟩⟩
  · rw [if_neg ht, pure_eq_ok, Prod.mk.injEq] at h
    exact ⟨h.1.symm, n, hn, .inl ⟨h.2.symm, ht⟩⟩

/-- The ways in which `open` leaves the tree: as it was, with a new inode, or with the opened file
truncated. -/
inductive OpenEffect (fs : FS) (flags : UInt32) (i : Ino) : FS → Prop
  | same (hkeep : hasBit flags O_PATH = false → ∀ n, fs.node i = some n → n.kind = .reg →
      hasBit flags O_TRUNC = false) : OpenEffect fs flags i fs
  | unnamed (m : Inode) (hi : i = fs.next) : OpenEffect fs flags i (fs.alloc m)
  | made (d : Ino) (x : Name) (m : Inode) (hi : i = fs.next) :
      OpenEffect fs flags i (fs.created d x id m)
  | truncated (n : Inode) (hn : fs.node i = some n) (hreg : n.kind = .reg)
      (hp : hasBit flags O_PATH = false) (ht : hasBit flags O_TRUNC = true) :
      OpenEffect fs flags i (fs.modify i (Inode.setData []))

/-- What opening what is there does. -/
theorem openExisting_effect {k : Ino} (hp : ¬ hasBit flags O_PATH = true)
    (h : fs.openExisting flags i = .ok (k, fs')) : OpenEffect fs flags k fs' := by
  obtain ⟨rfl, n, hn, ⟨rfl, hno⟩ | ⟨hreg, ht, rfl⟩⟩ := openExisting_eq_ok h
  · refine .same fun _ n' hn' hreg => ?_
    obtain rfl : n = n' := by simpa [hn] using hn'
    simpa [hreg] using hno
  · exact .truncated n hn hreg (by simpa using hp) ht

/-- **What `open` does** to the inode that it opens. -/
theorem openAt_effect (h : fs.openAt umask p flags mode = .ok (i, fs')) :
    OpenEffect fs flags i fs' := by
  unfold openAt at h
  simp only at h
  generalize (if hasBit flags O_NOFOLLOW = true then fs.lresolve p else fs.resolve p) = lookup at h
  split at h
  · next hp =>
    simp only [bind_eq_ok, need_eq_ok, exists_const, pure_eq_ok, Prod.mk.injEq] at h
    obtain ⟨-, -, -, -, rfl⟩ := h
    exact .same fun hp' => by rw [hp] at hp'; cases hp'
  · next hp =>
    split at h
    · simp only [bind_eq_ok, need_eq_ok, orElse_eq_ok, exists_const, pure_eq_ok,
        Prod.mk.injEq] at h
      obtain ⟨-, -, -, -, -, parent, -, rfl, rfl⟩ := h
      exact .unnamed _ rfl
    · split at h
      · simp only [bind_eq_ok, need_eq_ok, exists_const] at h
        obtain ⟨-, -, -, -, h⟩ := h
        split at h
        · obtain ⟨d, x, parent, -, -, rfl, rfl⟩ := create_eq_ok.mp h
          exact .made d x _ rfl
        · simp only [openOrCreate, bind_eq_ok, need_eq_ok, exists_const, Prod.exists] at h
          obtain ⟨d, x, -, -, -, h⟩ := h
          split at h
          · exact openExisting_effect hp h
          · obtain ⟨parent, -, rfl, rfl⟩ := createAt_eq_ok.mp h
            exact .made d x _ rfl
      · simp only [bind_eq_ok] at h
        obtain ⟨k, -, h⟩ := h
        exact openExisting_effect hp h

/-- It survives `open` if it survives truncation. -/
theorem persists_openAt (hP : Stable P)
    (htrunc : ∀ n, n.kind = .reg → P n (Inode.setData [] n))
    (h : fs.openAt umask p flags mode = .ok (i, fs')) : Persists P fs fs' := by
  cases openAt_effect h with
  | same => exact Persists.refl hP.refl _
  | unnamed m => exact persists_alloc hP.refl m
  | made d x m => exact persists_created hP _ _
  | truncated n hn hreg =>
      refine persists_modify hP.refl fun n' hn' => ?_
      obtain rfl : n = n' := by simpa [hn] using hn'
      exact htrunc n hreg

end FS

end Posix
