import NetworkFileSystem.Posix.Operations

/-!
# What a call that succeeded has done

One inversion lemma for each call of `Operations`: the checks that were passed and the tree that
is left, in terms of `FS.alloc`, `FS.modify` and the entry operations.  Everything else about the
calls is derived from these lemmas.
-/

namespace Posix

open Effects

namespace FS

variable {fs fs' : FS} {p : CStr} {d i : Ino} {x : Name} {umask mode : UInt32}

/-- The paths that a system call takes: not empty, and shorter than `PATH_MAX`. -/
theorem getname_eq_ok {u : Unit} : getname p = .ok u ↔ p ≠ [] ∧ p.length < 4096 := by
  unfold getname
  simp only [bind_eq_ok, need_eq_ok, exists_const]

/-- A path with an entry is one that a call takes. -/
theorem getname_of_slot (h : fs.slot p = .ok (d, x)) : getname p = .ok () := by
  unfold slot at h
  rw [bind_eq_ok] at h
  obtain ⟨⟨⟩, hu, -⟩ := h
  exact hu

/-- A directory with its entries. -/
theorem dir_eq_ok {parent : Ino} {es : List (Name × Ino)} :
    fs.dir d = .ok (parent, es) ↔ ∃ n, fs.node d = some n ∧ n.body = .dir parent es := by
  unfold dir
  constructor
  · intro h
    split at h
    · next n hn =>
      split at h
      · next q es' hb =>
        cases h
        exact ⟨n, hn, hb⟩
      · cases h
    · cases h
  · rintro ⟨n, hn, hb⟩
    simp [hn, hb]

/-- An inode that is a directory. -/
theorem isDir_iff : fs.isDir i = true ↔ ∃ n, fs.node i = some n ∧ n.kind = .dir := by
  unfold isDir
  cases fs.node i <;> simp

/-- **An entry** of a directory. -/
theorem child_eq_ok {k : Ino} : fs.child d x = .ok k ↔ ∃ parent es, fs.dir d = .ok (parent, es) ∧
    x.length ≤ 255 ∧ pick d parent es x = some k ∧ (fs.node k).isSome := by
  unfold child
  simp only [bind_eq_ok, need_eq_ok, orElse_eq_ok, exists_const, pure_eq_ok, Prod.exists]
  constructor
  · rintro ⟨parent, es, hd, hx, k', hp, hk, rfl⟩
    exact ⟨parent, es, hd, hx, hp, hk⟩
  · rintro ⟨parent, es, hd, hx, hp, hk⟩
    exact ⟨parent, es, hd, hx, k, hp, hk, rfl⟩

/-! ## Making names -/

/-- **Where something can be made**: the entry is not there, and its name is an ordinary one. -/
theorem vacant_eq_ok {dirOk : Bool} : fs.vacant p dirOk = .ok (d, x) ↔
    fs.slot p = .ok (d, x) ∧ special x = false ∧ x.length ≤ 255 ∧
      isOk (fs.child d x) = false ∧ (dirOk = true ∨ trailing p = false) := by
  unfold vacant
  simp only [bind_eq_ok, need_eq_ok, exists_const, pure_eq_ok, Prod.exists, Prod.mk.injEq]
  constructor
  · rintro ⟨d', x', hs, h1, h2, h3, h4, rfl, rfl⟩
    exact ⟨hs, h1, h2, h3, h4⟩
  · rintro ⟨hs, h1, h2, h3, h4⟩
    exact ⟨d, x, hs, h1, h2, h3, h4, rfl, rfl⟩

/-- The tree after a new inode has got a new name. -/
def created (fs : FS) (d : Ino) (x : Name) (links : ℕ → ℕ) (n : Inode) : FS :=
  (fs.alloc n).addEntry d x fs.next links

/-- Something new in a directory. -/
theorem createAt_eq_ok {links : ℕ → ℕ} {mk : Inode → Inode} :
    fs.createAt d x links mk = .ok (i, fs') ↔
      ∃ parent, fs.node d = some parent ∧ i = fs.next ∧
        fs' = fs.created d x links (mk parent) := by
  unfold createAt created
  simp only [bind_eq_ok, orElse_eq_ok, pure_eq_ok, Prod.mk.injEq]
  constructor
  · rintro ⟨parent, hd, rfl, rfl⟩
    exact ⟨parent, hd, rfl, rfl⟩
  · rintro ⟨parent, hd, rfl, rfl⟩
    exact ⟨parent, hd, rfl, rfl⟩

/-- Something new under a path. -/
theorem create_eq_ok {dirOk : Bool} {links : ℕ → ℕ} {mk : Ino → Inode → Inode} :
    fs.create p dirOk links mk = .ok (i, fs') ↔
      ∃ d x parent, fs.vacant p dirOk = .ok (d, x) ∧ fs.node d = some parent ∧ i = fs.next ∧
        fs' = fs.created d x links (mk d parent) := by
  unfold create
  simp only [bind_eq_ok, createAt_eq_ok, Prod.exists]
  constructor
  · rintro ⟨d, x, hv, parent, hd, hi, hfs⟩
    exact ⟨d, x, parent, hv, hd, hi, hfs⟩
  · rintro ⟨d, x, parent, hv, hd, hi, hfs⟩
    exact ⟨d, x, hv, parent, hd, hi, hfs⟩

/-- What has been made is at the next inode number. -/
theorem created_node (hd : (fs.node d).isSome) {links : ℕ → ℕ} {n : Inode} :
    (fs.created d x links n).node fs.next = some n := by
  have hne : fs.next ≠ d := by
    rintro rfl
    simp at hd
  rw [created, addEntry, modify_node_ne _ hne, alloc_node_next]

/-- When `mkdir` succeeds, and with what. -/
theorem mkdir_eq_ok : fs.mkdir umask p mode = .ok fs' ↔
    ∃ d x parent, fs.vacant p true = .ok (d, x) ∧ fs.node d = some parent ∧
      fs' = fs.created d x (· + 1)
        (parent.born (.dir d []) (mode &&& 0o1777 &&& ~~~umask)) := by
  unfold mkdir
  simp only [bind_eq_ok, create_eq_ok, pure_eq_ok, Prod.exists]
  constructor
  · rintro ⟨i, fs₁, ⟨d, x, parent, hv, hd, -, rfl⟩, rfl⟩
    exact ⟨d, x, parent, hv, hd, rfl⟩
  · rintro ⟨d, x, parent, hv, hd, rfl⟩
    exact ⟨_, _, ⟨d, x, parent, hv, hd, rfl, rfl⟩, rfl⟩

/-- `mknod` makes neither links nor directories. -/
theorem kind_specialBody {dev : Int} {body : Body} (h : specialBody mode dev = .ok body) :
    body.kind ≠ .symlink ∧ body.kind ≠ .dir := by
  unfold specialBody at h
  simp only at h
  repeat' split at h
  all_goals first | (cases h; decide) | cases h
  all_goals exact ⟨by simp [Body.kind], by simp [Body.kind]⟩

/-- When `mknod` succeeds, and with what. -/
theorem mknod_eq_ok {dev : Int} : fs.mknod umask p mode dev = .ok fs' ↔
    ∃ body d x parent, specialBody mode dev = .ok body ∧ fs.vacant p false = .ok (d, x) ∧
      fs.node d = some parent ∧
      fs' = fs.created d x id (parent.born body (mode &&& 0o7777 &&& ~~~umask)) := by
  unfold mknod
  simp only [bind_eq_ok, create_eq_ok, pure_eq_ok, Prod.exists]
  constructor
  · rintro ⟨body, hb, i, fs₁, ⟨d, x, parent, hv, hd, -, rfl⟩, rfl⟩
    exact ⟨body, d, x, parent, hb, hv, hd, rfl⟩
  · rintro ⟨body, d, x, parent, hb, hv, hd, rfl⟩
    exact ⟨body, hb, _, _, ⟨d, x, parent, hv, hd, rfl, rfl⟩, rfl⟩

/-- `open` in the way in which `bb_mknod_6_svc` makes regular files. -/
theorem openAt_excl : fs.openAt umask p (O_CREAT ||| O_EXCL ||| O_WRONLY) mode = (do
    getname p
    need (trailing p = false) EISDIR
    fs.create p false id fun _ parent =>
      parent.born (.reg []) (mode &&& 0o7777 &&& ~~~umask)) := by
  have h1 : hasBit (O_CREAT ||| O_EXCL ||| O_WRONLY) O_PATH = false := by decide
  have h2 : hasBit (O_CREAT ||| O_EXCL ||| O_WRONLY) O_TMPFILE_BIT = false := by decide
  have h3 : hasBit (O_CREAT ||| O_EXCL ||| O_WRONLY) O_CREAT = true := by decide
  have h4 : hasBit (O_CREAT ||| O_EXCL ||| O_WRONLY) O_EXCL = true := by decide
  have h5 : hasBit (O_CREAT ||| O_EXCL ||| O_WRONLY) O_DIRECTORY = false := by decide
  simp only [openAt, h1, h2, h3, h4, h5, Bool.false_eq_true, if_false, if_true]
  rfl

/-- When an exclusive `open` succeeds, and with what. -/
theorem openAt_excl_eq_ok :
    fs.openAt umask p (O_CREAT ||| O_EXCL ||| O_WRONLY) mode = .ok (i, fs') ↔
      ∃ d x parent, fs.vacant p false = .ok (d, x) ∧ fs.node d = some parent ∧ i = fs.next ∧
        fs' = fs.created d x id (parent.born (.reg []) (mode &&& 0o7777 &&& ~~~umask)) := by
  rw [openAt_excl]
  simp only [bind_eq_ok, need_eq_ok, exists_const, create_eq_ok]
  constructor
  · rintro ⟨-, -, -, h⟩
    exact h
  · rintro ⟨d, x, parent, hv, hd, hi, hfs⟩
    obtain ⟨hs, -, -, -, ht⟩ := vacant_eq_ok.mp hv
    exact ⟨(), getname_of_slot hs, by simpa using ht, d, x, parent, hv, hd, hi, hfs⟩

/-- When `symlink` succeeds, and with what. -/
theorem symlink_eq_ok {target : CStr} : fs.symlink target p = .ok fs' ↔
    getname target = .ok () ∧ ∃ d x parent, fs.vacant p false = .ok (d, x) ∧
      fs.node d = some parent ∧
      fs' = fs.created d x id (parent.born (.symlink target) 0o777) := by
  unfold symlink
  simp only [bind_eq_ok, create_eq_ok, pure_eq_ok, Prod.exists]
  constructor
  · rintro ⟨⟨⟩, ht, i, fs₁, ⟨d, x, parent, hv, hd, -, rfl⟩, rfl⟩
    exact ⟨ht, d, x, parent, hv, hd, rfl⟩
  · rintro ⟨ht, d, x, parent, hv, hd, rfl⟩
    exact ⟨(), ht, _, _, ⟨d, x, parent, hv, hd, rfl, rfl⟩, rfl⟩

/-- When `link` succeeds, and with what. -/
theorem link_eq_ok {old new : CStr} : fs.link old new = .ok fs' ↔
    ∃ i d x, fs.lresolve old = .ok i ∧ fs.vacant new false = .ok (d, x) ∧
      fs.isDir i = false ∧
      fs' = (fs.addEntry d x i id).modify i (Inode.setLinks (· + 1)) := by
  unfold link
  simp only [bind_eq_ok, need_eq_ok, exists_const, pure_eq_ok, Prod.exists]
  constructor
  · rintro ⟨i, hi, d, x, hv, hdir, rfl⟩
    exact ⟨i, d, x, hi, hv, hdir, rfl⟩
  · rintro ⟨i, d, x, hi, hv, hdir, rfl⟩
    exact ⟨i, hi, d, x, hv, hdir, rfl⟩

/-! ## Removing names -/

/-- When `unlink` succeeds, and with what. -/
theorem unlink_eq_ok : fs.unlink p = .ok fs' ↔
    ∃ d x i, fs.slot p = .ok (d, x) ∧ special x = false ∧ fs.child d x = .ok i ∧
      fs.isDir i = false ∧ trailing p = false ∧
      fs' = (fs.delEntry d x id).modify i (Inode.setLinks (· - 1)) := by
  unfold unlink
  simp only [bind_eq_ok, need_eq_ok, exists_const, pure_eq_ok, Prod.exists]
  constructor
  · rintro ⟨d, x, hs, hx, i, hi, hdir, ht, rfl⟩
    exact ⟨d, x, i, hs, hx, hi, hdir, ht, rfl⟩
  · rintro ⟨d, x, i, hs, hx, hi, hdir, ht, rfl⟩
    exact ⟨d, x, hs, hx, i, hi, hdir, ht, rfl⟩

/-- When `rmdir` succeeds, and with what. -/
theorem rmdir_eq_ok : fs.rmdir p = .ok fs' ↔
    ∃ d x i parent, fs.slot p = .ok (d, x) ∧ special x = false ∧ fs.child d x = .ok i ∧
      fs.dir i = .ok (parent, []) ∧ i ≠ fs.root ∧
      fs' = (fs.delEntry d x (· - 1)).modify i (Inode.setLinks fun _ => 0) := by
  unfold rmdir special
  simp only [bind_eq_ok, need_eq_ok, exists_const, pure_eq_ok, Prod.exists]
  constructor
  · rintro ⟨d, x, hs, h1, h2, h3, i, hi, parent, es, hes, rfl, hr, rfl⟩
    exact ⟨d, x, i, parent, hs, by simp [h1, h2, h3], hi, hes, hr, rfl⟩
  · rintro ⟨d, x, i, parent, hs, hx, hi, hes, hr, rfl⟩
    have hx' : x ≠ [] ∧ x ≠ dot ∧ x ≠ dotdot := by simpa using hx
    exact ⟨d, x, hs, hx'.1, hx'.2.1, hx'.2.2, i, hi, parent, [], hes, rfl, hr, rfl⟩

/-! ## Renaming -/

/-- What a rename that succeeded has done: it moved an entry to a free name, it took the name
of another inode, or both names were of one inode and nothing happened. -/
theorem rename_eq_ok {old new : CStr} (h : fs.rename old new = .ok fs') :
    ∃ d₁ x₁ d₂ x₂ i, fs.slot old = .ok (d₁, x₁) ∧ fs.slot new = .ok (d₂, x₂) ∧
      special x₁ = false ∧ special x₂ = false ∧ fs.child d₁ x₁ = .ok i ∧ x₂.length ≤ 255 ∧
      i ∉ fs.above maxDepth d₂ ∧
      ((isOk (fs.child d₂ x₂) = false ∧ fs' = fs.moveEntry d₁ x₁ d₂ x₂ i) ∨
        (fs.child d₂ x₂ = .ok i ∧ fs' = fs) ∨
        ∃ j, fs.child d₂ x₂ = .ok j ∧ i ≠ j ∧ fs.replaceable i j = .ok () ∧
          fs' = (fs.displace d₂ x₂ j).moveEntry d₁ x₁ d₂ x₂ i) := by
  unfold rename at h
  simp only [bind_eq_ok, need_eq_ok, exists_const, Prod.exists] at h
  obtain ⟨d₁, x₁, h₁, d₂, x₂, h₂, hx, i, hi, hlen, -, ha, h⟩ := h
  refine ⟨d₁, x₁, d₂, x₂, i, h₁, h₂, hx.1, hx.2, hi, hlen, ha, ?_⟩
  cases hc : fs.child d₂ x₂ with
  | error e =>
      rw [hc] at h
      exact .inl ⟨rfl, (pure_eq_ok.mp h).symm⟩
  | ok j =>
      rw [hc] at h
      simp only [bind_eq_ok, need_eq_ok, exists_const] at h
      obtain ⟨-, h⟩ := h
      split at h
      · next hij =>
        exact .inr (.inl ⟨by rw [hij], (pure_eq_ok.mp h).symm⟩)
      · next hij =>
        rw [bind_eq_ok] at h
        obtain ⟨⟨⟩, hr, h⟩ := h
        exact .inr (.inr ⟨j, rfl, hij, hr, (pure_eq_ok.mp h).symm⟩)

/-! ## Attributes and content -/

/-- When `truncate` succeeds, and with what. -/
theorem truncate_eq_ok {len : Int} : fs.truncate p len = .ok fs' ↔
    ∃ i n d, 0 ≤ len ∧ fs.resolve p = .ok i ∧ fs.node i = some n ∧ n.body = .reg d ∧
      fs' = fs.modify i (Inode.setData (resize d len.toNat)) := by
  unfold truncate
  simp only [bind_eq_ok, need_eq_ok, orElse_eq_ok, exists_const]
  constructor
  · rintro ⟨hlen, i, hi, n, hn, h⟩
    split at h
    · cases h
    · next d hd =>
      exact ⟨i, n, d, hlen, hi, hn, hd, (pure_eq_ok.mp h).symm⟩
    · cases h
  · rintro ⟨i, n, d, hlen, hi, hn, hd, rfl⟩
    refine ⟨hlen, i, hi, n, hn, ?_⟩
    rw [hd]
    rfl

/-- The calls that look a path up and rewrite the inode they find. -/
theorem bind_modify_eq_ok {r : Except Errno Ino} {f : Inode → Inode} :
    (do let i ← r; pure (fs.modify i f) : Except Errno FS) = .ok fs' ↔
      ∃ i, r = .ok i ∧ fs' = fs.modify i f := by
  simp only [bind_eq_ok, pure_eq_ok]
  constructor
  · rintro ⟨i, hi, rfl⟩
    exact ⟨i, hi, rfl⟩
  · rintro ⟨i, hi, rfl⟩
    exact ⟨i, hi, rfl⟩

/-- When `chmod` succeeds, and with what. -/
theorem chmod_eq_ok : fs.chmod p mode = .ok fs' ↔
    ∃ i, fs.resolve p = .ok i ∧ fs' = fs.modify i (Inode.setPerm mode) := bind_modify_eq_ok

/-- When `chown` succeeds, and with what. -/
theorem chown_eq_ok {uid gid : UInt32} : fs.chown p uid gid = .ok fs' ↔
    ∃ i, fs.resolve p = .ok i ∧ fs' = fs.modify i (Inode.setOwner uid gid) := bind_modify_eq_ok

/-- When `lchown` succeeds, and with what. -/
theorem lchown_eq_ok {uid gid : UInt32} : fs.lchown p uid gid = .ok fs' ↔
    ∃ i, fs.lresolve p = .ok i ∧ fs' = fs.modify i (Inode.setOwner uid gid) := bind_modify_eq_ok

/-- When `utime` succeeds, and with what. -/
theorem utime_eq_ok {actime modtime : Int} : fs.utime p actime modtime = .ok fs' ↔
    ∃ i, fs.resolve p = .ok i ∧ fs' = fs.modify i (Inode.setTimes actime modtime) :=
  bind_modify_eq_ok

end FS

end Posix
