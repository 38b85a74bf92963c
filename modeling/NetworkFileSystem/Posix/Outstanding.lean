import NetworkFileSystem.Posix.Repetition

/-!
# Owners that are still to be given

A new inode belongs to the superuser until its owner is changed by a call of its own.  `FS.given`
is the tree in which the changes of owner that are still outstanding have been made.  No name
depends on them, so the calls that make, remove and move names do to that tree what they do to the
tree as it is (`mkdir_given`, `rename_given` and their like).  The one exception is a new inode in
a directory that hands its group on: its group depends on the owner of the directory.
-/

namespace Posix

open Effects

namespace Inode

variable {n : Inode} {o : Option UInt32}

/-- The inode with the owner that it is to get. -/
def give (o : Option UInt32) (n : Inode) : Inode :=
  match o with
  | some u => n.setOwner u u
  | none => n

@[simp] theorem give_none (n : Inode) : n.give none = n := rfl

@[simp] theorem give_some (n : Inode) (u : UInt32) : n.give (some u) = n.setOwner u u := rfl

@[simp] theorem give_body (o : Option UInt32) (n : Inode) : (n.give o).body = n.body := by
  cases o <;> rfl

/-- A directory keeps its permission bits when it gets its owner. -/
theorem give_perm_of_dir (h : n.kind = .dir) : (n.give o).perm = n.perm := by
  cases o with
  | none => rfl
  | some u => exact if_pos h

/-- Entries and owners have nothing to do with each other. -/
theorem give_onEntries (f : List (Name × Ino) → List (Name × Ino)) (links : ℕ → ℕ) :
    (n.onEntries f links).give o = (n.give o).onEntries f links := by
  cases o with
  | none => rfl
  | some u =>
      cases hb : n.body <;>
        simp [Inode.onEntries, Inode.setOwner, Inode.kind, Body.kind, hb]

theorem give_setLinks (f : ℕ → ℕ) : (n.setLinks f).give o = (n.give o).setLinks f := by
  cases o <;> rfl

theorem give_setParent (d : Ino) : (n.setParent d).give o = (n.give o).setParent d := by
  cases o with
  | none => rfl
  | some u =>
      cases hb : n.body <;>
        simp [Inode.setParent, Inode.setOwner, Inode.kind, Body.kind, hb]

end Inode

namespace FS

variable {fs : FS} {owed : Ino → Option UInt32} {p q : CStr} {d i j : Ino} {x : Name}
  {umask mode : UInt32}

/-- The tree once the owners that are owed have been given. -/
def given (fs : FS) (owed : Ino → Option UInt32) : FS where
  root := fs.root
  node k := (fs.node k).map (Inode.give (owed k))
  next := fs.next
  fresh k hk := by simp [fs.fresh k hk]

@[simp] theorem given_root : (fs.given owed).root = fs.root := rfl

@[simp] theorem given_next : (fs.given owed).next = fs.next := rfl

@[simp] theorem given_node (k : Ino) :
    (fs.given owed).node k = (fs.node k).map (Inode.give (owed k)) := rfl

/-- Where nothing is owed the tree is what it is. -/
theorem given_none (fs : FS) : fs.given (fun _ => none) = fs := by
  refine eq_of_nodes rfl (fun k => ?_) rfl
  rw [given_node]
  cases fs.node k <;> rfl

/-! ## The same names -/

/-- Owners do not move names. -/
theorem sameNames_given : SameNames fs (fs.given owed) where
  root_eq := rfl
  dir_eq d := by
    simp only [dir, given_node]
    cases fs.node d <;> simp
  link_eq i := by
    simp only [linkTarget, given_node]
    cases fs.node i <;> simp
  some_eq i := by simp

theorem isDir_eq_isOk (fs : FS) (i : Ino) : fs.isDir i = isOk (fs.dir i) := by
  unfold isDir dir
  cases fs.node i with
  | none => rfl
  | some n => cases hb : n.body <;> simp [Inode.kind, Body.kind, hb]

namespace SameNames

variable {fs' : FS}

theorem isDir_eq (h : SameNames fs fs') (i : Ino) : fs'.isDir i = fs.isDir i := by
  rw [isDir_eq_isOk, isDir_eq_isOk, h.dir_eq]

/-- A path names the same entry. -/
theorem slot_eq (h : SameNames fs fs') (p : CStr) : fs'.slot p = fs.slot p := by
  simp only [slot, h.root_eq, h.walk_eq, h.dir_eq]

/-- A path leads to the same inode. -/
theorem lresolve_eq (h : SameNames fs fs') (p : CStr) : fs'.lresolve p = fs.lresolve p := by
  simp only [lresolve, h.root_eq, h.walk_eq, h.child_eq]

/-- The same paths are free. -/
theorem vacant_eq (h : SameNames fs fs') (p : CStr) (dirOk : Bool) :
    fs'.vacant p dirOk = fs.vacant p dirOk := by
  simp only [vacant, h.slot_eq, h.child_eq]

/-- The same directories stand above. -/
theorem above_eq (h : SameNames fs fs') (n : ℕ) (d : Ino) : fs'.above n d = fs.above n d := by
  induction n generalizing d with
  | zero => rfl
  | succ n ih => simp only [above, h.root_eq, h.dir_eq, ih]

/-- A rename may replace the same. -/
theorem replaceable_eq (h : SameNames fs fs') (i j : Ino) :
    fs'.replaceable i j = fs.replaceable i j := by
  simp only [replaceable, h.isDir_eq, h.dir_eq]

end SameNames

/-! ## The same changes -/

/-- A change that does not look at the owner can be made before what is owed is given, or after. -/
theorem given_modify {f : Inode → Inode}
    (hf : ∀ n : Inode, (f n).give (owed i) = f (n.give (owed i))) :
    (fs.modify i f).given owed = (fs.given owed).modify i f := by
  refine eq_of_nodes rfl (fun k => ?_) rfl
  simp only [given_node, modify_node]
  by_cases hk : k = i
  · subst hk
    simp [Function.comp_def, hf]
  · simp [hk]

/-- A new inode, for which nothing is owed. -/
theorem given_alloc (h : owed fs.next = none) (n : Inode) :
    (fs.alloc n).given owed = (fs.given owed).alloc n := by
  refine eq_of_nodes rfl (fun k => ?_) rfl
  simp only [given_node, alloc_node, given_next]
  by_cases hk : k = fs.next
  · subst hk
    simp [h]
  · simp [hk]

theorem given_addEntry (links : ℕ → ℕ) :
    (fs.addEntry d x i links).given owed = (fs.given owed).addEntry d x i links :=
  given_modify fun _ => Inode.give_onEntries _ _

theorem given_delEntry (links : ℕ → ℕ) :
    (fs.delEntry d x links).given owed = (fs.given owed).delEntry d x links :=
  given_modify fun _ => Inode.give_onEntries _ _

theorem given_setLinks (f : ℕ → ℕ) : (fs.modify i (Inode.setLinks f)).given owed =
    (fs.given owed).modify i (Inode.setLinks f) := given_modify fun _ => Inode.give_setLinks f

/-- Something new under a path, for which nothing is owed. -/
theorem given_created (h : owed fs.next = none) (links : ℕ → ℕ) (n : Inode) :
    (fs.created d x links n).given owed = (fs.given owed).created d x links n := by
  unfold created
  rw [given_addEntry, given_alloc h, given_next]

theorem given_displace : (fs.displace d x j).given owed = (fs.given owed).displace d x j := by
  unfold displace
  rw [sameNames_given.isDir_eq]
  split <;> rw [given_setLinks, given_delEntry]

theorem given_moveEntry {d₁ d₂ : Ino} {x₁ x₂ : Name} :
    (fs.moveEntry d₁ x₁ d₂ x₂ i).given owed = (fs.given owed).moveEntry d₁ x₁ d₂ x₂ i := by
  unfold moveEntry
  rw [sameNames_given.isDir_eq]
  split
  · rw [given_modify (f := Inode.setParent d₂) fun _ => Inode.give_setParent d₂, given_addEntry,
      given_delEntry]
  · rw [given_addEntry, given_delEntry]

/-- A further owner that is owed for the newest inode. -/
theorem given_update (u : UInt32) : fs.given (Function.update owed i (some u)) =
    (fs.given (Function.update owed i none)).modify i (Inode.setOwner u u) := by
  refine eq_of_nodes rfl (fun k => ?_) rfl
  simp only [given_node, modify_node]
  by_cases hk : k = i
  · subst hk
    cases fs.node k <;> simp
  · simp [hk]

/-- Giving an owner that is owed makes no difference. -/
theorem given_setOwner {u : UInt32} (h : owed i = some u) :
    (fs.modify i (Inode.setOwner u u)).given (Function.update owed i none) = fs.given owed := by
  refine eq_of_nodes rfl (fun k => ?_) rfl
  simp only [given_node, modify_node]
  by_cases hk : k = i
  · subst hk
    cases fs.node k <;> simp [h]
  · simp [hk]

/-! ## The calls -/

/-- The group of a new inode does not depend on an owner that is owed. -/
def Settled (fs : FS) (owed : Ino → Option UInt32) (p : CStr) : Prop :=
  ∀ d x n, fs.slot p = .ok (d, x) → fs.node d = some n → hasBit n.perm S_ISGID = true →
    owed d = none

/-- What a new inode takes from its directory does not depend on the directory's owner, unless its
group is inherited. -/
theorem born_give {n : Inode} {o : Option UInt32} (hdir : n.kind = .dir)
    (hset : hasBit n.perm S_ISGID = true → o = none) (body : Body) (perm : UInt32) :
    (n.give o).born body perm = n.born body perm := by
  unfold Inode.born
  rw [Inode.give_perm_of_dir hdir]
  by_cases hbit : hasBit n.perm S_ISGID = true
  · rw [hset hbit]
    rfl
  · simp only [hbit, Bool.false_eq_true, if_false]

/-- **Making something** before what is owed is given, or after. -/
theorem create_given {dirOk : Bool} {links : ℕ → ℕ} {body : Ino → Body} {perm : UInt32}
    (hnext : owed fs.next = none) (hset : Settled fs owed p) :
    (fs.given owed).create p dirOk links (fun d parent => parent.born (body d) perm) =
      (fun r => (r.1, r.2.given owed)) <$>
        fs.create p dirOk links fun d parent => parent.born (body d) perm := by
  unfold create createAt
  rw [sameNames_given.vacant_eq]
  cases hv : fs.vacant p dirOk with
  | error e => rfl
  | ok r =>
      obtain ⟨d, x⟩ := r
      obtain ⟨n, hn⟩ := Option.isSome_iff_exists.mp (isSome_of_vacant hv)
      obtain ⟨⟨parent, es⟩, hr⟩ := (free_of_vacant hv).isDir
      obtain ⟨n', hn', hb⟩ := dir_eq_ok.mp hr
      obtain rfl : n = n' := by simpa [hn] using hn'
      have hdir : n.kind = .dir := by simp [Inode.kind, Body.kind, hb]
      have hborn := born_give (o := owed d) hdir (hset d x n (vacant_eq_ok.mp hv).1 hn)
        (body d) perm
      have hcreated := given_created (d := d) (x := x) hnext links (n.born (body d) perm)
      unfold created at hcreated
      simp [hn, orElse, hborn, hcreated, pure, Except.pure, Functor.map, Except.map]

/-- `mkdir` before what is owed is given, or after. -/
theorem mkdir_given (hnext : owed fs.next = none) (hset : Settled fs owed p) :
    (fs.given owed).mkdir umask p mode = (·.given owed) <$> fs.mkdir umask p mode := by
  unfold mkdir
  rw [@create_given _ _ _ _ _ (fun d => .dir d []) _ hnext hset]
  cases fs.create p true (· + 1) _ <;> rfl

/-- So with `mknod`. -/
theorem mknod_given {dev : Int} (hnext : owed fs.next = none) (hset : Settled fs owed p) :
    (fs.given owed).mknod umask p mode dev = (·.given owed) <$> fs.mknod umask p mode dev := by
  unfold mknod
  cases specialBody mode dev with
  | error e => rfl
  | ok body =>
      simp only [ok_bind]
      rw [@create_given _ _ _ _ _ (fun _ => body) _ hnext hset]
      cases fs.create p false id _ <;> rfl

/-- So with `mkfifo`. -/
theorem mkfifo_given (hnext : owed fs.next = none) (hset : Settled fs owed p) :
    (fs.given owed).mkfifo umask p mode = (·.given owed) <$> fs.mkfifo umask p mode :=
  mknod_given hnext hset

/-- So with an exclusive `open`. -/
theorem openAt_excl_given (hnext : owed fs.next = none) (hset : Settled fs owed p) :
    (fs.given owed).openAt umask p (O_CREAT ||| O_EXCL ||| O_WRONLY) mode =
      (fun r => (r.1, r.2.given owed)) <$>
        fs.openAt umask p (O_CREAT ||| O_EXCL ||| O_WRONLY) mode := by
  rw [openAt_excl, openAt_excl, @create_given _ _ _ _ _ (fun _ => .reg []) _ hnext hset]
  simp only [map_bind]

/-- So with `unlink`. -/
theorem unlink_given : (fs.given owed).unlink p = (·.given owed) <$> fs.unlink p := by
  unfold unlink
  simp only [map_bind, map_pure, sameNames_given.slot_eq, sameNames_given.child_eq,
    sameNames_given.isDir_eq, given_setLinks, given_delEntry]

/-- So with `rmdir`. -/
theorem rmdir_given : (fs.given owed).rmdir p = (·.given owed) <$> fs.rmdir p := by
  unfold rmdir
  simp only [map_bind, map_pure, sameNames_given.slot_eq, sameNames_given.child_eq,
    sameNames_given.dir_eq, given_root, given_setLinks, given_delEntry]
  rfl

/-- So with `rename`. -/
theorem rename_given : (fs.given owed).rename p q = (·.given owed) <$> fs.rename p q := by
  unfold rename
  simp only [map_bind, sameNames_given.slot_eq, sameNames_given.child_eq,
    sameNames_given.isDir_eq, sameNames_given.above_eq, sameNames_given.replaceable_eq]
  refine bind_congr fun r₁ => bind_congr fun r₂ => bind_congr fun _ => bind_congr fun i =>
    bind_congr fun _ => bind_congr fun _ => bind_congr fun _ => ?_
  cases fs.child r₂.1 r₂.2 with
  | error e =>
      rw [map_pure, given_moveEntry]
  | ok j =>
      simp only [map_bind]
      refine bind_congr fun _ => ?_
      split
      · rfl
      · simp only [map_bind, map_pure, given_moveEntry, given_displace]

end FS

end Posix
