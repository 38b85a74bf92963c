import NetworkFileSystem.Posix.Outside
import NetworkFileSystem.Security.SharedRoot
import NetworkFileSystem.Server.Buffers
import NetworkFileSystem.Server.Stderr
import NetworkFileSystem.Service.Handles
import NetworkFileSystem.Service.Locking
import NetworkFileSystem.Service.Mutations

/-!
# Everything stays under `/DFS` (`translate_abspath`)

The server puts `/DFS` in front of every path and hands it to the kernel, which may walk out again:
through `..`, or through a symbolic link.  A request whose lookups do neither (`StaysInside`) is
*contained*: every call of its handler acts on something at or below `/DFS`, and all there is
outside remains as it was (**`contained_run`**).

When clients send no path with `..` and make links to such places only, all requests of a run are
contained (**`contained_of_tame`**).

The descriptors that a process has for itself have no inode here, and what it prints to its standard
error is not part of this.  But the handlers are confined even when the contents of files change
between their calls (**`contains_compute6`**), so messages in files would do no harm.
-/

namespace DFS

open Effects Posix Prog

/-! ## What a call acts on -/

/-- Whatever the lookup finds is at or below `/DFS`. -/
def Finds (fs : FS) (r : Except Errno Ino) : Prop := ∀ i, r = .ok i → FS.Below fs dfsName i

/-- The last name of the path is `/DFS` itself or in a directory below. -/
def Takes (fs : FS) (p : CStr) : Prop :=
  ∀ d x, fs.slot p = .ok (d, x) → FS.special x = false → FS.Inward fs dfsName d [x]

/-- A call by path acts on something at or below `/DFS` only; a link that it makes has an admissible
target. -/
def Confined (T : CStr → Prop) {β : Type} : Sys β → OS → Prop
  | .lstat p, os | .readlink p _, os | .lchown p _ _, os => Finds os.fs (os.fs.lresolve p)
  | .access p _, os | .truncate p _, os | .utime p _ _, os | .chmod p _, os | .chown p _ _, os
  | .statvfs p, os | .opendir p, os => Finds os.fs (os.fs.resolve p)
  | .mkdir p _, os | .rmdir p, os | .unlink p, os | .mkfifo p _, os | .mknod p _ _, os =>
    Takes os.fs p
  | .rename p q, os => Takes os.fs p ∧ Takes os.fs q
  | .link p q, os => Finds os.fs (os.fs.lresolve p) ∧ Takes os.fs q
  -- The entry `/DFS` itself is not to be made a link.
  | .symlink t p, os => T t ∧
    ∀ d x, os.fs.vacant p false = .ok (d, x) → FS.Below os.fs dfsName d
  | .openPath p flags mode, os => ∀ i fs, os.fs.openAt os.umask p flags mode = .ok (i, fs) →
    (FS.Below fs dfsName i ∨ (os.fs.node i).isSome = false) ∧ FS.Spares os.fs fs dfsName
  | _, _ => True

/-- What there was outside. -/
def Outside (fs : FS) (i : Ino) : Prop := (fs.node i).isSome ∧ ¬ FS.Below fs dfsName i

/-- The state of a server that has stayed inside: `/DFS` has its shape, what was outside is there
and has not come inside, and no open file is one of these. -/
structure Walled (T : CStr → Prop) (O : Ino → Prop) (os : OS) : Prop where
  rooted : os.fs.Rooted dfsName
  linked : os.fs.Linked T
  outside : ∀ i, O i → Outside os.fs i
  handles : ∀ fd f i, os.fds.file fd = some f → f.ino = some i → ¬ O i

section

variable {fs fs' : FS} {p : CStr}

/-- With the same names a path leads to the same object, inside or not. -/
theorem Finds.resolve (h : Finds fs (fs.resolve p)) (hs : FS.SameNames fs fs') :
    Finds fs' (fs'.resolve p) := by
  intro i hi
  rw [hs.resolve_eq] at hi
  exact hs.below_iff.mpr (h i hi)

theorem Finds.lresolve (h : Finds fs (fs.lresolve p)) (hs : FS.SameNames fs fs') :
    Finds fs' (fs'.lresolve p) := by
  intro i hi
  rw [hs.lresolve_eq] at hi
  exact hs.below_iff.mpr (h i hi)

theorem Takes.of_sameNames (h : Takes fs p) (hs : FS.SameNames fs fs') : Takes fs' p := by
  intro d x hslot hx
  rw [hs.slot_eq] at hslot
  rcases h d x hslot hx with hb | ⟨hroot, henters⟩
  · exact .inl (hs.below_iff.mpr hb)
  · exact .inr ⟨hroot.trans hs.root_eq.symm, henters⟩

end

/-- What was outside is as it was, and so are the names beside `/DFS`. -/
structure Secluded (O : Ino → Prop) (fs fs' : FS) : Prop where
  root_eq : fs'.root = fs.root
  node_eq : ∀ i, O i → i ≠ fs.root → fs'.node i = fs.node i
  name_iff : O fs.root → ∀ y k, FS.special y = false → y ≠ dfsName →
    (fs'.child fs.root y = .ok k ↔ fs.child fs.root y = .ok k)

section

variable {T : CStr → Prop} {O : Ino → Prop} {fs fs' fs₁ : FS} {os os' : OS} {β : Type}

theorem Secluded.refl : Secluded O fs fs :=
  ⟨rfl, fun _ _ _ => rfl, fun _ _ _ _ _ => Iff.rfl⟩

/-- Two steps that leave what is outside alone. -/
theorem Secluded.trans (h : Secluded O fs fs₁) (h' : Secluded O fs₁ fs') :
    Secluded O fs fs' where
  root_eq := h'.root_eq.trans h.root_eq
  node_eq i hi hroot := by
    rw [← h.node_eq i hi hroot]
    exact h'.node_eq i hi (h.root_eq ▸ hroot)
  name_iff hroot y k hy hne := by
    rw [← h.name_iff hroot y k hy hne, ← h.root_eq]
    exact h'.name_iff (h.root_eq ▸ hroot) y k hy hne

/-- Sparing what is outside now leaves alone what was outside all along. -/
theorem Secluded.of_spares (h : FS.Spares fs fs' dfsName) (ho : ∀ i, O i → Outside fs i) :
    Secluded O fs fs' where
  root_eq := h.root_eq
  node_eq i hi hroot := h.node_eq i (ho i hi).1 (ho i hi).2 hroot
  name_iff hroot y k hy hne := h.name_iff (ho _ hroot).1 (ho _ hroot).2 y k hy hne

/-- A call that spares what is outside and opens nothing. -/
theorem Walled.step (h : Walled T O os) (hR : os'.fs.Rooted dfsName) (hL : os'.fs.Linked T)
    (hs : FS.Spares os.fs os'.fs dfsName)
    (hfds : ∀ fd f i, os'.fds.file fd = some f → f.ino = some i → ¬ O i) :
    Walled T O os' ∧ Secluded O os.fs os'.fs := by
  refine ⟨⟨hR, hL, fun i hi => ⟨hs.some i (h.outside i hi).1, fun hb => ?_⟩, hfds⟩,
    .of_spares hs h.outside⟩
  exact (h.outside i hi).2 (hs.below i (h.outside i hi).1 hb)

/-- A call that leaves the tree alone. -/
theorem Walled.keep (h : Walled T O os) (hfs : os'.fs = os.fs)
    (hfds : ∀ fd f i, os'.fds.file fd = some f → f.ino = some i → ¬ O i) :
    Walled T O os' ∧ Secluded O os.fs os'.fs :=
  h.step (hfs ▸ h.rooted) (hfs ▸ h.linked) (hfs ▸ .refl) hfds

/-- A tree that has been changed at or below `/DFS` only. -/
structure Sealed (T : CStr → Prop) (fs fs' : FS) : Prop where
  rooted : fs'.Rooted dfsName
  linked : fs'.Linked T
  spares : FS.Spares fs fs' dfsName

/-- A call that changes the tree or fails. -/
theorem Walled.tryFS (h : Walled T O os) {r : Except Errno FS}
    (hr : ∀ fs', r = .ok fs' → Sealed T os.fs fs') :
    Walled T O (os.tryFS r).2 ∧ Secluded O os.fs (os.tryFS r).2.fs := by
  cases r with
  | error e => exact h.keep rfl h.handles
  | ok fs' => exact h.step (hr fs' rfl).rooted (hr fs' rfl).linked (hr fs' rfl).spares h.handles

/-- Making a name. -/
theorem sealed_created {p : CStr} {d : Ino} {x : Name} {m : Inode} {links : ℕ → ℕ} {dirOk : Bool}
    (hR : fs.Rooted dfsName) (hL : fs.Linked T) (hp : Takes fs p)
    (hv : fs.vacant p dirOk = .ok (d, x))
    (hm : ∀ parent es, m.body = .dir parent es → parent = d ∧ es = [])
    (hlink : ∀ t, m.body = .symlink t → T t)
    (hentry : d = fs.root → x = dfsName → m.kind ≠ .symlink) :
    Sealed T fs (fs.created d x links m) := by
  have hf := FS.free_of_vacant hv
  have hd := hp d x (FS.vacant_eq_ok.mp hv).1 hf.notSpecial
  exact ⟨hR.created special_dfsName hf hm hentry, hL.created hlink,
    FS.spares_created hR.whole special_dfsName hf hd fun parent es hb => (hm parent es hb).2⟩

theorem sealed_mkdir {umask mode : UInt32} {p : CStr} (hR : fs.Rooted dfsName) (hL : fs.Linked T)
    (hp : Takes fs p) (h : fs.mkdir umask p mode = .ok fs') : Sealed T fs fs' := by
  obtain ⟨d, x, parent, hv, -, rfl⟩ := FS.mkdir_eq_ok.mp h
  refine sealed_created hR hL hp hv ?_ (fun t hb => by cases hb) fun _ _ => by simp [Inode.kind,
    Inode.born, Body.kind]
  intro parent es hb
  cases hb
  exact ⟨rfl, rfl⟩

theorem sealed_mknod {umask mode : UInt32} {dev : Int} {p : CStr} (hR : fs.Rooted dfsName)
    (hL : fs.Linked T) (hp : Takes fs p) (h : fs.mknod umask p mode dev = .ok fs') :
    Sealed T fs fs' := by
  obtain ⟨body, d, x, parent, hb, hv, -, rfl⟩ := FS.mknod_eq_ok.mp h
  obtain ⟨hlink, hdir⟩ := FS.kind_specialBody hb
  refine sealed_created hR hL hp hv ?_ ?_ fun _ _ => hlink
  · intro parent es hbody
    obtain rfl : body = .dir parent es := hbody
    exact absurd rfl hdir
  · intro t hbody
    obtain rfl : body = .symlink t := hbody
    exact absurd rfl hlink

theorem sealed_symlink {t p : CStr} (hR : fs.Rooted dfsName) (hL : fs.Linked T) (ht : T t)
    (hp : ∀ d x, fs.vacant p false = .ok (d, x) → FS.Below fs dfsName d)
    (h : fs.symlink t p = .ok fs') : Sealed T fs fs' := by
  obtain ⟨-, d, x, parent, hv, -, rfl⟩ := FS.symlink_eq_ok.mp h
  have hf := FS.free_of_vacant hv
  have hd := hp d x hv
  refine ⟨hR.created special_dfsName hf (fun _ _ hb => by cases hb) ?_, hL.created ?_,
    FS.spares_created hR.whole special_dfsName hf (.inl hd) fun _ _ hb => by cases hb⟩
  · -- The name of the entry is not free.
    rintro rfl rfl
    obtain ⟨j, hj⟩ := hd.exists_entry
    have hfree := hf.free
    rw [hj] at hfree
    cases hfree
  · intro t' hb
    cases hb
    exact ht

theorem sealed_link {p q : CStr} (hR : fs.Rooted dfsName) (hL : fs.Linked T)
    (hold : Finds fs (fs.lresolve p)) (hnew : Takes fs q) (h : fs.link p q = .ok fs') :
    Sealed T fs fs' := by
  refine ⟨hR.link special_dfsName h hold, ?_, FS.spares_link special_dfsName h hold hnew⟩
  obtain ⟨i, d, x, -, -, -, rfl⟩ := FS.link_eq_ok.mp h
  exact hL.entries.setLinks

theorem sealed_unlink {p : CStr} (hR : fs.Rooted dfsName) (hL : fs.Linked T) (hp : Takes fs p)
    (h : fs.unlink p = .ok fs') : Sealed T fs fs' := by
  refine ⟨hR.unlink special_dfsName h, ?_, FS.spares_unlink special_dfsName h hp⟩
  obtain ⟨d, x, i, -, -, -, -, -, rfl⟩ := FS.unlink_eq_ok.mp h
  exact hL.entries.setLinks

theorem sealed_rmdir {p : CStr} (hR : fs.Rooted dfsName) (hL : fs.Linked T) (hp : Takes fs p)
    (h : fs.rmdir p = .ok fs') : Sealed T fs fs' := by
  refine ⟨hR.rmdir special_dfsName h, ?_, FS.spares_rmdir special_dfsName h hp⟩
  obtain ⟨d, x, i, parent, -, -, -, -, -, rfl⟩ := FS.rmdir_eq_ok.mp h
  exact hL.entries.setLinks

theorem sealed_rename {p q : CStr} (hR : fs.Rooted dfsName) (hL : fs.Linked T)
    (hp : Takes fs p) (hq : Takes fs q) (h : fs.rename p q = .ok fs') : Sealed T fs fs' :=
  ⟨hR.rename special_dfsName h hp, hL.rename h, FS.spares_rename special_dfsName h hp hq⟩

/-- Rewriting one inode at or below `/DFS`. -/
theorem sealed_rewritten {i : Ino} {f : Inode → Inode} (hR : fs.Rooted dfsName) (hL : fs.Linked T)
    (hi : FS.Below fs dfsName i) (hw : FS.SameNames fs (fs.modify i f)) :
    Sealed T fs (fs.modify i f) := by
  refine ⟨hR.of_sameNames hw, fun k t ht => hL k t ?_, ?_⟩
  · rwa [hw.link_eq] at ht
  · exact FS.Rewritten.spares ⟨hw, fun _ hk => FS.modify_node_ne _ hk⟩ hi

/-- Setting an attribute of what a lookup finds. -/
theorem sealed_setAttr {r : Except Errno Ino} {f : Inode → Inode} (hR : fs.Rooted dfsName)
    (hL : fs.Linked T) (hr : Finds fs r) (h : ∃ i, r = .ok i ∧ fs' = fs.modify i f)
    (hf : ∀ n, (f n).body = n.body) : Sealed T fs fs' := by
  obtain ⟨i, hi, rfl⟩ := h
  exact sealed_rewritten hR hL (hr i hi) (FS.sameNames_modify fun n _ => .inl (hf n))

theorem sealed_truncate {p : CStr} {len : Int} (hR : fs.Rooted dfsName) (hL : fs.Linked T)
    (hp : Finds fs (fs.resolve p)) (h : fs.truncate p len = .ok fs') : Sealed T fs fs' := by
  obtain ⟨i, n, d, -, hi, hn, hb, rfl⟩ := FS.truncate_eq_ok.mp h
  refine sealed_rewritten hR hL (hp i hi) (FS.sameNames_setData hn ?_ _)
  simp [Inode.kind, hb, Body.kind]

/-- Rewriting a file that is not from outside. -/
theorem Walled.setData (h : Walled T O os) {i : Ino} {n : Inode} {data : List UInt8} (hi : ¬ O i)
    (hn : os.fs.node i = some n) (hreg : n.kind = .reg)
    (hfs : os'.fs = os.fs.modify i (Inode.setData data))
    (hfds : ∀ fd f i, os'.fds.file fd = some f → f.ino = some i → ¬ O i) :
    Walled T O os' ∧ Secluded O os.fs os'.fs := by
  have hout : ∀ k, O k → k ≠ i := by
    rintro k hk rfl
    exact hi hk
  have hs : FS.SameNames os.fs os'.fs := hfs ▸ FS.sameNames_setData hn hreg data
  refine ⟨⟨h.rooted.of_sameNames hs, hfs ▸ h.linked.setData _, fun k hk => ⟨?_, fun hbelow => ?_⟩,
    hfds⟩, hs.root_eq, fun k hk _ => hfs ▸ FS.modify_node_ne _ (hout k hk), fun _ y k _ _ => ?_⟩
  · rw [hs.some_eq]
    exact (h.outside k hk).1
  · exact (h.outside k hk).2 (hbelow.of_extends hs.symm.extends)
  · rw [hs.child_eq]

/-- A write changes one open file. -/
theorem walled_pwrite {fd : Int} {bytes : List UInt8} {offset : ℕ} (h : Walled T O os)
    (hw : os.pwrite fd bytes offset = .ok fs') :
    Walled T O { os with fs := fs' } ∧ Secluded O os.fs fs' := by
  obtain ⟨g, i, n, d, hg, -, hi, hn, hb, rfl⟩ := OS.pwrite_eq_ok.mp hw
  exact h.setData (h.handles fd g i hg hi) hn (by simp [Inode.kind, hb, Body.kind]) rfl h.handles

/-- **One call** of a contained handler keeps the server inside. -/
theorem exec_confined {c : Sys β} {r : β × OS} (hc : Confined T c os) (h : Walled T O os)
    (he : OS.exec c os = .ok r) : Walled T O r.2 ∧ Secluded O os.fs r.2.fs := by
  by_cases hq : c.quiet = true
  · have hsame := OS.exec_quiet hq he
    refine h.keep hsame.fs_eq fun fd f i hf hi => ?_
    obtain ⟨g, hg, hb⟩ := hsame.fds.symm.file hf
    have hino : g.base.ino = f.base.ino := congrArg OpenFile.ino hb
    exact h.handles fd g i hg (hino.trans hi)
  have hclose : ∀ fd, Walled T O (os.close fd).2 ∧ Secluded O os.fs (os.close fd).2.fs := by
    intro fd
    unfold OS.close
    split
    · exact h.keep rfl h.handles
    · refine h.keep rfl fun fd' f i hf hi => ?_
      rw [Descriptors.file_dropFile] at hf
      split at hf
      · cases hf
      · exact h.handles fd' f i hf hi
  cases c <;> simp only [Sys.quiet, not_true_eq_false, not_false_eq_true, Bool.false_eq_true] at hq
    <;> simp only [OS.exec] at he
  case mkdir p mode =>
    cases he
    exact h.tryFS fun fs' hfs => sealed_mkdir h.rooted h.linked hc hfs
  case rmdir p =>
    cases he
    exact h.tryFS fun fs' hfs => sealed_rmdir h.rooted h.linked hc hfs
  case unlink p =>
    cases he
    exact h.tryFS fun fs' hfs => sealed_unlink h.rooted h.linked hc hfs
  case rename p q =>
    cases he
    exact h.tryFS fun fs' hfs => sealed_rename h.rooted h.linked hc.1 hc.2 hfs
  case link p q =>
    cases he
    exact h.tryFS fun fs' hfs => sealed_link h.rooted h.linked hc.1 hc.2 hfs
  case symlink t p =>
    cases he
    exact h.tryFS fun fs' hfs => sealed_symlink h.rooted h.linked hc.1 hc.2 hfs
  case mkfifo p mode =>
    cases he
    exact h.tryFS fun fs' hfs => sealed_mknod h.rooted h.linked hc hfs
  case mknod p mode dev =>
    cases he
    exact h.tryFS fun fs' hfs => sealed_mknod h.rooted h.linked hc hfs
  case truncate p len =>
    cases he
    exact h.tryFS fun fs' hfs => sealed_truncate h.rooted h.linked hc hfs
  case utime p actime modtime =>
    cases he
    exact h.tryFS fun fs' hfs =>
      sealed_setAttr h.rooted h.linked hc (FS.utime_eq_ok.mp hfs) fun _ => rfl
  case chmod p mode =>
    cases he
    exact h.tryFS fun fs' hfs =>
      sealed_setAttr h.rooted h.linked hc (FS.chmod_eq_ok.mp hfs) fun _ => rfl
  case chown p uid gid =>
    cases he
    exact h.tryFS fun fs' hfs =>
      sealed_setAttr h.rooted h.linked hc (FS.chown_eq_ok.mp hfs) fun _ => rfl
  case lchown p uid gid =>
    cases he
    exact h.tryFS fun fs' hfs =>
      sealed_setAttr h.rooted h.linked hc (FS.lchown_eq_ok.mp hfs) fun _ => rfl
  case close fd =>
    cases he
    exact hclose fd
  case closedir dp =>
    cases he
    exact hclose dp.fd
  case opendir p =>
    cases he
    rcases opendir_cases os p with ⟨i, hi, ho⟩ | ⟨e, -, -, ho⟩
    · rw [ho]
      refine h.keep rfl fun fd f j hf hj => ?_
      rw [Descriptors.file_addFile] at hf
      split at hf
      · cases hf
        cases hj
        have hbelow : FS.Below os.fs dfsName i := by
          unfold dirOf at hi
          split at hi
          · next d hr =>
            split at hi
            · cases hi
              exact hc _ hr
            · cases hi
          · cases hi
        exact fun ho => (h.outside i ho).2 hbelow
      · exact h.handles fd f j hf hj
    · rw [ho]
      exact h.keep rfl h.handles
  case openPath p flags mode =>
    rcases os.openFile_cases p flags mode with ⟨e, -, ho, -⟩ | ⟨i, fs, hopen, ho⟩ | ho
    · rw [ho] at he
      cases he
      exact h.keep rfl h.handles
    · rw [ho] at he
      cases he
      obtain ⟨hi, hs⟩ := hc i fs hopen
      refine h.step (h.rooted.openAt special_dfsName hopen) (h.linked.openAt hopen) hs
        fun fd f j hf hj hout => ?_
      rw [Descriptors.file_addFile] at hf
      split at hf
      · cases hf
        cases hj
        rcases hi with hi | hnone
        · exact (h.outside i hout).2 (hs.below i (h.outside i hout).1 hi)
        · rw [(h.outside i hout).1] at hnone
          cases hnone
      · exact h.handles fd f j hf hj hout
    · rw [ho] at he
      cases he
  case pwrite fd buf size offset =>
    split at he
    · next fs' hw =>
      cases he
      exact walled_pwrite h hw
    · cases he
      exact h.keep rfl h.handles
  case exit => cases he

end

/-! ## The handlers -/

/-- A call of the server, where it is issued. -/
def Call.Confined (T : CStr → Prop) {β : Type} : Call β → Host → Prop
  | .os c, h => DFS.Confined T c h.os
  | .rpc _, _ => True

/-- The names lead to the same inodes. -/
def Host.SameNames (h h' : Host) : Prop := FS.SameNames h.os.fs h'.os.fs

theorem Host.SameNames.refl (h : Host) : h.SameNames h := FS.SameNames.refl

theorem Host.SameNames.trans (h h' h'' : Host) (h₁ : h.SameNames h') (h₂ : h'.SameNames h'') :
    h.SameNames h'' := FS.SameNames.trans h₁ h₂

/-- Every call of the program is confined, whatever else the state of the server with this tree is,
and even when the contents of files change between the calls. -/
def Contains (peer : Peer) (T : CStr → Prop) {α : Type} (p : Server α) (fs : FS) : Prop :=
  ∀ h : Host, h.os.fs = fs → p.EachAmid (server peer) Host.SameNames (fun c h => c.Confined T h) h

/-- What `lstat` describes is there. -/
theorem lresolve_of_lstat {os os' : OS} {p : CStr} {st : Stat}
    (h : OS.exec (.lstat p) os = .ok (some st, os')) : ∃ i, os.fs.lresolve p = .ok i := by
  simp only [OS.exec, OS.lstat] at h
  cases hi : os.fs.lresolve p with
  | ok i => exact ⟨i, rfl⟩
  | error e =>
      rw [hi] at h
      cases h

section

variable {peer : Peer} {T : CStr → Prop} {fs fs' : FS} {α β γ : Type}

theorem contains_pure (a : α) : Contains peer T (pure a) fs := fun _ _ => trivial

theorem contains_map {p : Server α} {f : α → β} (h : Contains peer T p fs) :
    Contains peer T (f <$> p) fs := fun s hs => eachAmid_map.mpr (h s hs)

/-- A tree with the same names will do. -/
theorem Contains.of_sameNames {p : Server α} (h : Contains peer T p fs)
    (hs : FS.SameNames fs fs') : Contains peer T p fs' := by
  intro s hfs
  let s₀ : Host := { s with os := { s.os with fs := fs } }
  have hs' : s₀.SameNames s := by
    rw [← hfs] at hs
    exact hs
  exact (h s₀ rfl).of_rel Host.SameNames.trans hs'

/-- A system call and what follows it. -/
theorem contains_sys {c : Sys γ} {k : γ → Server α}
    (hc : ∀ os : OS, FS.SameNames fs os.fs → Confined T c os)
    (hk : ∀ (b : γ) (os os' : OS), FS.SameNames fs os.fs → OS.exec c os = .ok (b, os') →
      Contains peer T (k b) os'.fs) : Contains peer T (sys c >>= k) fs := by
  rintro h rfl h' hsame
  refine ⟨hc h'.os hsame, fun r hr => ?_⟩
  obtain ⟨⟨b, os'⟩, he, rfl⟩ := map_eq_ok.mp hr
  exact hk b h'.os os' hsame he _ rfl

/-- A call to the other server touches nothing here. -/
theorem contains_rpc {c : Rpc γ} {k : γ → Server α} (hk : ∀ b, Contains peer T (k b) fs) :
    Contains peer T (perform (.rpc c) >>= k) fs := by
  rintro h rfl h' hsame
  refine ⟨trivial, fun r hr => ?_⟩
  have hos : r.2.os = h'.os := by cases c <;> cases hr <;> rfl
  exact (hk r.1).of_sameNames hsame _ (congrArg OS.fs hos)

/-- A call that leaves the tree alone. -/
theorem contains_keeping {c : Sys γ} {k : γ → Server α} (hkeep : c.keepsTree = true)
    (hc : ∀ os : OS, FS.SameNames fs os.fs → Confined T c os)
    (hk : ∀ b, Contains peer T (k b) fs) : Contains peer T (sys c >>= k) fs := by
  refine contains_sys hc fun b os os' hfs he => ?_
  rw [(OS.exec_keepsTree hkeep he).1]
  exact (hk b).of_sameNames hfs

theorem contains_bind_pure {c : Sys γ} {f : γ → α}
    (hc : ∀ os : OS, FS.SameNames fs os.fs → Confined T c os) :
    Contains peer T (sys c >>= fun b => pure (f b)) fs :=
  contains_sys hc fun _ _ _ _ _ => contains_pure _

theorem contains_errno (f : Int → α) :
    Contains peer T (do return f (← negErrno)) fs :=
  contains_keeping rfl (fun _ _ => trivial) fun _ => contains_pure _

/-- Forwarding touches nothing here. -/
theorem contains_transmit {info : Identity} {slaveArg : Identity → Request} {rest : Server α}
    (h : Contains peer T rest fs) :
    Contains peer T (transmitToSecondaty info slaveArg >>= fun _ => rest) fs := by
  unfold transmitToSecondaty connectServer
  split
  · rw [bind_assoc]
    refine contains_rpc fun clnt => ?_
    cases clnt
    · exact h
    · simp only [if_true, bind_assoc]
      exact contains_rpc fun _ => contains_rpc fun _ => h
  · exact h

/-- The check of the bits looks at an object inside; when it succeeds there is one. -/
theorem contains_isOpValid {p ip : CStr} {flags : UInt32} {k : Int → Server α}
    (hp : Finds fs (fs.lresolve p))
    (hk : ∀ v, (v = 1 → ∃ i, fs.lresolve p = .ok i) → Contains peer T (k v) fs) :
    Contains peer T (isOpValid p ip flags >>= k) fs := by
  unfold isOpValid
  rw [bind_assoc]
  refine contains_sys (fun os hfs => hp.lresolve hfs) fun b os os' hfs he => ?_
  rw [(OS.exec_keepsTree rfl he).1]
  refine Contains.of_sameNames ?_ hfs
  cases b with
  | none => exact hk _ fun h => absurd h (by decide)
  | some statbuf =>
      refine hk _ fun _ => ?_
      obtain ⟨i, hi⟩ := lresolve_of_lstat he
      exact ⟨i, hfs.lresolve_eq p ▸ hi⟩

/-- The check of the owner looks at an object inside. -/
theorem contains_isOwner {p ip : CStr} {k : Bool → Server α} (hp : Finds fs (fs.lresolve p))
    (hk : ∀ b, Contains peer T (k b) fs) : Contains peer T (isOwner p ip >>= k) fs := by
  unfold isOwner
  rw [bind_assoc]
  refine contains_keeping rfl (fun os hfs => hp.lresolve hfs) fun b => ?_
  cases b <;> exact hk _

/-- The check of a parent: it is `/DFS`, or there is one. -/
theorem contains_check {parent p ip : CStr} {op : OpName} {rest : Server StatusRet}
    (hparent : Finds fs (fs.lresolve parent)) (hp : Finds fs (fs.lresolve p))
    (hrest : parent = dfsRoot ∨ (∃ i, fs.lresolve parent = .ok i) → Contains peer T rest fs) :
    Contains peer T (checkParentDirectoryValid parent p ip op rest) fs := by
  unfold checkParentDirectoryValid isParentDirValid
  dsimp only
  split
  · next hroot =>
    split
    · unfold isRootdirOpValidToDelete
      simp only [bind_assoc]
      refine contains_keeping rfl (fun os hfs => hp.lresolve hfs) fun b => ?_
      cases b with
      | none => exact hrest (.inl hroot)
      | some statbuf =>
          rw [pure_bind]
          split
          · exact hrest (.inl hroot)
          · exact contains_pure _
    · exact hrest (.inl hroot)
  · rw [bind_assoc]
    refine contains_isOpValid hparent fun v hv => ?_
    by_cases h : v = 1
    · rw [if_neg (not_not.mpr h)]
      exact hrest (.inr (hv h))
    · rw [if_pos h]
      exact contains_pure _

/-! ### Directory locks -/

/-- Opening and locking a directory inside. -/
theorem contains_dlock {p : CStr} {k : Int → Server α} (hp : Finds fs (fs.resolve p))
    (hk : ∀ fd, Contains peer T (k fd) fs) : Contains peer T (dlock p >>= k) fs := by
  unfold dlock
  rw [bind_assoc]
  refine contains_keeping rfl (fun os hfs => hp.resolve hfs) fun dir => ?_
  cases dir with
  | none => exact hk _
  | some dir =>
      dsimp only
      split
      · exact hk _
      · rw [bind_assoc]
        refine contains_keeping rfl (fun _ _ => trivial) fun r => ?_
        split <;> exact hk _

/-- A handler with its lock, and what it does under it. -/
theorem contains_lock {p : CStr} {rest : Int → Server StatusRet} (hp : Finds fs (fs.resolve p))
    (hrest : ∀ fd, Contains peer T (rest fd) fs) :
    Contains peer T (lockDirectory p rest) fs := by
  refine contains_dlock hp fun fd => ?_
  split
  · exact contains_pure _
  · exact hrest fd

/-- Unlocking touches no object. -/
theorem contains_unlock {fd : Int} {result : StatusRet} {k : StatusRet → Server α}
    (hk : Contains peer T (k result) fs) (hbad : Contains peer T (k ⟨-1⟩) fs) :
    Contains peer T (unlockDirectory fd result >>= k) fs := by
  unfold unlockDirectory dunlock
  simp only [bind_assoc]
  refine contains_keeping rfl (fun _ _ => trivial) fun r => ?_
  split <;> simp only [pure_bind] <;> split <;> assumption

/-- Changing the owner of an object inside. -/
theorem contains_setOwner {p ip : CStr} {k : Int → Server α} (hp : Finds fs (fs.resolve p))
    (hk : ∀ b fs', Contains peer T (k b) fs') : Contains peer T (setOwner p ip >>= k) fs := by
  unfold setOwner
  simp only [bind_assoc]
  refine contains_sys (fun os hfs => hp.resolve hfs) fun b os os' _ _ => ?_
  split <;> exact hk _ _

/-! ### Paths -/

/-- What a handler does with a path that it got, and with its parent, stays at or below `/DFS`. -/
structure Indoors (fs : FS) (p : CStr) : Prop where
  finds : Finds fs (fs.lresolve p)
  takes : Takes fs p
  parentFinds : Finds fs (fs.lresolve (getParentPath p))
  parentOpens : Finds fs (fs.resolve (getParentPath p))

/-- What the server makes of a path: `/DFS`, and what follows begins with a slash. -/
theorem translate_shape (p : CStr) : ∃ t, translateAbspath p = dfsRoot ++ t ∧
    (t = [] ∨ ∃ q, t = '/' :: q) ∧ components t = components p := by
  unfold translateAbspath
  split
  · next hroot => exact ⟨[], by simp, .inl rfl, by rw [hroot]; rfl⟩
  · split
    · exact ⟨'/' :: p, rfl, .inr ⟨p, rfl⟩, components_append_slash [] p⟩
    · next hslash =>
      obtain ⟨q, rfl⟩ := List.head?_eq_some_iff.mp (not_not.mp hslash)
      exact ⟨'/' :: q, rfl, .inr ⟨q, rfl⟩, rfl⟩

/-- A path that begins like this leads into `/DFS` first. -/
theorem components_below {t : CStr} (h : t = [] ∨ ∃ q, t = '/' :: q) :
    components (dfsRoot ++ t) = dfsName :: components t := by
  rcases h with rfl | ⟨q, rfl⟩
  · rfl
  · rw [components_append_slash]
    exact congrArg (dfsName :: ·) (components_append_slash [] q).symm

/-- A translated path begins with `/DFS`. -/
theorem components_translate (p : CStr) :
    components (translateAbspath p) = dfsName :: components p := by
  obtain ⟨t, ht, hshape, hcomps⟩ := translate_shape p
  rw [ht, components_below hshape, hcomps]

/-- The parent of a path is empty or leads into `/DFS` first, too. -/
theorem staysIn_parentPath {f : Bool} {p : CStr}
    (h : fs.staysIn dfsName f (translateAbspath p) = true) :
    getParentPath (translateAbspath p) = [] ∨
      fs.staysIn dfsName true (getParentPath (translateAbspath p)) = true := by
  obtain ⟨t, ht, hshape, -⟩ := translate_shape p
  have hslash : '/' ∈ translateAbspath p := by simp [ht, dfsRoot]
  obtain ⟨d, b, hsplit, hb⟩ := Buffer.exists_last_slash hslash
  rw [hsplit] at h ht ⊢
  rw [Buffer.parent_eq hb]
  by_cases hd : d = []
  · exact .inl hd
  · refine .inr (FS.staysIn_parent hb ?_ h)
    -- The last slash is not the first one, so `/DFS` stands before it.
    have hfront : ∃ t', d = dfsRoot ++ t' ∧ (t' = [] ∨ ∃ q, t' = '/' :: q) := by
      unfold dfsRoot at ht ⊢
      rcases d with _ | ⟨c₁, _ | ⟨c₂, _ | ⟨c₃, _ | ⟨c₄, d'⟩⟩⟩⟩
      · exact absurd rfl hd
      · simp at ht
      · simp at ht
      · simp at ht
      · simp only [List.cons_append, List.nil_append, List.cons.injEq] at ht
        obtain ⟨rfl, rfl, rfl, rfl, rfl⟩ := ht
        refine ⟨d', rfl, ?_⟩
        cases d' with
        | nil => exact .inl rfl
        | cons c d' =>
            rcases hshape with hnil | ⟨q, hq⟩
            · cases hnil
            · simp only [List.cons_append, List.cons.injEq] at hq
              exact .inr ⟨d', by rw [hq.1]⟩
    obtain ⟨t', rfl, hshape'⟩ := hfront
    rw [components_below hshape', FS.enters_cons special_dfsName]
    exact .inl rfl

/-- **A path that stays inside** leads to objects inside, and names entries of directories inside.
-/
theorem indoors_of_staysIn {f : Bool} {p : CStr} (hR : fs.Rooted dfsName)
    (h : fs.staysIn dfsName f (translateAbspath p) = true) : Indoors fs (translateAbspath p) := by
  have hempty : ∀ {i : Ino}, fs.lresolve [] ≠ .ok i ∧ fs.resolve [] ≠ .ok i := by
    intro i
    refine ⟨fun hi => ?_, fun hi => ?_⟩
    · exact absurd rfl (FS.getname_eq_ok.mp (FS.lresolve_eq_ok.mp hi).1).1
    · exact absurd rfl (FS.getname_eq_ok.mp (FS.resolve_eq_ok.mp hi).1).1
  refine ⟨fun i hi => FS.lresolve_below special_dfsName hR h hi,
    fun d x hs hx => FS.slot_inward special_dfsName hR h hs hx, fun i hi => ?_, fun i hi => ?_⟩
  · rcases staysIn_parentPath h with hnil | hparent
    · rw [hnil] at hi
      exact absurd hi hempty.1
    · exact FS.lresolve_below special_dfsName hR hparent hi
  · rcases staysIn_parentPath h with hnil | hparent
    · rw [hnil] at hi
      exact absurd hi hempty.2
    · exact FS.resolve_below special_dfsName hR hparent hi

/-! ### Making names -/

/-- The calls that make something make it under their path. -/
theorem onTree_created {c : Sys γ} {p : CStr} {umask : UInt32} {fs' : FS} (hc : c.makes = some p)
    (h : c.onTree umask fs = .ok fs') : ∃ dirOk d x links m,
      fs.vacant p dirOk = .ok (d, x) ∧ fs' = fs.created d x links m := by
  cases c <;> simp only [Sys.makes, reduceCtorEq, Option.some.injEq] at hc
  case mkdir q mode =>
    subst hc
    obtain ⟨d, x, parent, hv, -, hfs⟩ := FS.mkdir_eq_ok.mp h
    exact ⟨_, d, x, _, _, hv, hfs⟩
  case mkfifo q mode =>
    subst hc
    obtain ⟨body, d, x, parent, -, hv, -, hfs⟩ := FS.mknod_eq_ok.mp h
    exact ⟨_, d, x, _, _, hv, hfs⟩
  case mknod q mode dev =>
    subst hc
    obtain ⟨body, d, x, parent, -, hv, -, hfs⟩ := FS.mknod_eq_ok.mp h
    exact ⟨_, d, x, _, _, hv, hfs⟩
  case openPath q flags mode =>
    split at hc
    · next hflags =>
      cases hc
      subst hflags
      obtain ⟨⟨i, fs₁⟩, ho, hfs⟩ := map_eq_ok.mp h
      obtain ⟨d, x, parent, hv, -, -, rfl⟩ := FS.openAt_excl_eq_ok.mp ho
      exact ⟨_, d, x, _, _, hv, hfs.symm⟩
    · cases hc

/-- What has been made at or below `/DFS` is found there. -/
theorem finds_made {c : Sys γ} {p : CStr} {umask : UInt32} {fs' : FS} (hp : Takes fs p)
    (hc : c.makes = some p) (h : c.onTree umask fs = .ok fs') : Finds fs' (fs'.resolve p) := by
  obtain ⟨dirOk, d, x, links, m, hv, hfs⟩ := onTree_created hc h
  intro i hi
  rw [(onTree_makes hc h).1] at hi
  cases hi
  have hf := FS.free_of_vacant hv
  rw [hfs]
  exact FS.below_created special_dfsName hf (hp d x (FS.vacant_eq_ok.mp hv).1 hf.notSpecial)

/-- What is made under a path that stays inside is inside. -/
theorem confined_makes {c : Sys γ} {p : CStr} {os : OS} (hR : os.fs.Rooted dfsName)
    (hp : Takes os.fs p) (hc : c.makes = some p) : Confined T c os := by
  cases c <;> simp only [Sys.makes, reduceCtorEq, Option.some.injEq] at hc
  case mkdir => exact hc ▸ hp
  case mkfifo => exact hc ▸ hp
  case mknod => exact hc ▸ hp
  case openPath q flags mode =>
    split at hc
    · next hflags =>
      cases hc
      subst hflags
      intro i fs' ho
      obtain ⟨d, x, parent, hv, -, rfl, rfl⟩ := FS.openAt_excl_eq_ok.mp ho
      have hf := FS.free_of_vacant hv
      have hd := hp d x (FS.vacant_eq_ok.mp hv).1 hf.notSpecial
      exact ⟨.inl (FS.below_created special_dfsName hf hd),
        FS.spares_created hR.whole special_dfsName hf hd fun _ _ hb => by cases hb⟩
    · cases hc

/-- Making something, and what follows it. -/
theorem contains_makes {c : Sys Int} {p : CStr} {k : Int → Server α} (hR : fs.Rooted dfsName)
    (hp : Takes fs p) (hc : c.makes = some p) (hnum : ∀ b, c.number b = some b)
    (hbad : Contains peer T (k (-1)) fs)
    (hgood : ∀ v fs', Finds fs' (fs'.resolve p) → Contains peer T (k v) fs') :
    Contains peer T (sys c >>= k) fs := by
  refine contains_sys (fun os hfs => ?_) fun b os os' hfs he => ?_
  · exact confined_makes (hR.of_sameNames hfs) (hp.of_sameNames hfs) hc
  · obtain ⟨b', os'', v, he', hv, hchanged⟩ := exec_changes (changes_iff.mpr (.inl hc)) os
    rw [he] at he'
    cases he'
    obtain rfl : b = v := by simpa [hnum] using hv
    cases ht : c.onTree os.umask os.fs with
    | error e =>
        obtain ⟨rfl, hkeep⟩ := hchanged.of_error ht
        rw [hkeep]
        exact hbad.of_sameNames hfs
    | ok fs' =>
        rw [(hchanged.of_ok ht).2]
        exact hgood b fs' (finds_made (hp.of_sameNames hfs) hc ht)

/-- Setting the owner of what a path leads to, and reporting on it. -/
theorem contains_owned {p ip : CStr} {a b : α} (hp : Finds fs (fs.resolve p)) :
    Contains peer T (do if (← setOwner p ip) < 0 then return a else return b) fs :=
  contains_setOwner hp fun _ _ => by split <;> exact contains_pure _

theorem contains_mkdir (argp : MkdirArg) (hR : fs.Rooted dfsName)
    (hp : Indoors fs (translateAbspath argp.path)) :
    Contains peer T (bbMkdir6Svc argp) fs := by
  refine contains_transmit (contains_check hp.parentFinds hp.finds fun _ =>
    contains_lock hp.parentOpens fun fd => contains_makes hR hp.takes rfl (fun _ => rfl) ?_ ?_)
  · refine contains_unlock ?_ ?_ <;> exact contains_pure _
  · intro v fs' hfound
    refine contains_unlock ?_ (contains_pure _)
    split
    · exact contains_owned hfound
    · exact contains_pure _

theorem contains_mknod (argp : MknodArg) (hR : fs.Rooted dfsName)
    (hp : Indoors fs (translateAbspath argp.path)) :
    Contains peer T (bbMknod6Svc argp) fs := by
  have hfailed : ∀ fs (fd : Int), Contains peer T (do
      let _ ← unlockDirectory fd ⟨-1⟩
      return ⟨-1⟩ : Server MknodRet) fs := by
    intro fs fd
    refine contains_unlock ?_ ?_ <;> exact contains_pure _
  have howned : ∀ fs' (fd : Int), Finds fs' (fs'.resolve (translateAbspath argp.path)) →
      Contains peer T (do
        let ret : Int := if (← setOwner (translateAbspath argp.path) argp.ip) < 0 then -1 else 0
        unlockDirectory fd ⟨ret⟩ : Server MknodRet) fs' := by
    intro fs' fd hfound
    refine contains_setOwner hfound fun b fs₂ => ?_
    have hunlock : ∀ result : StatusRet, Contains peer T (unlockDirectory fd result) fs₂ := by
      intro result
      rw [← bind_pure (unlockDirectory fd result)]
      refine contains_unlock ?_ ?_ <;> exact contains_pure _
    exact hunlock _
  refine contains_transmit (contains_check hp.parentFinds hp.finds fun _ =>
    contains_lock hp.parentOpens fun fd => ?_)
  dsimp only
  split
  · refine contains_makes hR hp.takes (by simp [Sys.makes]) (fun _ => rfl) (hfailed _ _) ?_
    intro v fs' hfound
    split
    · exact hfailed _ _
    · exact contains_keeping rfl (fun _ _ => trivial) fun _ => howned _ _ hfound
  · split
    · refine contains_makes hR hp.takes rfl (fun _ => rfl) (hfailed _ _) fun v fs' hfound => ?_
      split
      · exact hfailed _ _
      · exact howned _ _ hfound
    · refine contains_makes hR hp.takes rfl (fun _ => rfl) (hfailed _ _) fun v fs' hfound => ?_
      split
      · exact hfailed _ _
      · exact howned _ _ hfound

/-! ### Removing, moving and linking names -/

theorem contains_status {c : Sys Int} {k : StatusRet → Server α} {fd : Int}
    (hc : ∀ os : OS, FS.SameNames fs os.fs → Confined T c os)
    (hk : ∀ r fs', Contains peer T (k r) fs') :
    Contains peer T (do
      let ret ← sys c
      let result ← unlockDirectory fd ⟨ret⟩
      k result) fs :=
  contains_sys hc fun _ _ _ _ _ => contains_unlock (hk _ _) (hk _ _)

theorem contains_rmdir (argp : RmdirArg) (hp : Indoors fs (translateAbspath argp.path)) :
    Contains peer T (bbRmdir6Svc argp) fs := by
  refine contains_transmit (contains_check hp.parentFinds hp.finds fun _ =>
    contains_lock hp.parentOpens fun fd => ?_)
  rw [← bind_pure (sys (.rmdir (translateAbspath argp.path)) >>= _), bind_assoc]
  exact contains_status (fun os hfs => hp.takes.of_sameNames hfs) fun _ _ => contains_pure _

theorem contains_unlink (argp : UnlinkArg) (hp : Indoors fs (translateAbspath argp.path)) :
    Contains peer T (bbUnlink6Svc argp) fs := by
  refine contains_transmit (contains_check hp.parentFinds hp.finds fun _ =>
    contains_lock hp.parentOpens fun fd => ?_)
  rw [← bind_pure (sys (.unlink (translateAbspath argp.path)) >>= _), bind_assoc]
  exact contains_status (fun os hfs => hp.takes.of_sameNames hfs) fun _ _ => contains_pure _

theorem contains_rename (argp : RenameArg) (hp : Indoors fs (translateAbspath argp.path))
    (hq : Indoors fs (translateAbspath argp.newpath)) :
    Contains peer T (bbRename6Svc argp) fs := by
  have hact : ∀ (fd : Int) (k : StatusRet → Server RenameRet),
      (∀ r fs', Contains peer T (k r) fs') → Contains peer T (do
        let ret ← sys (.rename (translateAbspath argp.path) (translateAbspath argp.newpath))
        let result ← unlockDirectory fd ⟨ret⟩
        k result) fs := by
    intro fd k hk
    exact contains_status (fun os hfs => ⟨hp.takes.of_sameNames hfs, hq.takes.of_sameNames hfs⟩) hk
  refine contains_transmit (contains_check hp.parentFinds hp.finds fun _ =>
    contains_check hq.parentFinds hq.finds fun _ => contains_lock hp.parentOpens fun fd => ?_)
  dsimp only
  split
  · refine contains_lock hq.parentOpens fun fd' => hact fd _ fun r fs' => ?_
    rw [← bind_pure (unlockDirectory fd' r)]
    refine contains_unlock ?_ ?_ <;> exact contains_pure _
  · exact hact fd _ fun r fs' => contains_pure _

theorem contains_link (argp : LinkArg) (hR : fs.Rooted dfsName) (hL : fs.Linked T)
    (hp : Indoors fs (translateAbspath argp.path))
    (hq : Indoors fs (translateAbspath argp.newpath))
    (hlinked : ∀ fs', fs.link (translateAbspath argp.path) (translateAbspath argp.newpath) =
      .ok fs' → fs'.staysIn dfsName true (translateAbspath argp.newpath) = true) :
    Contains peer T (bbLink6Svc argp) fs := by
  refine contains_transmit (contains_check hp.parentFinds hp.finds fun _ =>
    contains_check hq.parentFinds hq.finds fun _ => contains_sys (fun os hfs => ?_)
      fun b os os' hfs he => ?_)
  · exact ⟨hp.finds.lresolve hfs, hq.takes.of_sameNames hfs⟩
  · simp only [OS.exec] at he
    cases hmk : os.fs.link (translateAbspath argp.path) (translateAbspath argp.newpath) with
    | error e =>
        rw [hmk] at he
        cases he
        exact contains_pure _
    | ok fs' =>
        rw [hmk] at he
        cases he
        -- The same link could have been made in the tree that the request has found.
        obtain ⟨fs₂, hmk', hsame⟩ := hfs.link hmk
        have hR' := (sealed_link hR hL hp.finds hq.takes hmk').rooted.of_sameNames hsame
        have hstays := (hsame.staysIn_eq true (translateAbspath argp.newpath)).trans
          (hlinked fs₂ hmk')
        dsimp only
        split
        · exact contains_owned fun i hi => FS.resolve_below special_dfsName hR' hstays hi
        · exact contains_pure _

/-- A path without components that a link may be made under is `/DFS` itself. -/
theorem components_ne_nil {p : CStr} {d : Ino} {x : Name}
    (hv : fs.vacant (translateAbspath p) false = .ok (d, x)) (hparent :
      getParentPath (translateAbspath p) ≠ []) : components p ≠ [] := by
  intro hnil
  obtain ⟨t, ht, hshape, hcomps⟩ := translate_shape p
  rcases hshape with rfl | ⟨q, rfl⟩
  · rw [ht] at hparent
    exact hparent (by decide)
  · have htrail := (FS.vacant_eq_ok.mp hv).2.2.2.2
    have hwalk : walkComps ('/' :: q) ≠ [] := fun h => by cases walkComps_eq_nil.mp h
    rw [walkComps, hcomps, hnil, List.nil_append] at hwalk
    have hslash : trailing ('/' :: q) = true := by
      by_contra hno
      rw [if_neg hno] at hwalk
      exact hwalk rfl
    have hlast : trailing (translateAbspath p) = true := by
      rw [ht]
      unfold trailing at hslash ⊢
      simpa [List.getLast?_append] using hslash
    rw [hlast] at htrail
    simp at htrail

theorem contains_symlink (argp : SymlinkArg) (hR : fs.Rooted dfsName) (ht : T argp.path)
    (hs : fs.staysIn dfsName false (translateAbspath argp.link) = true) :
    Contains peer T (bbSymlink6Svc argp) fs := by
  have hp := indoors_of_staysIn hR hs
  refine contains_transmit (contains_check hp.parentFinds hp.finds fun hv => ?_)
  have hparent : getParentPath (translateAbspath argp.link) ≠ [] := by
    intro hnil
    rw [hnil] at hv
    rcases hv with hroot | ⟨i, hi⟩
    · cases hroot
    · exact absurd rfl (FS.getname_eq_ok.mp (FS.lresolve_eq_ok.mp hi).1).1
  have hbelow : ∀ fs', FS.SameNames fs fs' → ∀ d x,
      fs'.vacant (translateAbspath argp.link) false = .ok (d, x) → FS.Below fs' dfsName d := by
    intro fs' hfs d x hvac
    exact FS.slot_below special_dfsName (hR.of_sameNames hfs)
      ((hfs.staysIn_eq false (translateAbspath argp.link)).trans hs) (components_translate _)
      (components_ne_nil hvac hparent) (FS.vacant_eq_ok.mp hvac).1
      (FS.ne_nil_of_special (FS.free_of_vacant hvac).notSpecial)
  refine contains_sys (fun os hfs => ?_) fun b os os' hfs he => ?_
  · exact ⟨ht, hbelow _ hfs⟩
  · simp only [OS.exec] at he
    cases hmk : os.fs.symlink argp.path (translateAbspath argp.link) with
    | error e =>
        rw [hmk] at he
        cases he
        exact contains_pure _
    | ok fs' =>
        rw [hmk] at he
        cases he
        obtain ⟨-, d, x, parent, hvac, -, hfs'⟩ := FS.symlink_eq_ok.mp hmk
        have hfound : Finds fs' (fs'.lresolve (translateAbspath argp.link)) := by
          intro i hi
          rw [hfs', FS.lresolve_created hvac] at hi
          cases hi
          rw [hfs']
          exact FS.below_created special_dfsName (FS.free_of_vacant hvac)
            (.inl (hbelow _ hfs d x hvac))
        dsimp only
        split
        · unfold setSoftlinkOwner
          simp only [bind_assoc]
          refine contains_sys (fun os hfs => hfound.lresolve hfs) fun _ _ _ _ _ => ?_
          split <;> simp only [pure_bind] <;> split <;> exact contains_pure _
        · exact contains_pure _

/-! ### Attributes and open files -/

/-- The answer to a call that reports an error number. -/
theorem contains_coded {c : Sys Int} {P : Int → Prop} [DecidablePred P] {a : α} {f : Int → α}
    (hc : ∀ os : OS, FS.SameNames fs os.fs → Confined T c os) :
    Contains peer T (do
      let ret ← sys c
      if P ret then return f (← negErrno) else return a) fs :=
  contains_sys hc fun _ _ _ _ _ => by
    split
    · exact contains_errno f
    · exact contains_pure a

/-- Opening a path that stays inside. -/
theorem confined_openPath {p : CStr} {flags mode : UInt32} {os : OS} (hR : fs.Rooted dfsName)
    (hs : fs.staysIn dfsName (FS.followsLast flags) p = true) (hfs : FS.SameNames fs os.fs) :
    Confined T (.openPath p flags mode) os := by
  intro i fs' ho
  have hR' := hR.of_sameNames hfs
  have hs' := (hfs.staysIn_eq _ _).trans hs
  exact ⟨FS.below_openAt hR' special_dfsName hs' ho, FS.spares_openAt hR' special_dfsName hs' ho⟩

theorem contains_open (argp : OpenArg) (mode : UInt32) (result : OpenRet) (hR : fs.Rooted dfsName)
    (hs : fs.staysIn dfsName (FS.followsLast argp.flags) (translateAbspath argp.path) = true) :
    Contains peer T (bbOpen6Svc argp mode result) fs := by
  refine contains_isOpValid (indoors_of_staysIn hR hs).finds fun v _ => ?_
  split
  · exact contains_pure _
  · refine contains_sys (fun os hfs => confined_openPath hR hs hfs) fun b os os' _ _ => ?_
    split
    · exact contains_errno fun e => (⟨b, e⟩ : OpenRet)
    · exact contains_pure _

theorem contains_write (argp : WriteArg) (result : WriteRet) (hR : fs.Rooted dfsName)
    (hs : argp.byPath → fs.staysIn dfsName true (translateAbspath argp.path) = true) :
    Contains peer T (bbWrite6Svc argp result) fs := by
  have hrest : ∀ (fd : Int) fs', Contains peer T (do
      let _ ← sys (.flock fd .ex)
      let writeRet ← sys (.pwrite fd argp.buffer.bytes argp.size.toNat argp.offset.toNat)
      let _ ← sys (.flock fd .un)
      if writeRet = -1 then return { result with ret := ← negErrno }
      else
        if argp.serverInfo.isMaster = 0 ∧ argp.serverInfo.isDegraded = 0 then
          let _ ← sys (.close fd)
        return { len := writeRet, ret := 0 } : Server WriteRet) fs' := by
    intro fd fs'
    refine contains_keeping rfl (fun _ _ => trivial) fun _ =>
      contains_sys (fun _ _ => trivial) fun v os os' _ _ =>
        contains_keeping rfl (fun _ _ => trivial) fun _ => ?_
    split
    · exact contains_errno fun e => { result with ret := e }
    · split
      · exact contains_keeping rfl (fun _ _ => trivial) fun _ => contains_pure _
      · exact contains_pure _
  refine contains_transmit ?_
  dsimp only
  by_cases hrole : argp.byPath
  · have hrole' : argp.serverInfo.isMaster = 0 ∧ argp.serverInfo.isDegraded = 0 := hrole
    rw [if_pos hrole']
    have hfollow : fs.staysIn dfsName (FS.followsLast writeOpenFlags)
        (translateAbspath argp.path) = true := by
      rw [show FS.followsLast writeOpenFlags = true from by decide]
      exact hs hrole
    exact contains_sys (fun os hfs => confined_openPath hR hfollow hfs)
      fun b os os' _ _ => hrest b os'.fs
  · have hrole' : ¬(argp.serverInfo.isMaster = 0 ∧ argp.serverInfo.isDegraded = 0) := hrole
    rw [if_neg hrole', pure_bind]
    exact hrest argp.fd fs

theorem contains_opendir (argp : OpendirArg) (result : OpendirRet) (hR : fs.Rooted dfsName)
    (hs : fs.staysIn dfsName true (translateAbspath argp.path) = true) :
    Contains peer T (bbOpendir6Svc argp result) fs := by
  have hfinds : Finds fs (fs.resolve (translateAbspath argp.path)) := fun i hi =>
    FS.resolve_below special_dfsName hR hs hi
  refine contains_isOpValid (indoors_of_staysIn hR hs).finds fun v _ => ?_
  split
  · exact contains_pure _
  · refine contains_keeping rfl (fun os hfs => hfinds.resolve hfs) fun b => ?_
    cases b with
    | none => exact contains_errno fun e => { result with ret := e }
    | some dp => exact contains_pure _

/-- `/DFS` itself is inside. -/
theorem staysIn_dfsRoot (hR : fs.Rooted dfsName) : fs.staysIn dfsName true dfsRoot = true := by
  refine FS.staysIn_iff.mpr ⟨by decide, ?_⟩
  have hwalk : walkComps dfsRoot = [dfsName] := by decide
  rw [hwalk]
  refine FS.stays_cons.mpr fun i hi => ⟨fun hx => absurd hx (by decide), fun _ => FS.stays_nil, ?_⟩
  intro t ht
  rw [hR.entry i hi] at ht
  cases ht

theorem contains_initRootdir (argp : InitArg) (hR : fs.Rooted dfsName) (hL : fs.Linked T) :
    Contains peer T (initRootdir6Svc argp) fs := by
  have hfinds : ∀ {fs : FS}, fs.Rooted dfsName → Finds fs (fs.resolve dfsRoot) := fun hR i hi =>
    FS.resolve_below special_dfsName hR (staysIn_dfsRoot hR) hi
  have hchmod : ∀ fs : FS, fs.Rooted dfsName → Contains peer T (do
      if (← sys (.chmod dfsRoot 0o777)) ≠ 0 then
        let _ ← sys (.exit 1)
      return ⟨0⟩ : Server InitRet) fs := by
    intro fs hR
    refine contains_sys (fun os hfs => (hfinds hR).resolve hfs) fun b os os' _ _ => ?_
    split
    · exact contains_sys (fun _ _ => trivial) fun _ _ _ _ _ => contains_pure _
    · exact contains_pure _
  refine contains_transmit ?_
  dsimp only
  refine contains_keeping rfl (fun os hfs => (hfinds hR).resolve hfs) fun r => ?_
  split
  · have htakes : Takes fs dfsRoot := fun d x hs hx =>
      FS.slot_inward special_dfsName hR (staysIn_dfsRoot hR) hs hx
    refine contains_sys (fun os hfs => htakes.of_sameNames hfs) fun b os os' hfs he => ?_
    have hR' : os'.fs.Rooted dfsName := by
      simp only [OS.exec] at he
      cases hmk : os.fs.mkdir os.umask dfsRoot 0o777 with
      | error e =>
          rw [hmk] at he
          cases he
          exact hR.of_sameNames hfs
      | ok fs' =>
          rw [hmk] at he
          cases he
          have hL' : os.fs.Linked T := fun i t ht => hL i t (hfs.link_eq i ▸ ht)
          exact (sealed_mkdir (hR.of_sameNames hfs) hL' (htakes.of_sameNames hfs) hmk).rooted
    split
    · exact contains_sys (fun _ _ => trivial) fun _ os os' hfs he => by cases he
    · exact hchmod _ hR'
  · exact hchmod fs hR

end

/-! ## Requests -/

/-- The paths that the handler of a request looks up, each with whether a link in the last place is
followed. -/
def Request.lookups : Request → List (Bool × CStr)
  | .getattr arg => [(false, arg.path)]
  | .access arg => [(true, arg.path)]
  | .mkdir arg => [(false, arg.path)]
  | .rmdir arg => [(false, arg.path)]
  | .opendir arg => [(true, arg.path)]
  | .rename arg => [(false, arg.path), (false, arg.newpath)]
  | .symlink arg => [(false, arg.link)]
  | .link arg => [(false, arg.path), (false, arg.newpath)]
  | .readlink arg => [(false, arg.path)]
  | .mknod arg => [(false, arg.path)]
  | .truncate arg => [(true, arg.path)]
  | .unlink arg => [(false, arg.path)]
  | .utime arg => [(true, arg.path)]
  | .chmod arg => [(true, arg.path)]
  | .chown arg => [(true, arg.path)]
  | .openFile arg => [(FS.followsLast arg.flags, arg.path)]
  | .write arg => if arg.byPath then [(true, arg.path)] else []
  | .statfs arg => [(true, arg.path)]
  | _ => []

/-- None of the lookups of a request goes up from `/DFS` or follows a link that leads elsewhere. -/
structure StaysInside (T : CStr → Prop) (r : Request) (fs : FS) : Prop where
  paths : ∀ e ∈ r.lookups, fs.staysIn dfsName e.1 (translateAbspath e.2) = true
  /-- The owner of a new link is set through it. -/
  linked : ∀ arg, r = .link arg → ∀ fs', fs.link (translateAbspath arg.path)
    (translateAbspath arg.newpath) = .ok fs' →
      fs'.staysIn dfsName true (translateAbspath arg.newpath) = true
  target : ∀ arg, r = .symlink arg → T arg.path

/-- **The handlers.**  A request whose lookups stay inside is confined to `/DFS`. -/
theorem contains_compute6 {T : CStr → Prop} {fs : FS} {r : Request} (peer : Peer) (stale : Stale)
    (hR : fs.Rooted dfsName) (hL : fs.Linked T) (hs : StaysInside T r fs) :
    Contains peer T (compute6 stale r) fs := by
  have hpath : ∀ {f : Bool} {p : CStr}, (f, p) ∈ r.lookups →
      fs.staysIn dfsName f (translateAbspath p) = true := fun hmem => hs.paths _ hmem
  have hfollow : ∀ {p : CStr}, (true, p) ∈ r.lookups → ∀ os : OS, FS.SameNames fs os.fs →
      Finds os.fs (os.fs.resolve (translateAbspath p)) := fun hmem os hfs =>
    Finds.resolve (fun i hi => FS.resolve_below special_dfsName hR (hpath hmem) hi) hfs
  have hlook : ∀ {p : CStr}, (false, p) ∈ r.lookups → ∀ os : OS, FS.SameNames fs os.fs →
      Finds os.fs (os.fs.lresolve (translateAbspath p)) := fun hmem os hfs =>
    Finds.lresolve (fun i hi => FS.lresolve_below special_dfsName hR (hpath hmem) hi) hfs
  have hdoors : ∀ {f : Bool} {p : CStr}, (f, p) ∈ r.lookups →
      Indoors fs (translateAbspath p) := fun hmem => indoors_of_staysIn hR (hpath hmem)
  cases r <;> refine contains_map ?_
  case initRootdir arg => exact contains_initRootdir arg hR hL
  case getattr arg =>
    refine contains_keeping rfl (hlook (List.Mem.head _)) fun b => ?_
    cases b with
    | none => exact contains_errno fun e => { stale.getattr with ret := e }
    | some st => exact contains_pure _
  case access arg => exact contains_bind_pure (hfollow (List.Mem.head _))
  case mkdir arg => exact contains_mkdir arg hR (hdoors (List.Mem.head _))
  case rmdir arg => exact contains_rmdir arg (hdoors (List.Mem.head _))
  case opendir arg => exact contains_opendir arg _ hR (hpath (List.Mem.head _))
  case readdir arg =>
    refine contains_keeping rfl (fun _ _ => trivial) fun _ =>
      contains_keeping rfl (fun _ _ => trivial) fun b => ?_
    cases b with
    | none =>
        exact contains_keeping rfl (fun _ _ => trivial) fun _ =>
          contains_errno fun e => { stale.readdir with count := 0, ret := e }
    | some dp =>
        exact contains_keeping rfl (fun _ _ => trivial) fun _ =>
          contains_keeping rfl (fun _ _ => trivial) fun _ => contains_pure _
  case releasedir arg =>
    refine contains_keeping rfl (fun _ _ => trivial) fun b => ?_
    cases b with
    | none => exact contains_errno fun e => (⟨e⟩ : ReleasedirRet)
    | some dp =>
        refine contains_keeping rfl (fun _ _ => trivial) fun _ => ?_
        split
        · exact contains_errno fun e => (⟨e⟩ : ReleasedirRet)
        · exact contains_pure _
  case rename arg =>
    exact contains_rename arg (hdoors (List.Mem.head _))
      (hdoors (List.Mem.tail _ (List.Mem.head _)))
  case symlink arg =>
    exact contains_symlink arg hR (hs.target arg rfl) (hpath (List.Mem.head _))
  case link arg =>
    exact contains_link arg hR hL (hdoors (List.Mem.head _))
      (hdoors (List.Mem.tail _ (List.Mem.head _))) (hs.linked arg rfl)
  case readlink arg =>
    refine contains_keeping rfl (hlook (List.Mem.head _)) fun b => ?_
    cases b with
    | none => exact contains_errno fun e => { stale.readlink with ret := e }
    | some t => exact contains_pure _
  case mknod arg => exact contains_mknod arg hR (hdoors (List.Mem.head _))
  case truncate arg =>
    exact contains_transmit (contains_coded (hfollow (List.Mem.head _)))
  case unlink arg => exact contains_unlink arg (hdoors (List.Mem.head _))
  case utime arg =>
    refine contains_transmit (contains_isOwner (hdoors (List.Mem.head _)).finds fun b => ?_)
    split
    · exact contains_pure _
    · exact contains_bind_pure (hfollow (List.Mem.head _))
  case chmod arg =>
    refine contains_transmit (contains_isOwner (hdoors (List.Mem.head _)).finds fun b => ?_)
    split
    · exact contains_pure _
    · exact contains_bind_pure (hfollow (List.Mem.head _))
  case chown arg =>
    exact contains_transmit (contains_coded (hfollow (List.Mem.head _)))
  case openFile arg => exact contains_open arg _ _ hR (hpath (List.Mem.head _))
  case release arg => exact contains_coded fun _ _ => trivial
  case read arg =>
    refine contains_keeping rfl (fun _ _ => trivial) fun _ =>
      contains_keeping rfl (fun _ _ => trivial) fun b =>
        contains_keeping rfl (fun _ _ => trivial) fun _ => ?_
    cases b with
    | none => exact contains_errno fun e => { stale.read with ret := e }
    | some data => exact contains_pure _
  case write arg =>
    refine contains_write arg _ hR fun hrole => hpath ?_
    simp [Request.lookups, hrole]
  case statfs arg =>
    refine contains_keeping rfl (hfollow (List.Mem.head _)) fun b => ?_
    cases b with
    | none => exact contains_errno fun e => { stale.statfs with ret := e }
    | some st => exact contains_pure _

/-! ## Runs -/

/-- Every call that the handler issues is confined, and issued while the server is inside. -/
def Contained (T : CStr → Prop) (O : Ino → Prop) (a : Arrival) (h : Host) : Prop :=
  (compute6 a.stale a.request).Each (server a.peer)
    (fun c h => c.Confined T h ∧ Walled T O h.os) h

section

variable {T : CStr → Prop} {O : Ino → Prop} {a : Arrival} {h h' h₀ : Host}
  {tr : List (Event Arrival Reply Host)}

/-- **One call** of an object inside keeps the wall, and what is outside. -/
theorem step_confined {β : Type} {c : Call β} {b : β} {peer : Peer} (hc : c.Confined T h)
    (hw : Walled T O h.os) (he : (server peer).step c h = .ok (b, h')) :
    Walled T O h'.os ∧ Secluded O h.os.fs h'.os.fs := by
  cases c with
  | os c =>
      obtain ⟨r, hr, hrt⟩ := map_eq_ok.mp he
      cases hrt
      exact exec_confined hc hw hr
  | rpc c => cases c <;> cases he <;> exact ⟨hw, .refl⟩

/-- **One request.** -/
theorem contained_of_stays (hw : Walled T O h.os) (hs : StaysInside T a.request h.os.fs) :
    Contained T O a h := by
  have hcontains := contains_compute6 a.peer a.stale hw.rooted hw.linked hs h rfl
  have heach := hcontains.each Host.SameNames.refl
  exact heach.invariant hw fun e s hc hw b t he => (step_confined hc hw he).1

/-- The calls of a program keep the wall, and what is outside, when each of them does. -/
theorem walled_along {E : Type → Type} {m : Machine E Host Halt}
    {A : {β : Type} → E β → Host → Prop} {α : Type} {p : Prog E α} {x : α} (hw : Walled T O h.os)
    (hstep : ∀ {β : Type} (e : E β) (s : Host), A e s → Walled T O s.os →
      ∀ (b : β) (t : Host), m.step e s = .ok (b, t) →
        Walled T O t.os ∧ Secluded O s.os.fs t.os.fs)
    (hp : p.Each m A h) (hr : p.run m h = .ok (x, h')) :
    Walled T O h'.os ∧ Secluded O h.os.fs h'.os.fs := by
  have hrel : Walled T O h.os → Walled T O h'.os ∧ Secluded O h.os.fs h'.os.fs := by
    refine Each.run_rel (R := fun h h' : Host => Walled T O h.os →
      Walled T O h'.os ∧ Secluded O h.os.fs h'.os.fs) (fun _ hw => ⟨hw, .refl⟩) ?_ ?_ hp hr
    · intro x y z hxy hyz hx
      obtain ⟨hy, hxy⟩ := hxy hx
      obtain ⟨hz, hyz⟩ := hyz hy
      exact ⟨hz, hxy.trans hyz⟩
    · intro β e s hc b t he hw
      exact hstep e s hc hw b t he
  exact hrel hw

/-- **One request** whose calls are all contained keeps the wall, and what is outside. -/
theorem walled_of_contained {reply : Reply} (hw : Walled T O h.os) (hc : Contained T O a h)
    (hs : serve a h = .ok (reply, h')) : Walled T O h'.os ∧ Secluded O h.os.fs h'.os.fs :=
  walled_along hw (fun _ _ hc hw _ _ he => step_confined hc.1 hw he) hc hs

/-- **The run.**  A server that is inside stays inside as long as the requests do. -/
theorem contained_along (hw : Walled T (Outside h₀.os.fs) h₀.os) (hrun : Runs serve h₀ tr h)
    (hin : ∀ e ∈ tr, e.pre.os.fs.Linked T → StaysInside T e.input.request e.pre.os.fs) :
    (∀ e ∈ tr, Contained T (Outside h₀.os.fs) e.input e.pre) ∧
      Walled T (Outside h₀.os.fs) h.os ∧ Secluded (Outside h₀.os.fs) h₀.os.fs h.os.fs := by
  induction hrun with
  | nil => exact ⟨fun e he => absurd he List.not_mem_nil, hw, .refl⟩
  | @snoc tr e _ hs ih =>
      obtain ⟨hcontained, hpre, hpast⟩ := ih fun e' he' => hin e' (List.mem_append_left _ he')
      have hlast := contained_of_stays hpre (hin e (by simp) hpre.linked)
      obtain ⟨hpost, hstep⟩ := walled_of_contained hpre hlast hs
      refine ⟨fun e' he' => ?_, hpost, hpast.trans hstep⟩
      rcases List.mem_append.mp he' with he' | he'
      · exact hcontained e' he'
      · rw [List.mem_singleton.mp he']
        exact hlast

/-- A server that has no file from outside open, before which `/DFS` has its shape. -/
theorem walled_start (hR : h₀.os.fs.Rooted dfsName) (hL : h₀.os.fs.Linked T)
    (hfds : ∀ fd f i, h₀.os.fds.file fd = some f → f.ino = some i → ¬ Outside h₀.os.fs i) :
    Walled T (Outside h₀.os.fs) h₀.os :=
  ⟨hR, hL, fun _ hi => hi, hfds⟩

/-- **Staying inside.**  In every run of a server that has no file from outside open and whose
requests stay inside, every call of every handler is confined to `/DFS`, and what was outside at the
start is untouched at the end. -/
theorem contained_run (hR : h₀.os.fs.Rooted dfsName)
    (hfds : ∀ fd f i, h₀.os.fds.file fd = some f → f.ino = some i → ¬ Outside h₀.os.fs i)
    (hrun : Runs serve h₀ tr h)
    (hin : ∀ e ∈ tr, StaysInside (fun _ => True) e.input.request e.pre.os.fs) :
    (∀ e ∈ tr, Contained (fun _ => True) (Outside h₀.os.fs) e.input e.pre) ∧
      Secluded (Outside h₀.os.fs) h₀.os.fs h.os.fs := by
  have hw := walled_start hR (fun _ _ _ => trivial : h₀.os.fs.Linked fun _ => True) hfds
  obtain ⟨hcalls, -, hkept⟩ := contained_along hw hrun fun e he _ => hin e he
  exact ⟨hcalls, hkept⟩

end

/-- `/DFS` with a file, and something else beside it. -/
def besideDfs : FS := .ofNodes [
  .plain (.dir 0 [("DFS".toList, 1), ("etc".toList, 3)]) 0 0o755,
  .plain (.dir 0 [("f".toList, 2)]) 0 0o777,
  .plain (.reg []) 1 0o644,
  .plain (.dir 0 []) 0 0o755]

/-- The volume of the example has the shape. -/
theorem rooted_besideDfs : besideDfs.Rooted dfsName := FS.rooted_of_check (by decide)

/-- A link to the file. -/
def linkToFile : Request := .symlink ⟨"1".toList, ⟨1, 1⟩, "/DFS/f".toList, "/l".toList⟩

/-- A server that has been started over this tree. -/
def besideServer : Host := ⟨OS.launch besideDfs, []⟩

/-- The server of the example has no file of it open. -/
theorem besideServer_files : ∀ fd f i, besideServer.os.fds.file fd = some f → f.ino = some i →
    ¬ Outside besideServer.os.fs i := by
  intro fd f i hf hi
  obtain ⟨n, hmem, -⟩ := Descriptors.file_eq_some.mp hf
  have hown : ∀ e ∈ besideServer.os.fds.entries, e.2 = ownFile := by decide
  obtain rfl : f = ownFile := hown _ hmem
  cases hi

/-- It makes the link. -/
theorem serve_linkToFile : ∃ h,
    serve (.alone linkToFile) besideServer = .ok (.status ⟨0⟩, h) := by
  have hrun : (serve (.alone linkToFile) besideServer).map (·.1) = .ok (.status ⟨0⟩) := by rfl
  obtain ⟨⟨reply, h⟩, hs, hret⟩ := map_eq_ok.mp hrun
  obtain rfl : reply = .status ⟨0⟩ := hret
  exact ⟨h, hs⟩

/-- A client makes a symbolic link inside; what is beside `/DFS` stays as it was. -/
theorem contained_run_link : ∃ tr h, Runs serve besideServer tr h ∧ tr ≠ [] ∧
    (∀ e ∈ tr, Contained (fun _ => True) (Outside besideDfs) e.input e.pre) ∧
      Secluded (Outside besideDfs) besideDfs h.os.fs := by
  obtain ⟨h, hs⟩ := serve_linkToFile
  refine ⟨_, h, .single hs, List.cons_ne_nil _ _,
    contained_run rooted_besideDfs besideServer_files (.single hs) fun e he => ?_⟩
  obtain rfl := List.mem_singleton.mp he
  refine ⟨?_, fun arg harg => (by cases harg), fun _ _ => trivial⟩
  intro x hx
  obtain rfl : x = (false, "/l".toList) := List.mem_singleton.mp hx
  change besideDfs.staysIn dfsName false (translateAbspath "/l".toList) = true
  decide

/-! ## Clients that stay inside by themselves -/

/-- A target of a link that leads nowhere else: it does not go up, and it begins with `/DFS` when it
begins with a slash. -/
def tameTarget (t : CStr) : Bool :=
  dotdot ∉ components t ∧ (t.head? = some '/' → enters dfsName (components t) = true)

/-- A request without `..` that makes such links only. -/
def Request.tame (r : Request) : Bool :=
  (r.lookups.all fun e => dotdot ∉ components e.2) && match r with
    | .symlink arg => tameTarget arg.path
    | _ => true

section

variable {fs : FS} {r : Request}

theorem dotdot_notMem_walkComps {p : CStr} (h : dotdot ∉ components p) :
    dotdot ∉ walkComps p := by
  unfold walkComps
  split
  · rw [List.mem_append, not_or]
    exact ⟨h, by decide⟩
  · rwa [List.append_nil]

/-- Without `..` and with such links only, no lookup leads out. -/
theorem stays_of_tame {f : Bool} {n : ℕ} {cur : Ino} {l : List Name}
    (hL : fs.Linked fun t => tameTarget t = true) (hl : dotdot ∉ l) :
    fs.stays dfsName f n cur l = true := by
  induction n using Nat.strongRecOn generalizing cur l with
  | _ n ihn =>
    induction l generalizing cur with
    | nil => exact FS.stays_nil
    | cons x l ihl =>
        rw [List.mem_cons, not_or] at hl
        refine FS.stays_cons.mpr fun i hi =>
          ⟨fun hx => absurd hx.symm hl.1, fun _ => ihl hl.2, fun t ht _ => ?_⟩
        have htame : dotdot ∉ components t ∧
            (t.head? = some '/' → enters dfsName (components t) = true) :=
          of_decide_eq_true (hL i t ht)
        refine ⟨htame.2, fun m hm => ihn m (by omega) ?_⟩
        rw [List.mem_append, not_or]
        exact ⟨dotdot_notMem_walkComps htame.1, hl.2⟩

/-- A path without `..` stays inside when no link target leads out. -/
theorem staysIn_of_tame {f : Bool} {p : CStr} (hL : fs.Linked fun t => tameTarget t = true)
    (hp : dotdot ∉ components p) : fs.staysIn dfsName f (translateAbspath p) = true := by
  refine FS.staysIn_iff.mpr ⟨?_, stays_of_tame hL ?_⟩
  · rw [components_translate, FS.enters_cons special_dfsName]
    exact .inl rfl
  · refine dotdot_notMem_walkComps ?_
    rw [components_translate, List.mem_cons, not_or]
    exact ⟨by decide, hp⟩

/-- **A tame request** stays inside when no link target leads out. -/
theorem staysInside_of_tame (hL : fs.Linked fun t => tameTarget t = true) (hr : r.tame = true) :
    StaysInside (fun t => tameTarget t = true) r fs := by
  have hpaths : ∀ e ∈ r.lookups, dotdot ∉ components e.2 := by
    intro e he
    have hall := (Bool.and_eq_true _ _ ▸ hr).1
    simpa using List.all_eq_true.mp hall e he
  refine ⟨fun e he => staysIn_of_tame hL (hpaths e he), ?_, ?_⟩
  · rintro arg rfl fs' hlink
    have hL' : fs'.Linked fun t => tameTarget t = true := by
      obtain ⟨i, d, x, -, -, -, rfl⟩ := FS.link_eq_ok.mp hlink
      exact hL.entries.setLinks
    exact staysIn_of_tame hL' (hpaths (false, arg.newpath) (List.Mem.tail _ (List.Mem.head _)))
  · rintro arg rfl
    exact (Bool.and_eq_true _ _ ▸ hr).2

/-- **Clients without `..`.**  When no request of a run goes up or makes a link that leads out, and
there was no such link at the start, every request is contained. -/
theorem contained_of_tame {h₀ h : Host} {tr : List (Event Arrival Reply Host)}
    (hR : h₀.os.fs.Rooted dfsName) (hL : h₀.os.fs.Linked fun t => tameTarget t = true)
    (hfds : ∀ fd f i, h₀.os.fds.file fd = some f → f.ino = some i → ¬ Outside h₀.os.fs i)
    (hrun : Runs serve h₀ tr h)
    (htame : ∀ e ∈ tr, e.input.request.tame = true) :
    (∀ e ∈ tr, Contained (fun t => tameTarget t = true) (Outside h₀.os.fs) e.input e.pre) ∧
      Secluded (Outside h₀.os.fs) h₀.os.fs h.os.fs := by
  have hw := walled_start hR hL hfds
  obtain ⟨hcalls, -, hkept⟩ :=
    contained_along hw hrun fun e he hL => staysInside_of_tame hL (htame e he)
  exact ⟨hcalls, hkept⟩

end

theorem linked_besideDfs : besideDfs.Linked fun t => tameTarget t = true := by
  intro i t ht
  obtain ⟨n, hn, hb⟩ := FS.linkTarget_eq_some.mp ht
  have hmem : n ∈ [Inode.plain (.dir 0 [("DFS".toList, 1), ("etc".toList, 3)]) 0 0o755,
      .plain (.dir 0 [("f".toList, 2)]) 0 0o777, .plain (.reg []) 1 0o644,
      .plain (.dir 0 []) 0 0o755] := List.mem_of_getElem? hn
  simp only [List.mem_cons, List.not_mem_nil, or_false] at hmem
  rcases hmem with rfl | rfl | rfl | rfl <;> cases hb

/-- The symbolic link is made by a tame request. -/
theorem contained_of_tame_link : ∃ tr h, Runs serve besideServer tr h ∧ tr ≠ [] ∧
    (∀ e ∈ tr, Contained (fun t => tameTarget t = true) (Outside besideDfs) e.input e.pre) ∧
      Secluded (Outside besideDfs) besideDfs h.os.fs := by
  obtain ⟨h, hs⟩ := serve_linkToFile
  refine ⟨_, h, .single hs, List.cons_ne_nil _ _, contained_of_tame rooted_besideDfs
    linked_besideDfs besideServer_files (.single hs) fun e he => ?_⟩
  obtain rfl := List.mem_singleton.mp he
  change linkToFile.tame = true
  decide

end DFS
