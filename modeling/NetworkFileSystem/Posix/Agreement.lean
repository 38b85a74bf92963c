import NetworkFileSystem.Posix.Names

/-!
# File systems that agree

Two file systems hold the same tree when their inodes can be matched: `Iso R fs fs'` says that the
relation `R` matches the roots, that matched inodes have the same kind, content, owner and mode,
that matched directories have the same names for matched inodes, and that no inode is matched
twice.  The numbers of the inodes do not matter, and neither do inodes without a name.

A path then leads to matched inodes on both sides or fails on both with the same error
(`Iso.resolve`, `Iso.lresolve`, `Iso.slot`).  `Agree` hides the relation, because a call that
makes an inode extends it; **every call that changes the tree by path keeps `Agree`** and answers
the same on both sides (`Agree.mkdir` and its like).

Time stamps are compared where `utime` has set them.
-/

namespace Posix

open Effects

/-! ## Matched inodes -/

/-- The same body up to the numbers of inodes. -/
inductive BodyRel (R : Ino → Ino → Prop) : Body → Body → Prop
  | reg (d : List UInt8) : BodyRel R (.reg d) (.reg d)
  | dir {p p' : Ino} {es es' : List (Name × Ino)} (hp : R p p')
      (hes : ∀ x, Option.Rel R (es.lookup x) (es'.lookup x)) : BodyRel R (.dir p es) (.dir p' es')
  | symlink (t : CStr) : BodyRel R (.symlink t) (.symlink t)
  | fifo : BodyRel R .fifo .fifo
  | sock : BodyRel R .sock .sock
  | chr (dev : Int) : BodyRel R (.chr dev) (.chr dev)
  | blk (dev : Int) : BodyRel R (.blk dev) (.blk dev)

/-- The same inode up to the numbers of inodes and the times that `utime` did not set. -/
structure NodeRel (R : Ino → Ino → Prop) (n n' : Inode) : Prop where
  body : BodyRel R n.body n'.body
  uid_eq : n'.uid = n.uid
  gid_eq : n'.gid = n.gid
  perm_eq : n'.perm = n.perm
  nlink_eq : n'.nlink = n.nlink
  stamped_eq : n'.stamped = n.stamped
  times_eq : n.stamped = true → n'.atime = n.atime ∧ n'.mtime = n.mtime

/-- The inodes that `R` matches make up the same tree. -/
structure Iso (R : Ino → Ino → Prop) (fs fs' : FS) : Prop where
  root : R fs.root fs'.root
  node : ∀ i i', R i i' → ∃ n n', fs.node i = some n ∧ fs'.node i' = some n' ∧ NodeRel R n n'
  inj : ∀ i i' j j', R i i' → R j j' → (i = j ↔ i' = j')

/-- The root, the parents and the entries of directories are inodes. -/
structure FS.Closed (fs : FS) : Prop where
  root : (fs.node fs.root).isSome
  dir : ∀ d parent es, fs.dir d = .ok (parent, es) →
    (fs.node parent).isSome ∧ ∀ x j, es.lookup x = some j → (fs.node j).isSome

/-- The parent and the entries of the inode are below `m`. -/
def Inode.within (m : ℕ) (n : Inode) : Bool :=
  match n.body with
  | .dir parent es => parent < m && es.all fun e => e.2 < m
  | _ => true

/-- The two file systems hold the same tree. -/
def Agree (fs fs' : FS) : Prop := ∃ R, Iso R fs fs'

variable {R S : Ino → Ino → Prop} {fs fs' : FS} {n n' : Inode} {i i' d d' : Ino} {x : Name}
  {p : CStr}

/-- A volume given by its inodes is closed when no entry names an inode behind the last. -/
theorem FS.closed_ofNodes {nodes : List Inode} (hne : nodes ≠ [])
    (h : ∀ n ∈ nodes, n.within nodes.length = true) : (FS.ofNodes nodes).Closed := by
  have hsome : ∀ {i : Ino}, i < nodes.length → ((FS.ofNodes nodes).node i).isSome = true := by
    intro i hi
    show (nodes[i]?).isSome = true
    simp [hi]
  refine ⟨hsome (List.length_pos_iff.mpr hne), fun d parent es hdir => ?_⟩
  obtain ⟨n, hn, hb⟩ := FS.dir_eq_ok.mp hdir
  have hw := h n (List.mem_of_getElem? hn)
  simp only [Inode.within, hb, Bool.and_eq_true, decide_eq_true_eq, List.all_eq_true] at hw
  refine ⟨hsome hw.1, fun x j hl => hsome ?_⟩
  obtain ⟨l₁, l₂, rfl, -⟩ := List.lookup_eq_some_iff.mp hl
  exact hw.2 (x, j) (by simp)

/-- A wider relation relates more. -/
theorem optionRel_mono {o o' : Option Ino} (h : Option.Rel R o o') (hRS : ∀ i i', R i i' → S i i') :
    Option.Rel S o o' := by
  cases h with
  | some h => exact .some (hRS _ _ h)
  | none => exact .none

/-- A wider relation relates more bodies. -/
theorem BodyRel.mono {b b' : Body} (h : BodyRel R b b') (hRS : ∀ i i', R i i' → S i i') :
    BodyRel S b b' := by
  cases h with
  | dir hp hes => exact .dir (hRS _ _ hp) fun x => optionRel_mono (hes x) hRS
  | reg d => exact .reg d
  | symlink t => exact .symlink t
  | fifo => exact .fifo
  | sock => exact .sock
  | chr dev => exact .chr dev
  | blk dev => exact .blk dev

/-- Related bodies are of one kind. -/
theorem BodyRel.kind_eq {b b' : Body} (h : BodyRel R b b') : b'.kind = b.kind := by
  cases h <;> rfl

/-- A wider relation relates more inodes. -/
theorem NodeRel.mono (h : NodeRel R n n') (hRS : ∀ i i', R i i' → S i i') : NodeRel S n n' :=
  { h with body := h.body.mono hRS }

theorem optionRel_swap {o o' : Option Ino} (h : Option.Rel R o o') :
    Option.Rel (fun j i => R i j) o' o := by
  cases h with
  | some h => exact .some h
  | none => exact .none

/-- The relation of bodies, read from the other side. -/
theorem BodyRel.swap {b b' : Body} (h : BodyRel R b b') : BodyRel (fun j i => R i j) b' b := by
  cases h with
  | dir hp hes => exact .dir hp fun x => optionRel_swap (hes x)
  | reg d => exact .reg d
  | symlink t => exact .symlink t
  | fifo => exact .fifo
  | sock => exact .sock
  | chr dev => exact .chr dev
  | blk dev => exact .blk dev

/-- The relation of inodes, read from the other side. -/
theorem NodeRel.swap (h : NodeRel R n n') : NodeRel (fun j i => R i j) n' n where
  body := h.body.swap
  uid_eq := h.uid_eq.symm
  gid_eq := h.gid_eq.symm
  perm_eq := h.perm_eq.symm
  nlink_eq := h.nlink_eq.symm
  stamped_eq := h.stamped_eq.symm
  times_eq hs := by
    obtain ⟨ha, hm⟩ := h.times_eq (h.stamped_eq ▸ hs)
    exact ⟨ha.symm, hm.symm⟩

/-- The relation of trees, read from the other side. -/
theorem Iso.swap (h : Iso R fs fs') : Iso (fun j i => R i j) fs' fs where
  root := h.root
  node j i hij := by
    obtain ⟨n, n', hn, hn', hrel⟩ := h.node i j hij
    exact ⟨n', n, hn', hn, hrel.swap⟩
  inj j i l k hij hkl := (h.inj i j k l hij hkl).symm

/-- Related inodes are of one kind. -/
theorem NodeRel.kind_eq (h : NodeRel R n n') : n'.kind = n.kind := h.body.kind_eq

/-- Two directories with the same names for matched inodes are empty together. -/
theorem nil_iff_of_lookup {es es' : List (Name × Ino)}
    (h : ∀ x, Option.Rel R (es.lookup x) (es'.lookup x)) : es = [] ↔ es' = [] := by
  have hnil : ∀ {l : List (Name × Ino)}, (∀ x, l.lookup x = none) → l = [] := by
    intro l hl
    cases l with
    | nil => rfl
    | cons e l =>
        have hhead := hl e.1
        simp at hhead
  constructor
  · rintro rfl
    refine hnil fun x => ?_
    have hx := h x
    simp only [List.lookup_nil] at hx
    generalize es'.lookup x = o at hx ⊢
    cases hx
    rfl
  · rintro rfl
    refine hnil fun x => ?_
    have hx := h x
    simp only [List.lookup_nil] at hx
    generalize es.lookup x = o at hx ⊢
    cases hx
    rfl

/-! ## Lookups -/

/-- A directory and a name, on both sides. -/
def SlotRel (R : Ino → Ino → Prop) (r r' : Ino × Name) : Prop := R r.1 r'.1 ∧ r'.2 = r.2

/-- What two matched directories hold. -/
def DirRel (R : Ino → Ino → Prop) (r r' : Ino × List (Name × Ino)) : Prop :=
  R r.1 r'.1 ∧ ∀ x, Option.Rel R (r.2.lookup x) (r'.2.lookup x)

namespace Iso

variable {cur cur' : Ino} {l : List Name}

/-- Of two related inodes both are there or neither is. -/
theorem isSome (h : Iso R fs fs') (hi : R i i') : (fs.node i).isSome ↔ (fs'.node i').isSome := by
  obtain ⟨n, n', hn, hn', -⟩ := h.node i i' hi
  simp [hn, hn']

/-- Related directories have related entries. -/
theorem dir (h : Iso R fs fs') (hd : R d d') : Related (DirRel R) (fs.dir d) (fs'.dir d') := by
  obtain ⟨n, n', hn, hn', hrel⟩ := h.node d d' hd
  simp only [FS.dir, hn, hn']
  have hb := hrel.body
  revert hb
  generalize n.body = b
  generalize n'.body = b'
  intro hb
  cases hb with
  | dir hp hes => exact Related.ok ⟨hp, hes⟩
  | _ => exact Related.error _

/-- Related inodes are both directories or neither is. -/
theorem isDir_eq (h : Iso R fs fs') (hi : R i i') : fs'.isDir i' = fs.isDir i := by
  obtain ⟨n, n', hn, hn', hrel⟩ := h.node i i' hi
  simp only [FS.isDir, hn, hn', hrel.kind_eq]

/-- Related inodes have the same link target, if any. -/
theorem linkTarget_eq (h : Iso R fs fs') (hi : R i i') : fs'.linkTarget i' = fs.linkTarget i := by
  obtain ⟨n, n', hn, hn', hrel⟩ := h.node i i' hi
  simp only [FS.linkTarget, hn, hn']
  have hb := hrel.body
  revert hb
  generalize n.body = b
  generalize n'.body = b'
  intro hb
  cases hb <;> rfl

/-- A name leads to related inodes. -/
theorem child (h : Iso R fs fs') (hd : R d d') (x : Name) :
    Related R (fs.child d x) (fs'.child d' x) := by
  refine (h.dir hd).bind fun r r' hr => Related.need_bind Iff.rfl _ fun _ => ?_
  have hpick : Option.Rel R (FS.pick d r.1 r.2 x) (FS.pick d' r'.1 r'.2 x) := by
    unfold FS.pick
    split
    · exact .some hd
    · split
      · exact .some hr.1
      · exact hr.2 x
  revert hpick
  generalize FS.pick d r.1 r.2 x = o
  generalize FS.pick d' r'.1 r'.2 x = o'
  intro hpick
  cases hpick with
  | none => exact Related.error _
  | some hi => exact Related.need_bind (h.isSome hi) _ fun _ => Related.ok hi

/-- A link target starts from related inodes. -/
theorem base (h : Iso R fs fs') (hd : R d d') (t : CStr) : R (fs.base d t) (fs'.base d' t) := by
  unfold FS.base
  split
  · exact h.root
  · exact hd

/-- **One step of a walk**, by whatever is done about links. -/
theorem walkWith (h : Iso R fs fs') {jump jump' : Ino → List Name → Except Errno Ino}
    (hjump : ∀ i i' l, R i i' → Related R (jump i l) (jump' i' l)) (hcur : R cur cur') :
    Related R (fs.walkWith jump cur l) (fs'.walkWith jump' cur' l) := by
  induction l generalizing cur cur' with
  | nil => exact Related.ok hcur
  | cons x l ih =>
      refine (h.child hcur x).bind fun i i' hi => ?_
      rw [h.linkTarget_eq hi]
      cases fs.linkTarget i with
      | none => exact ih hi
      | some t => exact hjump _ _ _ (h.base hcur t)

/-- **A walk** along the same names ends at related inodes, or fails alike. -/
theorem walk (h : Iso R fs fs') (m : ℕ) (hcur : R cur cur') :
    Related R (fs.walk m cur l) (fs'.walk m cur' l) := by
  induction m generalizing cur cur' l with
  | zero => exact h.walkWith (fun _ _ _ _ => Related.error _) hcur
  | succ m ih => exact h.walkWith (fun _ _ _ hi => ih hi) hcur

/-- The check of a path that does not look at the file system. -/
theorem getname_bind {α β : Type} {T : α → β → Prop} {f : Unit → Except Errno α}
    {g : Unit → Except Errno β} (h : Related T (f ()) (g ())) :
    Related T (getname p >>= f) (getname p >>= g) := by
  cases getname p with
  | error e => exact Related.error e
  | ok u => exact h

/-- Paths lead to related inodes. -/
theorem resolve (h : Iso R fs fs') (p : CStr) : Related R (fs.resolve p) (fs'.resolve p) :=
  getname_bind (h.walk _ h.root)

/-- So they do when a last link is not followed. -/
theorem lresolve (h : Iso R fs fs') (p : CStr) : Related R (fs.lresolve p) (fs'.lresolve p) := by
  refine getname_bind ?_
  cases (walkComps p).getLast? with
  | none => exact Related.ok h.root
  | some x => exact (h.walk _ h.root).bind fun d d' hd => h.child hd x

/-- Paths name the same entry of related directories. -/
theorem slot (h : Iso R fs fs') (p : CStr) : Related (SlotRel R) (fs.slot p) (fs'.slot p) := by
  refine getname_bind ?_
  cases (components p).getLast? with
  | none => exact Related.ok ⟨h.root, rfl⟩
  | some x =>
      exact (h.walk _ h.root).bind fun d d' hd => (h.dir hd).bind fun _ _ _ => Related.ok ⟨hd, rfl⟩

/-- A name is there in both or in neither. -/
theorem isOk_child (h : Iso R fs fs') (hd : R d d') (x : Name) :
    isOk (fs.child d x) = isOk (fs'.child d' x) := (h.child hd x).isOk_eq

/-- A path is free in both or in neither. -/
theorem vacant (h : Iso R fs fs') (p : CStr) (dirOk : Bool) :
    Related (SlotRel R) (fs.vacant p dirOk) (fs'.vacant p dirOk) := by
  refine (h.slot p).bind ?_
  rintro ⟨d, x⟩ ⟨d', x'⟩ ⟨hd, hx⟩
  obtain rfl : x' = x := hx
  refine Related.need_bind Iff.rfl _ fun _ => Related.need_bind Iff.rfl _ fun _ => ?_
  refine Related.need_bind (by rw [h.isOk_child hd]) _ fun _ => ?_
  exact Related.need_bind Iff.rfl _ fun _ => Related.ok ⟨hd, rfl⟩

/-- The directories above two matched ones. -/
theorem above (h : Iso R fs fs') (m : ℕ) (hd : R d d') :
    List.Forall₂ R (fs.above m d) (fs'.above m d') := by
  induction m generalizing d d' with
  | zero => exact .cons hd .nil
  | succ m ih =>
      simp only [FS.above, ← h.inj _ _ _ _ hd h.root]
      split
      · exact .cons hd .nil
      · have hdir := h.dir hd
        revert hdir
        cases fs.dir d <;> cases fs'.dir d' <;> intro hdir
        · exact .cons hd .nil
        · exact hdir.elim
        · exact hdir.elim
        · exact .cons hd (ih hdir.1)

/-- Related lists have related members. -/
theorem mem_iff (h : Iso R fs fs') {l l' : List Ino} (hl : List.Forall₂ R l l') (hi : R i i') :
    i ∈ l ↔ i' ∈ l' := by
  induction hl with
  | nil => simp
  | cons hj hl ih => rw [List.mem_cons, List.mem_cons, ih, h.inj _ _ _ _ hi hj]

/-- A rename may replace in both or in neither. -/
theorem replaceable (h : Iso R fs fs') {j j' : Ino} (hi : R i i') (hj : R j j') :
    Related (fun _ _ => True) (fs.replaceable i j) (fs'.replaceable i' j') := by
  unfold FS.replaceable
  rw [h.isDir_eq hi, h.isDir_eq hj]
  split
  · exact (h.dir hj).bind fun r r' hr => Related.need (nil_iff_of_lookup hr.2) _
  · exact Related.need Iff.rfl _

end Iso

/-! ## Names -/

/-- The way down from a directory, one name after the other. -/
def FS.descend (fs : FS) : Ino → List Name → Except Errno Ino
  | d, [] => .ok d
  | d, x :: l => do
    let i ← fs.child d x
    fs.descend i l

/-- The inode has a name in the tree. -/
def FS.Named (fs : FS) (i : Ino) : Prop :=
  ∃ l, (∀ x ∈ l, FS.special x = false) ∧ fs.descend fs.root l = .ok i

namespace Iso

/-- Names lead down to related inodes. -/
theorem descend (h : Iso R fs fs') {l : List Name} (hd : R d d') :
    Related R (fs.descend d l) (fs'.descend d' l) := by
  induction l generalizing d d' with
  | nil => exact Related.ok hd
  | cons x l ih => exact (h.child hd x).bind fun i i' hi => ih hi

end Iso

/-! ## Changes -/

namespace NodeRel

/-- The same change of the entries on both sides. -/
theorem onEntries {f f' : List (Name × Ino) → List (Name × Ino)} (links : ℕ → ℕ)
    (h : NodeRel R n n')
    (hf : ∀ es es' : List (Name × Ino), (∀ x, Option.Rel R (es.lookup x) (es'.lookup x)) →
      ∀ x, Option.Rel R ((f es).lookup x) ((f' es').lookup x)) :
    NodeRel R (n.onEntries f links) (n'.onEntries f' links) := by
  obtain ⟨body, uid, gid, perm, nlink, atime, mtime, ctime, stamped⟩ := n
  obtain ⟨body', uid', gid', perm', nlink', atime', mtime', ctime', stamped'⟩ := n'
  obtain ⟨hbody, huid, hgid, hperm, hnlink, hstamped, htimes⟩ := h
  cases hbody with
  | dir hp hes =>
      refine ⟨.dir hp (hf _ _ hes), huid, hgid, hperm, ?_, hstamped, htimes⟩
      exact congrArg links hnlink
  | reg d => exact ⟨.reg d, huid, hgid, hperm, hnlink, hstamped, htimes⟩
  | symlink t => exact ⟨.symlink t, huid, hgid, hperm, hnlink, hstamped, htimes⟩
  | fifo => exact ⟨.fifo, huid, hgid, hperm, hnlink, hstamped, htimes⟩
  | sock => exact ⟨.sock, huid, hgid, hperm, hnlink, hstamped, htimes⟩
  | chr dev => exact ⟨.chr dev, huid, hgid, hperm, hnlink, hstamped, htimes⟩
  | blk dev => exact ⟨.blk dev, huid, hgid, hperm, hnlink, hstamped, htimes⟩

/-- A directory gets related parents. -/
theorem setParent (hd : R d d') (h : NodeRel R n n') :
    NodeRel R (n.setParent d) (n'.setParent d') := by
  obtain ⟨body, uid, gid, perm, nlink, atime, mtime, ctime, stamped⟩ := n
  obtain ⟨body', uid', gid', perm', nlink', atime', mtime', ctime', stamped'⟩ := n'
  obtain ⟨hbody, huid, hgid, hperm, hnlink, hstamped, htimes⟩ := h
  cases hbody with
  | dir hp hes => exact ⟨.dir hd hes, huid, hgid, hperm, hnlink, hstamped, htimes⟩
  | reg d => exact ⟨.reg d, huid, hgid, hperm, hnlink, hstamped, htimes⟩
  | symlink t => exact ⟨.symlink t, huid, hgid, hperm, hnlink, hstamped, htimes⟩
  | fifo => exact ⟨.fifo, huid, hgid, hperm, hnlink, hstamped, htimes⟩
  | sock => exact ⟨.sock, huid, hgid, hperm, hnlink, hstamped, htimes⟩
  | chr dev => exact ⟨.chr dev, huid, hgid, hperm, hnlink, hstamped, htimes⟩
  | blk dev => exact ⟨.blk dev, huid, hgid, hperm, hnlink, hstamped, htimes⟩

/-- The same change of the link counts. -/
theorem setLinks (f : ℕ → ℕ) (h : NodeRel R n n') : NodeRel R (n.setLinks f) (n'.setLinks f) :=
  { h with nlink_eq := congrArg f h.nlink_eq }

/-- The same permission bits. -/
theorem setPerm (mode : UInt32) (h : NodeRel R n n') :
    NodeRel R (n.setPerm mode) (n'.setPerm mode) :=
  { h with perm_eq := rfl }

/-- The same times. -/
theorem setTimes (actime modtime : Int) (h : NodeRel R n n') :
    NodeRel R (n.setTimes actime modtime) (n'.setTimes actime modtime) :=
  { h with stamped_eq := rfl, times_eq := fun _ => ⟨rfl, rfl⟩ }

/-- The same content. -/
theorem setData (d : List UInt8) (h : NodeRel R n n') : NodeRel R (n.setData d) (n'.setData d) :=
  { h with body := .reg d }

/-- The same owner. -/
theorem setOwner (uid gid : UInt32) (h : NodeRel R n n') :
    NodeRel R (n.setOwner uid gid) (n'.setOwner uid gid) where
  body := h.body
  uid_eq := by simp only [Inode.setOwner, h.uid_eq]
  gid_eq := by simp only [Inode.setOwner, h.gid_eq]
  perm_eq := by simp only [Inode.setOwner, h.perm_eq, h.kind_eq]
  nlink_eq := h.nlink_eq
  stamped_eq := h.stamped_eq
  times_eq := h.times_eq

/-- New inodes in matched directories. -/
theorem born {b b' : Body} (h : NodeRel R n n') (hb : BodyRel S b b') (perm : UInt32) :
    NodeRel S (n.born b perm) (n'.born b' perm) where
  body := hb
  uid_eq := rfl
  gid_eq := by simp only [Inode.born, h.perm_eq, h.gid_eq]
  perm_eq := by simp only [Inode.born, h.perm_eq, hb.kind_eq]
  nlink_eq := by simp only [Inode.born, hb.kind_eq]
  stamped_eq := rfl
  times_eq hs := by simp [Inode.born] at hs

end NodeRel

/-- Matched inodes, and a new pair. -/
def Joined (R : Ino → Ino → Prop) (k k' : Ino) (i i' : Ino) : Prop := R i i' ∨ (i = k ∧ i' = k')

namespace Iso

variable {links : ℕ → ℕ} {m m' : Inode}

/-- Matched inodes are rewritten in the same way. -/
theorem modify (h : Iso R fs fs') {f f' : Inode → Inode} (hi : R i i')
    (hf : ∀ n n', NodeRel R n n' → NodeRel R (f n) (f' n')) :
    Iso R (fs.modify i f) (fs'.modify i' f') where
  root := h.root
  inj := h.inj
  node k k' hk := by
    obtain ⟨n, n', hn, hn', hrel⟩ := h.node k k' hk
    by_cases hki : k = i
    · have hki' : k' = i' := (h.inj _ _ _ _ hk hi).mp hki
      exact ⟨f n, f' n', by rw [FS.modify_node, if_pos hki, hn]; rfl,
        by rw [FS.modify_node, if_pos hki', hn']; rfl, hf n n' hrel⟩
    · have hki' : k' ≠ i' := fun hc => hki ((h.inj _ _ _ _ hk hi).mpr hc)
      exact ⟨n, n', by rw [FS.modify_node_ne f hki, hn], by rw [FS.modify_node_ne f' hki', hn'],
        hrel⟩

/-- A new inode on both sides. -/
theorem alloc (h : Iso R fs fs') (hm : NodeRel (Joined R fs.next fs'.next) m m') :
    Iso (Joined R fs.next fs'.next) (fs.alloc m) (fs'.alloc m') where
  root := .inl h.root
  node k k' hk := by
    rcases hk with hk | ⟨rfl, rfl⟩
    · obtain ⟨n, n', hn, hn', hrel⟩ := h.node k k' hk
      exact ⟨n, n', FS.alloc_node_of_some hn, FS.alloc_node_of_some hn', hrel.mono fun _ _ => .inl⟩
    · exact ⟨m, m', by simp, by simp, hm⟩
  inj := by
    -- A matched inode exists, so it is not the next one.
    have hold : ∀ k k', R k k' → k ≠ fs.next ∧ k' ≠ fs'.next := by
      intro k k' hk
      obtain ⟨n, n', hn, hn', -⟩ := h.node k k' hk
      exact ⟨FS.ne_next hn, FS.ne_next hn'⟩
    rintro i i' j j' (hi | ⟨rfl, rfl⟩) (hj | ⟨rfl, rfl⟩)
    · exact h.inj _ _ _ _ hi hj
    · exact iff_of_false (hold _ _ hi).1 (hold _ _ hi).2
    · exact iff_of_false (hold _ _ hj).1.symm (hold _ _ hj).2.symm
    · exact iff_of_true rfl rfl

/-- A new inode on one side, which no name leads to. -/
theorem alloc_left (h : Iso R fs fs') (m : Inode) : Iso R (fs.alloc m) fs' where
  root := h.root
  inj := h.inj
  node k k' hk := by
    obtain ⟨n, n', hn, hn', hrel⟩ := h.node k k' hk
    exact ⟨n, n', FS.alloc_node_of_some hn, hn', hrel⟩

/-- The same new name for related inodes. -/
theorem addEntry (h : Iso R fs fs') (hd : R d d') (x : Name) (hi : R i i') (links : ℕ → ℕ) :
    Iso R (fs.addEntry d x i links) (fs'.addEntry d' x i' links) := by
  refine h.modify hd fun n n' hn => hn.onEntries links fun es es' hes y => ?_
  rw [List.lookup_cons, List.lookup_cons]
  cases y == x with
  | true => exact .some hi
  | false => exact hes y

/-- The same name less. -/
theorem delEntry (h : Iso R fs fs') (hd : R d d') (x : Name) (links : ℕ → ℕ) :
    Iso R (fs.delEntry d x links) (fs'.delEntry d' x links) := by
  refine h.modify hd fun n n' hn => hn.onEntries links fun es es' hes y => ?_
  rw [FS.lookup_dropName, FS.lookup_dropName]
  split
  · exact .none
  · exact hes y

/-- A new inode under a new name on both sides. -/
theorem created (h : Iso R fs fs') (hd : R d d') (x : Name) (links : ℕ → ℕ)
    (hm : NodeRel (Joined R fs.next fs'.next) m m') :
    Iso (Joined R fs.next fs'.next) (fs.created d x links m) (fs'.created d' x links m') :=
  (h.alloc hm).addEntry (.inl hd) x (.inr ⟨rfl, rfl⟩) links

/-- What a rename replaces goes from both. -/
theorem displace (h : Iso R fs fs') (hd : R d d') (x : Name) {j j' : Ino} (hj : R j j') :
    Iso R (fs.displace d x j) (fs'.displace d' x j') := by
  unfold FS.displace
  rw [h.isDir_eq hj]
  split
  · exact (h.delEntry hd x _).modify hj fun _ _ hn => hn.setLinks _
  · exact (h.delEntry hd x _).modify hj fun _ _ hn => hn.setLinks _

/-- The same move in both. -/
theorem moveEntry (h : Iso R fs fs') {e e' : Ino} (hd : R d d') (x : Name) (he : R e e') (y : Name)
    (hi : R i i') : Iso R (fs.moveEntry d x e y i) (fs'.moveEntry d' x e' y i') := by
  unfold FS.moveEntry
  rw [h.isDir_eq hi]
  split
  · exact ((h.delEntry hd x _).addEntry he y hi _).modify hi fun _ _ hn => hn.setParent he
  · exact (h.delEntry hd x _).addEntry he y hi _

end Iso

/-! ## Calls -/

namespace Agree

variable {umask mode : UInt32}

/-- A file system in which names lead to inodes agrees with itself. -/
theorem refl (h : fs.Closed) : Agree fs fs := by
  refine ⟨fun i i' => i = i' ∧ (fs.node i).isSome, ⟨rfl, h.root⟩, ?_, ?_⟩
  · rintro i i' ⟨rfl, hi⟩
    obtain ⟨n, hn⟩ := Option.isSome_iff_exists.mp hi
    refine ⟨n, n, hn, hn, ?_, rfl, rfl, rfl, rfl, rfl, fun _ => ⟨rfl, rfl⟩⟩
    cases hb : n.body with
    | dir parent es =>
        obtain ⟨hparent, hes⟩ := h.dir i parent es (FS.dir_eq_ok.mpr ⟨n, hn, hb⟩)
        refine .dir ⟨rfl, hparent⟩ fun x => ?_
        cases hl : es.lookup x with
        | none => exact .none
        | some j => exact .some ⟨rfl, hes x j hl⟩
    | reg d => exact .reg d
    | symlink t => exact .symlink t
    | fifo => exact .fifo
    | sock => exact .sock
    | chr dev => exact .chr dev
    | blk dev => exact .blk dev
  · rintro i i' j j' ⟨rfl, -⟩ ⟨rfl, -⟩
    exact Iff.rfl

/-- A call that makes an inode under a vacant name. -/
theorem create (h : Agree fs fs') {dirOk : Bool} {links : ℕ → ℕ} {mk mk' : Ino → Inode → Inode}
    (hmk : ∀ (R : Ino → Ino → Prop) d d' n n', R d d' → NodeRel R n n' →
      NodeRel R (mk d n) (mk' d' n')) :
    Related (fun r r' => Agree r.2 r'.2) (fs.create p dirOk links mk)
      (fs'.create p dirOk links mk') := by
  obtain ⟨R, h⟩ := h
  refine (h.vacant p dirOk).bind ?_
  rintro ⟨d, x⟩ ⟨d', x'⟩ ⟨hd, hx⟩
  obtain rfl : x' = x := hx
  obtain ⟨n, n', hn, hn', hrel⟩ := h.node d d' hd
  simp only [FS.createAt, hn, hn', orElse, ok_bind]
  refine Related.ok ⟨_, h.created hd x' links ?_⟩
  exact hmk _ d d' n n' (.inl hd) (hrel.mono fun _ _ => .inl)

/-- `mkdir` keeps the agreement, or fails alike. -/
theorem mkdir (h : Agree fs fs') :
    Related Agree (fs.mkdir umask p mode) (fs'.mkdir umask p mode) := by
  refine (h.create fun R d d' n n' hd hn => ?_).bind fun r r' hr => Related.ok hr
  exact hn.born (.dir hd fun x => .none) _

/-- So does `mknod`. -/
theorem mknod (h : Agree fs fs') (dev : Int) :
    Related Agree (fs.mknod umask p mode dev) (fs'.mknod umask p mode dev) := by
  unfold FS.mknod
  cases hb : FS.specialBody mode dev with
  | error e => exact Related.error e
  | ok body =>
      refine (h.create fun R d d' n n' hd hn => ?_).bind fun r r' hr => Related.ok hr
      refine hn.born ?_ _
      -- No directory is made in this way.
      unfold FS.specialBody at hb
      dsimp only at hb
      repeat' split at hb
      all_goals cases hb
      · exact .reg []
      · exact .chr dev
      · exact .blk dev
      · exact .fifo
      · exact .sock

/-- So does `mkfifo`. -/
theorem mkfifo (h : Agree fs fs') :
    Related Agree (fs.mkfifo umask p mode) (fs'.mkfifo umask p mode) := h.mknod 0

/-- So does `symlink`. -/
theorem symlink (h : Agree fs fs') (target : CStr) :
    Related Agree (fs.symlink target p) (fs'.symlink target p) := by
  refine Iso.getname_bind ?_
  refine (h.create fun R d d' n n' hd hn => ?_).bind fun r r' hr => Related.ok hr
  exact hn.born (.symlink target) _

/-- `open` in the way in which `bb_mknod_6_svc` makes regular files. -/
theorem openAt_excl (h : Agree fs fs') :
    Related (fun r r' => Agree r.2 r'.2)
      (fs.openAt umask p (O_CREAT ||| O_EXCL ||| O_WRONLY) mode)
      (fs'.openAt umask p (O_CREAT ||| O_EXCL ||| O_WRONLY) mode) := by
  rw [FS.openAt_excl, FS.openAt_excl]
  refine Iso.getname_bind (Related.need_bind Iff.rfl _ fun _ => ?_)
  exact h.create fun R d d' n n' hd hn => hn.born (.reg []) _

/-- So does `link`. -/
theorem link (h : Agree fs fs') (q : CStr) : Related Agree (fs.link p q) (fs'.link p q) := by
  obtain ⟨R, h⟩ := h
  refine (h.lresolve p).bind fun i i' hi => (h.vacant q false).bind ?_
  rintro ⟨d, x⟩ ⟨d', x'⟩ ⟨hd, hx⟩
  obtain rfl : x' = x := hx
  refine Related.need_bind (by rw [h.isDir_eq hi]) _ fun _ => Related.ok ⟨R, ?_⟩
  exact (h.addEntry hd x' hi id).modify hi fun _ _ hn => hn.setLinks _

/-- So does `unlink`. -/
theorem unlink (h : Agree fs fs') : Related Agree (fs.unlink p) (fs'.unlink p) := by
  obtain ⟨R, h⟩ := h
  refine (h.slot p).bind ?_
  rintro ⟨d, x⟩ ⟨d', x'⟩ ⟨hd, hx⟩
  obtain rfl : x' = x := hx
  refine Related.need_bind Iff.rfl _ fun _ => (h.child hd x').bind fun i i' hi => ?_
  refine Related.need_bind (by rw [h.isDir_eq hi]) _ fun _ => ?_
  refine Related.need_bind Iff.rfl _ fun _ => Related.ok ⟨R, ?_⟩
  exact (h.delEntry hd x' id).modify hi fun _ _ hn => hn.setLinks _

/-- So does `rmdir`. -/
theorem rmdir (h : Agree fs fs') : Related Agree (fs.rmdir p) (fs'.rmdir p) := by
  obtain ⟨R, h⟩ := h
  refine (h.slot p).bind ?_
  rintro ⟨d, x⟩ ⟨d', x'⟩ ⟨hd, hx⟩
  obtain rfl : x' = x := hx
  refine Related.need_bind Iff.rfl _ fun _ => Related.need_bind Iff.rfl _ fun _ => ?_
  refine Related.need_bind Iff.rfl _ fun _ => (h.child hd x').bind fun i i' hi => ?_
  refine (h.dir hi).bind fun r r' hr => ?_
  refine Related.need_bind (nil_iff_of_lookup hr.2) _ fun _ => ?_
  refine Related.need_bind (not_congr (h.inj _ _ _ _ hi h.root)) _ fun _ => Related.ok ⟨R, ?_⟩
  exact (h.delEntry hd x' _).modify hi fun _ _ hn => hn.setLinks _

/-- So does `rename`. -/
theorem rename (h : Agree fs fs') (q : CStr) : Related Agree (fs.rename p q) (fs'.rename p q) := by
  obtain ⟨R, h⟩ := h
  refine (h.slot p).bind ?_
  rintro ⟨d₁, x₁⟩ ⟨d₁', x₁'⟩ ⟨hd₁, hx₁⟩
  obtain rfl : x₁' = x₁ := hx₁
  refine (h.slot q).bind ?_
  rintro ⟨d₂, x₂⟩ ⟨d₂', x₂'⟩ ⟨hd₂, hx₂⟩
  obtain rfl : x₂' = x₂ := hx₂
  refine Related.need_bind Iff.rfl _ fun _ => (h.child hd₁ x₁').bind fun i i' hi => ?_
  refine Related.need_bind Iff.rfl _ fun _ => ?_
  refine Related.need_bind (by rw [h.isDir_eq hi]) _ fun _ => ?_
  refine Related.need_bind (not_congr (h.mem_iff (h.above _ hd₂) hi)) _ fun _ => ?_
  have hchild := h.child hd₂ x₂'
  revert hchild
  cases fs.child d₂ x₂' <;> cases fs'.child d₂' x₂' <;> intro hchild
  · exact Related.ok ⟨R, h.moveEntry hd₁ x₁' hd₂ x₂' hi⟩
  · exact hchild.elim
  · exact hchild.elim
  · next j j' =>
    have hj : R j j' := hchild
    refine Related.need_bind (not_congr (h.mem_iff (h.above _ hd₁) hj)) _ fun _ => ?_
    by_cases hij : i = j
    · rw [if_pos hij, if_pos ((h.inj _ _ _ _ hi hj).mp hij)]
      exact Related.ok ⟨R, h⟩
    · rw [if_neg hij, if_neg fun hc => hij ((h.inj _ _ _ _ hi hj).mpr hc)]
      refine (h.replaceable hi hj).bind fun _ _ _ => Related.ok ⟨R, ?_⟩
      exact (h.displace hd₂ x₂' hj).moveEntry hd₁ x₁' hd₂ x₂' hi

/-- The calls that look a path up and rewrite the inode they find. -/
theorem set {r : FS → Except Errno Ino} (f : Inode → Inode)
    (hr : ∀ R, Iso R fs fs' → Related R (r fs) (r fs'))
    (hf : ∀ (R : Ino → Ino → Prop) n n', NodeRel R n n' → NodeRel R (f n) (f n'))
    (h : Agree fs fs') : Related Agree (do let i ← r fs; pure (fs.modify i f))
      (do let i ← r fs'; pure (fs'.modify i f)) := by
  obtain ⟨R, h⟩ := h
  exact (hr R h).bind fun i i' hi => Related.ok ⟨R, h.modify hi (hf R)⟩

/-- So does `chmod`. -/
theorem chmod (h : Agree fs fs') : Related Agree (fs.chmod p mode) (fs'.chmod p mode) :=
  h.set (r := fun fs => fs.resolve p) _ (fun _ h => h.resolve p) fun _ _ _ hn => hn.setPerm mode

/-- So does `chown`. -/
theorem chown (h : Agree fs fs') (uid gid : UInt32) :
    Related Agree (fs.chown p uid gid) (fs'.chown p uid gid) :=
  h.set (r := fun fs => fs.resolve p) _ (fun _ h => h.resolve p) fun _ _ _ hn =>
    hn.setOwner uid gid

/-- So does `lchown`. -/
theorem lchown (h : Agree fs fs') (uid gid : UInt32) :
    Related Agree (fs.lchown p uid gid) (fs'.lchown p uid gid) :=
  h.set (r := fun fs => fs.lresolve p) _ (fun _ h => h.lresolve p) fun _ _ _ hn =>
    hn.setOwner uid gid

/-- So does `utime`. -/
theorem utime (h : Agree fs fs') (actime modtime : Int) :
    Related Agree (fs.utime p actime modtime) (fs'.utime p actime modtime) :=
  h.set (r := fun fs => fs.resolve p) _ (fun _ h => h.resolve p) fun _ _ _ hn =>
    hn.setTimes actime modtime

/-- So does `truncate`. -/
theorem truncate (h : Agree fs fs') (len : Int) :
    Related Agree (fs.truncate p len) (fs'.truncate p len) := by
  obtain ⟨R, h⟩ := h
  refine Related.need_bind Iff.rfl _ fun _ => (h.resolve p).bind fun i i' hi => ?_
  obtain ⟨n, n', hn, hn', hrel⟩ := h.node i i' hi
  simp only [hn, hn', orElse, ok_bind]
  have hb := hrel.body
  revert hb
  generalize n.body = b
  generalize n'.body = b'
  intro hb
  cases hb with
  | reg d => exact Related.ok ⟨R, h.modify hi fun _ _ hn => hn.setData _⟩
  | _ => exact Related.error _

/-- `access` answers the same. -/
theorem access (h : Agree fs fs') (mask : UInt32) :
    Related (fun _ _ => True) (fs.access p mask) (fs'.access p mask) := by
  obtain ⟨R, h⟩ := h
  refine Related.need_bind Iff.rfl _ fun _ => (h.resolve p).bind fun i i' hi => ?_
  obtain ⟨n, n', hn, hn', hrel⟩ := h.node i i' hi
  simp only [hn, hn', orElse, ok_bind]
  exact Related.need (by rw [hrel.kind_eq, hrel.perm_eq]) _

end Agree

end Posix
