import NetworkFileSystem.Posix.Persistence
import NetworkFileSystem.Service.Files

/-!
# Who owns what

Access control rests on the owners of the inodes, so a request other than `chown` should leave
the owners of existing inodes alone and give what it creates to the client.  It does, with two
exceptions that are characterised exactly here (**`owners_kept_iff`**).

* `bb_link_6_svc` changes the owner of its new name.  A hard link is no new inode, so the client
  becomes the owner of the linked file, or of whatever the linked symbolic link points to.
* A client whose number is `-1` asks `chown` to leave the owner as it is, so what it creates
  stays with the superuser.
-/

namespace DFS

open Effects Posix

/-! ## What the requests that create do -/

/-- The client of a request to create something. -/
def Request.maker : Request → Option CStr
  | .mkdir arg => some arg.ip
  | .symlink arg => some arg.ip
  | .mknod arg => some arg.ip
  | _ => none

/-- Whether a request to create something passes its checks and the call succeeds. -/
def makes (umask : UInt32) (fs : FS) : Request → Bool
  | .mkdir arg =>
    let p := translateAbspath arg.path
    parentDirValid fs (getParentPath p) p (atoi arg.ip) .mkdir &&
      (lockable fs (getParentPath p) && isOk (fs.mkdir umask p arg.mode))
  | .symlink arg =>
    let q := translateAbspath arg.link
    parentDirValid fs (getParentPath q) q (atoi arg.ip) .symlink && isOk (fs.symlink arg.path q)
  | .mknod arg =>
    let p := translateAbspath arg.path
    parentDirValid fs (getParentPath p) p (atoi arg.ip) .mknod &&
      (lockable fs (getParentPath p) && isOk (makeNode umask fs p arg.mode arg.dev))
  | _ => false

/-- A refusal that leaves the tree alone, or a new inode that was given to `id`. -/
inductive MakesOwned (fs : FS) (id : UInt32) : Bool → Outcome → Prop
  | refused {ret : Int} (h : ret < 0) : MakesOwned fs id false ⟨ret, fs⟩
  | made (d : Ino) (x : Name) (links : ℕ → ℕ) (m : Inode) (hd : (fs.node d).isSome)
      (hm : m.uid = 0) :
      MakesOwned fs id true ⟨0, (fs.created d x links m).modify fs.next (Inode.setOwner id id)⟩

theorem MakesOwned.check {fs : FS} {id : UInt32} {b c : Bool} {err : Int} {rest : Outcome}
    (herr : err < 0) (h : MakesOwned fs id c rest) :
    MakesOwned fs id (b && c) (check fs b err rest) := by
  cases b with
  | true => exact h
  | false => exact .refused herr

/-- Create, then change the owner: the second step always succeeds. -/
theorem MakesOwned.attempt {fs : FS} {id : UInt32} {r : Except Errno FS}
    {owner : FS → Except Errno FS}
    (hr : ∀ fs₁, r = .ok fs₁ → ∃ d x links m, (fs.node d).isSome ∧ m.uid = 0 ∧
      fs₁ = fs.created d x links m ∧
      owner fs₁ = .ok (fs₁.modify fs.next (Inode.setOwner id id))) :
    MakesOwned fs id (isOk r)
      (attempt fs r fun fs₁ => attempt fs₁ (owner fs₁) fun fs₂ => ⟨0, fs₂⟩) := by
  unfold DFS.attempt
  cases r with
  | error e => exact .refused (by decide)
  | ok fs₁ =>
      obtain ⟨d, x, links, m, hd, hm, rfl, hown⟩ := hr fs₁ rfl
      simp only [hown]
      exact .made d x links m hd hm

/-- The `chown` after something was made finds what was made. -/
theorem chown_created {fs : FS} {p : CStr} {dirOk : Bool} {d : Ino} {x : Name} {links : ℕ → ℕ}
    {m : Inode} (h : fs.vacant p dirOk = .ok (d, x)) (hlink : m.kind ≠ .symlink)
    (hdir : dirOk = true → m.kind = .dir) (uid gid : UInt32) :
    (fs.created d x links m).chown p uid gid =
      .ok ((fs.created d x links m).modify fs.next (Inode.setOwner uid gid)) :=
  FS.chown_eq_ok.mpr ⟨_, FS.resolve_created h hlink hdir, rfl⟩

/-- So does the `lchown`. -/
theorem lchown_created {fs : FS} {p : CStr} {d : Ino} {x : Name} {links : ℕ → ℕ} {m : Inode}
    (h : fs.vacant p false = .ok (d, x)) (uid gid : UInt32) :
    (fs.created d x links m).lchown p uid gid =
      .ok ((fs.created d x links m).modify fs.next (Inode.setOwner uid gid)) :=
  FS.lchown_eq_ok.mpr ⟨_, FS.lresolve_created h, rfl⟩

/-- What the three ways of making a node have in common. -/
theorem makeNode_eq_ok {umask : UInt32} {fs fs₁ : FS} {p : CStr} {mode : UInt32} {dev : Int}
    (h : makeNode umask fs p mode dev = .ok fs₁) :
    ∃ d x parent body perm, fs.vacant p false = .ok (d, x) ∧ fs.node d = some parent ∧
      body.kind ≠ .symlink ∧ body.kind ≠ .dir ∧
      fs₁ = fs.created d x id (parent.born body perm) := by
  unfold makeNode at h
  split at h
  · obtain ⟨⟨i, fs'⟩, ho, rfl⟩ := map_eq_ok.mp h
    obtain ⟨d, x, parent, hv, hd, -, rfl⟩ := FS.openAt_excl_eq_ok.mp ho
    exact ⟨d, x, parent, _, _, hv, hd, by decide, by decide, rfl⟩
  · split at h
    · obtain ⟨body, d, x, parent, hb, hv, hd, rfl⟩ := FS.mknod_eq_ok.mp h
      exact ⟨d, x, parent, _, _, hv, hd, (FS.kind_specialBody hb).1,
        (FS.kind_specialBody hb).2, rfl⟩
    · obtain ⟨body, d, x, parent, hb, hv, hd, rfl⟩ := FS.mknod_eq_ok.mp h
      exact ⟨d, x, parent, _, _, hv, hd, (FS.kind_specialBody hb).1,
        (FS.kind_specialBody hb).2, rfl⟩

/-- The outcome of a request to create something. -/
theorem treeOp_makes {umask : UInt32} {fs : FS} {r : Request} {o : Outcome} {ip : CStr}
    (hip : r.maker = some ip) (ho : treeOp umask fs r = some o) :
    MakesOwned fs (atoi ip).toUInt32 (makes umask fs r) o := by
  cases r <;> simp only [Request.maker, Option.some.injEq, reduceCtorEq] at hip <;>
    subst hip <;> simp only [treeOp, Option.some.injEq] at ho <;> subst ho
  case mkdir arg =>
    refine .check (by decide) (.check (by decide) (.attempt fun fs₁ h => ?_))
    obtain ⟨d, x, parent, hv, hd, rfl⟩ := FS.mkdir_eq_ok.mp h
    exact ⟨d, x, _, _, Option.isSome_of_eq_some hd, rfl, rfl,
      chown_created hv (by simp [Inode.kind, Inode.born, Body.kind])
        (fun _ => by simp [Inode.kind, Inode.born, Body.kind]) _ _⟩
  case symlink arg =>
    refine .check (by decide) (.attempt fun fs₁ h => ?_)
    obtain ⟨-, d, x, parent, hv, hd, rfl⟩ := FS.symlink_eq_ok.mp h
    exact ⟨d, x, _, _, Option.isSome_of_eq_some hd, rfl, rfl, lchown_created hv _ _⟩
  case mknod arg =>
    refine .check (by decide) (.check (by decide) (.attempt fun fs₁ h => ?_))
    obtain ⟨d, x, parent, body, perm, hv, hd, hlink, -, rfl⟩ := makeNode_eq_ok h
    exact ⟨d, x, _, _, Option.isSome_of_eq_some hd, rfl, rfl,
      chown_created hv hlink (fun h => by cases h) _ _⟩

/-! ## Owners that stay -/

/-- The same user and the same group. -/
def SameOwner (n n' : Inode) : Prop := (n'.uid, n'.gid) = (n.uid, n.gid)

theorem sameOwner_stable : Stable SameOwner :=
  Stable.of_field (fun n => (n.uid, n.gid)) (fun n f l => by simp) (fun _ _ => rfl) fun n d => by
    unfold Inode.setParent
    split <;> rfl

/-- Giving an inode to someone leaves the owner as it is only if nothing is asked for, or if it
belongs to them already. -/
theorem sameOwner_setOwner {n n' : Inode} {id : UInt32} (h : SameOwner n n') :
    SameOwner n (n'.setOwner id id) ↔ id = keepId ∨ (n.uid = id ∧ n.gid = id) := by
  simp only [SameOwner, Prod.mk.injEq] at h
  unfold SameOwner Inode.setOwner
  by_cases hk : id = keepId
  · simp [hk, h]
  · simp [hk, eq_comm]

/-- The checks of a link request. -/
def linkChecks (fs : FS) (arg : LinkArg) : Bool :=
  let p := translateAbspath arg.path
  let q := translateAbspath arg.newpath
  parentDirValid fs (getParentPath p) p (atoi arg.ip) .link &&
    parentDirValid fs (getParentPath q) q (atoi arg.ip) .link

/-- The inode that the new name of a link request leads to, once it is there. -/
def linkOwned (fs : FS) (arg : LinkArg) : Except Errno Ino := do
  let fs₁ ← fs.link (translateAbspath arg.path) (translateAbspath arg.newpath)
  fs₁.resolve (translateAbspath arg.newpath)

/-- The link request takes nothing away: it is refused, or it fails, or what the new name leads
to belongs to the client already. -/
def LinkHarmless (fs : FS) (arg : LinkArg) : Prop :=
  linkChecks fs arg = true → ∀ k n, linkOwned fs arg = .ok k → fs.node k = some n →
    (atoi arg.ip).toUInt32 = keepId ∨
      (n.uid = (atoi arg.ip).toUInt32 ∧ n.gid = (atoi arg.ip).toUInt32)

/-- **A hard link** changes an owner unless it is harmless. -/
theorem linkOp_keeps_iff (fs : FS) (arg : LinkArg) :
    FS.Persists SameOwner fs (linkOp fs arg).fs ↔ LinkHarmless fs arg := by
  have hrefl : FS.Persists SameOwner fs fs := .refl sameOwner_stable.refl fs
  by_cases hc : linkChecks fs arg = true
  · have hop : linkOp fs arg = attempt fs
        (fs.link (translateAbspath arg.path) (translateAbspath arg.newpath)) fun fs₁ =>
        attempt fs₁ (fs₁.chown (translateAbspath arg.newpath) (atoi arg.ip).toUInt32
          (atoi arg.ip).toUInt32) fun fs₂ => ⟨0, fs₂⟩ := by
      simp only [linkChecks, Bool.and_eq_true] at hc
      simp [linkOp, check, hc]
    rw [hop]
    unfold attempt
    cases hl : fs.link (translateAbspath arg.path) (translateAbspath arg.newpath) with
    | error e =>
        refine ⟨fun _ _ k n hk _ => ?_, fun _ => hrefl⟩
        simp [linkOwned, hl] at hk
    | ok fs₁ =>
        have hlink : FS.Persists SameOwner fs fs₁ := FS.persists_link sameOwner_stable hl
        simp only
        cases hr : fs₁.chown (translateAbspath arg.newpath) (atoi arg.ip).toUInt32
            (atoi arg.ip).toUInt32 with
        | error e =>
            refine ⟨fun _ _ k n hk _ => ?_, fun _ => hlink⟩
            rw [linkOwned, hl, ok_bind] at hk
            rw [FS.chown_eq_ok.mpr ⟨k, hk, rfl⟩] at hr
            cases hr
        | ok fs₂ =>
            obtain ⟨k, hk, rfl⟩ := FS.chown_eq_ok.mp hr
            have hown : linkOwned fs arg = .ok k := by rw [linkOwned, hl, ok_bind, hk]
            constructor
            · intro hp _ k' n hk' hn
              obtain rfl : k = k' := by simpa [hown] using hk'
              obtain ⟨n₁, hn₁, hs₁⟩ := hlink k n hn
              obtain ⟨n₂, hn₂, hs₂⟩ := hp k n hn
              rw [FS.modify_node_self, hn₁] at hn₂
              cases hn₂
              exact (sameOwner_setOwner hs₁).mp hs₂
            · intro hharm i n hn
              obtain ⟨n₁, hn₁, hs₁⟩ := hlink i n hn
              by_cases hik : i = k
              · subst hik
                refine ⟨n₁.setOwner _ _, by rw [FS.modify_node_self, hn₁]; rfl, ?_⟩
                exact (sameOwner_setOwner hs₁).mpr (hharm hc i n hown hn)
              · exact ⟨n₁, by rw [FS.modify_node_ne _ hik, hn₁], hs₁⟩
  · have hop : (linkOp fs arg).fs = fs := by
      simp only [linkChecks, Bool.and_eq_true, not_and_or] at hc
      simp only [linkOp, check]
      rcases hc with hc | hc
      · rw [if_neg hc]
      · rw [if_neg hc]
        split <;> rfl
    rw [hop]
    exact ⟨fun _ hc' => absurd hc' hc, fun _ => hrefl⟩

/-- The requests that change an owner on purpose, or by linking. -/
def Request.movesOwners : Request → Bool
  | .chown _ | .link _ => true
  | _ => false

/-- Who gets something new takes nothing from others. -/
theorem MakesOwned.keeps {fs : FS} {id : UInt32} {b : Bool} {o : Outcome}
    (h : MakesOwned fs id b o) : FS.Persists SameOwner fs o.fs := by
  cases h with
  | refused h => exact .refl sameOwner_stable.refl fs
  | made d x links m hd hm => exact (FS.persists_created sameOwner_stable _ _).modify_next _

/-- Every outcome but those of `chown` and `link` keeps the owners. -/
theorem treeOp_keepsOwners {umask : UInt32} {fs : FS} {r : Request} {o : Outcome}
    (hr : r.movesOwners = false) (ho : treeOp umask fs r = some o) :
    FS.Persists SameOwner fs o.fs := by
  have hS := sameOwner_stable
  have hrefl : FS.Persists SameOwner fs fs := .refl hS.refl fs
  cases hm : r.maker with
  | some ip => exact (treeOp_makes hm ho).keeps
  | none =>
      cases r <;> simp only [treeOp, Option.some.injEq, Request.movesOwners, reduceCtorEq,
        Request.maker] at ho hr hm <;> subst ho
      case initRootdir arg =>
        have hkept : ∀ {fs' : FS} {r : Except Errno FS}, FS.Persists SameOwner fs fs' →
            (∀ fs'', r = .ok fs'' → FS.Persists SameOwner fs' fs'') →
            FS.Persists SameOwner fs (kept fs' r) := by
          intro fs' r h hr
          cases r with
          | ok fs'' => exact h.trans hS.trans (hr fs'' rfl)
          | error e => exact h
        refine hkept ?_ fun fs'' h => ?_
        · cases fs.access dfsRoot 0 with
          | ok => exact hrefl
          | error e => exact hkept hrefl fun fs'' h => FS.persists_mkdir hS h
        · obtain ⟨i, -, rfl⟩ := FS.chmod_eq_ok.mp h
          exact (FS.Persists.refl hS.refl _).modify hS i fun n => rfl
      case rmdir arg =>
        exact check_rel hrefl fun _ => check_rel hrefl fun _ =>
          attempt_rel hrefl fun fs₁ h => FS.persists_rmdir hS h
      case rename arg =>
        exact check_rel hrefl fun _ => check_rel hrefl fun _ => check_rel hrefl fun _ =>
          check_rel hrefl fun _ => attempt_rel hrefl fun fs₁ h => FS.persists_rename hS h
      case truncate arg =>
        refine report_rel hrefl fun fs₁ h => ?_
        obtain ⟨i, n, d, -, -, -, -, rfl⟩ := FS.truncate_eq_ok.mp h
        exact hrefl.modify hS i fun n => rfl
      case unlink arg =>
        exact check_rel hrefl fun _ => check_rel hrefl fun _ =>
          attempt_rel hrefl fun fs₁ h => FS.persists_unlink hS h
      case utime arg =>
        refine check_rel hrefl fun _ => attempt_rel hrefl fun fs₁ h => ?_
        obtain ⟨i, -, rfl⟩ := FS.utime_eq_ok.mp h
        exact hrefl.modify hS i fun n => rfl
      case chmod arg =>
        refine check_rel hrefl fun _ => attempt_rel hrefl fun fs₁ h => ?_
        obtain ⟨i, -, rfl⟩ := FS.chmod_eq_ok.mp h
        exact hrefl.modify hS i fun n => rfl

/-! ## Runs -/

/-- Whether the owners are as they should be after a request: nobody has lost or got an inode that
existed, and what was created belongs to the client. -/
def OwnersKept (e : Event Arrival Reply Host) : Prop :=
  (∀ i n, e.pre.os.fs.node i = some n →
    ∃ n', e.post.os.fs.node i = some n' ∧ n'.uid = n.uid ∧ n'.gid = n.gid) ∧
  (∀ ip, e.input.request.maker = some ip → 0 ≤ e.output.ret →
    ∀ i n, e.pre.os.fs.node i = none → e.post.os.fs.node i = some n →
      n.uid = (atoi ip).toUInt32 ∧ n.gid = (atoi ip).toUInt32)

/-- When a request meets neither of the two exceptions. -/
def OwnersSafe (umask : UInt32) (fs : FS) (r : Request) : Prop :=
  (∀ arg, r = .link arg → LinkHarmless fs arg) ∧
  (∀ ip, r.maker = some ip → makes umask fs r = true → (atoi ip).toUInt32 ≠ keepId)

theorem created_setOwner_node {fs : FS} {d i : Ino} {x : Name} {links : ℕ → ℕ} {m n : Inode}
    {f : Inode → Inode} (hd : (fs.node d).isSome) (hi : fs.node i = none)
    (hn : ((fs.created d x links m).modify fs.next f).node i = some n) :
    i = fs.next ∧ n = f m := by
  have hnext : i = fs.next := by
    by_contra hne
    rw [FS.modify_node_ne f hne, FS.created, FS.addEntry_node, FS.alloc_node_ne m hne, hi] at hn
    split at hn <;> cases hn
  subst hnext
  rw [FS.modify_node_self, FS.created_node hd] at hn
  exact ⟨rfl, by simpa using hn.symm⟩

/-- The new inode belongs to the client exactly when the client's number is one that `chown`
acts on. -/
theorem MakesOwned.owned_iff {fs : FS} {id : UInt32} {b : Bool} {o : Outcome}
    (h : MakesOwned fs id b o) :
    (0 ≤ o.ret → ∀ i n, fs.node i = none → o.fs.node i = some n → n.uid = id ∧ n.gid = id) ↔
      (b = true → id ≠ keepId) := by
  cases h with
  | refused h =>
      refine ⟨fun _ hb => (nomatch hb), fun _ hret => ?_⟩
      have hret' := Int.lt_of_lt_of_le h hret
      exact absurd hret' (Int.lt_irrefl _)
  | made d x links m hd hm =>
      constructor
      · rintro hall - rfl
        have hnew : ((fs.created d x links m).modify fs.next
            (Inode.setOwner keepId keepId)).node fs.next = some (m.setOwner keepId keepId) := by
          rw [FS.modify_node_self, FS.created_node hd]
          rfl
        have huid : m.uid = keepId := (hall (Int.le_refl 0) _ _ FS.node_next hnew).1
        rw [hm] at huid
        exact absurd huid (by decide)
      · intro hid _ i n hi hn
        obtain ⟨-, rfl⟩ := created_setOwner_node hd hi hn
        simp [Inode.setOwner, hid rfl]

/-- **Which steps keep the owners.**  In every run, a request other than `chown` keeps the owners
as they should be exactly when it is no link that takes an inode away, and creates nothing for a
client that has the number `-1`. -/
theorem owners_kept_iff {h₀ h : Host} {tr : List (Event Arrival Reply Host)}
    (hrun : Runs serve h₀ tr h) {e : Event Arrival Reply Host} (he : e ∈ tr)
    (hchown : ∀ arg, e.input.request ≠ .chown arg) :
    OwnersKept e ↔ OwnersSafe e.pre.os.umask e.pre.os.fs e.input.request := by
  have hstep := serve_treeStep (hrun.step_of_mem he)
  have hpersists : (∀ i n, e.pre.os.fs.node i = some n →
      ∃ n', e.post.os.fs.node i = some n' ∧ n'.uid = n.uid ∧ n'.gid = n.gid) ↔
      FS.Persists SameOwner e.pre.os.fs e.post.os.fs := by
    simp only [FS.Persists, SameOwner, Prod.mk.injEq]
  unfold OwnersKept OwnersSafe
  rw [hpersists]
  generalize e.post.os.fs = fs' at hstep ⊢
  generalize e.output = reply at hstep ⊢
  have hS := sameOwner_stable
  have hrefl : FS.Persists SameOwner e.pre.os.fs e.pre.os.fs := .refl hS.refl _
  cases hstep with
  | @outcome o ho hret =>
      cases hm : e.input.request.maker with
      | some ip =>
          -- Something is created.
          have hmakes := treeOp_makes hm ho
          have hlink : ∀ arg, e.input.request ≠ .link arg := by
            intro arg harg
            rw [harg] at hm
            cases hm
          constructor
          · rintro ⟨-, hb⟩
            refine ⟨fun arg harg => absurd harg (hlink arg), fun ip' hip' => ?_⟩
            cases hip'
            exact hmakes.owned_iff.mp fun h0 => hb ip rfl (hret ▸ h0)
          · rintro ⟨-, hid⟩
            refine ⟨hmakes.keeps, fun ip' hip' h0 => ?_⟩
            cases hip'
            exact hmakes.owned_iff.mpr (hid ip rfl) (hret ▸ h0)
      | none =>
          by_cases hlink : ∃ arg, e.input.request = .link arg
          · obtain ⟨arg, harg⟩ := hlink
            have hop : o = linkOp e.pre.os.fs arg := by
              rw [harg] at ho
              exact (Option.some.inj ho).symm
            rw [hop, linkOp_keeps_iff, harg]
            constructor
            · rintro ⟨hh, -⟩
              exact ⟨fun arg' h => (Request.link.inj h) ▸ hh, fun ip hip => nomatch hip⟩
            · rintro ⟨hh, -⟩
              exact ⟨hh arg rfl, fun ip hip => nomatch hip⟩
          · have hmoves : e.input.request.movesOwners = false := by
              cases hr : e.input.request with
              | link arg => exact absurd ⟨arg, hr⟩ hlink
              | chown arg => exact absurd hr (hchown arg)
              | _ => rfl
            exact iff_of_true ⟨treeOp_keepsOwners hmoves ho, fun ip hip => nomatch hip⟩
              ⟨fun arg harg => absurd ⟨arg, harg⟩ hlink, fun ip hip => nomatch hip⟩
  | kept hk =>
      cases hr : e.input.request <;> rw [hr] at hk <;> first
        | (cases hk; done)
        | exact iff_of_true ⟨hrefl, fun ip hip => nomatch hip⟩
            ⟨fun _ h => (nomatch h), fun ip hip => nomatch hip⟩
  | opened hr hv ho =>
      rw [hr]
      exact iff_of_true ⟨FS.persists_openAt hS (fun n _ => rfl) ho, fun ip hip => nomatch hip⟩
        ⟨fun _ h => (nomatch h), fun ip hip => nomatch hip⟩
  | written hr hrole hw =>
      obtain ⟨f, i, n, d, -, -, -, -, -, rfl⟩ := OS.pwrite_eq_ok.mp hw
      rw [hr]
      exact iff_of_true ⟨hrefl.modify hS i fun n => rfl, fun ip hip => nomatch hip⟩
        ⟨fun _ h => (nomatch h), fun ip hip => nomatch hip⟩
  | @appended argp i n d hr hrole hi hn hd =>
      rw [hr]
      exact iff_of_true ⟨hrefl.modify hS i fun n => rfl, fun ip hip => nomatch hip⟩
        ⟨fun _ h => (nomatch h), fun ip hip => nomatch hip⟩
  | unopened hr | unwritten hr | unappended hr =>
      rw [hr]
      exact iff_of_true ⟨hrefl, fun ip hip => nomatch hip⟩
        ⟨fun _ h => (nomatch h), fun ip hip => nomatch hip⟩

/-- The root directory `/DFS` with one file in it, which belongs to the client with number 1. -/
def privateFile : FS := .ofNodes [
  .plain (.dir 0 [("DFS".toList, 1)]) 0 0o755,
  .plain (.dir 0 [("f".toList, 2)]) 0 0o777,
  .plain (.reg []) 1 0o600]

/-- A client makes a directory; nobody loses anything. -/
theorem owners_kept_iff_mkdir : ∃ reply h,
    serve (.alone (.mkdir ⟨"2".toList, ⟨1, 1⟩, "/d".toList, 0o755⟩)) (.start privateFile) =
      .ok (reply, h) ∧
    let e : Event Arrival Reply Host :=
      ⟨.start privateFile, .alone (.mkdir ⟨"2".toList, ⟨1, 1⟩, "/d".toList, 0o755⟩), reply, h⟩
    OwnersKept e ↔ OwnersSafe 0 privateFile e.input.request := by
  have hrun : (serve (.alone (.mkdir ⟨"2".toList, ⟨1, 1⟩, "/d".toList, 0o755⟩))
      (.start privateFile)).map (fun r => r.1.ret) = .ok 0 := by rfl
  obtain ⟨⟨reply, h⟩, hs, -⟩ := map_eq_ok.mp hrun
  exact ⟨reply, h, hs,
    owners_kept_iff (.single hs) (List.mem_singleton.mpr rfl) (by simp [Arrival.alone])⟩

/-- A hard link takes a file away: client 2 links client 1's file and owns it then. -/
theorem link_takes_file : ¬ ∀ (h₀ h : Host) (tr : List (Event Arrival Reply Host)),
    Runs serve h₀ tr h → ∀ e ∈ tr, (∀ arg, e.input.request ≠ .chown arg) → OwnersKept e := by
  intro hall
  have hrun : (serve (.alone (.link ⟨"2".toList, ⟨1, 1⟩, "/f".toList, "/g".toList⟩))
      (.start privateFile)).map (fun r => (r.2.os.fs.node 2).map (·.uid)) = .ok (some 2) := by rfl
  obtain ⟨⟨reply, h⟩, hs, huid⟩ := map_eq_ok.mp hrun
  have hkept := hall _ _ _ (.single hs) _ (List.mem_singleton.mpr rfl) (by simp [Arrival.alone])
  obtain ⟨n, hn, hsame, -⟩ := hkept.1 2 (.plain (.reg []) 1 0o600) rfl
  change h.os.fs.node 2 = some n at hn
  simp only [hn, Option.map_some, Option.some.injEq] at huid
  rw [huid] at hsame
  exact absurd hsame (by decide)

end DFS
