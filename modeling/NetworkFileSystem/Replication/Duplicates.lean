import NetworkFileSystem.Posix.Repetition
import NetworkFileSystem.Service.Handles
import NetworkFileSystem.Service.Refinement

/-!
# Requests that are delivered twice

The primary forwards over UDP, where a request may be delivered a second time.  On the tree a
metadata request that is executed twice does what it does when it is executed once, whatever the
two answers are: **`duplicate_harmless`**.

Whether the first execution changed anything is settled first: it changed nothing, or its call
succeeded.  The second execution is refused, or its call fails, or it sets what is set already.  It
may also wait for ever, for a lock that the first one has kept; every handler takes its locks before
it changes anything (**`compute6_waitsFirst`**).
-/

namespace DFS

open Effects Posix Prog

/-- The paths that a metadata request names, as the client sends them; the target of a symbolic
link is not looked up. -/
def Request.paths : Request → List CStr
  | .mkdir arg => [arg.path]
  | .rmdir arg => [arg.path]
  | .mknod arg => [arg.path]
  | .unlink arg => [arg.path]
  | .rename arg => [arg.path, arg.newpath]
  | .symlink arg => [arg.link]
  | .link arg => [arg.path, arg.newpath]
  | .chmod arg => [arg.path]
  | .utime arg => [arg.path]
  | .truncate arg => [arg.path]
  | .chown arg => [arg.path]
  | _ => []

/-- The requests that the primary forwards, apart from those for a root directory and for
contents. -/
def Request.metadata : Request → Bool
  | .mkdir _ | .rmdir _ | .mknod _ | .unlink _ | .rename _ | .symlink _ | .link _ | .chmod _
  | .utime _ | .truncate _ | .chown _ => true
  | _ => false

section

variable {fs fs₁ : FS} {umask : UInt32}

/-- What an operation that did nothing does a second time. -/
theorem twice_of_unchanged {f : FS → Outcome} (h : (f fs).fs = fs) :
    (f (f fs).fs).fs = (f fs).fs := by
  rw [h, h]

/-- An outcome that changes nothing or leaves a tree with the property `P`. -/
def Unless (P : FS → Prop) (fs : FS) (o : Outcome) : Prop := o.fs = fs ∨ P o.fs

/-- A refusal has changed nothing. -/
theorem check_unless {P : FS → Prop} {b : Bool} {err : Int} {rest : Outcome}
    (h : Unless P fs rest) : Unless P fs (check fs b err rest) := by
  unfold check
  split
  · exact h
  · exact .inl rfl

/-- A change that fails has changed nothing. -/
theorem attempt_unless {P : FS → Prop} {r : Except Errno FS} {rest : FS → Outcome}
    (h : ∀ fs', r = .ok fs' → Unless P fs (rest fs')) : Unless P fs (attempt fs r rest) := by
  cases r with
  | ok fs' => exact h fs' rfl
  | error e => exact .inl rfl

/-- The steps of an outcome that changes nothing. -/
theorem check_idle {b : Bool} {err : Int} {rest : Outcome} (h : rest.fs = fs) :
    (check fs b err rest).fs = fs := by
  unfold check
  split
  · exact h
  · rfl

/-- A change that changes nothing if it succeeds changes nothing. -/
theorem attempt_idle {r : Except Errno FS} {rest : FS → Outcome}
    (h : ∀ fs', r = .ok fs' → (rest fs').fs = fs) : (attempt fs r rest).fs = fs := by
  cases r with
  | ok fs' => exact h fs' rfl
  | error e => rfl

/-- The owner of one inode may have been set. -/
def Reowned (fs fs' : FS) : Prop :=
  fs' = fs ∨ ∃ i uid gid, fs' = fs.modify i (Inode.setOwner uid gid)

/-- What was made is still there under another owner. -/
theorem Made.reowned {p : CStr} (h : FS.Made fs fs₁ p) {fs₂ : FS} (ho : Reowned fs₁ fs₂) :
    FS.Made fs fs₂ p := by
  rcases ho with rfl | ⟨i, uid, gid, rfl⟩
  · exact h
  · exact h.setOwner i uid gid

/-- Changing an owner, or failing to. -/
theorem reowned_attempt {r : Except Errno FS} {err : Int}
    (hr : ∀ fs', r = .ok fs' → Reowned fs fs') :
    Reowned fs (attempt fs r fun fs₂ => ⟨err, fs₂⟩).fs :=
  attempt_rel (R := Reowned) (.inl rfl) hr

theorem reowned_chown {p : CStr} {uid gid : UInt32} {fs' : FS} (h : fs.chown p uid gid = .ok fs') :
    Reowned fs fs' := by
  obtain ⟨i, -, rfl⟩ := FS.chown_eq_ok.mp h
  exact .inr ⟨i, uid, gid, rfl⟩

theorem reowned_lchown {p : CStr} {uid gid : UInt32} {fs' : FS}
    (h : fs.lchown p uid gid = .ok fs') : Reowned fs fs' := by
  obtain ⟨i, -, rfl⟩ := FS.lchown_eq_ok.mp h
  exact .inr ⟨i, uid, gid, rfl⟩

end

/-! ## Operations that make a name -/

section

variable {fs : FS} {umask : UInt32}

/-- An operation that makes a name in the end, and that cannot make a name that is taken. -/
theorem twice_of_made {f : FS → Outcome} {p : CStr} (hp : fs.Direct p)
    (hfirst : Unless (FS.Made fs · p) fs (f fs))
    (hagain : ∀ fs', (∀ b r, fs'.vacant p b ≠ .ok r) → (f fs').fs = fs') :
    (f (f fs).fs).fs = (f fs).fs := by
  rcases hfirst with h | h
  · exact twice_of_unchanged h
  · exact hagain _ (h.not_vacant hp)

/-- **A second `mkdir`** finds the name taken. -/
theorem mkdirOp_twice {arg : MkdirArg} (hp : fs.Direct (translateAbspath arg.path)) :
    (mkdirOp umask (mkdirOp umask fs arg).fs arg).fs = (mkdirOp umask fs arg).fs := by
  refine twice_of_made (f := fun fs => mkdirOp umask fs arg) hp
    (check_unless <| check_unless <| attempt_unless fun fs₁ h₁ => ?_)
    fun fs₂ htaken => check_idle <| check_idle <| attempt_idle fun fs₃ h₃ => ?_
  · obtain ⟨d, x, parent, hv, -, rfl⟩ := FS.mkdir_eq_ok.mp h₁
    exact .inr (Made.reowned (FS.made_created hv _ _) (reowned_attempt fun _ => reowned_chown))
  · obtain ⟨d, x, _, hv, -⟩ := FS.mkdir_eq_ok.mp h₃
    exact absurd hv (htaken _ _)

/-- Whichever call makes the inode of an `mknod` request, it makes it under a vacant name. -/
theorem makeNode_created {p : CStr} {mode : UInt32} {dev : Int} {fs' : FS}
    (h : makeNode umask fs p mode dev = .ok fs') :
    ∃ d x m, fs.vacant p false = .ok (d, x) ∧ fs' = fs.created d x id m := by
  unfold makeNode at h
  split at h
  · obtain ⟨⟨i, fs₁⟩, ho, rfl⟩ := map_eq_ok.mp h
    obtain ⟨d, x, parent, hv, -, -, rfl⟩ := FS.openAt_excl_eq_ok.mp ho
    exact ⟨d, x, _, hv, rfl⟩
  · split at h
    · obtain ⟨body, d, x, parent, -, hv, -, rfl⟩ := FS.mknod_eq_ok.mp h
      exact ⟨d, x, _, hv, rfl⟩
    · obtain ⟨body, d, x, parent, -, hv, -, rfl⟩ := FS.mknod_eq_ok.mp h
      exact ⟨d, x, _, hv, rfl⟩

/-- So does a second `mknod`. -/
theorem mknodOp_twice {arg : MknodArg} (hp : fs.Direct (translateAbspath arg.path)) :
    (mknodOp umask (mknodOp umask fs arg).fs arg).fs = (mknodOp umask fs arg).fs := by
  refine twice_of_made (f := fun fs => mknodOp umask fs arg) hp
    (check_unless <| check_unless <| attempt_unless fun fs₁ h₁ => ?_)
    fun fs₂ htaken => check_idle <| check_idle <| attempt_idle fun fs₃ h₃ => ?_
  · obtain ⟨d, x, m, hv, rfl⟩ := makeNode_created h₁
    exact .inr (Made.reowned (FS.made_created hv _ _) (reowned_attempt fun _ => reowned_chown))
  · obtain ⟨d, x, m, hv, -⟩ := makeNode_created h₃
    exact absurd hv (htaken _ _)

/-- So does a second `symlink`. -/
theorem symlinkOp_twice {arg : SymlinkArg} (hp : fs.Direct (translateAbspath arg.link)) :
    (symlinkOp (symlinkOp fs arg).fs arg).fs = (symlinkOp fs arg).fs := by
  refine twice_of_made (f := fun fs => symlinkOp fs arg) hp
    (check_unless <| attempt_unless fun fs₁ h₁ => ?_)
    fun fs₂ htaken => check_idle <| attempt_idle fun fs₃ h₃ => ?_
  · obtain ⟨-, d, x, parent, hv, -, rfl⟩ := FS.symlink_eq_ok.mp h₁
    exact .inr (Made.reowned (FS.made_created hv _ _) (reowned_attempt fun _ => reowned_lchown))
  · obtain ⟨-, d, x, _, hv, -⟩ := FS.symlink_eq_ok.mp h₃
    exact absurd hv (htaken _ _)

/-- So does a second `link`. -/
theorem linkOp_twice {arg : LinkArg} (hp : fs.Direct (translateAbspath arg.newpath)) :
    (linkOp (linkOp fs arg).fs arg).fs = (linkOp fs arg).fs := by
  refine twice_of_made (f := fun fs => linkOp fs arg) hp
    (check_unless <| check_unless <| attempt_unless fun fs₁ h₁ => ?_)
    fun fs₂ htaken => check_idle <| check_idle <| attempt_idle fun fs₃ h₃ => ?_
  · exact .inr (Made.reowned (FS.made_link h₁) (reowned_attempt fun _ => reowned_chown))
  · obtain ⟨_, d, x, -, hv, -⟩ := FS.link_eq_ok.mp h₃
    exact absurd hv (htaken _ _)

/-! ## Operations that take a name away -/

/-- An operation that takes a name away in the end, and that needs the name. -/
theorem twice_of_emptied {f : FS → Outcome} {p : CStr} (hp : fs.Direct p)
    (hfirst : Unless (FS.Emptied fs · p) fs (f fs))
    (hagain : ∀ fs', (∀ d x k, fs'.slot p = .ok (d, x) → fs'.child d x ≠ .ok k) →
      (f fs').fs = fs') : (f (f fs).fs).fs = (f fs).fs := by
  rcases hfirst with h | h
  · exact twice_of_unchanged h
  · exact hagain _ fun d x k hs => h.not_child hp hs k

/-- **A second `unlink`** finds nothing to remove. -/
theorem unlinkOp_twice {arg : UnlinkArg} (hp : fs.Direct (translateAbspath arg.path)) :
    (unlinkOp (unlinkOp fs arg).fs arg).fs = (unlinkOp fs arg).fs := by
  refine twice_of_emptied (f := fun fs => unlinkOp fs arg) hp
    (check_unless <| check_unless <| attempt_unless fun fs₁ h₁ => .inr (FS.emptied_unlink h₁))
    fun fs₂ hgone => check_idle <| check_idle <| attempt_idle fun fs₃ h₃ => ?_
  obtain ⟨d, x, i, hs, -, hc, -⟩ := FS.unlink_eq_ok.mp h₃
  exact absurd hc (hgone d x i hs)

/-- So does a second `rmdir`. -/
theorem rmdirOp_twice {arg : RmdirArg} (hp : fs.Direct (translateAbspath arg.path)) :
    (rmdirOp (rmdirOp fs arg).fs arg).fs = (rmdirOp fs arg).fs := by
  refine twice_of_emptied (f := fun fs => rmdirOp fs arg) hp
    (check_unless <| check_unless <| attempt_unless fun fs₁ h₁ => .inr (FS.emptied_rmdir h₁))
    fun fs₂ hgone => check_idle <| check_idle <| attempt_idle fun fs₃ h₃ => ?_
  obtain ⟨d, x, i, parent, hs, -, hc, -⟩ := FS.rmdir_eq_ok.mp h₃
  exact absurd hc (hgone d x i hs)

/-- **A second `rename`** finds nothing to move. -/
theorem renameOp_twice {arg : RenameArg} (hp : fs.Direct (translateAbspath arg.path)) :
    (renameOp (renameOp fs arg).fs arg).fs = (renameOp fs arg).fs := by
  refine twice_of_emptied (f := fun fs => renameOp fs arg) hp
    (check_unless <| check_unless <| check_unless <| check_unless <|
      attempt_unless fun fs₁ h₁ => FS.emptied_rename h₁)
    fun fs₂ hgone => check_idle <| check_idle <| check_idle <| check_idle <|
      attempt_idle fun fs₃ h₃ => ?_
  obtain ⟨d, x, _, _, i, hs, -, -, -, hc, -⟩ := FS.rename_moved h₃
  exact absurd hc (hgone d x i hs)

/-! ## Operations that set an attribute or a length -/

/-- Setting what is found at a path to what it is already. -/
theorem set_again {p : CStr} {f : Inode → Inode} {fs₁ fs₂ : FS} {i : Ino}
    (hf : ∀ n, fs.node i = some n →
      (f n).body = n.body ∨ ∃ d d', n.body = .reg d ∧ (f n).body = .reg d')
    (hff : ∀ n, fs.node i = some n → f (f n) = f n) (hi : fs.resolve p = .ok i)
    (h₁ : fs₁ = fs.modify i f) {k : Ino} (hk : fs₁.resolve p = .ok k)
    (h₂ : fs₂ = fs₁.modify k f) : fs₂ = fs₁ := by
  subst h₁ h₂
  rw [(FS.sameNames_modify hf).resolve_eq, hi] at hk
  cases hk
  exact FS.modify_modify hff

/-- Once the call has succeeded, it changes nothing any more. -/
def Settles (op : FS → Except Errno FS) : Prop :=
  ∀ fs fs₁ fs₂, op fs = .ok fs₁ → op fs₁ = .ok fs₂ → fs₂ = fs₁

/-- A second `chmod` sets what is set. -/
theorem settles_chmod (p : CStr) (mode : UInt32) : Settles fun fs => fs.chmod p mode := by
  intro fs fs₁ fs₂ h₁ h₂
  obtain ⟨i, hi, h₁⟩ := FS.chmod_eq_ok.mp h₁
  obtain ⟨k, hk, h₂⟩ := FS.chmod_eq_ok.mp h₂
  exact set_again (f := Inode.setPerm mode) (fun n _ => .inl rfl) (fun n _ => rfl) hi h₁ hk h₂

/-- A second `utime` sets what is set. -/
theorem settles_utime (p : CStr) (actime modtime : Int) :
    Settles fun fs => fs.utime p actime modtime := by
  intro fs fs₁ fs₂ h₁ h₂
  obtain ⟨i, hi, h₁⟩ := FS.utime_eq_ok.mp h₁
  obtain ⟨k, hk, h₂⟩ := FS.utime_eq_ok.mp h₂
  exact set_again (f := Inode.setTimes actime modtime) (fun n _ => .inl rfl) (fun n _ => rfl) hi
    h₁ hk h₂

/-- A second `chown` sets what is set. -/
theorem settles_chown (p : CStr) (uid gid : UInt32) : Settles fun fs => fs.chown p uid gid := by
  intro fs fs₁ fs₂ h₁ h₂
  obtain ⟨i, hi, h₁⟩ := FS.chown_eq_ok.mp h₁
  obtain ⟨k, hk, h₂⟩ := FS.chown_eq_ok.mp h₂
  exact set_again (f := Inode.setOwner uid gid) (fun n _ => .inl rfl)
    (fun n _ => FS.setOwner_setOwner uid gid n) hi h₁ hk h₂

/-- A second `truncate` cuts what is cut. -/
theorem settles_truncate (p : CStr) (len : Int) : Settles fun fs => fs.truncate p len := by
  intro fs fs₁ fs₂ h₁ h₂
  obtain ⟨i, n, d, -, hi, hn, hb, h₁⟩ := FS.truncate_eq_ok.mp h₁
  obtain ⟨k, n', d', -, hk, hn', hb', h₂⟩ := FS.truncate_eq_ok.mp h₂
  -- The second call finds the same file, with the new content.
  have hsame : FS.SameNames fs fs₁ := by
    rw [h₁]
    refine FS.sameNames_modify fun m hm => .inr ⟨d, resize d len.toNat, ?_, rfl⟩
    obtain rfl : n = m := by simpa [hn] using hm
    exact hb
  rw [hsame.resolve_eq, hi] at hk
  cases hk
  have hd' : d' = resize d len.toNat := by
    rw [h₁, FS.modify_node_self, hn] at hn'
    cases hn'
    cases hb'
    rfl
  rw [h₂, hd', FS.resize_resize, h₁]
  exact FS.modify_modify fun _ _ => rfl

/-- An operation of one call that settles. -/
theorem twice_of_settles {f : FS → Outcome} {op : FS → Except Errno FS} (hop : Settles op)
    (hfirst : Unless (fun fs' => op fs = .ok fs') fs (f fs))
    (hagain : ∀ fs', (∀ fs'', op fs' = .ok fs'' → fs'' = fs') → (f fs').fs = fs') :
    (f (f fs).fs).fs = (f fs).fs := by
  rcases hfirst with h | h
  · exact twice_of_unchanged h
  · exact hagain _ fun fs'' h' => hop _ _ _ h h'

theorem report_unless {P : FS → Prop} {r : Except Errno FS} (h : ∀ fs', r = .ok fs' → P fs') :
    Unless P fs (report fs r) := by
  cases r with
  | ok fs' => exact .inr (h fs' rfl)
  | error e => exact .inl rfl

theorem report_idle {r : Except Errno FS} (h : ∀ fs', r = .ok fs' → fs' = fs) :
    (report fs r).fs = fs := by
  cases r with
  | ok fs' => exact h fs' rfl
  | error e => rfl

/-- The second `chmod` request changes nothing. -/
theorem chmodOp_twice (arg : ChmodArg) :
    (chmodOp (chmodOp fs arg).fs arg).fs = (chmodOp fs arg).fs :=
  twice_of_settles (f := fun fs => chmodOp fs arg) (settles_chmod _ arg.mode)
    (check_unless <| attempt_unless fun _ h => .inr h)
    fun _ h => check_idle <| attempt_idle h

/-- Nor does the second `utime` request. -/
theorem utimeOp_twice (arg : UtimeArg) :
    (utimeOp (utimeOp fs arg).fs arg).fs = (utimeOp fs arg).fs :=
  twice_of_settles (f := fun fs => utimeOp fs arg) (settles_utime _ arg.actime arg.modtime)
    (check_unless <| attempt_unless fun _ h => .inr h)
    fun _ h => check_idle <| attempt_idle h

/-- Nor does the second `truncate` request. -/
theorem truncateOp_twice (arg : TruncateArg) :
    (truncateOp (truncateOp fs arg).fs arg).fs = (truncateOp fs arg).fs :=
  twice_of_settles (f := fun fs => truncateOp fs arg) (settles_truncate _ arg.newsize)
    (report_unless fun _ h => h) fun _ h => report_idle h

/-- Nor does the second `chown` request. -/
theorem chownOp_twice (arg : ChownArg) :
    (chownOp (chownOp fs arg).fs arg).fs = (chownOp fs arg).fs :=
  twice_of_settles (f := fun fs => chownOp fs arg) (settles_chown _ arg.uid arg.gid)
    (report_unless fun _ h => h) fun _ h => report_idle h

end

/-! ## Requests -/

/-- The outcome of a metadata request, done twice. -/
theorem treeOp_twice {fs : FS} {umask : UInt32} {r : Request} (hr : r.metadata = true)
    (hp : ∀ p ∈ r.paths, fs.Direct (translateAbspath p)) :
    ∃ o o', treeOp umask fs r = some o ∧ treeOp umask o.fs r = some o' ∧ o'.fs = o.fs := by
  cases r <;> simp only [Request.metadata, Bool.false_eq_true] at hr <;>
    refine ⟨_, _, rfl, rfl, ?_⟩
  case mkdir arg => exact mkdirOp_twice (hp _ (by simp [Request.paths]))
  case rmdir arg => exact rmdirOp_twice (hp _ (by simp [Request.paths]))
  case rename arg => exact renameOp_twice (hp _ (by simp [Request.paths]))
  case symlink arg => exact symlinkOp_twice (hp _ (by simp [Request.paths]))
  case link arg => exact linkOp_twice (hp _ (by simp [Request.paths]))
  case mknod arg => exact mknodOp_twice (hp _ (by simp [Request.paths]))
  case truncate arg => exact truncateOp_twice arg
  case unlink arg => exact unlinkOp_twice (hp _ (by simp [Request.paths]))
  case utime arg => exact utimeOp_twice arg
  case chmod arg => exact chmodOp_twice arg
  case chown arg => exact chownOp_twice arg

/-! ## Executions that wait -/

section

variable {α β : Type}

/-- The handler makes all calls that may wait before the one that changes the tree. -/
abbrev WaitsFirst (p : Server α) : Prop := p.Until (Call.Is Sys.keepsTree) (Call.Is Sys.settles)

/-- The call that changes the tree, and what follows it. -/
theorem waitsFirst_sys {c : Sys β} {k : β → Server α}
    (hk : ∀ b, (k b).Calls (Call.Is Sys.settles)) : WaitsFirst (sys c >>= k) := until_perform hk

/-- Forwarding waits for nobody. -/
theorem waitsFirst_forward {info : Identity} {slaveArg : Identity → Request} {p : Server α}
    (hp : WaitsFirst p) : WaitsFirst (do transmitToSecondaty info slaveArg; p) :=
  until_bind (calls_transmit info slaveArg) fun _ => hp

/-- Nor does the check of the parents. -/
theorem waitsFirst_checkParent {p q ip : CStr} {op : OpName} {rest : Server StatusRet}
    (hrest : WaitsFirst rest) : WaitsFirst (checkParentDirectoryValid p q ip op rest) := by
  refine until_bind (calls_isParentDirValid (fun _ => rfl) _ _ _ _) fun valid => ?_
  split
  · exact hrest
  · exact until_pure _

/-- Waiting for the lock of a directory comes before any change. -/
theorem waitsFirst_lockDirectory {p : CStr} {rest : Int → Server StatusRet}
    (hrest : ∀ fd, WaitsFirst (rest fd)) : WaitsFirst (lockDirectory p rest) := by
  refine until_bind (calls_dlock (fun _ => rfl) (fun _ => rfl) p) fun fd => ?_
  split
  · exact until_pure _
  · exact hrest fd

/-- What the handlers do after they have changed the tree does not wait. -/
theorem settles_unlock (fd : Int) (result : StatusRet) :
    (unlockDirectory fd result).Calls (Call.Is Sys.settles) :=
  calls_unlock (fun _ => rfl) fd result

/-- Changing the owner waits for nobody. -/
theorem settles_setOwner (p ip : CStr) : (setOwner p ip).Calls (Call.Is Sys.settles) :=
  calls_setOwner (fun _ _ _ => rfl) p ip

theorem settles_negErrno : negErrno.Calls (Call.Is Sys.settles) := calls_negErrno rfl

/-- **Every metadata request waits before it changes anything.** -/
theorem compute6_waitsFirst (stale : Stale) {r : Request} (hr : r.metadata = true) :
    WaitsFirst (compute6 stale r) := by
  cases r <;> simp only [Request.metadata, Bool.false_eq_true] at hr <;> refine until_map ?_
  case mkdir argp =>
    refine waitsFirst_forward (waitsFirst_checkParent (waitsFirst_lockDirectory fun fd =>
      waitsFirst_sys fun ret => calls_bind (settles_unlock fd _) fun result => ?_))
    split
    · exact calls_bind (settles_setOwner _ _) fun _ => by split <;> trivial
    · trivial
  case rmdir argp =>
    exact waitsFirst_forward (waitsFirst_checkParent (waitsFirst_lockDirectory fun fd =>
      waitsFirst_sys fun ret => settles_unlock fd _))
  case rename argp =>
    refine waitsFirst_forward (waitsFirst_checkParent (waitsFirst_checkParent
      (waitsFirst_lockDirectory fun fd => ?_)))
    dsimp only
    split
    · exact waitsFirst_lockDirectory fun newFd => waitsFirst_sys fun ret =>
        calls_bind (settles_unlock fd _) fun result => settles_unlock newFd result
    · exact waitsFirst_sys fun ret => calls_bind (settles_unlock fd _) fun _ => trivial
  case symlink argp =>
    refine waitsFirst_forward (waitsFirst_checkParent (waitsFirst_sys fun ret => ?_))
    split
    · refine calls_bind (calls_bind (calls_sys rfl) fun _ => ?_) fun _ => ?_ <;> split <;> trivial
    · trivial
  case link argp =>
    refine waitsFirst_forward (waitsFirst_checkParent (waitsFirst_checkParent
      (waitsFirst_sys fun ret => ?_)))
    split
    · exact calls_bind (settles_setOwner _ _) fun _ => by split <;> trivial
    · trivial
  case mknod argp =>
    refine waitsFirst_forward (waitsFirst_checkParent (waitsFirst_lockDirectory fun fd => ?_))
    have hfailed : (do
        let _ ← unlockDirectory fd ⟨-1⟩
        return ⟨-1⟩ : Server MknodRet).Calls (Call.Is Sys.settles) :=
      calls_bind (settles_unlock fd _) fun _ => trivial
    have howned : (do
        let ret : Int := if (← setOwner (translateAbspath argp.path) argp.ip) < 0 then -1 else 0
        unlockDirectory fd ⟨ret⟩ : Server MknodRet).Calls (Call.Is Sys.settles) :=
      calls_bind (settles_setOwner _ _) fun _ => settles_unlock fd _
    dsimp only
    split
    · refine waitsFirst_sys fun ret => ?_
      split
      · exact hfailed
      · exact calls_bind (calls_sys rfl) fun _ => howned
    · split <;> refine waitsFirst_sys fun ret => ?_ <;> split
      · exact hfailed
      · exact howned
      · exact hfailed
      · exact howned
  case truncate argp =>
    refine waitsFirst_forward (waitsFirst_sys fun ret => ?_)
    split
    · exact calls_bind settles_negErrno fun _ => trivial
    · trivial
  case unlink argp =>
    exact waitsFirst_forward (waitsFirst_checkParent (waitsFirst_lockDirectory fun fd =>
      waitsFirst_sys fun ret => settles_unlock fd _))
  case utime argp | chmod argp =>
    refine waitsFirst_forward (until_bind (calls_isOwner (fun _ => rfl) _ _) fun b => ?_)
    split
    · exact until_pure _
    · exact waitsFirst_sys fun ret => trivial
  case chown argp =>
    refine waitsFirst_forward (waitsFirst_sys fun ret => ?_)
    split
    · exact calls_bind settles_negErrno fun _ => trivial
    · trivial

end

/-- An execution ends with the tree `fs`: it returns with this tree, or it waits for ever and has
found this tree at every one of its calls. -/
inductive EndsWith (a : Arrival) (h : Host) (fs : FS) : Prop
  | returned {reply : Reply} {h' : Host} (hr : serve a h = .ok (reply, h')) (hfs : h'.os.fs = fs)
  | waiting (hw : ∀ r, serve a h ≠ .ok r)
      (he : (compute6 a.stale a.request).Each (server a.peer) (fun _ h' => h'.os.fs = fs) h)

/-- What an execution that returns has made of the tree. -/
theorem EndsWith.tree {a : Arrival} {h h' : Host} {fs : FS} {reply : Reply} (he : EndsWith a h fs)
    (hr : serve a h = .ok (reply, h')) : h'.os.fs = fs := by
  cases he with
  | returned hr' hfs =>
      cases hr.symm.trans hr'
      exact hfs
  | waiting hw => exact absurd hr (hw _)

/-- A metadata request that does not return leaves the tree alone. -/
theorem waits_alone {a : Arrival} (hreq : a.request.metadata = true) (h : Host) :
    (∃ r, serve a h = .ok r) ∨
      (compute6 a.stale a.request).Each (server a.peer) (fun _ h' => h'.os.fs = h.os.fs) h := by
  refine (compute6_waitsFirst a.stale hreq).waits (I := fun h' : Host => h'.os.fs = h.os.fs)
    (fun e s hc hs b t hstep => ?_) (fun e s hd => ?_) rfl
  · cases e with
    | os c =>
        obtain ⟨r, hexec, heq⟩ := map_eq_ok.mp hstep
        cases heq
        exact (OS.exec_keepsTree hc hexec).1.trans hs
    | rpc c => cases c <;> cases hstep <;> exact hs
  · cases e with
    | os c =>
        obtain ⟨r, hexec⟩ := OS.exec_settles hd s.os
        exact ⟨_, map_eq_ok.mpr ⟨r, hexec, rfl⟩⟩
    | rpc c => exact ⟨_, rfl⟩

/-- What an execution leaves when its outcome is known. -/
theorem endsWith_of_outcome {a : Arrival} {h : Host} {fs : FS} (hreq : a.request.metadata = true)
    (hdone : ∀ reply h', serve a h = .ok (reply, h') → h'.os.fs = fs)
    (hwait : (∀ r, serve a h ≠ .ok r) → h.os.fs = fs) : EndsWith a h fs := by
  cases hs : serve a h with
  | ok r => exact .returned hs (hdone r.1 r.2 hs)
  | error w =>
      have hno : ∀ r, serve a h ≠ .ok r := fun r hr => by cases hs.symm.trans hr
      rcases waits_alone hreq h with ⟨r, hr⟩ | heach
      · exact absurd hr (hno r)
      · rw [hwait hno] at heach
        exact .waiting hno heach

/-- **A duplicate does no harm.**  A metadata request whose paths are ordinary and have no
symbolic links among the parents leaves the same tree when it is executed a second time, whether
the second execution returns or waits for ever. -/
theorem duplicate_harmless {a a' : Arrival} {h : Host} (hsame : a'.request = a.request)
    (hreq : a.request.metadata = true)
    (hp : ∀ p ∈ a.request.paths, h.os.fs.Direct (translateAbspath p)) :
    ∃ fs, EndsWith a h fs ∧ ∀ reply h₁, serve a h = .ok (reply, h₁) → EndsWith a' h₁ fs := by
  cases hs : serve a h with
  | error w =>
      refine ⟨h.os.fs, endsWith_of_outcome hreq (fun _ _ hr => ?_) fun _ => rfl, fun _ _ hr => ?_⟩
      · cases hs.symm.trans hr
      · cases hr
  | ok r =>
      obtain ⟨reply, h₁⟩ := r
      refine ⟨h₁.os.fs, .returned hs rfl, fun _ _ heq => ?_⟩
      cases heq
      refine endsWith_of_outcome (by rw [hsame]; exact hreq) (fun reply' h₂ hs₂ => ?_) fun _ => rfl
      obtain ⟨o, o', ho, ho', htwice⟩ := @treeOp_twice _ h.os.umask _ hreq hp
      obtain ⟨-, hfs₁, humask⟩ := compute6_treeOp ho hs
      rw [← hfs₁, ← humask, ← hsame] at ho'
      obtain ⟨-, hfs₂, -⟩ := compute6_treeOp ho' hs₂
      rw [hfs₂, htwice, hfs₁]

/-- `/DFS` with a file `f` of client 1. -/
def oneFile : FS := .ofNodes [
  .plain (.dir 0 [("DFS".toList, 1)]) 0 0o755,
  .plain (.dir 0 [("f".toList, 2)]) 0 0o777,
  .plain (.reg [7]) 1 0o600]

/-- `/DFS` with two files of client 1, one of which it may search. -/
def twoOwned : FS := .ofNodes [
  .plain (.dir 0 [("DFS".toList, 1)]) 0 0o755,
  .plain (.dir 0 [("f".toList, 2), ("g".toList, 3)]) 0 0o777,
  .plain (.reg [7]) 1 0o600,
  .plain (.reg [7]) 1 0o700]

/-- `/f` is renamed to `/g`. -/
def moveAway : Arrival := .alone (.rename ⟨"1".toList, ⟨0, 0⟩, "/f".toList, "/g".toList⟩)

/-- `/f` is renamed to `/g/x`, though `/g` is a file. -/
def moveAstray : Arrival := .alone (.rename ⟨"1".toList, ⟨0, 0⟩, "/f".toList, "/g/x".toList⟩)

/-- The second rename finds nothing to move.  A rename that cannot lock the new parent keeps the
lock of the old one, and a second rename waits for it for ever. -/
theorem duplicate_harmless_rename :
    (∃ reply reply' h₁ h₂, serve moveAway (.start oneFile) = .ok (reply, h₁) ∧
      serve moveAway h₁ = .ok (reply', h₂) ∧ reply.ret = 0 ∧ reply'.ret = -1 ∧
      h₂.os.fs = h₁.os.fs) ∧
    ∃ reply h₁, serve moveAstray (.start twoOwned) = .ok (reply, h₁) ∧ reply.ret = -1 ∧
      serve moveAstray h₁ = .error .flock ∧ EndsWith moveAstray h₁ h₁.os.fs := by
  have hway : ∀ fs : FS, fs.child fs.root "DFS".toList = .ok 1 → fs.linkTarget 1 = none →
      (∀ i, fs.child 1 "g".toList = .ok i → fs.linkTarget i = none) →
      ∀ p ∈ ["/f".toList, "/g".toList, "/g/x".toList], fs.Direct (translateAbspath p) := by
    intro fs hdfs hlink hg p hp
    have hone : fs.Straight fs.root ["DFS".toList] := by
      intro i hi
      obtain rfl : 1 = i := Except.ok.inj (hdfs.symm.trans hi)
      exact ⟨hlink, trivial⟩
    have htwo : fs.Straight fs.root ["DFS".toList, "g".toList] := by
      intro i hi
      obtain rfl : 1 = i := Except.ok.inj (hdfs.symm.trans hi)
      exact ⟨hlink, fun k hk => ⟨hg k hk, trivial⟩⟩
    simp only [List.mem_cons, List.not_mem_nil, or_false] at hp
    rcases hp with rfl | rfl | rfl
    · exact ⟨by decide, hone⟩
    · exact ⟨by decide, hone⟩
    · exact ⟨by decide, htwo⟩
  constructor
  · have hrun : (do
        let r ← serve moveAway (.start oneFile)
        let r' ← serve moveAway r.2
        pure (r.1.ret, r'.1.ret) : Except Halt (Int × Int)) = .ok (0, -1) := by rfl
    simp only [bind_eq_ok, pure_eq_ok, Prod.mk.injEq, Prod.exists] at hrun
    obtain ⟨reply, h₁, hs₁, reply', h₂, hs₂, hret, hret'⟩ := hrun
    refine ⟨reply, reply', h₁, h₂, hs₁, hs₂, hret, hret', ?_⟩
    obtain ⟨fs, hfirst, hsecond⟩ := @duplicate_harmless moveAway moveAway (.start oneFile) rfl rfl
      fun p hp => hway oneFile rfl rfl (by intro i hi; cases hi) p (by
        rcases List.mem_pair.mp hp with rfl | rfl <;> simp)
    rw [hfirst.tree hs₁]
    exact (hsecond _ _ hs₁).tree hs₂
  · have hrun : (serve moveAstray (.start twoOwned)).map (fun r => r.1.ret) = .ok (-1) := by rfl
    obtain ⟨⟨reply, h₁⟩, hs₁, hret⟩ := map_eq_ok.mp hrun
    have hwait : (serve moveAstray (.start twoOwned) >>= fun r => serve moveAstray r.2) =
        .error .flock := by rfl
    rw [hs₁] at hwait
    obtain ⟨fs, hfirst, hsecond⟩ := @duplicate_harmless moveAstray moveAstray (.start twoOwned) rfl
      rfl fun p hp => hway twoOwned rfl rfl (by intro i hi; cases hi; rfl) p (by
        rcases List.mem_pair.mp hp with rfl | rfl <;> simp)
    refine ⟨reply, h₁, hs₁, hret, hwait, ?_⟩
    rw [hfirst.tree hs₁]
    exact hsecond _ _ hs₁

end DFS
