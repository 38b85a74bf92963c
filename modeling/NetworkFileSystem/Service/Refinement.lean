import NetworkFileSystem.Posix.Changes
import NetworkFileSystem.Service.Outcome

/-!
# The handlers compute the outcomes

Every handler that changes the tree by path, when it returns, answers the status and leaves the
tree that `treeOp` says (**`compute6_treeOp`**).  The proofs follow the handlers: `Sees` is what
the rest of a handler relies on, and there is one rule for each helper of the source.

A run that does not return (a lock that is never granted, `exit`) is not constrained here.
-/

namespace DFS

open Effects Posix Prog

/-- The rest of a handler works on this tree with this `umask`, and the descriptors it holds are
open. -/
structure Sees (fs : FS) (umask : UInt32) (held : List Int) (h : Host) : Prop where
  fs_eq : h.os.fs = fs
  umask_eq : h.os.umask = umask
  held_open : ∀ fd ∈ held, ∃ f, h.os.fds.file fd = some f ∧ f.pathOnly = false

/-- The status and the tree with which a handler returns. -/
def Leaves (umask : UInt32) (o : Outcome) (r : StatusRet) (h : Host) : Prop :=
  r.ret = o.ret ∧ Sees o.fs umask [] h

namespace Sees

variable {fs : FS} {umask : UInt32} {held : List Int} {h : Host}

theorem start (h : Host) : Sees h.os.fs h.os.umask [] h :=
  ⟨rfl, rfl, fun _ hfd => nomatch hfd⟩

theorem drop (hs : Sees fs umask held h) : Sees fs umask [] h :=
  ⟨hs.fs_eq, hs.umask_eq, fun _ hfd => nomatch hfd⟩

theorem fail (hs : Sees fs umask held h) (e : Errno) :
    Sees fs umask held { h with os := h.os.fail e } :=
  ⟨hs.fs_eq, hs.umask_eq, hs.held_open⟩

theorem of_os (hs : Sees fs umask held h) {h' : Host} (hos : h'.os = h.os) :
    Sees fs umask held h' :=
  ⟨hos ▸ hs.fs_eq, hos ▸ hs.umask_eq, hos ▸ hs.held_open⟩

/-- The next tree. -/
theorem next (hs : Sees fs umask held h) (fs' : FS) :
    Sees fs' umask held { h with os := { h.os with fs := fs' } } :=
  ⟨rfl, hs.umask_eq, hs.held_open⟩

theorem leaves (hs : Sees fs umask held h) {r : StatusRet} {ret : Int} (hr : r.ret = ret) :
    Leaves umask ⟨ret, fs⟩ r h :=
  ⟨hr, hs.drop⟩

end Sees

/-! ## Verdicts on stat buffers -/

theorem hasBit_or {a b c : UInt32} (h : a &&& c = 0) : hasBit (a ||| b) c = hasBit b c := by
  have hd : (a ||| b) &&& c = (a &&& c) ||| (b &&& c) := by
    apply UInt32.toBitVec_inj.mp
    simp only [UInt32.toBitVec_and, UInt32.toBitVec_or]
    exact BitVec.and_or_distrib_right
  unfold hasBit
  rw [hd, h, UInt32.zero_or]

/-- The type bits of `st_mode` do not disturb the permission bits. -/
theorem modeGrants_stat (vol : Volume) (i : Ino) (n : Inode) (id : Int32) (flags : UInt32) :
    modeGrants (n.stat vol i) id flags = grants n id flags := by
  have hbit : ∀ own others : UInt32,
      n.kind.typeBits &&& own = 0 → n.kind.typeBits &&& others = 0 →
      (if n.uid.toInt32 = id then hasBit (n.kind.typeBits ||| n.perm) own
        else hasBit (n.kind.typeBits ||| n.perm) others) = permits n id own others := by
    intro own others ho hx
    unfold permits
    split
    · exact hasBit_or ho
    · exact hasBit_or hx
  have hr := hbit S_IRUSR S_IROTH (by cases n.kind <;> decide) (by cases n.kind <;> decide)
  have hw := hbit S_IWUSR S_IWOTH (by cases n.kind <;> decide) (by cases n.kind <;> decide)
  have hx := hbit S_IXUSR S_IXOTH (by cases n.kind <;> decide) (by cases n.kind <;> decide)
  dsimp only [modeGrants, grants, Inode.stat]
  rw [hr, hw, hx]
  clear hbit hr hw hx
  generalize hasBit flags R_REQ = r, hasBit flags W_REQ = w, hasBit flags X_REQ = x
  generalize permits n id S_IRUSR S_IROTH = r', permits n id S_IWUSR S_IWOTH = w',
    permits n id S_IXUSR S_IXOTH = x'
  decide +revert

/-- Opening a directory as `opendir` does finds the directory and changes nothing. -/
theorem openAt_directory {fs fs' : FS} {umask : UInt32} {p : CStr} {i : Ino} :
    fs.openAt umask p (O_RDONLY ||| O_NONBLOCK ||| O_DIRECTORY) 0 = .ok (i, fs') ↔
      fs.resolve p = .ok i ∧ fs.isDir i = true ∧ fs' = fs := by
  have h1 : hasBit (O_RDONLY ||| O_NONBLOCK ||| O_DIRECTORY) O_PATH = false := by decide
  have h2 : hasBit (O_RDONLY ||| O_NONBLOCK ||| O_DIRECTORY) O_TMPFILE_BIT = false := by decide
  have h3 : hasBit (O_RDONLY ||| O_NONBLOCK ||| O_DIRECTORY) O_CREAT = false := by decide
  have h4 : hasBit (O_RDONLY ||| O_NONBLOCK ||| O_DIRECTORY) O_NOFOLLOW = false := by decide
  simp only [FS.openAt, h1, h2, h3, h4, Bool.false_eq_true, if_false]
  rw [bind_eq_ok]
  constructor
  · rintro ⟨k, hk, ho⟩
    unfold FS.openExisting at ho
    simp only [bind_eq_ok, need_eq_ok, orElse_eq_ok, exists_const] at ho
    obtain ⟨n, hn, -, hdir, -, -, hres⟩ := ho
    have hkind : n.kind = .dir := by
      rcases hdir with h | h
      · exact absurd h (by decide)
      · exact h
    have hret : k = i ∧ fs = fs' := by
      simpa [hkind, pure_eq_ok] using hres
    obtain ⟨rfl, rfl⟩ := hret
    exact ⟨hk, by simp [FS.isDir, hn, hkind], rfl⟩
  · rintro ⟨hi, hdir, rfl⟩
    refine ⟨i, hi, ?_⟩
    unfold FS.isDir at hdir
    split at hdir
    · next n hn =>
      have hkind : n.kind = .dir := by simpa using hdir
      unfold FS.openExisting
      simp only [bind_eq_ok, need_eq_ok, orElse_eq_ok, exists_const]
      refine ⟨n, hn, by simp [hkind], .inr hkind, .inr (by decide), by simp [hkind], ?_⟩
      simp [hkind, pure, Except.pure]
    · cases hdir

theorem lockable_iff {fs : FS} {p : CStr} :
    lockable fs p = true ↔ ∃ i, fs.resolve p = .ok i ∧ fs.isDir i = true := by
  unfold lockable
  cases fs.resolve p <;> simp

/-! ## Rules for the helpers -/

section Rules

variable {peer : Peer} {fs : FS} {umask : UInt32} {held : List Int} {h : Host} {H : Halt → Prop}

theorem wp_sys {β : Type} {c : Sys β} {Q : β → Host → Prop} :
    (sys c).wp (server peer) Q H h ↔ match OS.exec c h.os with
      | .ok r => Q r.1 { h with os := r.2 }
      | .error w => H w := by
  unfold sys
  rw [wp_perform]
  simp only [server]
  cases OS.exec c h.os <;> rfl

/-- What comes after a call that returns. -/
theorem run_sys_bind {α β : Type} {c : Sys β} {k : β → Server α} {r : β × OS}
    (hr : OS.exec c h.os = .ok r) :
    (sys c >>= k).run (server peer) h = (k r.1).run (server peer) { h with os := r.2 } := by
  rw [run_bind]
  unfold sys
  rw [run_perform]
  simp only [server, hr, Except.map, Except.bind]

/-- A call that returns. -/
theorem wp_sys_ok {β : Type} {c : Sys β} {Q : β → Host → Prop} {r : β × OS}
    (hc : OS.exec c h.os = .ok r) (hQ : Q r.1 { h with os := r.2 }) :
    (sys c).wp (server peer) Q H h := by
  rw [wp_sys, hc]
  exact hQ

/-- A call that changes the tree. -/
theorem wp_change {c : Sys Int} (r : Except Errno FS) {Q : Int → Host → Prop}
    (hs : Sees fs umask held h)
    (hc : ∀ os : OS, os.fs = fs → os.umask = umask → OS.exec c os = .ok (os.tryFS r))
    (hok : ∀ fs', r = .ok fs' → ∀ h', Sees fs' umask held h' → Q 0 h')
    (herr : ∀ e, r = .error e → ∀ h', Sees fs umask held h' → h'.os.errno = e → Q (-1) h') :
    (sys c).wp (server peer) Q H h := by
  apply wp_sys_ok (hc _ hs.fs_eq hs.umask_eq)
  cases r with
  | ok fs' => exact hok fs' rfl _ (hs.next fs')
  | error e => exact herr e rfl _ (hs.fail e) rfl

theorem wp_negErrno {Q : Int → Host → Prop} (hQ : Q (-(h.os.errno : Int)) h) :
    negErrno.wp (server peer) Q H h := by
  unfold negErrno
  rw [wp_bind]
  exact wp_sys_ok rfl hQ

/-- Forwarding leaves the operating system of this server alone. -/
theorem wp_transmit {info : Identity} {slaveArg : Identity → Request} {Q : Unit → Host → Prop}
    (hQ : ∀ h', h'.os = h.os → Q () h') :
    (transmitToSecondaty info slaveArg).wp (server peer) Q H h := by
  unfold transmitToSecondaty connectServer
  split
  · rw [wp_bind, wp_perform]
    simp only [server, Host.rpc]
    split
    · rw [wp_bind, wp_perform]
      simp only
      rw [wp_perform]
      exact hQ _ rfl
    · exact hQ _ rfl
  · exact hQ _ rfl

/-- `lstat` succeeds when `attrs` does, with a stat buffer of the same inode. -/
theorem lstat_cases (os : OS) (p : CStr) :
    (∃ n i, attrs os.fs p = .ok n ∧ os.lstat p = .ok (n.stat os.vol i)) ∨
    (∃ e, attrs os.fs p = .error e ∧ os.lstat p = .error e) := by
  unfold attrs OS.lstat
  cases os.fs.lresolve p with
  | error e => exact .inr ⟨e, rfl, rfl⟩
  | ok i =>
      simp only [ok_bind]
      cases hn : os.fs.node i with
      | none => exact .inr ⟨ENOENT, rfl, rfl⟩
      | some n => exact .inl ⟨n, i, rfl, rfl⟩

theorem wp_lstat {p : CStr} {Q : Option Stat → Host → Prop} (hs : Sees fs umask held h)
    (hok : ∀ n vol i, attrs fs p = .ok n →
      ∀ h', Sees fs umask held h' → Q (some (n.stat vol i)) h')
    (herr : ∀ e, attrs fs p = .error e → ∀ h', Sees fs umask held h' → Q none h') :
    (sys (.lstat p)).wp (server peer) Q H h := by
  obtain rfl := hs.fs_eq
  refine wp_sys_ok rfl ?_
  rcases lstat_cases h.os p with ⟨n, i, hn, hl⟩ | ⟨e, he, hl⟩
  · rw [hl]
    exact hok n _ _ hn _ hs
  · rw [hl]
    exact herr e he _ (hs.fail e)

theorem wp_isOpValid {p ip : CStr} {flags : UInt32} {Q : Int → Host → Prop}
    (hs : Sees fs umask held h)
    (hQ : ∀ h', Sees fs umask held h' → Q (opValid fs p (atoi ip) flags) h') :
    (isOpValid p ip flags).wp (server peer) Q H h := by
  unfold isOpValid
  rw [wp_bind]
  refine wp_lstat hs ?_ ?_
  · intro n vol i hn h' hs'
    have hv := hQ h' hs'
    simp only [opValid, hn, ← modeGrants_stat vol i] at hv
    exact hv
  · intro e he h' hs'
    have hv := hQ h' hs'
    rw [opValid, he] at hv
    exact hv

theorem wp_isRootdirOpValidToDelete {p ip : CStr} {Q : Int → Host → Prop}
    (hs : Sees fs umask held h)
    (hQ : ∀ h', Sees fs umask held h' → Q (rootdirOpValidToDelete fs p (atoi ip)) h') :
    (isRootdirOpValidToDelete p ip).wp (server peer) Q H h := by
  unfold isRootdirOpValidToDelete
  rw [wp_bind]
  refine wp_lstat hs ?_ ?_
  · intro n vol i hn h' hs'
    have hv := hQ h' hs'
    rw [rootdirOpValidToDelete, hn] at hv
    exact hv
  · intro e he h' hs'
    have hv := hQ h' hs'
    rw [rootdirOpValidToDelete, he] at hv
    exact hv

theorem wp_isOwner {p ip : CStr} {Q : Bool → Host → Prop} (hs : Sees fs umask held h)
    (hQ : ∀ h', Sees fs umask held h' → Q (owns fs p (atoi ip)) h') :
    (isOwner p ip).wp (server peer) Q H h := by
  unfold isOwner
  rw [wp_bind]
  refine wp_lstat hs ?_ ?_
  · intro n vol i hn h' hs'
    have hv := hQ h' hs'
    rw [owns, hn] at hv
    exact hv
  · intro e he h' hs'
    have hv := hQ h' hs'
    rw [owns, he] at hv
    exact hv

theorem wp_isParentDirValid {parent p ip : CStr} {op : OpName} {Q : Bool → Host → Prop}
    (hs : Sees fs umask held h)
    (hQ : ∀ h', Sees fs umask held h' → Q (parentDirValid fs parent p (atoi ip) op) h') :
    (isParentDirValid parent p ip op).wp (server peer) Q H h := by
  unfold isParentDirValid
  by_cases hroot : parent = dfsRoot
  · rw [if_pos hroot]
    by_cases hdel : op = .rmdir ∨ op = .unlink
    · rw [if_pos hdel, wp_bind]
      refine wp_isRootdirOpValidToDelete hs fun h' hs' => ?_
      have hv := hQ h' hs'
      rw [parentDirValid, if_pos hroot, if_pos hdel] at hv
      by_cases hz : rootdirOpValidToDelete fs p (atoi ip) = 0
      · simpa [hz] using hv
      · simpa [hz] using hv
    · rw [if_neg hdel]
      have hv := hQ h hs
      rw [parentDirValid, if_pos hroot, if_neg hdel] at hv
      exact hv
  · rw [if_neg hroot, wp_bind]
    refine wp_isOpValid hs fun h' hs' => ?_
    have hv := hQ h' hs'
    rw [parentDirValid, if_neg hroot] at hv
    by_cases hz : opValid fs parent (atoi ip) (R_REQ ||| W_REQ ||| X_REQ) = 1
    · simpa [hz] using hv
    · simpa [hz] using hv

theorem wp_checkParent {parent p ip : CStr} {op : OpName} {rest : Server StatusRet} {o : Outcome}
    (hs : Sees fs umask held h)
    (hrest : ∀ h', Sees fs umask held h' → rest.wp (server peer) (Leaves umask o) H h') :
    (checkParentDirectoryValid parent p ip op rest).wp (server peer)
      (Leaves umask (check fs (parentDirValid fs parent p (atoi ip) op) (-EACCES) o)) H h := by
  unfold checkParentDirectoryValid
  rw [wp_bind]
  refine wp_isParentDirValid hs fun h' hs' => ?_
  unfold check
  split
  · exact hrest h' hs'
  · exact hs'.leaves rfl

/-- A directory that can be opened is locked, unless the server waits for ever. -/
theorem wp_dlock {parent : CStr} {Q : Int → Host → Prop} (hH : ∀ w, H w)
    (hs : Sees fs umask held h)
    (hok : lockable fs parent = true →
      ∀ fd h', 0 ≤ fd → Sees fs umask (fd :: held) h' → Q fd h')
    (herr : lockable fs parent = false → ∀ h', Sees fs umask held h' → Q (-1) h') :
    (dlock parent).wp (server peer) Q H h := by
  obtain rfl := hs.fs_eq
  unfold dlock
  rw [wp_bind]
  refine wp_sys_ok rfl ?_
  unfold OS.opendir
  cases ho : h.os.fs.openAt h.os.umask parent (O_RDONLY ||| O_NONBLOCK ||| O_DIRECTORY) 0 with
  | error e =>
      refine herr ?_ _ (hs.fail e)
      by_contra hl
      rw [Bool.not_eq_false] at hl
      obtain ⟨i, hi, hdir⟩ := lockable_iff.mp hl
      rw [openAt_directory.mpr ⟨hi, hdir, rfl⟩] at ho
      cases ho
  | ok r =>
      obtain ⟨i, fs'⟩ := r
      obtain ⟨hi, hdir, -⟩ := openAt_directory.mp ho
      have hne : ¬ ((h.os.fds.nextFd : Int) = -1) := by omega
      simp only [hne, if_false]
      rw [wp_bind, wp_sys]
      have hnew : (h.os.fds.addFile (OS.opened O_RDONLY i)).file h.os.fds.nextFd =
          some (OS.opened O_RDONLY i) := by simp [Descriptors.file_addFile]
      rcases OS.flock_open { h.os with fds := h.os.fds.addFile (OS.opened O_RDONLY i) }
        hnew rfl .ex with hl | hl
      · simp only [OS.exec, hl]
        exact hH _
      · simp only [OS.exec, hl]
        refine hok (lockable_iff.mpr ⟨i, hi, hdir⟩) _ _ (by omega)
          ⟨hs.fs_eq, hs.umask_eq, fun fd hfd => ?_⟩
        simp only [Descriptors.file_setFile, Descriptors.file_addFile]
        rcases List.mem_cons.mp hfd with rfl | hfd
        · simp
          rfl
        · obtain ⟨f, hf, hp⟩ := hs.held_open fd hfd
          rw [if_neg (Descriptors.ne_nextFd hf), if_neg (Descriptors.ne_nextFd hf)]
          exact ⟨f, hf, hp⟩

theorem wp_lockDirectory {parent : CStr} {rest : Int → Server StatusRet} {o : Outcome}
    (hH : ∀ w, H w) (hs : Sees fs umask held h)
    (hrest : ∀ fd h', Sees fs umask (fd :: held) h' →
      (rest fd).wp (server peer) (Leaves umask o) H h') :
    (lockDirectory parent rest).wp (server peer)
      (Leaves umask (check fs (lockable fs parent) (-1) o)) H h := by
  unfold lockDirectory
  rw [wp_bind]
  refine wp_dlock hH hs ?_ ?_
  · intro hl fd h' hfd hs'
    rw [if_neg (by omega), hl]
    exact hrest fd h' hs'
  · intro hl h' hs'
    rw [if_pos (by decide), hl]
    exact hs'.leaves rfl

/-- Unlocking a directory that is held changes nothing else. -/
theorem wp_unlockDirectory {fd : Int} {result : StatusRet} {Q : StatusRet → Host → Prop}
    (hs : Sees fs umask held h) (hfd : fd ∈ held)
    (hQ : ∀ h', Sees fs umask held h' → Q result h') :
    (unlockDirectory fd result).wp (server peer) Q H h := by
  obtain ⟨f, hf, hp⟩ := hs.held_open fd hfd
  unfold unlockDirectory dunlock
  rw [wp_bind, wp_bind]
  refine wp_sys_ok (OS.flock_un _ hf hp) ?_
  refine hQ _ ⟨hs.fs_eq, hs.umask_eq, fun k hk => ?_⟩
  obtain ⟨g, hg, hgp⟩ := hs.held_open k hk
  simp only [Descriptors.file_setFile, hg]
  split
  · exact ⟨_, rfl, hgp⟩
  · exact ⟨g, rfl, hgp⟩

/-- One call that changes the tree, as a step of an outcome. -/
theorem wp_attempt {c : Sys Int} (r : Except Errno FS) {k : Int → Server StatusRet}
    {o : FS → Outcome} (hs : Sees fs umask held h)
    (hc : ∀ os : OS, os.fs = fs → os.umask = umask → OS.exec c os = .ok (os.tryFS r))
    (hok : ∀ fs' h', r = .ok fs' → Sees fs' umask held h' →
      (k 0).wp (server peer) (Leaves umask (o fs')) H h')
    (herr : ∀ h', Sees fs umask held h' →
      (k (-1)).wp (server peer) (Leaves umask ⟨-1, fs⟩) H h') :
    (sys c >>= k).wp (server peer) (Leaves umask (attempt fs r o)) H h := by
  rw [wp_bind]
  refine wp_change r hs hc ?_ ?_
  · intro fs' hr h' hs'
    rw [hr]
    exact hok fs' h' hr hs'
  · intro e hr h' hs' _
    rw [hr]
    exact herr h' hs'

/-- One call whose failure is reported as `-errno`. -/
theorem wp_report {c : Sys Int} (r : Except Errno FS) (hs : Sees fs umask held h)
    (hc : ∀ os : OS, os.fs = fs → os.umask = umask → OS.exec c os = .ok (os.tryFS r)) :
    (do
      let syscallRet ← sys c
      if syscallRet < 0 then return (⟨← negErrno⟩ : StatusRet)
      else return ⟨0⟩ : Server StatusRet).wp (server peer) (Leaves umask (report fs r)) H h := by
  rw [wp_bind]
  refine wp_change r hs hc ?_ ?_
  · intro fs' hr h' hs'
    rw [hr]
    exact hs'.leaves rfl
  · intro e hr h' hs' he
    rw [hr, if_pos (by decide), wp_bind]
    refine wp_negErrno ?_
    rw [he]
    exact hs'.leaves rfl

/-- Changing the owner of what was created. -/
theorem wp_setOwner {p ip : CStr} {k : Int → Server StatusRet} {o : FS → Outcome}
    (hs : Sees fs umask held h)
    (hok : ∀ fs' h', fs.chown p (atoi ip).toUInt32 (atoi ip).toUInt32 = .ok fs' →
      Sees fs' umask held h' → (k 0).wp (server peer) (Leaves umask (o fs')) H h')
    (herr : ∀ h', Sees fs umask held h' →
      (k (-1)).wp (server peer) (Leaves umask ⟨-1, fs⟩) H h') :
    (setOwner p ip >>= k).wp (server peer) (Leaves umask
      (attempt fs (fs.chown p (atoi ip).toUInt32 (atoi ip).toUInt32) o)) H h := by
  rw [wp_bind]
  unfold setOwner
  rw [← wp_bind, bind_assoc]
  exact wp_attempt _ hs (by rintro os rfl rfl; rfl) hok herr

theorem wp_setSoftlinkOwner {p ip : CStr} {k : Int → Server StatusRet} {o : FS → Outcome}
    (hs : Sees fs umask held h)
    (hok : ∀ fs' h', fs.lchown p (atoi ip).toUInt32 (atoi ip).toUInt32 = .ok fs' →
      Sees fs' umask held h' → (k 0).wp (server peer) (Leaves umask (o fs')) H h')
    (herr : ∀ h', Sees fs umask held h' →
      (k (-1)).wp (server peer) (Leaves umask ⟨-1, fs⟩) H h') :
    (setSoftlinkOwner p ip >>= k).wp (server peer) (Leaves umask
      (attempt fs (fs.lchown p (atoi ip).toUInt32 (atoi ip).toUInt32) o)) H h := by
  rw [wp_bind]
  unfold setSoftlinkOwner
  rw [← wp_bind, bind_assoc]
  exact wp_attempt _ hs (by rintro os rfl rfl; rfl) hok herr

end Rules

/-! ## The handlers -/

section Handlers

variable {peer : Peer} {fs : FS} {umask : UInt32} {h : Host}

/-- What a handler owes for an outcome, from every host with this tree and `umask`. -/
abbrev Computes (peer : Peer) (fs : FS) (umask : UInt32) (p : Server StatusRet) (o : Outcome) :
    Prop :=
  ∀ h, Sees fs umask [] h → p.wp (server peer) (Leaves umask o) (fun _ => True) h

theorem bbMkdir6Svc_outcome (argp : MkdirArg) :
    Computes peer fs umask (bbMkdir6Svc argp) (mkdirOp umask fs argp) := by
  intro h hs
  unfold bbMkdir6Svc mkdirOp
  rw [wp_bind]
  refine wp_transmit fun h₁ h₁os => ?_
  refine wp_checkParent (hs.of_os h₁os) fun h₂ hs₂ => ?_
  refine wp_lockDirectory (fun _ => trivial) hs₂ fun fd h₃ hs₃ => ?_
  refine wp_attempt _ hs₃ (by rintro os rfl rfl; rfl) ?_ ?_
  · intro fs₁ h₄ _ hs₄
    rw [wp_bind]
    refine wp_unlockDirectory hs₄ (by simp) fun h₅ hs₅ => ?_
    rw [if_pos (by decide)]
    exact wp_setOwner hs₅ (fun fs₂ h₆ _ hs₆ => hs₆.leaves rfl) fun h₆ hs₆ => hs₆.leaves rfl
  · intro h₄ hs₄
    rw [wp_bind]
    exact wp_unlockDirectory hs₄ (by simp) fun h₅ hs₅ => hs₅.leaves rfl

theorem bbRmdir6Svc_outcome (argp : RmdirArg) :
    Computes peer fs umask (bbRmdir6Svc argp) (rmdirOp fs argp) := by
  intro h hs
  unfold bbRmdir6Svc rmdirOp
  rw [wp_bind]
  refine wp_transmit fun h₁ h₁os => ?_
  refine wp_checkParent (hs.of_os h₁os) fun h₂ hs₂ => ?_
  refine wp_lockDirectory (fun _ => trivial) hs₂ fun fd h₃ hs₃ => ?_
  refine wp_attempt _ hs₃ (by rintro os rfl rfl; rfl) ?_ ?_
  · intro fs₁ h₄ _ hs₄
    exact wp_unlockDirectory hs₄ (by simp) fun h₅ hs₅ => hs₅.leaves rfl
  · intro h₄ hs₄
    exact wp_unlockDirectory hs₄ (by simp) fun h₅ hs₅ => hs₅.leaves rfl

theorem bbUnlink6Svc_outcome (argp : UnlinkArg) :
    Computes peer fs umask (bbUnlink6Svc argp) (unlinkOp fs argp) := by
  intro h hs
  unfold bbUnlink6Svc unlinkOp
  rw [wp_bind]
  refine wp_transmit fun h₁ h₁os => ?_
  refine wp_checkParent (hs.of_os h₁os) fun h₂ hs₂ => ?_
  refine wp_lockDirectory (fun _ => trivial) hs₂ fun fd h₃ hs₃ => ?_
  refine wp_attempt _ hs₃ (by rintro os rfl rfl; rfl) ?_ ?_
  · intro fs₁ h₄ _ hs₄
    exact wp_unlockDirectory hs₄ (by simp) fun h₅ hs₅ => hs₅.leaves rfl
  · intro h₄ hs₄
    exact wp_unlockDirectory hs₄ (by simp) fun h₅ hs₅ => hs₅.leaves rfl

theorem bbRename6Svc_outcome (argp : RenameArg) :
    Computes peer fs umask (bbRename6Svc argp) (renameOp fs argp) := by
  intro h hs
  unfold bbRename6Svc renameOp
  rw [wp_bind]
  refine wp_transmit fun h₁ h₁os => ?_
  refine wp_checkParent (hs.of_os h₁os) fun h₂ hs₂ => ?_
  refine wp_checkParent hs₂ fun h₃ hs₃ => ?_
  refine wp_lockDirectory (fun _ => trivial) hs₃ fun fd h₄ hs₄ => ?_
  by_cases hp : getParentPath (translateAbspath argp.path) =
      getParentPath (translateAbspath argp.newpath)
  · simp only [hp, ne_eq, not_true_eq_false, if_false, check, decide_true, Bool.true_or, if_true]
    refine wp_attempt _ hs₄ (by rintro os rfl rfl; rfl) ?_ ?_
    · intro fs₁ h₅ _ hs₅
      rw [wp_bind]
      exact wp_unlockDirectory hs₅ (by simp) fun h₆ hs₆ => hs₆.leaves rfl
    · intro h₅ hs₅
      rw [wp_bind]
      exact wp_unlockDirectory hs₅ (by simp) fun h₆ hs₆ => hs₆.leaves rfl
  · simp only [hp, ne_eq, not_false_eq_true, if_true, decide_false, Bool.false_or]
    refine wp_lockDirectory (fun _ => trivial) hs₄ fun fd' h₅ hs₅ => ?_
    refine wp_attempt _ hs₅ (by rintro os rfl rfl; rfl) ?_ ?_
    · intro fs₁ h₆ _ hs₆
      rw [wp_bind]
      refine wp_unlockDirectory hs₆ (by simp) fun h₇ hs₇ => ?_
      exact wp_unlockDirectory hs₇ (by simp) fun h₈ hs₈ => hs₈.leaves rfl
    · intro h₆ hs₆
      rw [wp_bind]
      refine wp_unlockDirectory hs₆ (by simp) fun h₇ hs₇ => ?_
      exact wp_unlockDirectory hs₇ (by simp) fun h₈ hs₈ => hs₈.leaves rfl

theorem bbSymlink6Svc_outcome (argp : SymlinkArg) :
    Computes peer fs umask (bbSymlink6Svc argp) (symlinkOp fs argp) := by
  intro h hs
  unfold bbSymlink6Svc symlinkOp
  rw [wp_bind]
  refine wp_transmit fun h₁ h₁os => ?_
  refine wp_checkParent (hs.of_os h₁os) fun h₂ hs₂ => ?_
  refine wp_attempt _ hs₂ (by rintro os rfl rfl; rfl) ?_ ?_
  · intro fs₁ h₃ _ hs₃
    rw [if_pos (by decide)]
    exact wp_setSoftlinkOwner hs₃ (fun fs₂ h₄ _ hs₄ => hs₄.leaves rfl)
      fun h₄ hs₄ => hs₄.leaves rfl
  · intro h₃ hs₃
    exact hs₃.leaves rfl

theorem bbLink6Svc_outcome (argp : LinkArg) :
    Computes peer fs umask (bbLink6Svc argp) (linkOp fs argp) := by
  intro h hs
  unfold bbLink6Svc linkOp
  rw [wp_bind]
  refine wp_transmit fun h₁ h₁os => ?_
  refine wp_checkParent (hs.of_os h₁os) fun h₂ hs₂ => ?_
  refine wp_checkParent hs₂ fun h₃ hs₃ => ?_
  refine wp_attempt _ hs₃ (by rintro os rfl rfl; rfl) ?_ ?_
  · intro fs₁ h₄ _ hs₄
    rw [if_pos (by decide)]
    exact wp_setOwner hs₄ (fun fs₂ h₅ _ hs₅ => hs₅.leaves rfl) fun h₅ hs₅ => hs₅.leaves rfl
  · intro h₄ hs₄
    exact hs₄.leaves rfl

theorem bbTruncate6Svc_outcome (argp : TruncateArg) :
    Computes peer fs umask (bbTruncate6Svc argp) (truncateOp fs argp) := by
  intro h hs
  unfold bbTruncate6Svc truncateOp
  rw [wp_bind]
  refine wp_transmit fun h₁ h₁os => ?_
  exact wp_report _ (hs.of_os h₁os) (by rintro os rfl rfl; rfl)

theorem bbChown6Svc_outcome (argp : ChownArg) :
    Computes peer fs umask (bbChown6Svc argp) (chownOp fs argp) := by
  intro h hs
  unfold bbChown6Svc chownOp
  rw [wp_bind]
  refine wp_transmit fun h₁ h₁os => ?_
  exact wp_report _ (hs.of_os h₁os) (by rintro os rfl rfl; rfl)

/-- The check for the owner, as a step of an outcome. -/
theorem wp_checkOwner {p ip : CStr} {rest : Server StatusRet} {o : Outcome} {H : Halt → Prop}
    (hs : Sees fs umask [] h)
    (hrest : ∀ h', Sees fs umask [] h' → rest.wp (server peer) (Leaves umask o) H h') :
    (do if !(← isOwner p ip) then return ⟨-EACCES⟩ else rest : Server StatusRet).wp (server peer)
      (Leaves umask (check fs (owns fs p (atoi ip)) (-EACCES) o)) H h := by
  rw [wp_bind]
  refine wp_isOwner hs fun h' hs' => ?_
  cases owns fs p (atoi ip) with
  | false => exact hs'.leaves rfl
  | true => exact hrest h' hs'

theorem bbUtime6Svc_outcome (argp : UtimeArg) :
    Computes peer fs umask (bbUtime6Svc argp) (utimeOp fs argp) := by
  intro h hs
  unfold bbUtime6Svc utimeOp
  rw [wp_bind]
  refine wp_transmit fun h₁ h₁os => ?_
  refine wp_checkOwner (hs.of_os h₁os) fun h₂ hs₂ => ?_
  exact wp_attempt _ hs₂ (by rintro os rfl rfl; rfl) (fun fs₁ h₃ _ hs₃ => hs₃.leaves rfl)
    fun h₃ hs₃ => hs₃.leaves rfl

theorem bbChmod6Svc_outcome (argp : ChmodArg) :
    Computes peer fs umask (bbChmod6Svc argp) (chmodOp fs argp) := by
  intro h hs
  unfold bbChmod6Svc chmodOp
  rw [wp_bind]
  refine wp_transmit fun h₁ h₁os => ?_
  refine wp_checkOwner (hs.of_os h₁os) fun h₂ hs₂ => ?_
  exact wp_attempt _ hs₂ (by rintro os rfl rfl; rfl) (fun fs₁ h₃ _ hs₃ => hs₃.leaves rfl)
    fun h₃ hs₃ => hs₃.leaves rfl

/-- A handler that exits does not return. -/
theorem wp_exit {status : Int} {Q : Empty → Host → Prop} :
    (sys (.exit status)).wp (server peer) Q (fun _ => True) h := by
  rw [wp_sys]
  trivial

theorem initRootdir6Svc_outcome (argp : InitArg) :
    Computes peer fs umask (initRootdir6Svc argp) (initOp umask fs) := by
  intro h hs
  unfold initRootdir6Svc initOp
  rw [wp_bind]
  refine wp_transmit fun h₁ h₁os => ?_
  -- What follows once the root directory is there.
  have hchmod : ∀ fs₁ h', Sees fs₁ umask [] h' → (do
      if (← sys (.chmod dfsRoot 0o777)) ≠ 0 then
        let _ ← sys (.exit 1)
      return ⟨0⟩ : Server StatusRet).wp (server peer)
        (Leaves umask ⟨0, kept fs₁ (fs₁.chmod dfsRoot 0o777)⟩) (fun _ => True) h' := by
    intro fs₁ h' hs'
    rw [wp_bind]
    refine wp_change (fs₁.chmod dfsRoot 0o777) hs' (by rintro os rfl rfl; rfl) ?_ ?_
    · intro fs₂ hr h₂ hs₂
      rw [hr]
      exact hs₂.leaves rfl
    · intro e hr h₂ hs₂ _
      rw [if_pos (by decide), wp_bind]
      exact wp_exit
  rw [wp_bind]
  refine wp_change ((fun _ => fs) <$> fs.access dfsRoot 0) (hs.of_os h₁os)
    (by rintro os rfl rfl; rfl) ?_ ?_
  · intro fs₁ hr h₂ hs₂
    rw [if_neg (by decide)]
    cases ha : fs.access dfsRoot 0 with
    | error e => rw [ha] at hr; cases hr
    | ok u =>
        rw [ha] at hr
        cases hr
        exact hchmod fs h₂ hs₂
  · intro e hr h₂ hs₂ _
    rw [if_pos (by decide), wp_bind]
    cases ha : fs.access dfsRoot 0 with
    | ok u => rw [ha] at hr; cases hr
    | error e' =>
        refine wp_change (fs.mkdir umask dfsRoot 0o777) hs₂ (by rintro os rfl rfl; rfl) ?_ ?_
        · intro fs₁ hr₁ h₃ hs₃
          rw [hr₁]
          exact hchmod fs₁ h₃ hs₃
        · intro e₁ hr₁ h₃ hs₃ _
          rw [if_pos (by decide), wp_bind]
          exact wp_exit

/-- Making a regular file through `open` and closing it again. -/
theorem wp_makeFile {p : CStr} {mode : UInt32} {held : List Int} {k : Server StatusRet}
    {failed : Server StatusRet} {o : FS → Outcome} {H : Halt → Prop} (hs : Sees fs umask held h)
    (hok : ∀ fs' h', Sees fs' umask held h' → k.wp (server peer) (Leaves umask (o fs')) H h')
    (herr : ∀ h', Sees fs umask held h' →
      failed.wp (server peer) (Leaves umask ⟨-1, fs⟩) H h') :
    (do
      let funcRet ← sys (.openPath p (O_CREAT ||| O_EXCL ||| O_WRONLY) mode)
      if funcRet < 0 then failed
      else
        let _ ← sys (.close funcRet)
        k : Server StatusRet).wp (server peer) (Leaves umask (attempt fs
          ((fs.openAt umask p (O_CREAT ||| O_EXCL ||| O_WRONLY) mode).map (·.2)) o)) H h := by
  obtain rfl := hs.fs_eq
  obtain rfl := hs.umask_eq
  rw [wp_bind]
  cases ho : h.os.fs.openAt h.os.umask p (O_CREAT ||| O_EXCL ||| O_WRONLY) mode with
  | error e => exact wp_sys_ok (OS.openFile_error _ ho) (herr _ (hs.fail e))
  | ok r =>
      obtain ⟨i, fs'⟩ := r
      obtain ⟨d, x, parent, -, hd, rfl, rfl⟩ := FS.openAt_excl_eq_ok.mp ho
      have hnew : (h.os.fs.created d x id (parent.born (.reg [])
          (mode &&& 0o7777 &&& ~~~h.os.umask))).node h.os.fs.next = _ :=
        FS.created_node (Option.isSome_of_eq_some hd)
      refine wp_sys_ok (OS.openFile_ok _ ho hnew (by simp [Inode.kind, Inode.born, Body.kind])) ?_
      rw [if_neg (by omega), wp_bind]
      have hopen : (h.os.fds.addFile (OS.opened (O_CREAT ||| O_EXCL ||| O_WRONLY)
          h.os.fs.next)).file h.os.fds.nextFd = some (OS.opened (O_CREAT ||| O_EXCL ||| O_WRONLY)
          h.os.fs.next) := by simp [Descriptors.file_addFile]
      refine wp_sys_ok (by simp only [OS.exec, OS.close, hopen]; rfl) ?_
      refine hok _ _ ⟨rfl, rfl, fun fd hfd => ?_⟩
      obtain ⟨f, hf, hp⟩ := hs.held_open fd hfd
      refine ⟨f, ?_, hp⟩
      simp [Descriptors.file_dropFile, Descriptors.file_addFile, Descriptors.ne_nextFd hf, hf]

theorem bbMknod6Svc_outcome (argp : MknodArg) :
    Computes peer fs umask (bbMknod6Svc argp) (mknodOp umask fs argp) := by
  intro h hs
  unfold bbMknod6Svc mknodOp
  rw [wp_bind]
  refine wp_transmit fun h₁ h₁os => ?_
  refine wp_checkParent (hs.of_os h₁os) fun h₂ hs₂ => ?_
  refine wp_lockDirectory (fun _ => trivial) hs₂ fun fd h₃ hs₃ => ?_
  -- The two ways in which all three branches end.
  have hfailed : ∀ h', Sees fs umask [fd] h' → (do
      let _ ← unlockDirectory fd ⟨-1⟩
      return ⟨-1⟩ : Server MknodRet).wp (server peer) (Leaves umask ⟨-1, fs⟩)
        (fun _ => True) h' := by
    intro h' hs'
    rw [wp_bind]
    exact wp_unlockDirectory hs' (by simp) fun h₅ hs₅ => hs₅.leaves rfl
  have howned : ∀ fs₁ h', Sees fs₁ umask [fd] h' → (do
      let ret : Int := if (← setOwner (translateAbspath argp.path) argp.ip) < 0 then -1 else 0
      unlockDirectory fd ⟨ret⟩ : Server MknodRet).wp (server peer) (Leaves umask (attempt fs₁
        (fs₁.chown (translateAbspath argp.path) (atoi argp.ip).toUInt32 (atoi argp.ip).toUInt32)
        fun fs₂ => ⟨0, fs₂⟩)) (fun _ => True) h' := by
    intro fs₁ h' hs'
    refine wp_setOwner hs' ?_ ?_
    · intro fs₂ h₅ _ hs₅
      exact wp_unlockDirectory hs₅ (by simp) fun h₆ hs₆ => hs₆.leaves rfl
    · intro h₅ hs₅
      exact wp_unlockDirectory hs₅ (by simp) fun h₆ hs₆ => hs₆.leaves rfl
  unfold makeNode
  by_cases hreg : isReg argp.mode = true
  · simp only [hreg, if_true]
    exact wp_makeFile hs₃ howned hfailed
  · simp only [hreg]
    by_cases hfifo : isFifo argp.mode = true
    · simp only [hfifo, if_true]
      exact wp_attempt _ hs₃ (by rintro os rfl rfl; rfl) (fun fs₁ h₄ _ hs₄ => howned fs₁ h₄ hs₄)
        hfailed
    · simp only [hfifo]
      exact wp_attempt _ hs₃ (by rintro os rfl rfl; rfl) (fun fs₁ h₄ _ hs₄ => howned fs₁ h₄ hs₄)
        hfailed

end Handlers

/-! ## The dispatcher -/

/-- **The handlers refine the outcomes.**  A request that changes the tree by path, when it
returns, answers the status and leaves the tree that `treeOp` says, under the same `umask`. -/
theorem compute6_treeOp {peer : Peer} {stale : Stale} {r : Request} {h h' : Host} {reply : Reply}
    {o : Outcome} (ho : treeOp h.os.umask h.os.fs r = some o)
    (hr : (compute6 stale r).run (server peer) h = .ok (reply, h')) :
    reply.ret = o.ret ∧ h'.os.fs = o.fs ∧ h'.os.umask = h.os.umask := by
  have hstatus : ∀ {p : Server StatusRet}, Computes peer h.os.fs h.os.umask p o →
      (Reply.status <$> p).run (server peer) h = .ok (reply, h') →
      reply.ret = o.ret ∧ h'.os.fs = o.fs ∧ h'.os.umask = h.os.umask := by
    intro p hp hrun
    have hwp : (Reply.status <$> p).wp (server peer) (fun reply h' =>
        reply.ret = o.ret ∧ h'.os.fs = o.fs ∧ h'.os.umask = h.os.umask) (fun _ => True) h := by
      rw [← bind_pure_comp, wp_bind]
      exact (hp h (Sees.start h)).imp fun r h' hl => ⟨hl.1, hl.2.fs_eq, hl.2.umask_eq⟩
    exact hwp.of_run hrun
  cases r <;> simp only [treeOp, Option.some.injEq, reduceCtorEq] at ho <;> subst ho
  · exact hstatus (initRootdir6Svc_outcome _) hr
  · exact hstatus (bbMkdir6Svc_outcome _) hr
  · exact hstatus (bbRmdir6Svc_outcome _) hr
  · exact hstatus (bbRename6Svc_outcome _) hr
  · exact hstatus (bbSymlink6Svc_outcome _) hr
  · exact hstatus (bbLink6Svc_outcome _) hr
  · exact hstatus (bbMknod6Svc_outcome _) hr
  · exact hstatus (bbTruncate6Svc_outcome _) hr
  · exact hstatus (bbUnlink6Svc_outcome _) hr
  · exact hstatus (bbUtime6Svc_outcome _) hr
  · exact hstatus (bbChmod6Svc_outcome _) hr
  · exact hstatus (bbChown6Svc_outcome _) hr

end DFS
