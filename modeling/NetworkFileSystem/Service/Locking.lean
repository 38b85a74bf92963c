import NetworkFileSystem.Server.Disturbed
import NetworkFileSystem.Service.Frames

/-!
# Checks and locks under disturbances

Rules for the helpers of the handlers when system calls may fail: the permission checks, `dlock`
and `dunlock`, and the parts of a handler that leave the descriptor table alone.  They say exactly
what becomes of the table, so that both the number of open descriptors and the locks can be read
off.

`dlock` opens the directory and never closes it: a lock that is taken and released again leaves one
more descriptor behind (**`wp_locked`**).
-/

namespace DFS

open Effects Posix Prog

/-- Whether the call `k` of the list fails. -/
def faulted (f : Faults) (k : ℕ) : Bool := fails (f.drop k).head?.join

theorem faulted_drop (f : Faults) (k l : ℕ) : faulted (f.drop k) l = faulted f (k + l) := by
  rw [faulted, faulted, List.drop_drop]

/-! ## Verdicts under disturbances -/

/-- The verdict of `is_op_valid`, which issues one call. -/
def opValidUnder (f : Faults) (fs : FS) (p : CStr) (id : Int32) (flags : UInt32) : Int :=
  if faulted f 0 then -1 else opValid fs p id flags

/-- How many calls `is_parent_dir_valid` issues. -/
def checkCalls (parentPath : CStr) (opName : OpName) : ℕ :=
  if parentPath = dfsRoot then if opName = .rmdir ∨ opName = .unlink then 1 else 0 else 1

/-- The verdict of `is_parent_dir_valid`: in the shared root, an entry that cannot be looked at may
be deleted. -/
def parentDirValidUnder (f : Faults) (fs : FS) (parentPath fpath : CStr) (id : Int32)
    (opName : OpName) : Bool :=
  if parentPath = dfsRoot then
    if opName = .rmdir ∨ opName = .unlink then
      faulted f 0 || rootdirOpValidToDelete fs fpath id ≠ 0
    else true
  else !faulted f 0 && opValid fs parentPath id (R_REQ ||| W_REQ ||| X_REQ) = 1

/-- The directory that a path leads to. -/
def dirOf (fs : FS) (p : CStr) : Option Ino :=
  match fs.resolve p with
  | .ok i => if fs.isDir i then some i else none
  | .error _ => none

/-- The directory that `dlock` opens. -/
def lockOpens (f : Faults) (fs : FS) (p : CStr) : Option Ino :=
  if faulted f 0 then none else dirOf fs p

/-- The descriptor of a directory that is not locked. -/
abbrev dirFile (i : Ino) : OpenFile := OS.opened O_RDONLY i

/-- The same, locked. -/
abbrev lockedFile (i : Ino) : OpenFile := { OS.opened O_RDONLY i with lock := some .ex }

/-! ## Rules -/

section

variable {peer : Peer} {h : Host} {f : Faults} {H : Halt → Prop} {β : Type}

theorem wp_sysUnder {c : Sys β} {Q : β → Host × Faults → Prop} :
    (sys c).wp (disturbed peer) Q H (h, f) ↔ match OS.execUnder f.head?.join c h.os with
      | .ok r => Q r.1 ({ h with os := r.2 }, f.tail)
      | .error w => H w := by
  unfold sys
  rw [wp_perform]
  simp only [disturbed]
  cases OS.execUnder f.head?.join c h.os <;> rfl

/-- A call that may fail. -/
theorem wp_fallible {c : Sys β} {b : β} {Q : β → Host × Faults → Prop}
    (hr : c.refusal = some b) (hl : ∀ n, c.limited n = c)
    (hfail : faulted f 0 = true → ∀ e, 0 < e → Q b ({ h with os := h.os.fail e }, f.drop 1))
    (hexec : faulted f 0 = false → match OS.exec c h.os with
      | .ok r => Q r.1 ({ h with os := r.2 }, f.drop 1)
      | .error w => H w) : (sys c).wp (disturbed peer) Q H (h, f) := by
  rw [wp_sysUnder]
  rw [List.drop_one] at hfail hexec
  cases hf : fails f.head?.join with
  | true =>
      obtain ⟨e, he, hc⟩ := @OS.execUnder_fails _ _ _ h.os _ hf hr
      rw [hc]
      exact hfail hf e he
  | false =>
      rw [OS.execUnder_normal hf hl]
      exact hexec hf

/-- A call that cannot fail. -/
theorem wp_steady {c : Sys β} {Q : β → Host × Faults → Prop} (hr : c.refusal = none)
    (hl : ∀ n, c.limited n = c) : (sys c).wp (disturbed peer) Q H (h, f) ↔
      match OS.exec c h.os with
      | .ok r => Q r.1 ({ h with os := r.2 }, f.drop 1)
      | .error w => H w := by
  rw [wp_sysUnder, OS.execUnder_steady hr hl, List.drop_one]

theorem wp_negErrnoUnder {Q : Int → Host × Faults → Prop}
    (hQ : Q (-(h.os.errno : Int)) (h, f.drop 1)) :
    negErrno.wp (disturbed peer) Q H (h, f) := by
  unfold negErrno
  rw [wp_bind, wp_steady rfl fun _ => rfl]
  exact hQ

theorem wp_transmitUnder {info : Identity} {slaveArg : Identity → Request}
    {Q : Unit → Host × Faults → Prop} (hQ : ∀ h', h'.os = h.os → Q () (h', f)) :
    (transmitToSecondaty info slaveArg).wp (disturbed peer) Q H (h, f) := by
  unfold transmitToSecondaty connectServer
  split
  · rw [wp_bind, wp_perform]
    simp only [disturbed, Host.rpc]
    split
    · rw [wp_bind, wp_perform]
      simp only
      rw [wp_perform]
      exact hQ _ rfl
    · exact hQ _ rfl
  · exact hQ _ rfl

/-! ### The permission checks -/

theorem wp_isOpValidUnder {p ip : CStr} {flags : UInt32} {Q : Int → Host × Faults → Prop}
    (hQ : ∀ e, Q (opValidUnder f h.os.fs p (atoi ip) flags)
      ({ h with os := h.os.fail e }, f.drop 1)) :
    (isOpValid p ip flags).wp (disturbed peer) Q H (h, f) := by
  unfold isOpValid
  rw [wp_bind]
  refine wp_fallible rfl (fun _ => rfl) (fun hf e _ => ?_) fun hf => ?_
  · have hv := hQ e
    rw [opValidUnder, if_pos hf] at hv
    exact hv
  · simp only [OS.exec]
    rcases lstat_cases h.os p with ⟨n, i, hn, hl⟩ | ⟨e, he, hl⟩
    · have hv := hQ h.os.errno
      simp only [opValidUnder, hf, Bool.false_eq_true, if_false, opValid, hn,
        ← modeGrants_stat h.os.vol i] at hv
      rw [hl]
      exact hv
    · have hv := hQ e
      simp only [opValidUnder, hf, Bool.false_eq_true, if_false, opValid, he] at hv
      rw [hl]
      exact hv

theorem wp_rootdirUnder {p ip : CStr} {Q : Int → Host × Faults → Prop}
    (hQ : ∀ e v, (v ≠ 0 ↔ (faulted f 0 = true ∨ rootdirOpValidToDelete h.os.fs p (atoi ip) ≠ 0)) →
      Q v ({ h with os := h.os.fail e }, f.drop 1)) :
    (isRootdirOpValidToDelete p ip).wp (disturbed peer) Q H (h, f) := by
  unfold isRootdirOpValidToDelete
  rw [wp_bind]
  refine wp_fallible rfl (fun _ => rfl) (fun hf e _ => ?_) fun hf => ?_
  · exact hQ e _ (iff_of_true (by decide) (.inl hf))
  · simp only [OS.exec]
    rcases lstat_cases h.os p with ⟨n, i, hn, hl⟩ | ⟨e, he, hl⟩
    · rw [hl]
      refine hQ h.os.errno _ ?_
      simp only [rootdirOpValidToDelete, hn, hf, Bool.false_eq_true, false_or]
      rfl
    · rw [hl]
      refine hQ e _ ?_
      simp only [rootdirOpValidToDelete, he, hf, Bool.false_eq_true, false_or]

theorem wp_isParentDirValidUnder {parentPath fpath ip : CStr} {opName : OpName}
    {Q : Bool → Host × Faults → Prop}
    (hQ : ∀ e, Q (parentDirValidUnder f h.os.fs parentPath fpath (atoi ip) opName)
      ({ h with os := h.os.fail e }, f.drop (checkCalls parentPath opName))) :
    (isParentDirValid parentPath fpath ip opName).wp (disturbed peer) Q H (h, f) := by
  unfold parentDirValidUnder checkCalls at hQ
  unfold isParentDirValid
  split
  · next hp =>
    simp only [hp, if_true] at hQ
    split
    · next hop =>
      simp only [hop, if_true] at hQ
      rw [wp_bind]
      refine wp_rootdirUnder fun e v hv => ?_
      have hq := hQ e
      split
      · next h0 =>
        have hno : ¬(faulted f 0 = true ∨ rootdirOpValidToDelete h.os.fs fpath (atoi ip) ≠ 0) :=
          fun hc => hv.mpr hc h0
        rw [not_or] at hno
        simpa [hno.1, hno.2] using hq
      · next h0 =>
        have hyes := hv.mp h0
        have hval : (faulted f 0 || decide (rootdirOpValidToDelete h.os.fs fpath (atoi ip) ≠ 0)) =
            true := by simpa using hyes
        rw [hval] at hq
        exact hq
    · next hop =>
      simp only [hop, if_false] at hQ
      exact hQ h.os.errno
  · next hp =>
    simp only [hp, if_false] at hQ
    rw [wp_bind]
    refine wp_isOpValidUnder fun e => ?_
    have hq := hQ e
    unfold opValidUnder
    cases hf : faulted f 0 with
    | true =>
        rw [hf] at hq
        exact hq
    | false =>
        rw [hf] at hq
        simp only [Bool.false_eq_true, if_false, Bool.not_false, Bool.true_and] at hq ⊢
        split
        · next h1 => simpa [h1] using hq
        · next h1 => simpa [not_not.mp h1] using hq

/-! ### Locks -/

theorem opendir_cases (os : OS) (p : CStr) :
    (∃ i, dirOf os.fs p = some i ∧ os.opendir p =
      (some ⟨os.fds.nextFd⟩, { os with fds := os.fds.addFile (dirFile i) })) ∨
    ∃ e, 0 < e ∧ dirOf os.fs p = none ∧ os.opendir p = (none, os.fail e) := by
  unfold OS.opendir
  cases ho : os.fs.openAt os.umask p (O_RDONLY ||| O_NONBLOCK ||| O_DIRECTORY) 0 with
  | ok r =>
      obtain ⟨i, fs⟩ := r
      obtain ⟨hi, hd, -⟩ := openAt_directory.mp ho
      exact .inl ⟨i, by simp [dirOf, hi, hd], rfl⟩
  | error e =>
      refine .inr ⟨e, (os.fs.reports_openAt _ _ _ _ e ho).1, ?_, rfl⟩
      unfold dirOf
      split
      · next i hi =>
        split
        · next hd =>
          rw [openAt_directory.mpr ⟨hi, hd, rfl⟩] at ho
          cases ho
        · rfl
      · rfl

/-- Locking a directory that was just opened: the lock is granted unless another open file of the
directory is locked. -/
theorem flock_new {os : OS} {t : Descriptors} {i : Ino} (ht : os.fds = t.addFile (dirFile i)) :
    os.flock t.nextFd .ex = if t.locks i then .error .flock
      else .ok (0, { os with fds := t.addFile (lockedFile i) }) :=
  os.flock_newest ht rfl rfl

/-- `dlock`: nothing is opened; or the directory is opened and then not locked; or it is opened and
locked; or the lock is never granted. -/
theorem wp_dlockUnder {p : CStr} {Q : Int → Host × Faults → Prop}
    (hclosed : lockOpens f h.os.fs p = none → ∀ e,
      Q (-1) ({ h with os := h.os.fail e }, f.drop 1))
    (hopen : ∀ i, lockOpens f h.os.fs p = some i → faulted f 1 = true → ∀ e,
      Q (-1) ({ h with os := { h.os with fds := h.os.fds.addFile (dirFile i), errno := e } },
        f.drop 2))
    (hlocked : ∀ i, lockOpens f h.os.fs p = some i → faulted f 1 = false →
      h.os.fds.locks i = false →
      Q h.os.fds.nextFd ({ h with os := { h.os with fds := h.os.fds.addFile (lockedFile i) } },
        f.drop 2))
    (hblock : ∀ i, lockOpens f h.os.fs p = some i → faulted f 1 = false →
      h.os.fds.locks i = true → H .flock) :
    (dlock p).wp (disturbed peer) Q H (h, f) := by
  unfold dlock
  rw [wp_bind]
  refine wp_fallible rfl (fun _ => rfl) (fun hf e _ => ?_) fun hf => ?_
  · exact hclosed (by rw [lockOpens, if_pos hf]) e
  · have hlo : lockOpens f h.os.fs p = dirOf h.os.fs p := by simp [lockOpens, hf]
    simp only [OS.exec]
    rcases opendir_cases h.os p with ⟨i, hi, ho⟩ | ⟨e, -, hi, ho⟩
    · rw [hi] at hlo
      rw [ho]
      simp only
      rw [if_neg (by omega), wp_bind]
      refine wp_fallible rfl (fun _ => rfl) (fun hf' e _ => ?_) fun hf' => ?_
      · rw [faulted_drop] at hf'
        rw [List.drop_drop]
        exact hopen i hlo hf' e
      · rw [faulted_drop] at hf'
        have hex : OS.flock { h.os with fds := h.os.fds.addFile (dirFile i) } h.os.fds.nextFd .ex =
            _ := flock_new (t := h.os.fds) (i := i) rfl
        simp only [OS.exec, List.drop_drop, hex]
        cases hl : h.os.fds.locks i with
        | true => exact hblock i hlo hf' hl
        | false => exact hlocked i hlo hf' hl
    · rw [hi] at hlo
      rw [ho]
      exact hclosed hlo e

/-- Giving up the lock of an open descriptor. -/
theorem wp_unlock {fd : Int} {g : OpenFile} {result : StatusRet}
    {Q : StatusRet → Host × Faults → Prop} (hg : h.os.fds.file fd = some g)
    (hp : g.pathOnly = false)
    (hQ : Q result ({ h with os := { h.os with
      fds := h.os.fds.setFile fd fun f => { f with lock := none } } }, f.drop 1)) :
    (unlockDirectory fd result).wp (disturbed peer) Q H (h, f) := by
  unfold unlockDirectory dunlock
  rw [wp_bind, wp_bind, wp_steady rfl fun _ => rfl]
  simp only [OS.exec, h.os.flock_un hg hp]
  exact hQ

end

/-! ## The calls that leave the table alone -/

/-- The calls that change no descriptor. -/
def keepsFds {β : Type} : Sys β → Bool
  | .openPath _ _ _ | .close _ | .flock _ _ | .opendir _ | .readdir _ | .closedir _ => false
  | _ => true

theorem exec_keepsFds {β : Type} {c : Sys β} (hc : keepsFds c = true) (os : OS) :
    match OS.exec c os with
    | .ok r => r.2.fds = os.fds
    | .error w => w = .exit := by
  have hfs : ∀ r : Except Errno FS, (os.tryFS r).2.fds = os.fds := fun r => by cases r <;> rfl
  have hget : ∀ {α : Type} (r : Except Errno α), (os.tryGet r).2.fds = os.fds :=
    fun r => by cases r <;> rfl
  cases c <;> simp only [keepsFds, Bool.false_eq_true] at hc <;> simp only [OS.exec, hfs, hget]
  case pwrite fd buf size offset =>
    cases os.pwrite fd ((buf ++ os.beyond).take (min size maxRwCount)) offset <;> rfl
  case fdopendir fd =>
    rcases os.fdopendir_cases fd with ⟨f, -, -, ho⟩ | ⟨e, -, -, ho⟩
    · rw [ho]
    · rw [ho]
      rfl

theorem keepsFds_limited {β : Type} (n : ℕ) (c : Sys β) :
    keepsFds (c.limited n) = keepsFds c := by
  cases c <;> rfl

theorem execUnder_keepsFds {β : Type} {c : Sys β} (hc : keepsFds c = true) (fault : Option Fault)
    (os : OS) : match OS.execUnder fault c os with
    | .ok r => r.2.fds = os.fds
    | .error w => w = .exit := by
  cases fault with
  | none => exact exec_keepsFds hc os
  | some fault =>
      cases fault with
      | short n => exact exec_keepsFds ((keepsFds_limited n c).trans hc) os
      | fail e he =>
          simp only [OS.execUnder]
          cases hr : c.refusal with
          | none => exact exec_keepsFds hc os
          | some b => rfl

/-- A part of a handler that leaves the table alone. -/
theorem wp_frame {α : Type} {p : Server α} (hp : p.Calls (Call.Is keepsFds)) {peer : Peer}
    {h : Host} {f : Faults} {H : Halt → Prop} (hH : H .exit) :
    p.wp (disturbed peer) (fun _ s => s.1.os.fds = h.os.fds) H (h, f) := by
  refine (Calls.wp (m := disturbed peer) (R := fun s t : Host × Faults => t.1.os.fds = s.1.os.fds)
    (H := H) (fun _ => rfl) (fun a b c hab hbc => hbc.trans hab) ?_ hp (h, f))
  intro β e he s
  obtain ⟨h, f⟩ := s
  cases e with
  | os c =>
      have hc := execUnder_keepsFds he f.head?.join h.os
      simp only [disturbed]
      cases hx : OS.execUnder f.head?.join c h.os with
      | ok r =>
          rw [hx] at hc
          exact hc
      | error w =>
          rw [hx] at hc
          simp only [Except.map]
          rw [hc]
          exact hH
  | rpc c => cases c <;> rfl

/-- A run stops to wait for a lock only if `P`. -/
def Waits (P : Prop) (w : Halt) : Prop := w = .flock → P

theorem waits_exit {P : Prop} : Waits P .exit := fun hw => nomatch hw

theorem waits_fifo {P : Prop} : Waits P .fifo := fun hw => nomatch hw

/-! ## A lock taken and given up -/

section

variable {peer : Peer} {h : Host} {f : Faults} {P : Prop} {α : Type}

/-- The directory whose descriptor stays behind when one directory is locked. -/
def lockedDir (f : Faults) (fs : FS) (parentPath fpath : CStr) (id : Int32) (opName : OpName) :
    Option Ino :=
  if parentDirValidUnder f fs parentPath fpath id opName then
    lockOpens (f.drop (checkCalls parentPath opName)) fs parentPath
  else none

/-- What a request that locks one directory leaves open. -/
def lockLeaves (f : Faults) (fs : FS) (fpath : CStr) (id : Int32) (opName : OpName) :
    List OpenFile :=
  (lockedDir f fs (getParentPath fpath) fpath id opName).toList.map dirFile

/-- The middle part of a handler: act, give the lock up, go on. -/
theorem wp_actUnlock {p : Server α} {v : α → StatusRet} {k : StatusRet → Server StatusRet}
    {t : Descriptors} {i : Ino} (hp : p.Calls (Call.Is keepsFds))
    (hk : ∀ r, (k r).Calls (Call.Is keepsFds)) (ht : h.os.fds = t.addFile (lockedFile i)) :
    (do let a ← p; let r ← unlockDirectory t.nextFd (v a); k r : Server StatusRet).wp
      (disturbed peer) (fun _ s => s.1.os.fds = t.addFile (dirFile i)) (Waits P) (h, f) := by
  rw [wp_bind]
  refine (wp_frame hp waits_exit).imp fun a s hs => ?_
  obtain ⟨h₁, f₁⟩ := s
  have hfds : h₁.os.fds = t.addFile (lockedFile i) := hs.trans ht
  rw [wp_bind]
  refine wp_unlock (g := lockedFile i) ?_ rfl ?_
  · rw [hfds, Descriptors.file_addFile, if_pos rfl]
  · refine (wp_frame (hk _) waits_exit).imp fun r s hs => ?_
    rw [hs, hfds, Descriptors.setFile_addFile]
    rfl

/-- Acting and unlocking: afterwards the table has what was locked, unlocked. -/
theorem wp_actUnlockLast {p : Server α} {v : α → StatusRet} {t : Descriptors} {i : Ino}
    (hp : p.Calls (Call.Is keepsFds)) (ht : h.os.fds = t.addFile (lockedFile i)) :
    (do let a ← p; unlockDirectory t.nextFd (v a) : Server StatusRet).wp
      (disturbed peer) (fun _ s => s.1.os.fds = t.addFile (dirFile i)) (Waits P) (h, f) := by
  have hw : Prog.wp (disturbed peer) _ _ _ _ :=
    wp_actUnlock (f := f) (P := P) (v := v) (k := pure) hp (fun _ => trivial) ht
  simpa only [bind_pure] using hw

/-- **A lock that is taken and released leaves a descriptor behind.** -/
theorem wp_locked {fpath ip : CStr} {opName : OpName} {rest : Int → Server StatusRet}
    (hrest : ∀ (h' : Host) (f' : Faults) (i : Ino),
      h'.os.fds = h.os.fds.addFile (lockedFile i) →
      (rest h.os.fds.nextFd).wp (disturbed peer)
        (fun _ s => s.1.os.fds = h.os.fds.addFile (dirFile i)) (Waits P) (h', f'))
    (hP : ∀ i, h.os.fds.locks i = true → P) :
    (checkParentDirectoryValid (getParentPath fpath) fpath ip opName
      (lockDirectory (getParentPath fpath) rest)).wp (disturbed peer)
      (fun _ s => s.1.os.fds =
        h.os.fds.addFiles (lockLeaves f h.os.fs fpath (atoi ip) opName)) (Waits P) (h, f) := by
  unfold checkParentDirectoryValid lockLeaves lockedDir
  rw [wp_bind]
  refine wp_isParentDirValidUnder fun e => ?_
  split
  · unfold lockDirectory
    rw [wp_bind]
    refine wp_dlockUnder (fun hno e' => ?_) (fun i hi hf e' => ?_) (fun i hi hf hl => ?_)
      (fun i hi hf hl => ?_)
    · change lockOpens (f.drop _) h.os.fs _ = none at hno
      rw [hno, if_pos (by decide)]
      rfl
    · change lockOpens (f.drop _) h.os.fs _ = some i at hi
      rw [hi, if_pos (by decide)]
      rfl
    · change lockOpens (f.drop _) h.os.fs _ = some i at hi
      rw [hi, if_neg (by omega)]
      exact hrest _ _ i rfl
    · exact fun _ => hP i hl
  · rfl

theorem wp_mkdir (argp : MkdirArg) (hP : ∀ i, h.os.fds.locks i = true → P) :
    (bbMkdir6Svc argp).wp (disturbed peer) (fun _ s => s.1.os.fds = h.os.fds.addFiles
      (lockLeaves f h.os.fs (translateAbspath argp.path) (atoi argp.ip) .mkdir)) (Waits P)
      (h, f) := by
  unfold bbMkdir6Svc
  rw [wp_bind]
  refine wp_transmitUnder fun h₁ h₁os => ?_
  rw [← h₁os] at hP ⊢
  refine wp_locked (fun h' f' i ht => ?_) hP
  refine wp_actUnlock (calls_sys rfl) (fun r => ?_) ht
  split
  · exact calls_bind (calls_setOwner (fun _ _ _ => rfl) _ _) fun _ => by split <;> trivial
  · trivial

theorem wp_rmdir (argp : RmdirArg) (hP : ∀ i, h.os.fds.locks i = true → P) :
    (bbRmdir6Svc argp).wp (disturbed peer) (fun _ s => s.1.os.fds = h.os.fds.addFiles
      (lockLeaves f h.os.fs (translateAbspath argp.path) (atoi argp.ip) .rmdir)) (Waits P)
      (h, f) := by
  unfold bbRmdir6Svc
  rw [wp_bind]
  refine wp_transmitUnder fun h₁ h₁os => ?_
  rw [← h₁os] at hP ⊢
  refine wp_locked (fun h' f' i ht => ?_) hP
  exact wp_actUnlockLast (calls_sys rfl) ht

theorem wp_unlink (argp : UnlinkArg) (hP : ∀ i, h.os.fds.locks i = true → P) :
    (bbUnlink6Svc argp).wp (disturbed peer) (fun _ s => s.1.os.fds = h.os.fds.addFiles
      (lockLeaves f h.os.fs (translateAbspath argp.path) (atoi argp.ip) .unlink)) (Waits P)
      (h, f) := by
  unfold bbUnlink6Svc
  rw [wp_bind]
  refine wp_transmitUnder fun h₁ h₁os => ?_
  rw [← h₁os] at hP ⊢
  refine wp_locked (fun h' f' i ht => ?_) hP
  exact wp_actUnlockLast (calls_sys rfl) ht

/-- `mknod` opens and closes a regular file that it makes, while the lock is held. -/
theorem wp_mknod (argp : MknodArg) (hP : ∀ i, h.os.fds.locks i = true → P) :
    (bbMknod6Svc argp).wp (disturbed peer) (fun _ s => s.1.os.fds = h.os.fds.addFiles
      (lockLeaves f h.os.fs (translateAbspath argp.path) (atoi argp.ip) .mknod)) (Waits P)
      (h, f) := by
  unfold bbMknod6Svc
  rw [wp_bind]
  refine wp_transmitUnder fun h₁ h₁os => ?_
  rw [← h₁os] at hP ⊢
  refine wp_locked (fun h' f' i ht => ?_) hP
  have hfailed : ∀ {h' : Host} {f' : Faults}, h'.os.fds = h₁.os.fds.addFile (lockedFile i) →
      (do let _ ← unlockDirectory h₁.os.fds.nextFd ⟨-1⟩; return ⟨-1⟩ : Server StatusRet).wp
        (disturbed peer) (fun _ s => s.1.os.fds = h₁.os.fds.addFile (dirFile i)) (Waits P)
        (h', f') := fun ht => wp_actUnlock (p := (pure () : Server Unit))
          (v := fun _ => ⟨-1⟩) (k := fun _ => pure ⟨-1⟩) trivial (fun _ => trivial) ht
  have howned : ∀ {h' : Host} {f' : Faults}, h'.os.fds = h₁.os.fds.addFile (lockedFile i) →
      (do
        let ret : Int := if (← setOwner (translateAbspath argp.path) argp.ip) < 0 then -1 else 0
        unlockDirectory h₁.os.fds.nextFd ⟨ret⟩ : Server StatusRet).wp (disturbed peer)
        (fun _ s => s.1.os.fds = h₁.os.fds.addFile (dirFile i)) (Waits P) (h', f') :=
    fun ht => wp_actUnlockLast (v := fun v => ⟨if v < 0 then -1 else 0⟩)
      (calls_setOwner (fun _ _ _ => rfl) _ _) ht
  have hmade : ∀ {c : Sys Int}, keepsFds c = true →
      (do
        let funcRet ← sys c
        if funcRet < 0 then
          let _ ← unlockDirectory h₁.os.fds.nextFd ⟨-1⟩
          return ⟨-1⟩
        else
          let ret : Int := if (← setOwner (translateAbspath argp.path) argp.ip) < 0 then -1 else 0
          unlockDirectory h₁.os.fds.nextFd ⟨ret⟩ : Server StatusRet).wp (disturbed peer)
        (fun _ s => s.1.os.fds = h₁.os.fds.addFile (dirFile i)) (Waits P) (h', f') := by
    intro c hc
    rw [wp_bind]
    refine (wp_frame (calls_sys hc) waits_exit).imp fun v s hs => ?_
    obtain ⟨h₂, f₂⟩ := s
    split
    · exact hfailed (hs.trans ht)
    · exact howned (hs.trans ht)
  dsimp only
  split
  · rw [wp_bind]
    refine wp_fallible rfl (fun _ => rfl) (fun _ e _ => ?_) fun _ => ?_
    · rw [if_pos (by decide)]
      exact hfailed ht
    · simp only [OS.exec]
      rcases h'.os.openFile_cases (translateAbspath argp.path) (O_CREAT ||| O_EXCL ||| O_WRONLY)
        argp.mode with ⟨e, -, ho, -⟩ | ⟨k, fs, -, ho⟩ | ho
      · rw [ho]
        simp only
        rw [if_pos (by decide)]
        exact hfailed ht
      · rw [ho]
        simp only
        rw [if_neg (by omega), wp_bind, wp_steady rfl fun _ => rfl]
        simp only [OS.exec, OS.close, Descriptors.file_addFile, if_true]
        refine howned ?_
        rw [Descriptors.dropFile_addFile]
        exact ht
      · rw [ho]
        exact waits_fifo
  · split
    · exact hmade rfl
    · exact hmade rfl

/-! ## Two locks -/

/-- Whether both parents of a rename pass their checks. -/
def renameChecks (f : Faults) (fs : FS) (p q : CStr) (id : Int32) : Bool :=
  parentDirValidUnder f fs (getParentPath p) p id .rename &&
    parentDirValidUnder (f.drop (checkCalls (getParentPath p) .rename)) fs (getParentPath q) q id
      .rename

/-- What happens to the calls of a rename from its first lock on. -/
def renameFaults (f : Faults) (p q : CStr) : Faults :=
  f.drop (checkCalls (getParentPath p) .rename + checkCalls (getParentPath q) .rename)

/-- The directory that a rename locks first. -/
def renameFirst (f : Faults) (fs : FS) (p q : CStr) (id : Int32) : Option Ino :=
  if renameChecks f fs p q id then lockOpens (renameFaults f p q) fs (getParentPath p) else none

/-- The directory that a rename opens as its second one, once it has locked the first. -/
def renameSecond (f : Faults) (fs : FS) (p q : CStr) : Option Ino :=
  lockOpens ((renameFaults f p q).drop 2) fs (getParentPath q)

/-- What a rename leaves open.  When the second lock cannot be had, the first one is kept. -/
def renameLeaves (f : Faults) (fs : FS) (p q : CStr) (id : Int32) : List OpenFile :=
  match renameFirst f fs p q id with
  | none => []
  | some i =>
    if faulted (renameFaults f p q) 1 ∨ getParentPath p = getParentPath q then [dirFile i]
    else match renameSecond f fs p q with
      | none => [lockedFile i]
      | some j =>
        if faulted (renameFaults f p q) 3 then [dirFile j, lockedFile i]
        else [dirFile j, dirFile i]

/-- A rename that asks for the lock that it holds. -/
def renameBlocks (f : Faults) (fs : FS) (p q : CStr) (id : Int32) : Prop :=
  getParentPath p ≠ getParentPath q ∧ faulted (renameFaults f p q) 1 = false ∧
    faulted (renameFaults f p q) 3 = false ∧
    ∃ i, renameFirst f fs p q id = some i ∧ renameSecond f fs p q = some i

theorem locks_addFile {t : Descriptors} {i j : Ino} :
    (t.addFile (lockedFile i)).locks j = true ↔ i = j ∨ t.locks j = true := by
  rw [Descriptors.locks, Descriptors.addFile, List.any_cons, Bool.or_eq_true]
  exact or_congr (by simp [OS.opened]) Iff.rfl

/-- The call of a rename between two locks. -/
theorem wp_renameTwo {p q : CStr} {t : Descriptors} {i j : Ino}
    (ht : h.os.fds = (t.addFile (lockedFile i)).addFile (lockedFile j)) :
    (do
      let ret ← sys (.rename p q)
      let result ← unlockDirectory t.nextFd ⟨ret⟩
      unlockDirectory (t.addFile (lockedFile i)).nextFd result : Server StatusRet).wp
      (disturbed peer) (fun _ s => s.1.os.fds = (t.addFile (dirFile i)).addFile (dirFile j))
      (Waits P) (h, f) := by
  have hne : (t.nextFd : Int) ≠ (t.addFile (lockedFile i)).nextFd :=
    Descriptors.ne_nextFd (f := lockedFile i) (by rw [Descriptors.file_addFile, if_pos rfl])
  rw [wp_bind]
  refine (wp_frame (calls_sys rfl) waits_exit).imp fun ret s hs => ?_
  obtain ⟨h₁, f₁⟩ := s
  have h₁t : h₁.os.fds = (t.addFile (lockedFile i)).addFile (lockedFile j) := hs.trans ht
  rw [wp_bind]
  refine wp_unlock (g := lockedFile i) ?_ rfl ?_
  · rw [h₁t, Descriptors.file_addFile, if_neg hne, Descriptors.file_addFile, if_pos rfl]
  · -- The first lock is given up, below the second descriptor.
    have h₂t : h₁.os.fds.setFile t.nextFd (fun f => { f with lock := none }) =
        (t.addFile (dirFile i)).addFile (lockedFile j) := by
      rw [h₁t, Descriptors.setFile_addFile_of_ne hne, Descriptors.setFile_addFile]
      rfl
    rw [h₂t]
    have hw : (unlockDirectory (t.addFile (dirFile i)).nextFd ⟨ret⟩).wp (disturbed peer)
        (fun _ s => s.1.os.fds = (t.addFile (dirFile i)).addFile (dirFile j)) (Waits P)
        ({ h₁ with os := { h₁.os with fds := (t.addFile (dirFile i)).addFile (lockedFile j) } },
          f₁.drop 1) :=
      wp_actUnlockLast (p := (pure () : Server Unit)) (v := fun _ => ⟨ret⟩) trivial rfl
    exact hw

/-- **The locks of a rename.** -/
theorem wp_rename (argp : RenameArg) (hP : ∀ i, h.os.fds.locks i = true → P)
    (hblocks : renameBlocks f h.os.fs (translateAbspath argp.path) (translateAbspath argp.newpath)
      (atoi argp.ip) → P) :
    (bbRename6Svc argp).wp (disturbed peer) (fun _ s => s.1.os.fds = h.os.fds.addFiles
      (renameLeaves f h.os.fs (translateAbspath argp.path) (translateAbspath argp.newpath)
        (atoi argp.ip))) (Waits P) (h, f) := by
  unfold bbRename6Svc
  rw [wp_bind]
  refine wp_transmitUnder fun h₁ h₁os => ?_
  rw [← h₁os] at hP hblocks ⊢
  dsimp only
  generalize translateAbspath argp.path = p at hblocks ⊢
  generalize translateAbspath argp.newpath = q at hblocks ⊢
  generalize hfs : h₁.os.fs = fs at hblocks ⊢
  unfold checkParentDirectoryValid renameLeaves
  rw [wp_bind]
  refine wp_isParentDirValidUnder fun e => ?_
  split
  · next hv₁ =>
    rw [wp_bind]
    refine wp_isParentDirValidUnder fun e₂ => ?_
    split
    · next hv₂ =>
      have hv : renameChecks f fs p q (atoi argp.ip) = true := by
        rw [renameChecks, Bool.and_eq_true]
        exact ⟨hfs ▸ hv₁, hfs ▸ hv₂⟩
      have hfirst : renameFirst f fs p q (atoi argp.ip) =
          lockOpens (renameFaults f p q) fs (getParentPath p) := if_pos hv
      rw [List.drop_drop]
      unfold renameBlocks at hblocks
      unfold renameSecond at hblocks ⊢
      change _ → P at hblocks
      rw [hfirst] at hblocks ⊢
      change Prog.wp _ _ _ _ (_, renameFaults f p q)
      generalize renameFaults f p q = g at hblocks ⊢
      unfold lockDirectory
      rw [wp_bind]
      refine wp_dlockUnder (fun hno e' => ?_) (fun i hi hf e' => ?_) (fun i hi hf hl => ?_)
        (fun i hi hf hl _ => hP i hl)
      · change lockOpens g h₁.os.fs _ = none at hno
        rw [hfs] at hno
        rw [hno, if_pos (by decide)]
        rfl
      · change lockOpens g h₁.os.fs _ = some i at hi
        rw [hfs] at hi
        rw [hi, if_pos (by decide)]
        simp only [hf, true_or, if_true]
        rfl
      · change lockOpens g h₁.os.fs _ = some i at hi
        rw [hfs] at hi
        rw [hi] at hblocks ⊢
        rw [if_neg (by omega)]
        by_cases hpq : getParentPath p = getParentPath q
        · simp only [hpq, ne_eq, not_true_eq_false, if_false, hf, or_true, if_true, bind_pure]
          exact wp_actUnlockLast (calls_sys rfl) rfl
        · simp only [hpq, ne_eq, not_false_eq_true, if_true, hf, or_false, Bool.false_eq_true,
            if_false]
          rw [wp_bind]
          refine wp_dlockUnder (fun hno e' => ?_) (fun j hj hf' e' => ?_)
            (fun j hj hf' hl' => ?_) (fun j hj hf' hl' _ => ?_)
          · change lockOpens (g.drop 2) h₁.os.fs _ = none at hno
            rw [hfs] at hno
            rw [hno, if_pos (by decide)]
            rfl
          · change lockOpens (g.drop 2) h₁.os.fs _ = some j at hj
            rw [hfs] at hj
            rw [faulted_drop] at hf'
            simp only [hj, hf', if_true]
            rw [if_pos (by decide)]
            rfl
          · change lockOpens (g.drop 2) h₁.os.fs _ = some j at hj
            rw [hfs] at hj
            rw [faulted_drop] at hf'
            simp only [hj, hf', Bool.false_eq_true, if_false]
            rw [if_neg (by omega)]
            exact wp_renameTwo rfl
          · -- The second lock is the first one, or somebody else's.
            change lockOpens (g.drop 2) h₁.os.fs _ = some j at hj
            rw [hfs] at hj
            rw [faulted_drop] at hf'
            rcases locks_addFile.mp hl' with rfl | hl'
            · exact hblocks ⟨hpq, hf, hf', i, rfl, hj⟩
            · exact hP j hl'
    · next hv₂ =>
      have hv : renameFirst f fs p q (atoi argp.ip) = none := by
        refine if_neg ?_
        rw [renameChecks, Bool.and_eq_true]
        rintro ⟨-, h₂⟩
        exact hv₂ (hfs ▸ h₂)
      rw [hv]
      rfl
  · next hv₁ =>
    have hv : renameFirst f fs p q (atoi argp.ip) = none := by
      refine if_neg ?_
      rw [renameChecks, Bool.and_eq_true]
      rintro ⟨h₁, -⟩
      exact hv₁ (hfs ▸ h₁)
    rw [hv]
    rfl

end

end DFS
