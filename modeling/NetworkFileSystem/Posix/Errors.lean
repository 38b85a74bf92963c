import NetworkFileSystem.Posix.Operations

/-!
# Error numbers are positive

A handler answers `-errno` after a failed call and a client takes a negative answer for a failure;
this relies on no call failing with the error number zero, and on `-errno` being an `int`.
-/

namespace Posix

open Effects

/-- The largest error number of a system call. -/
abbrev maxErrno : Errno := 4095

/-- A call whose error numbers are positive, and no larger than a system call has them. -/
abbrev Reports {α : Type} (x : Except Errno α) : Prop := ErrorsIn (fun e => 0 < e ∧ e ≤ maxErrno) x

namespace FS

variable (fs : FS)

/-- A path that no call takes is refused with an error number. -/
theorem reports_getname (p : CStr) : Reports (getname p) :=
  errorsIn_bind (errorsIn_need (by decide)) fun _ => errorsIn_need (by decide)

/-- What is no directory is refused with an error number. -/
theorem reports_dir (d : Ino) : Reports (fs.dir d) := by
  unfold dir
  split
  · split
    · exact errorsIn_ok _
    · exact errorsIn_error (by decide)
  · exact errorsIn_error (by decide)

/-- A missing entry is reported. -/
theorem reports_child (d : Ino) (x : Name) : Reports (fs.child d x) :=
  errorsIn_bind (fs.reports_dir d) fun _ => errorsIn_bind (errorsIn_need (by decide)) fun _ =>
    errorsIn_bind (errorsIn_orElse (by decide) _) fun _ =>
      errorsIn_bind (errorsIn_need (by decide)) fun _ => errorsIn_pure _

/-- A walk reports an error when whatever is done about links does. -/
theorem reports_walkWith {jump : Ino → List Name → Except Errno Ino}
    (hjump : ∀ i l, Reports (jump i l)) (cur : Ino) (l : List Name) :
    Reports (fs.walkWith jump cur l) := by
  induction l generalizing cur with
  | nil => exact errorsIn_ok _
  | cons x l ih =>
      refine errorsIn_bind (fs.reports_child cur x) fun i => ?_
      split
      · exact hjump _ _
      · exact ih i

/-- A walk reports an error. -/
theorem reports_walk (n : ℕ) (cur : Ino) (l : List Name) : Reports (fs.walk n cur l) := by
  induction n generalizing cur l with
  | zero => exact fs.reports_walkWith (fun _ _ => errorsIn_error (by decide)) cur l
  | succ n ih => exact fs.reports_walkWith ih cur l

/-- A lookup that fails reports an error. -/
theorem reports_resolve (p : CStr) : Reports (fs.resolve p) :=
  errorsIn_bind (reports_getname p) fun _ => fs.reports_walk _ _ _

/-- So does one that does not follow a last link. -/
theorem reports_lresolve (p : CStr) : Reports (fs.lresolve p) := by
  refine errorsIn_bind (reports_getname p) fun _ => ?_
  split
  · exact errorsIn_pure _
  · exact errorsIn_bind (fs.reports_walk _ _ _) fun _ => fs.reports_child _ _

/-- So does the lookup of an entry. -/
theorem reports_slot (p : CStr) : Reports (fs.slot p) := by
  refine errorsIn_bind (reports_getname p) fun _ => ?_
  split
  · exact errorsIn_pure _
  · exact errorsIn_bind (fs.reports_walk _ _ _) fun _ =>
      errorsIn_bind (fs.reports_dir _) fun _ => errorsIn_pure _

/-- So does the search for a free name. -/
theorem reports_vacant (p : CStr) (dirOk : Bool) : Reports (fs.vacant p dirOk) :=
  errorsIn_bind (fs.reports_slot p) fun _ => errorsIn_bind (errorsIn_need (by decide)) fun _ =>
    errorsIn_bind (errorsIn_need (by decide)) fun _ =>
      errorsIn_bind (errorsIn_need (by decide)) fun _ =>
        errorsIn_bind (errorsIn_need (by decide)) fun _ => errorsIn_pure _

/-- So does making something in a directory. -/
theorem reports_createAt (d : Ino) (x : Name) (links : ℕ → ℕ) (mk : Inode → Inode) :
    Reports (fs.createAt d x links mk) :=
  errorsIn_bind (errorsIn_orElse (by decide) _) fun _ => errorsIn_pure _

/-- So does making something under a path. -/
theorem reports_create (p : CStr) (dirOk : Bool) (links : ℕ → ℕ) (mk : Ino → Inode → Inode) :
    Reports (fs.create p dirOk links mk) :=
  errorsIn_bind (fs.reports_vacant p dirOk) fun _ => fs.reports_createAt _ _ _ _

/-! ## Opening -/

theorem reports_finalWith {jump : Ino → List Name → Except Errno (Ino × Name)}
    (hjump : ∀ i l, Reports (jump i l)) (cur : Ino) (l : List Name) :
    Reports (fs.finalWith jump cur l) := by
  induction l generalizing cur with
  | nil => exact errorsIn_ok _
  | cons x l ih =>
      unfold finalWith
      split
      · next e he =>
        split
        · exact errorsIn_ok _
        · exact errorsIn_error (fs.reports_child cur x e he)
      · split
        · split
          · exact errorsIn_error (by decide)
          · exact hjump _ _
        · split
          · exact errorsIn_ok _
          · exact ih _

theorem reports_final (n : ℕ) (cur : Ino) (l : List Name) : Reports (fs.final n cur l) := by
  induction n generalizing cur l with
  | zero => exact fs.reports_finalWith (fun _ _ => errorsIn_error (by decide)) cur l
  | succ n ih => exact fs.reports_finalWith ih cur l

theorem reports_openExisting (flags : UInt32) (i : Ino) : Reports (fs.openExisting flags i) := by
  refine errorsIn_bind (errorsIn_orElse (by decide) _) fun n =>
    errorsIn_bind (errorsIn_need (by decide)) fun _ =>
      errorsIn_bind (errorsIn_need (by decide)) fun _ =>
        errorsIn_bind (errorsIn_need (by decide)) fun _ =>
          errorsIn_bind (errorsIn_need (by decide)) fun _ => ?_
  split <;> exact errorsIn_pure _

theorem reports_openOrCreate (flags : UInt32) (newFile : Inode → Inode) (d : Ino) (x : Name) :
    Reports (fs.openOrCreate flags newFile d x) := by
  refine errorsIn_bind (errorsIn_need (by decide)) fun _ =>
    errorsIn_bind (errorsIn_need (by decide)) fun _ => ?_
  split
  · exact fs.reports_openExisting _ _
  · exact fs.reports_createAt _ _ _ _

/-- So does `open`. -/
theorem reports_openAt (umask : UInt32) (p : CStr) (flags mode : UInt32) :
    Reports (fs.openAt umask p flags mode) := by
  have hlookup : Reports (if hasBit flags O_NOFOLLOW then fs.lresolve p else fs.resolve p) := by
    split
    · exact fs.reports_lresolve p
    · exact fs.reports_resolve p
  unfold openAt
  dsimp only
  split
  · exact errorsIn_bind hlookup fun _ => errorsIn_bind (errorsIn_need (by decide)) fun _ =>
      errorsIn_pure _
  · split
    · exact errorsIn_bind (errorsIn_need (by decide)) fun _ => errorsIn_bind hlookup fun _ =>
        errorsIn_bind (fs.reports_dir _) fun _ =>
          errorsIn_bind (errorsIn_orElse (by decide) _) fun _ => errorsIn_pure _
    · split
      · refine errorsIn_bind (errorsIn_need (by decide)) fun _ =>
          errorsIn_bind (reports_getname p) fun _ =>
            errorsIn_bind (errorsIn_need (by decide)) fun _ => ?_
        split
        · exact fs.reports_create _ _ _ _
        · refine errorsIn_bind ?_ fun _ => fs.reports_openOrCreate _ _ _ _
          unfold finalSlot
          split
          · exact fs.reports_slot p
          · exact fs.reports_final _ _ _
      · exact errorsIn_bind hlookup fun _ => fs.reports_openExisting _ _

end FS

end Posix
