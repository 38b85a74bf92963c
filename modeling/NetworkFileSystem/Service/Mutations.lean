import NetworkFileSystem.Posix.Outstanding
import NetworkFileSystem.Service.Trials

/-!
# Calls that make, remove and move names

The calls of the handlers that change a directory, and what they do to the tree (`Sys.onTree`),
taken together: a call fails and changes nothing but `errno`, or it succeeds and may open one file
(`exec_changes`).  Owners that are still to be given make no difference (`onTree_given`), and the
path leads to what has been made under it (`onTree_makes`).
-/

namespace Posix

open Effects

/-- The path under which a call makes an inode. -/
def Sys.makes {β : Type} : Sys β → Option CStr
  | .mkdir p _ | .mkfifo p _ | .mknod p _ _ => some p
  | .openPath p flags _ => if flags = O_CREAT ||| O_EXCL ||| O_WRONLY then some p else none
  | _ => none

/-- A call that takes a name away. -/
def Sys.removes {β : Type} : Sys β → Bool
  | .rmdir _ | .unlink _ | .rename _ _ => true
  | _ => false

/-- A call that changes names; what it makes, it makes under the path `p`. -/
def Sys.changes (p : CStr) {β : Type} (c : Sys β) : Bool := c.makes = some p || c.removes

/-- What such a call does to the tree. -/
def Sys.onTree (umask : UInt32) {β : Type} : Sys β → FS → Except Errno FS
  | .mkdir p mode, fs => fs.mkdir umask p mode
  | .mkfifo p mode, fs => fs.mkfifo umask p mode
  | .mknod p mode dev, fs => fs.mknod umask p mode dev
  | .openPath p flags mode, fs => (·.2) <$> fs.openAt umask p flags mode
  | .rmdir p, fs => fs.rmdir p
  | .unlink p, fs => fs.unlink p
  | .rename old new, fs => fs.rename old new
  | _, fs => .ok fs

/-- What becomes of a process that makes such a call; one that answers a status opens no file. -/
inductive Changed (os : OS) (status : Bool) (r : Except Errno FS) (v : Int) (os' : OS) : Prop
  | fails (e : Errno) (hr : r = .error e) (hv : v = -1) (hos : os' = os.fail e)
  | succeeds (hstatus : status = true) (hr : r = .ok os'.fs) (hv : v = 0) (hfds : os'.fds = os.fds)
  | opens (f : OpenFile) (hstatus : status = false) (hr : r = .ok os'.fs) (hv : v = os.fds.nextFd)
    (hfds : os'.fds = os.fds.addFile f)

section

variable {β : Type} {c : Sys β} {p : CStr} {os os' : OS} {b : β} {fs fs' : FS}
  {owed : Ino → Option UInt32} {umask : UInt32}

theorem changed_tryFS (r : Except Errno FS) :
    Changed os true r (os.tryFS r).1 (os.tryFS r).2 := by
  cases r with
  | ok fs => exact .succeeds rfl rfl rfl rfl
  | error e => exact .fails e rfl rfl rfl

/-- Making a regular file. -/
theorem changed_open {flags mode : UInt32} (hflags : flags = O_CREAT ||| O_EXCL ||| O_WRONLY) :
    ∃ v os', os.openFile p flags mode = .ok (v, os') ∧
      Changed os false ((·.2) <$> os.fs.openAt os.umask p flags mode) v os' := by
  subst hflags
  cases ho : os.fs.openAt os.umask p (O_CREAT ||| O_EXCL ||| O_WRONLY) mode with
  | error e => exact ⟨_, _, os.openFile_error ho, .fails e rfl rfl rfl⟩
  | ok x =>
      obtain ⟨i, fs⟩ := x
      obtain ⟨d, x, parent, -, hd, rfl, rfl⟩ := FS.openAt_excl_eq_ok.mp ho
      have hnode := @FS.created_node os.fs d x (Option.isSome_of_eq_some hd) id
        (parent.born (.reg []) (mode &&& 0o7777 &&& ~~~os.umask))
      refine ⟨_, _, os.openFile_ok ho hnode ?_, .opens _ rfl rfl rfl rfl⟩
      simp [Inode.kind, Inode.born, Body.kind]

/-- **One call.** -/
theorem exec_changes (hc : c.changes p = true) (os : OS) : ∃ b os' v, OS.exec c os = .ok (b, os') ∧
    c.number b = some v ∧ Changed os c.status (c.onTree os.umask os.fs) v os' := by
  unfold Sys.changes at hc
  cases c <;> simp only [Sys.makes, Sys.removes, reduceCtorEq, decide_false, Bool.or_false,
    Bool.false_eq_true] at hc
  case openPath q flags mode =>
    by_cases hflags : flags = O_CREAT ||| O_EXCL ||| O_WRONLY
    · obtain ⟨v, os', hr, hchanged⟩ := @changed_open q os flags mode hflags
      exact ⟨v, os', v, hr, rfl, hchanged⟩
    · simp [hflags] at hc
  all_goals exact ⟨_, _, _, rfl, rfl, changed_tryFS _⟩

theorem of_removes (hc : c.removes = true) : c.makes = none ∧ c.status = true := by
  cases c <;> first | exact ⟨rfl, rfl⟩ | cases hc

theorem changes_iff : c.changes p = true ↔ c.makes = some p ∨ c.removes = true := by
  simp [Sys.changes]

theorem Changed.of_error {status : Bool} {r : Except Errno FS} {v : Int} {e : Errno}
    (h : Changed os status r v os') (hr : r = .error e) : v = -1 ∧ os'.fs = os.fs := by
  cases h with
  | fails _ _ hv hos =>
      rw [hos]
      exact ⟨hv, rfl⟩
  | succeeds _ hok => cases hr.symm.trans hok
  | opens _ _ hok => cases hr.symm.trans hok

theorem Changed.of_ok {status : Bool} {r : Except Errno FS} {v : Int}
    (h : Changed os status r v os') (hr : r = .ok fs) : v ≠ -1 ∧ os'.fs = fs := by
  cases h with
  | fails _ herr => cases hr.symm.trans herr
  | succeeds _ hok hv =>
      rw [hr] at hok
      cases hok
      exact ⟨by omega, rfl⟩
  | opens _ _ hok hv =>
      rw [hr] at hok
      cases hok
      exact ⟨by omega, rfl⟩

/-- Such a call answers `-1` when it fails, and only then. -/
theorem failed_iff (hc : c.changes p = true) {v : Int} (hv : c.number b = some v) :
    c.failed b = true ↔ v = -1 := by
  unfold Sys.changes at hc
  cases c <;> simp only [Sys.makes, Sys.removes, reduceCtorEq, decide_false, Bool.or_false,
    Bool.false_eq_true] at hc <;>
    simp only [Sys.number, Option.some.injEq] at hv <;>
    simp [Sys.failed, hv]

/-- Owners that are owed make no difference. -/
theorem onTree_given (hc : c.changes p = true) (hnext : owed fs.next = none)
    (hset : ∀ q, c.makes = some q → fs.Settled owed q) :
    c.onTree umask (fs.given owed) = (·.given owed) <$> c.onTree umask fs := by
  unfold Sys.changes at hc
  cases c <;> simp only [Sys.makes, Sys.removes, reduceCtorEq, decide_false, Bool.or_false,
    Bool.false_eq_true] at hc
  case mkdir q mode => exact FS.mkdir_given hnext (hset q rfl)
  case mkfifo q mode => exact FS.mkfifo_given hnext (hset q rfl)
  case mknod q mode dev => exact FS.mknod_given hnext (hset q rfl)
  case rmdir q => exact FS.rmdir_given
  case unlink q => exact FS.unlink_given
  case rename old new => exact FS.rename_given
  case openPath q flags mode =>
    by_cases hflags : flags = O_CREAT ||| O_EXCL ||| O_WRONLY
    · subst hflags
      simp only [Sys.onTree]
      rw [FS.openAt_excl_given hnext (hset q (by simp [Sys.makes]))]
      cases fs.openAt umask q (O_CREAT ||| O_EXCL ||| O_WRONLY) mode <;> rfl
    · simp [hflags] at hc

/-- The path leads to what has been made under it. -/
theorem onTree_makes (hc : c.makes = some p) (h : c.onTree umask fs = .ok fs') :
    fs'.resolve p = .ok fs.next ∧ fs'.next = fs.next + 1 := by
  cases c <;> simp only [Sys.makes, reduceCtorEq] at hc
  case mkdir q mode =>
    obtain rfl : q = p := by simpa using hc
    obtain ⟨d, x, parent, hv, -, rfl⟩ := FS.mkdir_eq_ok.mp h
    exact ⟨FS.resolve_created hv (by simp [Inode.kind, Inode.born, Body.kind])
      (fun _ => by simp [Inode.kind, Inode.born, Body.kind]), rfl⟩
  case mkfifo q mode =>
    obtain rfl : q = p := by simpa using hc
    obtain ⟨body, d, x, parent, hb, hv, -, rfl⟩ := FS.mknod_eq_ok.mp h
    exact ⟨FS.resolve_created hv (FS.kind_specialBody hb).1 (fun h => by cases h), rfl⟩
  case mknod q mode dev =>
    obtain rfl : q = p := by simpa using hc
    obtain ⟨body, d, x, parent, hb, hv, -, rfl⟩ := FS.mknod_eq_ok.mp h
    exact ⟨FS.resolve_created hv (FS.kind_specialBody hb).1 (fun h => by cases h), rfl⟩
  case openPath q flags mode =>
    by_cases hflags : flags = O_CREAT ||| O_EXCL ||| O_WRONLY
    · subst hflags
      obtain rfl : q = p := by simpa using hc
      simp only [Sys.onTree] at h
      cases ho : fs.openAt umask q (O_CREAT ||| O_EXCL ||| O_WRONLY) mode with
      | error e =>
          rw [ho] at h
          cases h
      | ok x =>
          rw [ho] at h
          obtain ⟨i, fs₁⟩ := x
          obtain rfl : fs₁ = fs' := Except.ok.inj h
          obtain ⟨d, x, parent, hv, -, -, rfl⟩ := FS.openAt_excl_eq_ok.mp ho
          exact ⟨FS.resolve_created hv (by simp [Inode.kind, Inode.born, Body.kind])
            (fun h => by cases h), rfl⟩
    · simp [hflags] at hc

theorem displace_next (fs : FS) (d : Ino) (x : Name) (j : Ino) :
    (fs.displace d x j).next = fs.next := by
  unfold FS.displace
  split <;> rfl

theorem moveEntry_next (fs : FS) (d₁ : Ino) (x₁ : Name) (d₂ : Ino) (x₂ : Name) (i : Ino) :
    (fs.moveEntry d₁ x₁ d₂ x₂ i).next = fs.next := by
  unfold FS.moveEntry
  split <;> rfl

/-- Taking names away uses up no inode numbers. -/
theorem onTree_removes (hc : c.removes = true) (h : c.onTree umask fs = .ok fs') :
    fs'.next = fs.next := by
  cases c <;> simp only [Sys.removes, Bool.false_eq_true] at hc
  case rmdir q =>
    obtain ⟨d, x, i, parent, -, -, -, -, -, rfl⟩ := FS.rmdir_eq_ok.mp h
    rfl
  case unlink q =>
    obtain ⟨d, x, i, -, -, -, -, -, rfl⟩ := FS.unlink_eq_ok.mp h
    rfl
  case rename old new =>
    obtain ⟨d₁, x₁, d₂, x₂, i, -, -, -, -, -, -, -, hcase⟩ := FS.rename_eq_ok h
    rcases hcase with ⟨-, rfl⟩ | ⟨-, rfl⟩ | ⟨j, -, -, -, rfl⟩
    · exact moveEntry_next ..
    · rfl
    · rw [moveEntry_next, displace_next]

end

end Posix
