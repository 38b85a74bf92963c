import NetworkFileSystem.Posix.Process
import NetworkFileSystem.Posix.Strings

/-!
# The standard error of a process

`fprintf` to `stderr` formats a message and writes it to descriptor 2, whatever that is.  When the
process was started it was a terminal, a pipe or `/dev/null`, which have no inode in the tree, and
a message that goes there changes nothing that a system call sees (**`OS.write_inPlace`**).  Nothing
keeps the number from being closed and given to a file.
-/

namespace Posix

/-! ## `fprintf` -/

/-- An argument of `fprintf`.  `errno` is read when the message is printed. -/
inductive PrintArg
  | string (s : CStr)
  | int (n : Int)
  | unsigned (v : UInt32)
  | errno
  | negErrno

/-- The `int` that holds the bits of a mode, of flags or of a mask. -/
def PrintArg.bits (v : UInt32) : PrintArg := .int v.toInt32.toInt

/-- `%d` and `%ld`. -/
def printInt (n : Int) : CStr :=
  if n < 0 then '-' :: Nat.toDigits 10 n.natAbs else Nat.toDigits 10 n.natAbs

def PrintArg.print (e : Errno) : PrintArg → CStr
  | string s => s
  | int n => printInt n
  | unsigned v => printUnsigned v
  | errno => printInt e
  | negErrno => printInt (-(e : Int))

/-- What a format makes of its arguments; every conversion takes the next one. -/
def format (e : Errno) : CStr → List PrintArg → CStr
  | '%' :: 'l' :: 'd' :: rest, a :: args => a.print e ++ format e rest args
  | '%' :: _ :: rest, a :: args => a.print e ++ format e rest args
  | c :: rest, args => c :: format e rest args
  | [], _ => []

example : format 0 "%s: %d of %ld\n".toList [.string "f".toList, .int (-1), .int 20] =
    "f: -1 of 20\n".toList := by decide

/-! ## Descriptor 2 -/

/-- `STDERR_FILENO`. -/
abbrev stderrFileno : Int := 2

namespace OS

/-- `write`: at the position of the open file, or at its end when the descriptor appends.  What
goes to a terminal or a pipe is not seen again. -/
def write (os : OS) (fd : Int) (bytes : List UInt8) : OS :=
  match os.fds.file fd with
  | none => os.fail EBADF
  | some f =>
    if f.writable = false then os.fail EBADF
    else match f.ino, os.bodyOf f with
      | some i, some (.reg d) =>
        let offset := if f.append then d.length else f.pos
        { os with
          fs := os.fs.modify i (Inode.setData (splice d offset bytes))
          fds := os.fds.setFile fd fun f => { f with pos := offset + bytes.length } }
      | _, _ => os

/-- Descriptor 2 is what it was when the process was started. -/
def StderrInPlace (os : OS) : Prop :=
  ∃ f, os.fds.file stderrFileno = some f ∧ f.ino = none ∧ f.writable = true

variable {os os' : OS} {fd : Int}

/-- **Messages go unheard** as long as standard error is in place. -/
theorem write_inPlace (h : os.StderrInPlace) (bytes : List UInt8) :
    os.write stderrFileno bytes = os := by
  obtain ⟨f, hf, hino, hw⟩ := h
  simp only [write, hf, hw, Bool.true_eq_false, if_false, hino]

/-! ## What keeps it in place -/

/-- A descriptor that is opened is another one. -/
theorem StderrInPlace.addFile (h : os.StderrInPlace) (g : OpenFile)
    (hfds : os'.fds = os.fds.addFile g) :
    (os.fds.nextFd : Int) ≠ stderrFileno ∧ os'.StderrInPlace := by
  obtain ⟨f, hf, hino, hw⟩ := h
  have hne : stderrFileno ≠ os.fds.nextFd := Descriptors.ne_nextFd hf
  refine ⟨hne.symm, f, ?_, hino, hw⟩
  rw [hfds, Descriptors.file_addFile, if_neg hne, hf]

/-- Locks and positions do not matter. -/
theorem StderrInPlace.setFile (h : os.StderrInPlace) {g : OpenFile → OpenFile}
    (hg : ∀ f, (g f).ino = f.ino ∧ (g f).writable = f.writable)
    (hfds : os'.fds = os.fds.setFile fd g) : os'.StderrInPlace := by
  obtain ⟨f, hf, hino, hw⟩ := h
  unfold StderrInPlace
  rw [hfds, Descriptors.file_setFile, hf]
  split
  · exact ⟨g f, rfl, (hg f).1.trans hino, (hg f).2.trans hw⟩
  · exact ⟨f, rfl, hino, hw⟩

/-- Closing another descriptor. -/
theorem StderrInPlace.dropFile (h : os.StderrInPlace) (hne : fd ≠ stderrFileno)
    (hfds : os'.fds = os.fds.dropFile fd) : os'.StderrInPlace := by
  obtain ⟨f, hf, hino, hw⟩ := h
  refine ⟨f, ?_, hino, hw⟩
  rw [hfds, Descriptors.file_dropFile, if_neg hne.symm, hf]

end OS

/-- The call does not close standard error. -/
def Sys.SparesStderr {β : Type} : Sys β → Prop
  | .close fd => fd ≠ stderrFileno
  | .closedir dp => dp.fd ≠ stderrFileno
  | _ => True

/-- What a call can answer while standard error is in place: no descriptor that it opens, and no
stream that it makes, is descriptor 2. -/
def Sys.Answers : {β : Type} → Sys β → β → Prop
  | _, .openPath _ _ _, fd => fd ≠ stderrFileno
  | _, .opendir _, dp | _, .fdopendir _, dp => ∀ d, dp = some d → d.fd ≠ stderrFileno
  | _, _, _ => True

namespace OS

variable {β : Type} {os os' : OS}

/-- **Standard error stays in place** over every call that does not close it. -/
theorem exec_inPlace {c : Sys β} {r : β × OS} (hc : c.SparesStderr) (h : os.StderrInPlace)
    (hr : OS.exec c os = .ok r) : c.Answers r.1 ∧ r.2.StderrInPlace := by
  have htry : ∀ x : Except Errno FS, (os.tryFS x).2.StderrInPlace := by
    intro x
    cases x <;> exact h
  have hget : ∀ {α : Type} (x : Except Errno α), (os.tryGet x).2.StderrInPlace := by
    intro α x
    cases x <;> exact h
  have hset : ∀ {fd : Int} {g : OpenFile → OpenFile},
      (∀ f, (g f).ino = f.ino ∧ (g f).writable = f.writable) →
      OS.StderrInPlace { os with fds := os.fds.setFile fd g } := fun hg => h.setFile hg rfl
  have hclose : ∀ fd : Int, fd ≠ stderrFileno → (os.close fd).2.StderrInPlace := by
    intro fd hne
    unfold close
    split
    · exact h
    · exact h.dropFile hne rfl
  cases c <;> simp only [OS.exec] at hr
  case openPath p flags mode =>
    rcases os.openFile_cases p flags mode with ⟨e, -, ho, -⟩ | ⟨i, fs, -, ho⟩ | ho
    · rw [ho] at hr
      cases hr
      have hne : (-1 : Int) ≠ stderrFileno := by decide
      exact ⟨hne, h⟩
    · rw [ho] at hr
      cases hr
      exact h.addFile _ rfl
    · rw [ho] at hr
      cases hr
  case close fd =>
    cases hr
    exact ⟨trivial, hclose fd hc⟩
  case closedir dp =>
    cases hr
    exact ⟨trivial, hclose dp.fd hc⟩
  case pwrite fd buf size offset =>
    split at hr <;> cases hr <;> exact ⟨trivial, h⟩
  case flock fd op =>
    refine ⟨trivial, ?_⟩
    unfold flock at hr
    repeat' split at hr
    all_goals cases hr
    · exact h
    · exact h
    · exact hset fun f => ⟨rfl, rfl⟩
    · exact hset fun f => ⟨rfl, rfl⟩
  case opendir p =>
    cases hr
    unfold opendir
    split
    · refine ⟨fun d hd => ?_, h⟩
      cases hd
    · next i _ _ =>
      let opening : OS := { os with fds := os.fds.addFile (opened O_RDONLY i) }
      have hfds : opening.fds = os.fds.addFile (opened O_RDONLY i) := rfl
      obtain ⟨hne, hplace⟩ := h.addFile (opened O_RDONLY i) hfds
      refine ⟨fun d hd => ?_, hplace⟩
      cases hd
      exact hne
  case fdopendir fd =>
    cases hr
    rcases os.fdopendir_cases fd with ⟨f, hf, ⟨-, -, p, es, hb⟩, ho⟩ | ⟨e, -, -, ho⟩
    · rw [ho]
      refine ⟨fun d hd => ?_, h⟩
      cases hd
      -- A stream is made of a directory, which has an inode.
      rintro rfl
      obtain ⟨g, hg, hino, -⟩ := h
      obtain rfl := Option.some.inj (hf.symm.trans hg)
      simp [bodyOf, hino] at hb
    · rw [ho]
      refine ⟨fun d hd => ?_, h⟩
      cases hd
  case readdir dp =>
    cases hr
    refine ⟨trivial, ?_⟩
    unfold readdir
    split
    · exact h
    · split
      · exact hset fun f => ⟨rfl, rfl⟩
      · exact h
  case exit => cases hr
  case errno =>
    cases hr
    exact ⟨trivial, h⟩
  all_goals
    cases hr
    first
      | exact ⟨trivial, htry _⟩
      | exact ⟨trivial, hget _⟩

end OS

end Posix
