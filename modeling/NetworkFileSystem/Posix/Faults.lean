import NetworkFileSystem.Posix.Process

/-!
# Calls that fail for reasons of their own

`OS.exec` fails only for reasons that lie in the tree and in the arguments.  Here a call may be
disturbed as well: it fails with some error number and changes nothing (no memory, no free
descriptor, an input or output error, a signal), or transfers less than it was asked to.

Calls that cannot fail for such reasons are left alone: closing a descriptor, releasing a lock,
reading `errno`, leaving the process.
-/

namespace Posix

open Effects

/-- The process has no descriptor left. -/
abbrev EMFILE : Errno := 24

/-- What happens to one call. -/
inductive Fault
  | fail (e : Errno) (h : 0 < e)
  /-- At most `n` bytes are transferred. -/
  | short (n : ℕ)

/-- What a call answers when it fails; none for a call that cannot fail. -/
def Sys.refusal {β : Type} : Sys β → Option β
  | .lstat _ | .readlink _ _ | .statvfs _ | .pread _ _ _ | .opendir _ | .fdopendir _ => some none
  | .access _ _ | .mkdir _ _ | .rmdir _ | .unlink _ | .rename _ _ | .link _ _ | .symlink _ _
  | .mkfifo _ _ | .mknod _ _ _ | .truncate _ _ | .utime _ _ _ | .chmod _ _ | .chown _ _ _
  | .lchown _ _ _ | .openPath _ _ _ | .pwrite _ _ _ _ | .flock _ .sh | .flock _ .ex => some (-1)
  | .flock _ .un | .close _ | .closedir _ | .readdir _ | .errno | .exit _ => none

/-- The call, limited to the transfer of `n` bytes. -/
def Sys.limited {β : Type} (n : ℕ) : Sys β → Sys β
  | .pread fd size offset => .pread fd (min size n) offset
  | .pwrite fd buf size offset => .pwrite fd buf (min size n) offset
  | c => c

/-- A call under a disturbance, if there is one. -/
def OS.execUnder {β : Type} (fault : Option Fault) (c : Sys β) (os : OS) :
    Except Halt (β × OS) :=
  match fault with
  | none => OS.exec c os
  | some (.short n) => OS.exec (c.limited n) os
  | some (.fail e _) => match c.refusal with
    | some b => .ok (b, os.fail e)
    | none => OS.exec c os

/-- Whether a disturbance makes a call fail. -/
def fails : Option Fault → Bool
  | some (.fail _ _) => true
  | _ => false

namespace OS

variable {β : Type} {fault : Option Fault} {c : Sys β} {os : OS}

@[simp] theorem execUnder_none : OS.execUnder none c os = OS.exec c os := rfl

/-- A disturbed call fails and changes nothing. -/
theorem execUnder_fails {b : β} (hf : fails fault = true) (hc : c.refusal = some b) :
    ∃ e, 0 < e ∧ OS.execUnder fault c os = .ok (b, os.fail e) := by
  cases fault with
  | none => cases hf
  | some f =>
      cases f with
      | short n => cases hf
      | fail e he => exact ⟨e, he, by simp [OS.execUnder, hc]⟩

/-- Calls that transfer nothing are disturbed by failing only. -/
theorem execUnder_normal (hf : fails fault = false) (hc : ∀ n, c.limited n = c) :
    OS.execUnder fault c os = OS.exec c os := by
  cases fault with
  | none => rfl
  | some f =>
      cases f with
      | short n => simp [OS.execUnder, hc n]
      | fail e he => cases hf

/-- Calls that cannot fail are not disturbed by failing. -/
theorem execUnder_steady (hr : c.refusal = none) (hc : ∀ n, c.limited n = c) :
    OS.execUnder fault c os = OS.exec c os := by
  cases fault with
  | none => rfl
  | some f =>
      cases f with
      | short n => simp [OS.execUnder, hc n]
      | fail e he => simp [OS.execUnder, hr]

end OS

end Posix
