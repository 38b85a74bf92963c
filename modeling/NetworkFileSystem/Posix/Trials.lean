import NetworkFileSystem.Posix.Faults

/-!
# Every call may fail

The disturbances of `Posix.Faults` spare the calls that have no reason of their own to fail.  A
program that looks at the answers of those calls too is judged here under every outcome: each call
but `readdir`, reading `errno` and leaving the process may fail, and a call that fails changes
nothing but `errno`.

A `Trial` is what an observer notes of one call: its name, the tree that it found, and the error
number if it failed.
-/

namespace Posix

open Effects

/-- The names of the system calls. -/
inductive SysName
  | lstat | access | mkdir | rmdir | unlink | rename | link | symlink | readlink | mkfifo | mknod
  | truncate | utime | chmod | chown | lchown | statvfs | openPath | close | pread | pwrite | flock
  | opendir | fdopendir | readdir | closedir | errno | exit
  deriving DecidableEq, Repr

def Sys.name {β : Type} : Sys β → SysName
  | .lstat _ => .lstat
  | .access _ _ => .access
  | .mkdir _ _ => .mkdir
  | .rmdir _ => .rmdir
  | .unlink _ => .unlink
  | .rename _ _ => .rename
  | .link _ _ => .link
  | .symlink _ _ => .symlink
  | .readlink _ _ => .readlink
  | .mkfifo _ _ => .mkfifo
  | .mknod _ _ _ => .mknod
  | .truncate _ _ => .truncate
  | .utime _ _ _ => .utime
  | .chmod _ _ => .chmod
  | .chown _ _ _ => .chown
  | .lchown _ _ _ => .lchown
  | .statvfs _ => .statvfs
  | .openPath _ _ _ => .openPath
  | .close _ => .close
  | .pread _ _ _ => .pread
  | .pwrite _ _ _ _ => .pwrite
  | .flock _ _ => .flock
  | .opendir _ => .opendir
  | .fdopendir _ => .fdopendir
  | .readdir _ => .readdir
  | .closedir _ => .closedir
  | .errno => .errno
  | .exit _ => .exit

/-- What a call answers when it fails. -/
def Sys.failure {β : Type} : Sys β → Option β
  | .flock _ _ | .close _ | .closedir _ => some (-1)
  | c => c.refusal

/-- Whether an answer says that the call failed. -/
def Sys.failed {β : Type} : Sys β → β → Bool
  | .lstat _, b => b.isNone
  | .readlink _ _, b => b.isNone
  | .statvfs _, b => b.isNone
  | .pread _ _ _, b => b.isNone
  | .opendir _, b => b.isNone
  | .fdopendir _, b => b.isNone
  | .access _ _, b | .mkdir _ _, b | .rmdir _, b | .unlink _, b | .rename _ _, b | .link _ _, b
  | .symlink _ _, b | .mkfifo _ _, b | .mknod _ _ _, b | .truncate _ _, b | .utime _ _ _, b
  | .chmod _ _, b | .chown _ _ _, b | .lchown _ _ _, b | .openPath _ _ _, b | .pwrite _ _ _ _, b
  | .flock _ _, b | .close _, b | .closedir _, b => b = -1
  | .readdir _, _ | .errno, _ | .exit _, _ => false

/-- A call with its outcome: it may fail, transfer less, or take its course. -/
def OS.attempt {β : Type} (fault : Option Fault) (c : Sys β) (os : OS) : Except Halt (β × OS) :=
  match fault with
  | none => OS.exec c os
  | some (.short n) => OS.exec (c.limited n) os
  | some (.fail e _) => match c.failure with
    | some b => .ok (b, os.fail e)
    | none => OS.exec c os

/-- A call that was made. -/
structure Trial where
  call : SysName
  /-- The tree that the call found. -/
  tree : FS
  failed : Option Errno

/-- What an observer notes of a call. -/
def Sys.trial {β : Type} (c : Sys β) (os : OS) (r : β × OS) : Trial :=
  ⟨c.name, os.fs, if c.failed r.1 then some r.2.errno else none⟩

end Posix
