import NetworkFileSystem.Effects.Program
import NetworkFileSystem.Posix.Descriptors
import NetworkFileSystem.Posix.Errors

/-!
# A process and its system calls

`OS` is what the system calls of one process can see: the file system, the process's descriptors,
its `umask` and `errno`.  `Sys` is the signature of the calls and `OS.exec` their meaning.

A call that fails sets `errno` and answers `-1`, or `none` where C answers a null pointer; a call
that succeeds leaves `errno` alone.

Advisory locks belong to open files.  An open file here has one descriptor (nothing in this
signature duplicates descriptors), so the lock is kept in the descriptor's entry.  A lock that
conflicts with one held through another descriptor is never granted: the only process that could
release it is the one that waits.  The same holds for opening one end of a pipe while the other
end is not open.
-/

namespace Posix

open Effects

/-- The second argument of `flock`. -/
inductive LockOp
  | sh | ex | un
  deriving DecidableEq, Repr

/-- What the file system reports besides its tree. -/
structure Volume where
  dev : Int
  blksize : ℕ
  dirSize : ℕ
  blocks : Inode → ℕ

structure StatVfs where
  f_bsize : ℕ
  f_frsize : ℕ
  f_blocks : ℕ
  f_bfree : ℕ
  f_bavail : ℕ
  f_files : ℕ
  f_ffree : ℕ
  f_favail : ℕ
  f_fsid : ℕ
  f_flag : ℕ
  f_namemax : ℕ

structure Stat where
  st_dev : Int
  st_ino : ℕ
  st_mode : UInt32
  st_nlink : ℕ
  st_uid : UInt32
  st_gid : UInt32
  st_rdev : Int
  st_size : ℕ
  st_blksize : ℕ
  st_blocks : ℕ
  st_atime : Int
  st_mtime : Int
  st_ctime : Int

structure OS where
  fs : FS
  fds : Descriptors
  umask : UInt32
  errno : Errno
  /-- The memory that follows the buffer of a request message. -/
  beyond : List UInt8
  vol : Volume
  statvfs : StatVfs

/-- A process that has just been started, over a volume that reports nothing. -/
def OS.start (fs : FS) : OS where
  fs := fs
  fds := ⟨[], List.nodup_nil⟩
  umask := 0
  errno := 0
  beyond := []
  vol := ⟨0, 0, 0, fun _ => 0⟩
  statvfs := ⟨0, 0, 0, 0, 0, 0, 0, 0, 0, 0, 0⟩

/-- A directory stream; it owns a descriptor. -/
structure DIR where
  fd : Int
  deriving DecidableEq, Repr

/-- The system calls. -/
inductive Sys : Type → Type
  | lstat (path : CStr) : Sys (Option Stat)
  | access (path : CStr) (mask : UInt32) : Sys Int
  | mkdir (path : CStr) (mode : UInt32) : Sys Int
  | rmdir (path : CStr) : Sys Int
  | unlink (path : CStr) : Sys Int
  | rename (old new : CStr) : Sys Int
  | link (old new : CStr) : Sys Int
  | symlink (target path : CStr) : Sys Int
  | readlink (path : CStr) (size : Int) : Sys (Option CStr)
  | mkfifo (path : CStr) (mode : UInt32) : Sys Int
  | mknod (path : CStr) (mode : UInt32) (dev : Int) : Sys Int
  | truncate (path : CStr) (len : Int) : Sys Int
  | utime (path : CStr) (actime modtime : Int) : Sys Int
  | chmod (path : CStr) (mode : UInt32) : Sys Int
  | chown (path : CStr) (uid gid : UInt32) : Sys Int
  | lchown (path : CStr) (uid gid : UInt32) : Sys Int
  | statvfs (path : CStr) : Sys (Option StatVfs)
  | openPath (path : CStr) (flags mode : UInt32) : Sys Int
  | close (fd : Int) : Sys Int
  | pread (fd : Int) (size offset : ℕ) : Sys (Option (List UInt8))
  | pwrite (fd : Int) (buf : List UInt8) (size offset : ℕ) : Sys Int
  | flock (fd : Int) (op : LockOp) : Sys Int
  | opendir (path : CStr) : Sys (Option DIR)
  | fdopendir (fd : Int) : Sys (Option DIR)
  /-- The names that `readdir` returns until it returns a null pointer. -/
  | readdir (dp : DIR) : Sys (List Name)
  | closedir (dp : DIR) : Sys Int
  | errno : Sys Errno
  | exit (status : Int) : Sys Empty

/-- The most that one call transfers. -/
abbrev maxRwCount : ℕ := 0x7ffff000

/-- Why a call never returns. -/
inductive Halt
  /-- `flock` waits for a lock that the same process holds through another descriptor. -/
  | flock
  /-- `open` waits for the other end of a pipe. -/
  | fifo
  | exit
  deriving DecidableEq, Repr

/-- `st_size` of an inode. -/
def Inode.size (vol : Volume) (n : Inode) : ℕ :=
  match n.body with
  | .reg d => d.length
  | .symlink t => t.length
  | .dir _ _ => vol.dirSize
  | _ => 0

/-- What `lstat` reports of an inode. -/
def Inode.stat (vol : Volume) (i : Ino) (n : Inode) : Stat where
  st_dev := vol.dev
  st_ino := i
  st_mode := n.kind.typeBits ||| n.perm
  st_nlink := n.nlink
  st_uid := n.uid
  st_gid := n.gid
  st_rdev := match n.body with
    | .chr d => d
    | .blk d => d
    | _ => 0
  st_size := n.size vol
  st_blksize := vol.blksize
  st_blocks := vol.blocks n
  st_atime := n.atime
  st_mtime := n.mtime
  st_ctime := n.ctime

namespace OS

variable (os : OS)

def fail (e : Errno) : OS := { os with errno := e }

/-- A call that changes the file system or fails. -/
def tryFS (r : Except Errno FS) : Int × OS :=
  match r with
  | .ok fs => (0, { os with fs := fs })
  | .error e => (-1, os.fail e)

/-- A call that looks something up or fails. -/
def tryGet {α : Type} (r : Except Errno α) : Option α × OS :=
  match r with
  | .ok a => (some a, os)
  | .error e => (none, os.fail e)

/-- Whether `mode` on the inode `i` conflicts with a lock held through another descriptor. -/
def conflict (fd : Int) (i : Ino) (mode : LockMode) : Bool :=
  os.fds.entries.any fun e => (e.1 : Int) ≠ fd ∧ e.2.ino = some i ∧ e.2.lock.isSome ∧
    (mode = .ex ∨ e.2.lock = some .ex)

def lockMode : LockOp → Option LockMode
  | .sh => some .sh
  | .ex => some .ex
  | .un => none

def flock (fd : Int) (op : LockOp) : Except Halt (Int × OS) :=
  match os.fds.file fd with
  | none => .ok (-1, os.fail EBADF)
  | some f =>
    if f.pathOnly then .ok (-1, os.fail EBADF)
    else match f.ino, lockMode op with
      | some i, some mode =>
        if os.conflict fd i mode then .error .flock
        else .ok (0, { os with fds := os.fds.setFile fd fun f => { f with lock := some mode } })
      | _, mode => .ok (0, { os with fds := os.fds.setFile fd fun f => { f with lock := mode } })

section

variable (os : OS) {fd : Int} {f : OpenFile}

/-- Locking an open file succeeds or waits for ever. -/
theorem flock_open (hf : os.fds.file fd = some f) (hp : f.pathOnly = false) (op : LockOp) :
    os.flock fd op = .error .flock ∨ os.flock fd op = .ok (0, { os with
      fds := os.fds.setFile fd fun f => { f with lock := lockMode op } }) := by
  unfold flock
  simp only [hf, hp, Bool.false_eq_true, if_false]
  cases f.ino with
  | none => exact .inr rfl
  | some i =>
      cases hm : lockMode op with
      | none => exact .inr rfl
      | some mode =>
          by_cases hc : os.conflict fd i mode
          · exact .inl (if_pos hc)
          · exact .inr (if_neg hc)

/-- Unlocking an open file succeeds. -/
theorem flock_un (hf : os.fds.file fd = some f) (hp : f.pathOnly = false) :
    os.flock fd .un = .ok (0, { os with
      fds := os.fds.setFile fd fun f => { f with lock := none } }) := by
  unfold flock
  simp only [hf, hp, Bool.false_eq_true, if_false, lockMode]
  cases f.ino <;> rfl

/-- Locking the newest open file: the lock is granted unless another open file of the same inode
is locked. -/
theorem flock_newest {t : Descriptors} {i : Ino} (ht : os.fds = t.addFile f)
    (hino : f.ino = some i) (hp : f.pathOnly = false) :
    os.flock t.nextFd .ex = if t.locks i then .error .flock
      else .ok (0, { os with fds := t.addFile { f with lock := some .ex } }) := by
  have hfile : os.fds.file t.nextFd = some f := by
    rw [ht, Descriptors.file_addFile, if_pos rfl]
  have hconf : os.conflict t.nextFd i .ex = t.locks i := by
    unfold conflict Descriptors.locks
    rw [ht, Descriptors.addFile]
    simp only [List.any_cons, ne_eq, not_true_eq_false, false_and, decide_false, Bool.false_or,
      true_or, and_true]
    rw [Bool.eq_iff_iff]
    simp only [List.any_eq_true, decide_eq_true_eq]
    constructor
    · rintro ⟨e, he, -, hino, hlock⟩
      exact ⟨e, he, hino, hlock⟩
    · rintro ⟨e, he, hino, hlock⟩
      exact ⟨e, he, by exact_mod_cast Descriptors.ne_nextFd_of_mem he, hino, hlock⟩
  have hset : os.fds.setFile t.nextFd (fun f => { f with lock := some .ex }) =
      t.addFile { f with lock := some .ex } := by rw [ht, Descriptors.setFile_addFile]
  obtain ⟨ino, readable, writable, append, pathOnly, pos, lock⟩ := f
  obtain rfl : ino = some i := hino
  obtain rfl : pathOnly = false := hp
  unfold flock
  simp only [hfile, Bool.false_eq_true, if_false, lockMode]
  rw [hconf, hset]

end

/-- Whether an end of a pipe can be opened at once: the other end is open, or need not be. -/
def fifoReady (i : Ino) (flags : UInt32) : Except Halt (Option Errno) :=
  let acc := flags &&& O_ACCMODE
  let reader := os.fds.entries.any fun e => e.2.ino = some i ∧ e.2.readable
  let writer := os.fds.entries.any fun e => e.2.ino = some i ∧ e.2.writable
  if acc = O_RDONLY then
    if hasBit flags O_NONBLOCK ∨ writer then .ok none else .error .fifo
  else if acc = O_WRONLY then
    if reader then .ok none
    else if hasBit flags O_NONBLOCK then .ok (some ENXIO) else .error .fifo
  else .ok none

/-- The entry that `open` makes for an inode. -/
def opened (flags : UInt32) (i : Ino) : OpenFile where
  ino := some i
  readable := !hasBit flags O_PATH &&
    (flags &&& O_ACCMODE = O_RDONLY || flags &&& O_ACCMODE = O_RDWR)
  writable := !hasBit flags O_PATH &&
    (flags &&& O_ACCMODE = O_WRONLY || flags &&& O_ACCMODE = O_RDWR)
  append := hasBit flags O_APPEND
  pathOnly := hasBit flags O_PATH
  pos := 0
  lock := none

def openFile (path : CStr) (flags mode : UInt32) : Except Halt (Int × OS) :=
  match os.fs.openAt os.umask path flags mode with
  | .error e => .ok (-1, os.fail e)
  | .ok (i, fs) =>
    let done : Int × OS :=
      (os.fds.nextFd, { os with fs := fs, fds := os.fds.addFile (opened flags i) })
    match fs.node i with
    | some n =>
      if n.kind = .fifo ∧ hasBit flags O_PATH = false then
        match os.fifoReady i flags with
        | .error w => .error w
        | .ok (some e) => .ok (-1, os.fail e)
        | .ok none => .ok done
      else .ok done
    | none => .ok done

/-- A FIFO may keep `open` waiting for ever; nothing else does. -/
theorem fifoReady_error {i : Ino} {flags : UInt32} {w : Halt}
    (h : os.fifoReady i flags = .error w) : w = .fifo := by
  unfold fifoReady at h
  dsimp only at h
  repeat' split at h
  all_goals cases h
  all_goals rfl

/-- A FIFO that nobody reads refuses a writer that will not wait. -/
theorem fifoReady_refused {i : Ino} {flags : UInt32} {e : Errno}
    (h : os.fifoReady i flags = .ok (some e)) : e = ENXIO := by
  unfold fifoReady at h
  dsimp only at h
  repeat' split at h
  all_goals cases h
  rfl

/-- What `open` can do: fail (because `FS.openAt` does, or on a pipe), open what `FS.openAt` finds,
or wait for ever for the other end of a pipe. -/
theorem openFile_cases (path : CStr) (flags mode : UInt32) :
    (∃ e, 0 < e ∧ os.openFile path flags mode = .ok (-1, os.fail e) ∧
      ∀ i fs, os.fs.openAt os.umask path flags mode = .ok (i, fs) →
        ∃ n, fs.node i = some n ∧ n.kind = .fifo) ∨
    (∃ i fs, os.fs.openAt os.umask path flags mode = .ok (i, fs) ∧
      os.openFile path flags mode = .ok
        (os.fds.nextFd, { os with fs := fs, fds := os.fds.addFile (opened flags i) })) ∨
    os.openFile path flags mode = .error .fifo := by
  unfold openFile
  cases ho : os.fs.openAt os.umask path flags mode with
  | error e => exact .inl ⟨e, (os.fs.reports_openAt _ _ _ _ e ho).1, rfl, fun i fs h => nomatch h⟩
  | ok r =>
      obtain ⟨i, fs⟩ := r
      simp only
      cases hn : fs.node i with
      | none => exact .inr (.inl ⟨i, fs, rfl, rfl⟩)
      | some n =>
          simp only
          split
          · next hk =>
            cases hf : os.fifoReady i flags with
            | error w => exact .inr (.inr (by rw [os.fifoReady_error hf]))
            | ok o =>
                cases o with
                | none => exact .inr (.inl ⟨i, fs, rfl, rfl⟩)
                | some e =>
                    refine .inl ⟨e, ?_, rfl, fun i' fs' h => ?_⟩
                    · rw [os.fifoReady_refused hf]
                      decide
                    · cases h
                      exact ⟨n, hn, hk.1⟩
          · exact .inr (.inl ⟨i, fs, rfl, rfl⟩)

/-- Opening anything but a pipe succeeds when `FS.openAt` does. -/
theorem openFile_ok {path : CStr} {flags mode : UInt32} {i : Ino} {fs : FS} {n : Inode}
    (h : os.fs.openAt os.umask path flags mode = .ok (i, fs)) (hn : fs.node i = some n)
    (hk : n.kind ≠ .fifo) :
    os.openFile path flags mode = .ok
      (os.fds.nextFd, { os with fs := fs, fds := os.fds.addFile (opened flags i) }) := by
  unfold openFile
  simp only [h, hn, hk, false_and, if_false]

/-- An `open` that fails gives `-1` and sets `errno`. -/
theorem openFile_error {path : CStr} {flags mode : UInt32} {e : Errno}
    (h : os.fs.openAt os.umask path flags mode = .error e) :
    os.openFile path flags mode = .ok (-1, os.fail e) := by
  unfold openFile
  rw [h]

def close (fd : Int) : Int × OS :=
  match os.fds.file fd with
  | none => (-1, os.fail EBADF)
  | some _ => (0, { os with fds := os.fds.dropFile fd })

/-- The body of the file behind a descriptor. -/
def bodyOf (f : OpenFile) : Option Body := do
  let i ← f.ino
  let n ← os.fs.node i
  pure n.body

def pread (fd : Int) (size offset : ℕ) : Except Errno (List UInt8) :=
  match os.fds.file fd with
  | none => .error EBADF
  | some f =>
    if f.readable = false then .error EBADF
    else match os.bodyOf f with
      | some (.reg d) => .ok ((d.drop offset).take (min size maxRwCount))
      | some (.dir _ _) => .error EISDIR
      | _ => .error ESPIPE

/-- Write at an offset, or at the end of the file when the descriptor appends. -/
def pwrite (fd : Int) (bytes : List UInt8) (offset : ℕ) : Except Errno FS :=
  match os.fds.file fd with
  | none => .error EBADF
  | some f =>
    if f.writable = false then .error EBADF
    else match f.ino, os.bodyOf f with
      | some i, some (.reg d) =>
        .ok (os.fs.modify i (Inode.setData
          (splice d (if f.append then d.length else offset) bytes)))
      | _, _ => .error ESPIPE

def opendir (path : CStr) : Option DIR × OS :=
  match os.fs.openAt os.umask path (O_RDONLY ||| O_NONBLOCK ||| O_DIRECTORY) 0 with
  | .error e => (none, os.fail e)
  | .ok (i, _) => (some ⟨os.fds.nextFd⟩, { os with fds := os.fds.addFile (opened O_RDONLY i) })

def fdopendir (fd : Int) : Option DIR × OS :=
  match os.fds.file fd with
  | none => (none, os.fail EBADF)
  | some f =>
    if f.pathOnly then (none, os.fail EBADF)
    else match os.bodyOf f with
      | some (.dir _ _) => if f.readable then (some ⟨fd⟩, os) else (none, os.fail EINVAL)
      | _ => (none, os.fail ENOTDIR)

/-- An open file that a stream can be made of: a directory that is open for reading. -/
def Listable (f : OpenFile) : Prop :=
  f.pathOnly = false ∧ f.readable = true ∧ ∃ p es, os.bodyOf f = some (.dir p es)

/-- `fdopendir` wraps a descriptor of a directory that is open for reading, or fails. -/
theorem fdopendir_cases (fd : Int) :
    (∃ f, os.fds.file fd = some f ∧ os.Listable f ∧ os.fdopendir fd = (some ⟨fd⟩, os)) ∨
    ∃ e, 0 < e ∧ (∀ f, os.fds.file fd = some f → ¬ os.Listable f) ∧
      os.fdopendir fd = (none, os.fail e) := by
  unfold fdopendir
  cases hf : os.fds.file fd with
  | none => exact .inr ⟨EBADF, by decide, fun f h => (nomatch h), rfl⟩
  | some f =>
      simp only [Option.some.injEq, forall_eq']
      by_cases hp : f.pathOnly = true
      · exact .inr ⟨EBADF, by decide, fun h => by simp [h.1] at hp, if_pos hp⟩
      · rw [if_neg hp]
        split
        · next p es hb =>
          by_cases hr : f.readable = true
          · exact .inl ⟨f, rfl, ⟨by simpa using hp, hr, p, es, hb⟩, if_pos hr⟩
          · exact .inr ⟨EINVAL, by decide, fun h => hr h.2.1, if_neg hr⟩
        · next hb => exact .inr ⟨ENOTDIR, by decide, fun ⟨_, _, p, es, h⟩ => hb p es h, rfl⟩

/-- All names of a directory, in the order in which they are read. -/
def names (es : List (Name × Ino)) : List Name := dot :: dotdot :: es.map (·.1)

def readdir (fd : Int) : List Name × OS :=
  match os.fds.file fd with
  | none => ([], os.fail EBADF)
  | some f => match os.bodyOf f with
    | some (.dir _ es) =>
      ((names es).drop f.pos, { os with
        fds := os.fds.setFile fd fun f => { f with pos := max f.pos (names es).length } })
    | _ => ([], os.fail ENOTDIR)

def readlink (path : CStr) (size : Int) : Except Errno CStr := do
  need (0 < size) EINVAL
  let i ← os.fs.lresolve path
  let t ← orElse EINVAL (os.fs.linkTarget i)
  pure (t.take size.toNat)

def lstat (path : CStr) : Except Errno Stat := do
  let i ← os.fs.lresolve path
  let n ← orElse ENOENT (os.fs.node i)
  pure (n.stat os.vol i)

/-- The meaning of a system call. -/
def exec {β : Type} : Sys β → OS → Except Halt (β × OS)
  | .lstat p, os => .ok (os.tryGet (os.lstat p))
  | .access p mask, os => .ok (os.tryFS ((fun _ => os.fs) <$> os.fs.access p mask))
  | .mkdir p mode, os => .ok (os.tryFS (os.fs.mkdir os.umask p mode))
  | .rmdir p, os => .ok (os.tryFS (os.fs.rmdir p))
  | .unlink p, os => .ok (os.tryFS (os.fs.unlink p))
  | .rename old new, os => .ok (os.tryFS (os.fs.rename old new))
  | .link old new, os => .ok (os.tryFS (os.fs.link old new))
  | .symlink target p, os => .ok (os.tryFS (os.fs.symlink target p))
  | .readlink p size, os => .ok (os.tryGet (os.readlink p size))
  | .mkfifo p mode, os => .ok (os.tryFS (os.fs.mkfifo os.umask p mode))
  | .mknod p mode dev, os => .ok (os.tryFS (os.fs.mknod os.umask p mode dev))
  | .truncate p len, os => .ok (os.tryFS (os.fs.truncate p len))
  | .utime p actime modtime, os => .ok (os.tryFS (os.fs.utime p actime modtime))
  | .chmod p mode, os => .ok (os.tryFS (os.fs.chmod p mode))
  | .chown p uid gid, os => .ok (os.tryFS (os.fs.chown p uid gid))
  | .lchown p uid gid, os => .ok (os.tryFS (os.fs.lchown p uid gid))
  | .statvfs p, os => .ok (os.tryGet ((fun _ => os.statvfs) <$> os.fs.resolve p))
  | .openPath p flags mode, os => os.openFile p flags mode
  | .close fd, os => .ok (os.close fd)
  | .pread fd size offset, os => .ok (os.tryGet (os.pread fd size offset))
  | .pwrite fd buf size offset, os =>
    let bytes := (buf ++ os.beyond).take (min size maxRwCount)
    match os.pwrite fd bytes offset with
    | .ok fs => .ok (bytes.length, { os with fs := fs })
    | .error e => .ok (-1, os.fail e)
  | .flock fd op, os => os.flock fd op
  | .opendir p, os => .ok (os.opendir p)
  | .fdopendir fd, os => .ok (os.fdopendir fd)
  | .readdir dp, os => .ok (os.readdir dp.fd)
  | .closedir dp, os => .ok (os.close dp.fd)
  | .errno, os => .ok (os.errno, os)
  | .exit _, _ => .error .exit

end OS

end Posix
