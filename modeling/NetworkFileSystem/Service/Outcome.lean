import NetworkFileSystem.Server.Dispatch

/-!
# What the requests do to the tree

A request that changes the tree by path is, as far as the tree and the status are concerned, a
function: `treeOp umask fs r` is the status that goes back and the file system that is left.  It
is the meaning of the handlers without descriptors, locks, `errno` and forwarding.  Both servers
of a pair compute it, which is what makes the replicas agree, and every question about which
request may change what in the tree is a question about `treeOp`.

The verdicts of the permission checks are restated here over inodes instead of stat buffers.
-/

namespace DFS

open Effects Posix

/-! ## Verdicts -/

/-- The owner's bit for the owner, the others' bit for anyone else. -/
def permits (n : Inode) (id : Int32) (own others : UInt32) : Bool :=
  hasBit n.perm (if n.uid.toInt32 = id then own else others)

/-- Whether the permission bits grant everything that is requested. -/
def grants (n : Inode) (id : Int32) (flags : UInt32) : Bool :=
  (!hasBit flags R_REQ || permits n id S_IRUSR S_IROTH) &&
  (!hasBit flags W_REQ || permits n id S_IWUSR S_IWOTH) &&
  (!hasBit flags X_REQ || permits n id S_IXUSR S_IXOTH)

/-- The inode that `lstat` looks at. -/
def attrs (fs : FS) (p : CStr) : Except Errno Inode := do
  let i ← fs.lresolve p
  orElse ENOENT (fs.node i)

/-- The verdict of `is_owner`. -/
def owns (fs : FS) (p : CStr) (id : Int32) : Bool :=
  match attrs fs p with
  | .ok n => id = n.uid.toInt32
  | .error _ => false

/-- The verdict of `is_op_valid`. -/
def opValid (fs : FS) (p : CStr) (id : Int32) (flags : UInt32) : Int :=
  match attrs fs p with
  | .ok n => if grants n id flags then 1 else 0
  | .error _ => -1

/-- The verdict of `is_rootdir_op_valid_to_delete`. -/
def rootdirOpValidToDelete (fs : FS) (p : CStr) (id : Int32) : Int :=
  match attrs fs p with
  | .ok n => if id = n.uid.toInt32 then 1 else 0
  | .error _ => -1

/-- The verdict of `is_parent_dir_valid`. -/
def parentDirValid (fs : FS) (parentPath fpath : CStr) (id : Int32) (opName : OpName) : Bool :=
  if parentPath = dfsRoot then
    if opName = .rmdir ∨ opName = .unlink then rootdirOpValidToDelete fs fpath id ≠ 0 else true
  else opValid fs parentPath id (R_REQ ||| W_REQ ||| X_REQ) = 1

/-- Whether `dlock` can open the directory. -/
def lockable (fs : FS) (p : CStr) : Bool :=
  match fs.resolve p with
  | .ok i => fs.isDir i
  | .error _ => false

/-! ## Outcomes -/

/-- The status of a request and the tree it leaves. -/
structure Outcome where
  ret : Int
  fs : FS

/-- Go on when a check passes, answer `err` otherwise. -/
def check (fs : FS) (passes : Bool) (err : Int) (rest : Outcome) : Outcome :=
  if passes then rest else ⟨err, fs⟩

/-- Go on from the tree that a call leaves; answer `-1` when it fails. -/
def attempt (fs : FS) (r : Except Errno FS) (rest : FS → Outcome) : Outcome :=
  match r with
  | .ok fs' => rest fs'
  | .error _ => ⟨-1, fs⟩

/-- The outcome of a single call, where a failure answers `-errno`. -/
def report (fs : FS) (r : Except Errno FS) : Outcome :=
  match r with
  | .ok fs' => ⟨0, fs'⟩
  | .error e => ⟨-(e : Int), fs⟩

/-- The tree after a call that may have failed. -/
def kept (fs : FS) (r : Except Errno FS) : FS :=
  match r with
  | .ok fs' => fs'
  | .error _ => fs

/-! A relation between the trees before and after, through the steps of an outcome. -/

theorem check_rel {R : FS → FS → Prop} {fs : FS} {b : Bool} {err : Int} {rest : Outcome}
    (hrefl : R fs fs) (hrest : b = true → R fs rest.fs) : R fs (check fs b err rest).fs := by
  unfold check
  split
  · next hb => exact hrest hb
  · exact hrefl

theorem attempt_rel {R : FS → FS → Prop} {fs fs₀ : FS} {r : Except Errno FS}
    {rest : FS → Outcome} (hfail : R fs₀ fs) (hrest : ∀ fs', r = .ok fs' → R fs₀ (rest fs').fs) :
    R fs₀ (attempt fs r rest).fs := by
  unfold attempt
  cases r with
  | ok fs' => exact hrest fs' rfl
  | error e => exact hfail

theorem report_rel {R : FS → FS → Prop} {fs : FS} {r : Except Errno FS} (hrefl : R fs fs)
    (hok : ∀ fs', r = .ok fs' → R fs fs') : R fs (report fs r).fs := by
  unfold report
  cases r with
  | ok fs' => exact hok fs' rfl
  | error e => exact hrefl

section Operations

variable (umask : UInt32) (fs : FS)

/-- `init_rootdir_6_svc`, when it returns. -/
def initOp : Outcome :=
  let made := match fs.access dfsRoot 0 with
    | .ok _ => fs
    | .error _ => kept fs (fs.mkdir umask dfsRoot 0o777)
  ⟨0, kept made (made.chmod dfsRoot 0o777)⟩

def mkdirOp (arg : MkdirArg) : Outcome :=
  let p := translateAbspath arg.path
  let parent := getParentPath p
  let id := atoi arg.ip
  check fs (parentDirValid fs parent p id .mkdir) (-EACCES) <|
  check fs (lockable fs parent) (-1) <|
  attempt fs (fs.mkdir umask p arg.mode) fun fs₁ =>
  attempt fs₁ (fs₁.chown p id.toUInt32 id.toUInt32) fun fs₂ => ⟨0, fs₂⟩

def rmdirOp (arg : RmdirArg) : Outcome :=
  let p := translateAbspath arg.path
  let parent := getParentPath p
  check fs (parentDirValid fs parent p (atoi arg.ip) .rmdir) (-EACCES) <|
  check fs (lockable fs parent) (-1) <|
  attempt fs (fs.rmdir p) fun fs₁ => ⟨0, fs₁⟩

def renameOp (arg : RenameArg) : Outcome :=
  let p := translateAbspath arg.path
  let q := translateAbspath arg.newpath
  let parent := getParentPath p
  let newParent := getParentPath q
  let id := atoi arg.ip
  check fs (parentDirValid fs parent p id .rename) (-EACCES) <|
  check fs (parentDirValid fs newParent q id .rename) (-EACCES) <|
  check fs (lockable fs parent) (-1) <|
  check fs (parent = newParent || lockable fs newParent) (-1) <|
  attempt fs (fs.rename p q) fun fs₁ => ⟨0, fs₁⟩

def symlinkOp (arg : SymlinkArg) : Outcome :=
  let q := translateAbspath arg.link
  let id := atoi arg.ip
  check fs (parentDirValid fs (getParentPath q) q id .symlink) (-EACCES) <|
  attempt fs (fs.symlink arg.path q) fun fs₁ =>
  attempt fs₁ (fs₁.lchown q id.toUInt32 id.toUInt32) fun fs₂ => ⟨0, fs₂⟩

def linkOp (arg : LinkArg) : Outcome :=
  let p := translateAbspath arg.path
  let q := translateAbspath arg.newpath
  let id := atoi arg.ip
  check fs (parentDirValid fs (getParentPath p) p id .link) (-EACCES) <|
  check fs (parentDirValid fs (getParentPath q) q id .link) (-EACCES) <|
  attempt fs (fs.link p q) fun fs₁ =>
  attempt fs₁ (fs₁.chown q id.toUInt32 id.toUInt32) fun fs₂ => ⟨0, fs₂⟩

/-- The call that makes the inode of an `mknod` request. -/
def makeNode (p : CStr) (mode : UInt32) (dev : Int) : Except Errno FS :=
  if isReg mode then
    (fs.openAt umask p (O_CREAT ||| O_EXCL ||| O_WRONLY) mode).map (·.2)
  else if isFifo mode then fs.mkfifo umask p mode
  else fs.mknod umask p mode dev

def mknodOp (arg : MknodArg) : Outcome :=
  let p := translateAbspath arg.path
  let parent := getParentPath p
  let id := atoi arg.ip
  check fs (parentDirValid fs parent p id .mknod) (-EACCES) <|
  check fs (lockable fs parent) (-1) <|
  attempt fs (makeNode umask fs p arg.mode arg.dev) fun fs₁ =>
  attempt fs₁ (fs₁.chown p id.toUInt32 id.toUInt32) fun fs₂ => ⟨0, fs₂⟩

def truncateOp (arg : TruncateArg) : Outcome :=
  report fs (fs.truncate (translateAbspath arg.path) arg.newsize)

def unlinkOp (arg : UnlinkArg) : Outcome :=
  let p := translateAbspath arg.path
  let parent := getParentPath p
  check fs (parentDirValid fs parent p (atoi arg.ip) .unlink) (-EACCES) <|
  check fs (lockable fs parent) (-1) <|
  attempt fs (fs.unlink p) fun fs₁ => ⟨0, fs₁⟩

def utimeOp (arg : UtimeArg) : Outcome :=
  let p := translateAbspath arg.path
  check fs (owns fs p (atoi arg.ip)) (-EACCES) <|
  attempt fs (fs.utime p arg.actime arg.modtime) fun fs₁ => ⟨0, fs₁⟩

def chmodOp (arg : ChmodArg) : Outcome :=
  let p := translateAbspath arg.path
  check fs (owns fs p (atoi arg.ip)) (-EACCES) <|
  attempt fs (fs.chmod p arg.mode) fun fs₁ => ⟨0, fs₁⟩

def chownOp (arg : ChownArg) : Outcome :=
  report fs (fs.chown (translateAbspath arg.path) arg.uid arg.gid)

end Operations

/-! ## The requests that change the tree by path -/

/-- The outcome of a request that changes the tree by path; none for the other requests. -/
def treeOp (umask : UInt32) (fs : FS) : Request → Option Outcome
  | .initRootdir _ => some (initOp umask fs)
  | .mkdir arg => some (mkdirOp umask fs arg)
  | .rmdir arg => some (rmdirOp fs arg)
  | .rename arg => some (renameOp fs arg)
  | .symlink arg => some (symlinkOp fs arg)
  | .link arg => some (linkOp fs arg)
  | .mknod arg => some (mknodOp umask fs arg)
  | .truncate arg => some (truncateOp fs arg)
  | .unlink arg => some (unlinkOp fs arg)
  | .utime arg => some (utimeOp fs arg)
  | .chmod arg => some (chmodOp fs arg)
  | .chown arg => some (chownOp fs arg)
  | _ => none

end DFS
