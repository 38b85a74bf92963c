import NetworkFileSystem.Posix.Walk

/-!
# What the path calls do to the tree

Each call is a function of the file system that either fails with an error number or yields the
next file system.  The caller is the superuser, so no call fails for want of permission; and
nothing here fails for want of resources.

The calls that make a name share `FS.vacant` (find the directory, refuse a name that exists) and
`FS.create` (a new inode under a new name).  `FS.rename` is the one call with a long list of
cases; they are checked in the kernel's order.
-/

namespace Posix

open Effects

abbrev S_IFMT : UInt32 := 0o170000
abbrev S_IFSOCK : UInt32 := 0o140000
abbrev S_IFLNK : UInt32 := 0o120000
abbrev S_IFREG : UInt32 := 0o100000
abbrev S_IFBLK : UInt32 := 0o060000
abbrev S_IFDIR : UInt32 := 0o040000
abbrev S_IFCHR : UInt32 := 0o020000
abbrev S_IFIFO : UInt32 := 0o010000
abbrev S_ISUID : UInt32 := 0o4000
abbrev S_ISGID : UInt32 := 0o2000
abbrev S_IRUSR : UInt32 := 0o400
abbrev S_IWUSR : UInt32 := 0o200
abbrev S_IXUSR : UInt32 := 0o100
abbrev S_IXGRP : UInt32 := 0o010
abbrev S_IROTH : UInt32 := 0o004
abbrev S_IWOTH : UInt32 := 0o002
abbrev S_IXOTH : UInt32 := 0o001

abbrev O_ACCMODE : UInt32 := 3
abbrev O_RDONLY : UInt32 := 0
abbrev O_WRONLY : UInt32 := 1
abbrev O_RDWR : UInt32 := 2
abbrev O_CREAT : UInt32 := 0o100
abbrev O_EXCL : UInt32 := 0o200
abbrev O_TRUNC : UInt32 := 0o1000
abbrev O_APPEND : UInt32 := 0o2000
abbrev O_NONBLOCK : UInt32 := 0o4000
abbrev O_LARGEFILE : UInt32 := 0o100000
abbrev O_DIRECTORY : UInt32 := 0o200000
abbrev O_NOFOLLOW : UInt32 := 0o400000
abbrev O_PATH : UInt32 := 0o10000000
/-- The bit of `O_TMPFILE` besides `O_DIRECTORY`. -/
abbrev O_TMPFILE_BIT : UInt32 := 0o20000000

abbrev X_OK : UInt32 := 1

/-- Whether one of the bits of `b` is set. -/
def hasBit (flags b : UInt32) : Bool := flags &&& b ≠ 0

/-- The id that leaves an owner as it is. -/
abbrev keepId : UInt32 := 0xffffffff

/-- The type bits of `st_mode`. -/
def Kind.typeBits : Kind → UInt32
  | .reg => S_IFREG
  | .dir => S_IFDIR
  | .symlink => S_IFLNK
  | .fifo => S_IFIFO
  | .sock => S_IFSOCK
  | .chr => S_IFCHR
  | .blk => S_IFBLK

namespace Inode

/-- A new inode in the directory `parent`, made by the superuser. -/
def born (parent : Inode) (body : Body) (perm : UInt32) : Inode where
  body := body
  uid := 0
  gid := if hasBit parent.perm S_ISGID then parent.gid else 0
  perm := if hasBit parent.perm S_ISGID ∧ body.kind = .dir then perm ||| S_ISGID else perm
  nlink := if body.kind = .dir then 2 else 1
  atime := 0
  mtime := 0
  ctime := 0
  stamped := false

/-- Change the owner; the set-id bits of anything but a directory are cleared. -/
def setOwner (uid gid : UInt32) (n : Inode) : Inode :=
  { n with
    uid := if uid = keepId then n.uid else uid
    gid := if gid = keepId then n.gid else gid
    perm :=
      if n.kind = .dir then n.perm
      else if hasBit n.perm S_IXGRP then n.perm &&& ~~~S_ISUID &&& ~~~S_ISGID
      else n.perm &&& ~~~S_ISUID }

def setPerm (mode : UInt32) (n : Inode) : Inode := { n with perm := mode &&& 0o7777 }

def setTimes (actime modtime : Int) (n : Inode) : Inode :=
  { n with atime := actime, mtime := modtime, stamped := true }

def setData (d : List UInt8) (n : Inode) : Inode := { n with body := .reg d }

def setLinks (f : ℕ → ℕ) (n : Inode) : Inode := { n with nlink := f n.nlink }

/-- Move a directory under another parent. -/
def setParent (d : Ino) (n : Inode) : Inode :=
  match n.body with
  | .dir _ es => { n with body := .dir d es }
  | _ => n

end Inode

/-- Cut a file to a length, or extend it with zeros. -/
def resize (d : List UInt8) (len : ℕ) : List UInt8 :=
  d.take len ++ List.replicate (len - d.length) 0

/-- Overwrite from an offset on; a gap before it reads as zeros. -/
def splice (d : List UInt8) (off : ℕ) (bytes : List UInt8) : List UInt8 :=
  if bytes = [] then d
  else d.take off ++ List.replicate (off - d.length) 0 ++ bytes ++ d.drop (off + bytes.length)

@[simp] theorem splice_nil (d : List UInt8) (off : ℕ) : splice d off [] = d := if_pos rfl

/-- A write into an empty file: zeros up to the offset, then the bytes. -/
theorem splice_of_empty (off : ℕ) (bytes : List UInt8) :
    splice [] off bytes = if bytes = [] then [] else List.replicate off 0 ++ bytes := by
  simp [splice]

/-- Writes into an empty file at the same offset differ when their bytes do. -/
theorem splice_empty_inj {off : ℕ} {b b' : List UInt8} (h : splice [] off b = splice [] off b') :
    b = b' := by
  rw [splice_of_empty, splice_of_empty] at h
  by_cases hb : b = [] <;> by_cases hb' : b' = [] <;> simp_all

/-- A write makes the file as long as it reaches. -/
theorem length_splice (d : List UInt8) (off : ℕ) {bytes : List UInt8} (h : bytes ≠ []) :
    (splice d off bytes).length = max d.length (off + bytes.length) := by
  rw [splice, if_neg h]
  simp only [List.length_append, List.length_take, List.length_replicate, List.length_drop]
  omega

/-- A write and the next one behind it. -/
theorem splice_splice (d : List UInt8) (off : ℕ) (b b' : List UInt8) :
    splice (splice d off b) (off + b.length) b' = splice d off (b ++ b') := by
  by_cases hb : b = []
  · subst hb
    simp
  by_cases hb' : b' = []
  · subst hb'
    simp
  have hfront : (d.take off ++ List.replicate (off - d.length) 0 ++ b).length =
      off + b.length := by
    simp only [List.length_append, List.length_take, List.length_replicate]
    omega
  have hpad : off + b.length - (splice d off b).length = 0 := by
    rw [length_splice d off hb]
    omega
  have htake : (splice d off b).take (off + b.length) =
      d.take off ++ List.replicate (off - d.length) 0 ++ b := by
    rw [splice, if_neg hb, ← hfront, List.take_left]
  have hdrop : (splice d off b).drop (off + b.length + b'.length) =
      d.drop (off + (b ++ b').length) := by
    rw [splice, if_neg hb, ← List.drop_drop, ← hfront, List.drop_left, List.drop_drop, hfront,
      List.length_append, Nat.add_assoc]
  rw [splice, if_neg hb', htake, hpad, hdrop, splice, if_neg (by simp [hb])]
  simp

/-- The entries without a name. -/
def dropName (x : Name) (es : List (Name × Ino)) : List (Name × Ino) :=
  es.filter fun e => e.1 ≠ x

namespace FS

variable (fs : FS)

/-! ## Making names -/

/-- The directory and the name for a new entry, when the name is free. -/
def vacant (p : CStr) (dirOk : Bool) : Except Errno (Ino × Name) := do
  let (d, x) ← fs.slot p
  need (special x = false) EEXIST
  need (x.length ≤ 255) ENAMETOOLONG
  need (isOk (fs.child d x) = false) EEXIST
  need (dirOk = true ∨ trailing p = false) ENOENT
  pure (d, x)

/-- Add an entry to a directory. -/
def addEntry (d : Ino) (x : Name) (i : Ino) (links : ℕ → ℕ) : FS :=
  fs.modify d (Inode.onEntries (fun es => (x, i) :: es) links)

/-- Remove a name from a directory. -/
def delEntry (d : Ino) (x : Name) (links : ℕ → ℕ) : FS :=
  fs.modify d (Inode.onEntries (dropName x) links)

/-- A new inode under the name `x` of the directory `d`. -/
def createAt (d : Ino) (x : Name) (links : ℕ → ℕ) (mk : Inode → Inode) :
    Except Errno (Ino × FS) := do
  let parent ← orElse ENOTDIR (fs.node d)
  pure (fs.next, (fs.alloc (mk parent)).addEntry d x fs.next links)

/-- A new inode under a new name. -/
def create (p : CStr) (dirOk : Bool) (links : ℕ → ℕ) (mk : Ino → Inode → Inode) :
    Except Errno (Ino × FS) := do
  let (d, x) ← fs.vacant p dirOk
  fs.createAt d x links (mk d)

def mkdir (umask : UInt32) (p : CStr) (mode : UInt32) : Except Errno FS := do
  let (_, fs') ← fs.create p true (· + 1) fun d parent =>
    parent.born (.dir d []) (mode &&& 0o1777 &&& ~~~umask)
  pure fs'

/-- The body of the inode that `mknod` makes for a mode. -/
def specialBody (mode : UInt32) (dev : Int) : Except Errno Body :=
  let type := mode &&& S_IFMT
  if type = S_IFREG ∨ type = 0 then .ok (.reg [])
  else if type = S_IFCHR then .ok (.chr dev)
  else if type = S_IFBLK then .ok (.blk dev)
  else if type = S_IFIFO then .ok .fifo
  else if type = S_IFSOCK then .ok .sock
  else if type = S_IFDIR then .error EPERM
  else .error EINVAL

def mknod (umask : UInt32) (p : CStr) (mode : UInt32) (dev : Int) : Except Errno FS := do
  let body ← specialBody mode dev
  let (_, fs') ← fs.create p false id fun _ parent =>
    parent.born body (mode &&& 0o7777 &&& ~~~umask)
  pure fs'

def mkfifo (umask : UInt32) (p : CStr) (mode : UInt32) : Except Errno FS :=
  fs.mknod umask p ((mode &&& 0o7777) ||| S_IFIFO) 0

def symlink (target p : CStr) : Except Errno FS := do
  getname target
  let (_, fs') ← fs.create p false id fun _ parent => parent.born (.symlink target) 0o777
  pure fs'

def link (old new : CStr) : Except Errno FS := do
  let i ← fs.lresolve old
  let (d, x) ← fs.vacant new false
  need (fs.isDir i = false) EPERM
  pure ((fs.addEntry d x i id).modify i (Inode.setLinks (· + 1)))

/-! ## Removing names -/

def unlink (p : CStr) : Except Errno FS := do
  let (d, x) ← fs.slot p
  need (special x = false) EISDIR
  let i ← fs.child d x
  need (fs.isDir i = false) EISDIR
  need (trailing p = false) ENOTDIR
  pure ((fs.delEntry d x id).modify i (Inode.setLinks (· - 1)))

def rmdir (p : CStr) : Except Errno FS := do
  let (d, x) ← fs.slot p
  need (x ≠ []) EBUSY
  need (x ≠ dot) EINVAL
  need (x ≠ dotdot) ENOTEMPTY
  let i ← fs.child d x
  let (_, es) ← fs.dir i
  need (es = []) ENOTEMPTY
  need (i ≠ fs.root) EBUSY
  pure ((fs.delEntry d x (· - 1)).modify i (Inode.setLinks fun _ => 0))

/-! ## Renaming -/

/-- How far below the root a directory that a call names can be: the path and each of the forty
links it goes through hold fewer than 2048 components. -/
abbrev maxDepth : ℕ := 41 * 2048

/-- The directory itself and the directories above it, as far as the root. -/
def above : ℕ → Ino → List Ino
  | 0, d => [d]
  | n + 1, d =>
    if d = fs.root then [d]
    else match fs.dir d with
      | .ok (parent, _) => d :: above n parent
      | .error _ => [d]

/-- What an existing target must be for `i` to take its name. -/
def replaceable (i j : Ino) : Except Errno Unit :=
  if fs.isDir i then do
    let (_, es) ← fs.dir j
    need (es = []) ENOTEMPTY
  else need (fs.isDir j = false) EISDIR

/-- Take the name `x` away from the inode `j` it names, which another inode is to have. -/
def displace (d : Ino) (x : Name) (j : Ino) : FS :=
  if fs.isDir j then (fs.delEntry d x (· - 1)).modify j (Inode.setLinks fun _ => 0)
  else (fs.delEntry d x id).modify j (Inode.setLinks (· - 1))

/-- Move the entry `x₁` of `d₁`, which names `i`, to the free name `x₂` of `d₂`. -/
def moveEntry (d₁ : Ino) (x₁ : Name) (d₂ : Ino) (x₂ : Name) (i : Ino) : FS :=
  if fs.isDir i then
    ((fs.delEntry d₁ x₁ (· - 1)).addEntry d₂ x₂ i (· + 1)).modify i (Inode.setParent d₂)
  else (fs.delEntry d₁ x₁ id).addEntry d₂ x₂ i id

def rename (old new : CStr) : Except Errno FS := do
  let (d₁, x₁) ← fs.slot old
  let (d₂, x₂) ← fs.slot new
  need (special x₁ = false ∧ special x₂ = false) EBUSY
  let i ← fs.child d₁ x₁
  need (x₂.length ≤ 255) ENAMETOOLONG
  need (fs.isDir i = true ∨ (trailing old = false ∧ trailing new = false)) ENOTDIR
  -- A directory cannot be moved below itself.
  need (i ∉ fs.above maxDepth d₂) EINVAL
  match fs.child d₂ x₂ with
  | .error _ => pure (fs.moveEntry d₁ x₁ d₂ x₂ i)
  | .ok j => do
    need (j ∉ fs.above maxDepth d₁) ENOTEMPTY
    -- Two names of one inode: the call succeeds and changes nothing.
    if i = j then pure fs
    else do
      fs.replaceable i j
      pure ((fs.displace d₂ x₂ j).moveEntry d₁ x₁ d₂ x₂ i)

/-! ## Attributes and content -/

def truncate (p : CStr) (len : Int) : Except Errno FS := do
  need (0 ≤ len) EINVAL
  let i ← fs.resolve p
  let n ← orElse ENOENT (fs.node i)
  match n.body with
  | .dir _ _ => .error EISDIR
  | .reg d => pure (fs.modify i (Inode.setData (resize d len.toNat)))
  | _ => .error EINVAL

def chmod (p : CStr) (mode : UInt32) : Except Errno FS := do
  let i ← fs.resolve p
  pure (fs.modify i (Inode.setPerm mode))

def chown (p : CStr) (uid gid : UInt32) : Except Errno FS := do
  let i ← fs.resolve p
  pure (fs.modify i (Inode.setOwner uid gid))

def lchown (p : CStr) (uid gid : UInt32) : Except Errno FS := do
  let i ← fs.lresolve p
  pure (fs.modify i (Inode.setOwner uid gid))

def utime (p : CStr) (actime modtime : Int) : Except Errno FS := do
  let i ← fs.resolve p
  pure (fs.modify i (Inode.setTimes actime modtime))

/-- The superuser may read and write anything, and execute what has some execute bit. -/
def access (p : CStr) (mask : UInt32) : Except Errno Unit := do
  need (mask &&& ~~~7 = 0) EINVAL
  let i ← fs.resolve p
  let n ← orElse ENOENT (fs.node i)
  need (hasBit mask X_OK = false ∨ n.kind = .dir ∨ hasBit n.perm 0o111 = true) EACCES

/-! ## Opening -/

/-- Where a call that may create the last component ends up, following a link in the last place;
the name need not exist. -/
def finalWith (jump : Ino → List Name → Except Errno (Ino × Name)) :
    Ino → List Name → Except Errno (Ino × Name)
  | cur, [] => .ok (cur, [])
  | cur, x :: rest =>
    match fs.child cur x with
    | .error e => if rest = [] ∧ e = ENOENT then .ok (cur, x) else .error e
    | .ok i => match fs.linkTarget i with
      | some t =>
        if rest = [] ∧ trailing t = true then .error EISDIR
        else jump (fs.base cur t) (components t ++ rest)
      | none => if rest = [] then .ok (cur, x) else finalWith jump i rest

def final : ℕ → Ino → List Name → Except Errno (Ino × Name)
  | 0 => fs.finalWith fun _ _ => .error ELOOP
  | n + 1 => fs.finalWith (final n)

/-- What opening an existing inode checks, and the truncation that `O_TRUNC` asks for.  No driver
stands behind the device numbers that clients may name. -/
def openExisting (flags : UInt32) (i : Ino) : Except Errno (Ino × FS) := do
  let n ← orElse ENOENT (fs.node i)
  need (n.kind ≠ .symlink) ELOOP
  need (hasBit flags O_DIRECTORY = false ∨ n.kind = .dir) ENOTDIR
  need (n.kind ≠ .dir ∨
    (flags &&& O_ACCMODE = O_RDONLY ∧ hasBit flags (O_TRUNC ||| O_CREAT) = false)) EISDIR
  need (n.kind ≠ .sock ∧ n.kind ≠ .chr ∧ n.kind ≠ .blk) ENXIO
  if n.kind = .reg ∧ hasBit flags O_TRUNC = true then pure (i, fs.modify i (Inode.setData []))
  else pure (i, fs)

/-- The directory and the name under which `O_CREAT` looks for the file. -/
def finalSlot (flags : UInt32) (p : CStr) : Except Errno (Ino × Name) :=
  if hasBit flags O_NOFOLLOW then fs.slot p
  else fs.final maxSymlinks fs.root (components p)

/-- Open what has the name `x`, or make a file of that name. -/
def openOrCreate (flags : UInt32) (newFile : Inode → Inode) (d : Ino) (x : Name) :
    Except Errno (Ino × FS) := do
  need (special x = false) EISDIR
  need (x.length ≤ 255) ENAMETOOLONG
  match fs.child d x with
  | .ok i => fs.openExisting flags i
  | .error _ => fs.createAt d x id newFile

/-- `open` as far as the tree is concerned: the inode that is opened, and the file system after a
creation or a truncation. -/
def openAt (umask : UInt32) (p : CStr) (flags mode : UInt32) : Except Errno (Ino × FS) :=
  let lookup := if hasBit flags O_NOFOLLOW then fs.lresolve p else fs.resolve p
  let newFile : Inode → Inode := fun parent =>
    parent.born (.reg []) (mode &&& 0o7777 &&& ~~~umask)
  -- `O_PATH` beats every other flag but the two that steer the lookup.
  if hasBit flags O_PATH then do
    let i ← lookup
    need (hasBit flags O_DIRECTORY = false ∨ fs.isDir i = true) ENOTDIR
    pure (i, fs)
  else if hasBit flags O_TMPFILE_BIT then do
    need (hasBit flags O_DIRECTORY = true ∧ hasBit flags O_CREAT = false ∧
      flags &&& O_ACCMODE ≠ O_RDONLY) EINVAL
    let d ← lookup
    let _ ← fs.dir d
    let parent ← orElse ENOTDIR (fs.node d)
    pure (fs.next, fs.alloc (newFile parent))
  else if hasBit flags O_CREAT then do
    need (hasBit flags O_DIRECTORY = false) EINVAL
    getname p
    need (trailing p = false) EISDIR
    if hasBit flags O_EXCL then fs.create p false id fun _ => newFile
    else do
      let (d, x) ← fs.finalSlot flags p
      fs.openOrCreate flags newFile d x
  else do
    let i ← lookup
    fs.openExisting flags i

end FS

end Posix
