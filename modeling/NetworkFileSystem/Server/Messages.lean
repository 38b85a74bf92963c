import NetworkFileSystem.Posix.Process

/-!
# The messages of the protocol (`fuse_rpc.x`)

One argument structure and one result structure for each procedure, and the unions that the
dispatcher works on.  An `int` that only carries bits (`mode`, `flags`, `mask`) is kept as the bit
pattern; the other `int` fields are integers.
-/

namespace DFS

open Posix

/-- `MAX_SIZE`. -/
abbrev maxSize : ℕ := 4096

/-- An `opaque[MAX_SIZE]` field: exactly `MAX_SIZE` bytes. -/
structure Opaque where
  bytes : List UInt8
  length_eq : bytes.length = maxSize

/-- `memset` to zero, then copy what fits. -/
def Opaque.ofBytes (l : List UInt8) : Opaque where
  bytes := l.take maxSize ++ List.replicate (maxSize - l.length) 0
  length_eq := by
    rw [List.length_append, List.length_take, List.length_replicate]
    omega

structure Identity where
  isMaster : Int
  isDegraded : Int

/-- The result of the procedures that return a status only. -/
structure StatusRet where
  ret : Int
  deriving DecidableEq

structure InitArg where
  serverInfo : Identity
  ip : CStr
  rootdir : CStr

abbrev InitRet := StatusRet

structure GetattrArg where
  ip : CStr
  path : CStr

structure GetattrRet where
  st_dev : Int
  st_ino : Int
  st_mode : Int
  st_nlink : Int
  st_uid : Int
  st_gid : Int
  st_rdev : Int
  st_size : ℕ
  st_blksize : ℕ
  st_blocks : ℕ
  st_acc_time : Int
  st_mod_time : Int
  st_chg_time : Int
  ret : Int

structure AccessArg where
  ip : CStr
  path : CStr
  mask : UInt32

abbrev AccessRet := StatusRet

structure MkdirArg where
  ip : CStr
  serverInfo : Identity
  path : CStr
  mode : UInt32

abbrev MkdirRet := StatusRet

structure RmdirArg where
  ip : CStr
  serverInfo : Identity
  path : CStr

abbrev RmdirRet := StatusRet

structure OpendirArg where
  ip : CStr
  path : CStr

structure OpendirRet where
  fd : Int
  ret : Int

structure ReaddirArg where
  fd : Int

structure ReaddirRet where
  count : Int
  /-- The names as they lie in the buffer, one `Char` for each byte. -/
  entries : List Char
  ret : Int

structure ReleasedirArg where
  fd : Int

abbrev ReleasedirRet := StatusRet

structure RenameArg where
  ip : CStr
  serverInfo : Identity
  path : CStr
  newpath : CStr

abbrev RenameRet := StatusRet

structure SymlinkArg where
  ip : CStr
  serverInfo : Identity
  path : CStr
  link : CStr

abbrev SymlinkRet := StatusRet

structure LinkArg where
  ip : CStr
  serverInfo : Identity
  path : CStr
  newpath : CStr

abbrev LinkRet := StatusRet

structure ReadlinkArg where
  ip : CStr
  path : CStr
  size : UInt32

structure ReadlinkRet where
  buffer : List Char
  len : Int
  ret : Int

structure MknodArg where
  ip : CStr
  serverInfo : Identity
  path : CStr
  mode : UInt32
  dev : Int

abbrev MknodRet := StatusRet

structure UtimeArg where
  ip : CStr
  serverInfo : Identity
  path : CStr
  actime : Int
  modtime : Int

abbrev UtimeRet := StatusRet

structure TruncateArg where
  ip : CStr
  serverInfo : Identity
  path : CStr
  newsize : Int

abbrev TruncateRet := StatusRet

structure ChmodArg where
  ip : CStr
  serverInfo : Identity
  path : CStr
  mode : UInt32

abbrev ChmodRet := StatusRet

structure ChownArg where
  ip : CStr
  serverInfo : Identity
  path : CStr
  uid : UInt32
  gid : UInt32

abbrev ChownRet := StatusRet

structure UnlinkArg where
  ip : CStr
  serverInfo : Identity
  path : CStr

abbrev UnlinkRet := StatusRet

structure OpenArg where
  ip : CStr
  path : CStr
  flags : UInt32

structure OpenRet where
  fd : Int
  ret : Int

structure ReleaseArg where
  ip : CStr
  fd : Int

abbrev ReleaseRet := StatusRet

structure ReadArg where
  ip : CStr
  fd : Int
  size : UInt32
  offset : UInt32

structure ReadRet where
  buffer : List UInt8
  len : Int
  ret : Int

structure WriteArg where
  ip : CStr
  serverInfo : Identity
  fd : Int
  path : CStr
  size : UInt32
  offset : UInt32
  buffer : Opaque

structure WriteRet where
  len : Int
  ret : Int

structure StatfsArg where
  path : CStr

structure StatfsRet where
  vfs : StatVfs
  ret : Int

/-- A procedure number with its argument. -/
inductive Request
  | initRootdir (arg : InitArg)
  | getattr (arg : GetattrArg)
  | access (arg : AccessArg)
  | mkdir (arg : MkdirArg)
  | rmdir (arg : RmdirArg)
  | opendir (arg : OpendirArg)
  | readdir (arg : ReaddirArg)
  | releasedir (arg : ReleasedirArg)
  | rename (arg : RenameArg)
  | symlink (arg : SymlinkArg)
  | link (arg : LinkArg)
  | readlink (arg : ReadlinkArg)
  | mknod (arg : MknodArg)
  | truncate (arg : TruncateArg)
  | unlink (arg : UnlinkArg)
  | utime (arg : UtimeArg)
  | chmod (arg : ChmodArg)
  | chown (arg : ChownArg)
  | openFile (arg : OpenArg)
  | release (arg : ReleaseArg)
  | read (arg : ReadArg)
  | write (arg : WriteArg)
  | statfs (arg : StatfsArg)

/-- Whether a request only prepares the root directory. -/
def Request.isInit : Request → Bool
  | .initRootdir _ => true
  | _ => false

/-- The result that goes back for a request. -/
inductive Reply
  | status (r : StatusRet)
  | getattr (r : GetattrRet)
  | opendir (r : OpendirRet)
  | readdir (r : ReaddirRet)
  | readlink (r : ReadlinkRet)
  | openFile (r : OpenRet)
  | read (r : ReadRet)
  | write (r : WriteRet)
  | statfs (r : StatfsRet)

/-- The `ret` member that every result has. -/
def Reply.ret : Reply → Int
  | status r => r.ret
  | getattr r => r.ret
  | opendir r => r.ret
  | readdir r => r.ret
  | readlink r => r.ret
  | openFile r => r.ret
  | read r => r.ret
  | write r => r.ret
  | statfs r => r.ret

/-! The result of each kind of procedure. -/

namespace Reply

def status? : Reply → Option StatusRet
  | status r => some r
  | _ => none

def getattr? : Reply → Option GetattrRet
  | getattr r => some r
  | _ => none

def opendir? : Reply → Option OpendirRet
  | opendir r => some r
  | _ => none

def readdir? : Reply → Option ReaddirRet
  | readdir r => some r
  | _ => none

def readlink? : Reply → Option ReadlinkRet
  | readlink r => some r
  | _ => none

def openFile? : Reply → Option OpenRet
  | openFile r => some r
  | _ => none

def read? : Reply → Option ReadRet
  | read r => some r
  | _ => none

def write? : Reply → Option WriteRet
  | write r => some r
  | _ => none

def statfs? : Reply → Option StatfsRet
  | statfs r => some r
  | _ => none

/-- Whether a result is of the kind that the procedure answers with. -/
def answers : Reply → Request → Bool
  | getattr _, .getattr _ | opendir _, .opendir _ | readdir _, .readdir _
  | readlink _, .readlink _ | openFile _, .openFile _ | read _, .read _ | write _, .write _
  | statfs _, .statfs _ => true
  | status _, r => match r with
    | .getattr _ | .opendir _ | .readdir _ | .readlink _ | .openFile _ | .read _ | .write _
    | .statfs _ => false
    | _ => true
  | _, _ => false

end Reply

end DFS
