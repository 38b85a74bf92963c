import NetworkFileSystem.Posix.Strings
import NetworkFileSystem.Server.Messages

/-!
# Paths, permission checks and directory locks (`fuse_rpc_server.c`, lines 48-298)

The server is a family of programs over `Call`: the system calls, and the calls of the RPC client
with which the primary forwards a request to the secondary.  The messages that are printed along
the way are left out.

The macros of the source that return from the enclosing handler take the rest of the handler as
an argument.
-/

namespace DFS

open Effects Posix

/-- The calls of the RPC client. -/
inductive Rpc : Type → Type
  | clntCreate : Rpc Bool
  /-- The stub of a procedure: no reply when it does not return `RPC_SUCCESS`. -/
  | clntCall (r : Request) : Rpc (Option Reply)
  | clntDestroy : Rpc Unit

/-- What the server code calls: the operating system and the RPC client. -/
inductive Call (β : Type) : Type
  | os (c : Sys β)
  | rpc (c : Rpc β)

/-- A program of the server. -/
abbrev Server (α : Type) := Prog Call α

/-- Issue a system call. -/
def sys {β : Type} (c : Sys β) : Server β := Prog.perform (.os c)

/-- `R_REQ`, `W_REQ`, `X_REQ`: used for authentication. -/
abbrev R_REQ : UInt32 := 1
abbrev W_REQ : UInt32 := 2
abbrev X_REQ : UInt32 := 4

/-- `MAX_PATH_LEN`. -/
abbrev maxPathLen : ℕ := 200

/-- `connect_server`: whether a client handle for the secondary server was obtained. -/
def connectServer : Server Bool := Prog.perform (.rpc .clntCreate)

/-- `TRANSMIT_TO_SECONDATY`: the primary sends the request on before it does anything itself.  The
outcome only decides which message is printed. -/
def transmitToSecondaty (serverInfo : Identity) (slaveArg : Identity → Request) : Server Unit :=
  if serverInfo.isMaster ≠ 0 ∧ serverInfo.isDegraded = 0 then do
    let clnt ← connectServer
    if clnt then do
      let _slaveRet ← Prog.perform (.rpc (.clntCall (slaveArg { serverInfo with isMaster := 0 })))
      Prog.perform (.rpc .clntDestroy)
    else pure ()
  else pure ()

/-! ## Paths -/

/-- The loop of `get_last_slash`: the pointer is at index `i`, the last slash seen was `idx`. -/
def getLastSlashFrom : CStr → Int → Int → Int
  | [], _, idx => idx
  | c :: rest, i, idx => getLastSlashFrom rest (i + 1) (if c = '/' then i else idx)

def getLastSlash (fpath : CStr) : Int := getLastSlashFrom fpath 0 (-1)

/-- `get_parent_path`.  A negative length converts to a huge `size_t`, so that `strncpy` copies
the whole string. -/
def getParentPath (fpath : CStr) : CStr :=
  let lastSlashIdx := getLastSlash fpath
  if lastSlashIdx < 0 then fpath else fpath.take lastSlashIdx.toNat

/-- The root directory of the file system on the server. -/
def dfsRoot : CStr := ['/', 'D', 'F', 'S']

/-- `translate_abspath`: from the path on the client to the path on the server, as a string; the
bounds of the buffer are a matter of their own. -/
def translateAbspath (path : CStr) : CStr :=
  if path = ['/'] then dfsRoot
  else if path.head? ≠ some '/' then dfsRoot ++ '/' :: path
  else dfsRoot ++ path

/-! ## Owners and permission bits -/

/-- `set_owner`. -/
def setOwner (fpath ip : CStr) : Server Int := do
  let id := atoi ip
  if (← sys (.chown fpath id.toUInt32 id.toUInt32)) ≠ 0 then return -1
  return 0

/-- `set_softlink_owner`. -/
def setSoftlinkOwner (flink ip : CStr) : Server Int := do
  let id := atoi ip
  if (← sys (.lchown flink id.toUInt32 id.toUInt32)) ≠ 0 then return -1
  return 0

/-- `is_owner`: whether the current user is the owner. -/
def isOwner (fpath ip : CStr) : Server Bool := do
  match ← sys (.lstat fpath) with
  | none => return false
  | some statbuf =>
    let id := atoi ip
    let uid := statbuf.st_uid.toInt32
    return id = uid

/-- The verdict of `is_op_valid` on a stat buffer: each requested bit must be set, for the owner
or for the others. -/
def modeGrants (statbuf : Stat) (id : Int32) (flags : UInt32) : Bool :=
  let uid := statbuf.st_uid.toInt32
  let mode := statbuf.st_mode
  let valid := true
  let valid := if hasBit flags R_REQ then
      let readValid := if uid = id then hasBit mode S_IRUSR else hasBit mode S_IROTH
      if readValid then valid else false
    else valid
  let valid := if hasBit flags W_REQ then
      let writeValid := if uid = id then hasBit mode S_IWUSR else hasBit mode S_IWOTH
      if writeValid then valid else false
    else valid
  if hasBit flags X_REQ then
    let execValid := if uid = id then hasBit mode S_IXUSR else hasBit mode S_IXOTH
    if execValid then valid else false
  else valid

/-- `is_op_valid`: whether the operation is valid based on its type and the owner; `-1` when the
file cannot be looked at. -/
def isOpValid (fpath ip : CStr) (flags : UInt32) : Server Int := do
  match ← sys (.lstat fpath) with
  | none => return -1
  | some statbuf => return if modeGrants statbuf (atoi ip) flags then 1 else 0

/-- `is_rootdir_op_valid_to_delete`. -/
def isRootdirOpValidToDelete (fpath ip : CStr) : Server Int := do
  match ← sys (.lstat fpath) with
  | none => return -1
  | some statbuf =>
    let id := atoi ip
    let uid := statbuf.st_uid.toInt32
    return if id = uid then 1 else 0

/-- The operation names that are passed to `is_parent_dir_valid`. -/
inductive OpName
  | mkdir | rmdir | rename | symlink | link | mknod | unlink
  deriving DecidableEq, Repr

/-- `is_parent_dir_valid`. -/
def isParentDirValid (parentPath fpath ip : CStr) (opName : OpName) : Server Bool := do
  let flagToCheck := R_REQ ||| W_REQ ||| X_REQ
  if parentPath = dfsRoot then
    if opName = .rmdir ∨ opName = .unlink then do
      if (← isRootdirOpValidToDelete fpath ip) = 0 then return false
      return true
    else return true
  else do
    if (← isOpValid parentPath ip flagToCheck) ≠ 1 then return false
    return true

/-- `CHECK_PARENT_DIRECTORY_VALID`. -/
def checkParentDirectoryValid (parentPath fpath ip : CStr) (opName : OpName)
    (rest : Server StatusRet) : Server StatusRet := do
  if ← isParentDirValid parentPath fpath ip opName then rest
  else return ⟨-EACCES⟩

/-! ## Directory locks -/

/-- `dlock`: lock the parent directory; the stream that `opendir` made is never closed. -/
def dlock (path : CStr) : Server Int := do
  match ← sys (.opendir path) with
  | none => return -1
  | some dir =>
    let fd := dir.fd
    if fd = -1 then return -1
    if (← sys (.flock fd .ex)) ≠ 0 then return -1
    return fd

/-- `dunlock`. -/
def dunlock (fd : Int) : Server Int := do
  if (← sys (.flock fd .un)) ≠ 0 then return -1
  return 0

/-- `LOCK_DIRECTORY`. -/
def lockDirectory (parentPath : CStr) (rest : Int → Server StatusRet) : Server StatusRet := do
  let fd ← dlock parentPath
  if fd < 0 then return ⟨-1⟩
  rest fd

/-- `UNLOCK_DIRECTORY`: the result so far, or `-1`. -/
def unlockDirectory (fd : Int) (result : StatusRet) : Server StatusRet := do
  if (← dunlock fd) < 0 then return ⟨-1⟩
  return result

end DFS
