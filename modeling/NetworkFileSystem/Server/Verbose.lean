import NetworkFileSystem.Effects.Remarks
import NetworkFileSystem.Posix.Stderr
import NetworkFileSystem.Server.Dispatch

/-!
# The handlers with the messages they print (`fuse_rpc_server.c`)

Every handler of the source prints messages along the way.  Here each one stands once more, under
its own name, with every `fprintf` in its place.  Without the messages these are the handlers of
the other modules (**`compute6_silence`**).
-/

namespace DFS

open Effects Posix Prog

/-- The operation names as they are printed. -/
def OpName.text : OpName → CStr
  | .mkdir => "mkdir".toList
  | .rmdir => "rmdir".toList
  | .rename => "rename".toList
  | .symlink => "symlink".toList
  | .link => "link".toList
  | .mknod => "mknod".toList
  | .unlink => "unlink".toList

namespace Verbose

/-- What is printed to `stderr`; what the RPC library prints is its own. -/
inductive Message
  | fprintf (fmt : CStr) (args : List PrintArg)
  | clntPcreateerror (host : CStr)
  | clntPerror (s : CStr)

/-- A program of the server, with messages. -/
abbrev Server (α : Type) := Prog (Remarked Message Call) α

/-- Issue a system call. -/
def sys {β : Type} (c : Sys β) : Server β := perform (.call (.os c))

def rpc {β : Type} (c : Rpc β) : Server β := perform (.call (.rpc c))

/-- `fprintf(stderr, …)`. -/
def fprintf (fmt : String) (args : List PrintArg) : Server Unit :=
  remark (.fprintf fmt.toList args)

/-- `if (c) fprintf(stderr, …)`. -/
def fprintfIf (c : Prop) [Decidable c] (fmt : String) (args : List PrintArg) : Server Unit :=
  remarkIf c (.fprintf fmt.toList args)

def negErrno : Server Int := do
  return -(← sys .errno : ℕ)

/-! ## Forwarding -/

/-- The address of the secondary. -/
def secondaryHost : CStr := "10.148.54.200".toList

def connectServer : Server Bool := do
  let clnt ← rpc .clntCreate
  remarkIf (clnt = false) (.clntPcreateerror secondaryHost)
  return clnt

/-- What is said about the outcome at the secondary. -/
def complain : Option Reply → Server Unit
  | none => do
    fprintf "Secondary server RPC return value error\n" []
    remark (.clntPerror "call failed".toList)
  | some slaveRet =>
    fprintfIf (slaveRet.ret < 0) "Secondary server error with errno %d\n" [.int (-slaveRet.ret)]

def transmitToSecondaty (serverInfo : Identity) (slaveArg : Identity → Request) : Server Unit :=
  if serverInfo.isMaster ≠ 0 ∧ serverInfo.isDegraded = 0 then do
    fprintf "is master, and not degrades, transmit to secondary\n" []
    let clnt ← connectServer
    if clnt then do
      let slaveRet ← rpc (.clntCall (slaveArg { serverInfo with isMaster := 0 }))
      complain slaveRet
      rpc .clntDestroy
    else fprintf "is master, connect secondary server error\n" []
  else pure ()

/-! ## Paths, checks and locks -/

/-- `GET_PARENT_PATH`. -/
def getParentPath (fpath : CStr) : Server CStr := do
  let parentPath := DFS.getParentPath fpath
  fprintf "Get directory %s from full path %s\n" [.string parentPath, .string fpath]
  return parentPath

def setOwner (fpath ip : CStr) : Server Int := do
  fprintf "Set owner for %s with owner %s\n" [.string fpath, .string ip]
  let id := atoi ip
  if (← sys (.chown fpath id.toUInt32 id.toUInt32)) ≠ 0 then do
    fprintf "Chown for %s for user %d error\n" [.string fpath, .int id.toInt]
    return -1
  else return 0

def setSoftlinkOwner (flink ip : CStr) : Server Int := do
  fprintf "Set owner for %s with owner %s\n" [.string flink, .string ip]
  let id := atoi ip
  if (← sys (.lchown flink id.toUInt32 id.toUInt32)) ≠ 0 then do
    fprintf "Chown for %s for user %d error\n" [.string flink, .int id.toInt]
    return -1
  else return 0

def isOwner (fpath ip : CStr) : Server Bool := do
  match ← sys (.lstat fpath) with
  | none => do
    fprintf "Error when checking %s stat in is_owner()\n" [.string fpath]
    return false
  | some statbuf =>
    let id := atoi ip
    let uid := statbuf.st_uid.toInt32
    return id = uid

def isOpValid (fpath ip : CStr) (flags : UInt32) : Server Int := do
  match ← sys (.lstat fpath) with
  | none => do
    fprintf "Error when checking %s stat\n" [.string fpath]
    return -1
  | some statbuf => return if modeGrants statbuf (atoi ip) flags then 1 else 0

def isRootdirOpValidToDelete (fpath ip : CStr) : Server Int := do
  match ← sys (.lstat fpath) with
  | none => do
    fprintf "Error when checking %s stat\n" [.string fpath]
    return -1
  | some statbuf =>
    let id := atoi ip
    let uid := statbuf.st_uid.toInt32
    return if id = uid then 1 else 0

def isParentDirValid (parentPath fpath ip : CStr) (opName : OpName) : Server Bool := do
  fprintf "Checking parent directory validility\n" []
  let flagToCheck := R_REQ ||| W_REQ ||| X_REQ
  if parentPath = dfsRoot then
    if opName = .rmdir ∨ opName = .unlink then do
      if (← isRootdirOpValidToDelete fpath ip) = 0 then do
        fprintf "Authentication for %s %s on rootdir error\n" [.string opName.text, .string fpath]
        return false
      else return true
    else return true
  else do
    if (← isOpValid parentPath ip flagToCheck) ≠ 1 then do
      fprintf "Authentication for %s on full path %s error\n" [.string opName.text, .string fpath]
      return false
    else return true

def checkParentDirectoryValid (parentPath fpath ip : CStr) (opName : OpName)
    (rest : Server StatusRet) : Server StatusRet := do
  if ← isParentDirValid parentPath fpath ip opName then rest
  else return ⟨-EACCES⟩

/-- The end of `dlock` at its label `bad`. -/
def dlockBad (path : CStr) : Server Int := do
  fprintf "Lock directory %s error\n" [.string path]
  return -1

def dlock (path : CStr) : Server Int := do
  fprintf "Lock directory for path %s\n" [.string path]
  match ← sys (.opendir path) with
  | none => dlockBad path
  | some dir =>
    let fd := dir.fd
    if fd = -1 then dlockBad path
    else if (← sys (.flock fd .ex)) ≠ 0 then dlockBad path
    else return fd

def dunlock (fd : Int) : Server Int := do
  fprintf "Unlock directory for fd %d\n" [.int fd]
  if (← sys (.flock fd .un)) ≠ 0 then do
    fprintf "Unlock directory with fd %d error\n" [.int fd]
    return -1
  else return 0

def lockDirectory (parentPath : CStr) (rest : Int → Server StatusRet) : Server StatusRet := do
  let fd ← dlock parentPath
  if fd < 0 then return ⟨-1⟩ else rest fd

def unlockDirectory (fd : Int) (result : StatusRet) : Server StatusRet := do
  if (← dunlock fd) < 0 then return ⟨-1⟩ else return result

/-! ## Handlers -/

def initRootdir6Svc (argp : InitArg) : Server InitRet := do
  transmitToSecondaty argp.serverInfo fun info => .initRootdir { argp with serverInfo := info }
  let root := dfsRoot
  if (← sys (.access root 0)) = -1 then
    if (← sys (.mkdir root 0o777)) ≠ 0 then
      fprintf "mkdir %s failure\n" [.string root]
      let _ ← sys (.exit 1)
  let mode : UInt32 := 0o777
  if (← sys (.chmod dfsRoot mode)) ≠ 0 then
    fprintf "Change access control bits for rootdir failure\n" []
    let _ ← sys (.exit 1)
  fprintf "Initialize rootdir with fpath %s.\n" [.string (translateAbspath argp.rootdir)]
  return ⟨0⟩

def bbGetattr6Svc (argp : GetattrArg) (result : GetattrRet) : Server GetattrRet := do
  let path := argp.path
  let fpath := translateAbspath path
  fprintf "Get attribute for path = %s\n" [.string fpath]
  match ← sys (.lstat fpath) with
  | none => do
    fprintf "lstat %s error\n" [.string fpath]
    return { result with ret := ← negErrno }
  | some statbuf => return {
      st_dev := toInt statbuf.st_dev
      st_ino := toInt statbuf.st_ino
      st_mode := statbuf.st_mode.toInt32.toInt
      st_nlink := toInt statbuf.st_nlink
      st_uid := statbuf.st_uid.toInt32.toInt
      st_gid := statbuf.st_gid.toInt32.toInt
      st_rdev := toInt statbuf.st_rdev
      st_size := statbuf.st_size
      st_blksize := statbuf.st_blksize
      st_blocks := statbuf.st_blocks
      st_acc_time := statbuf.st_atime
      st_mod_time := statbuf.st_mtime
      st_chg_time := statbuf.st_ctime
      ret := 0 }

def bbAccess6Svc (argp : AccessArg) : Server AccessRet := do
  let path := argp.path
  let mask := argp.mask
  let fpath := translateAbspath path
  fprintf "Access for path = %s, with mask = %d\n" [.string fpath, .bits mask]
  return ⟨← sys (.access fpath mask)⟩

def bbMkdir6Svc (argp : MkdirArg) : Server MkdirRet := do
  transmitToSecondaty argp.serverInfo fun info => .mkdir { argp with serverInfo := info }
  let ip := argp.ip
  let path := argp.path
  let mode := argp.mode
  let fpath := translateAbspath path
  fprintf "Make directory for %s with mode %d\n" [.string fpath, .bits mode]
  let parentPath ← getParentPath fpath
  checkParentDirectoryValid parentPath fpath ip .mkdir <|
    lockDirectory parentPath fun fd => do
      let ret ← sys (.mkdir fpath mode)
      fprintfIf (ret < 0) "make directory for %s with mode %d error\n" [.string fpath, .bits mode]
      let result ← unlockDirectory fd ⟨ret⟩
      if result.ret ≥ 0 then
        if (← setOwner fpath ip) < 0 then return ⟨-1⟩ else return result
      else return result

def bbRmdir6Svc (argp : RmdirArg) : Server RmdirRet := do
  transmitToSecondaty argp.serverInfo fun info => .rmdir { argp with serverInfo := info }
  let ip := argp.ip
  let path := argp.path
  let fpath := translateAbspath path
  fprintf "Remove directory for %s\n" [.string fpath]
  let parentPath ← getParentPath fpath
  checkParentDirectoryValid parentPath fpath ip .rmdir <|
    lockDirectory parentPath fun fd => do
      let ret ← sys (.rmdir fpath)
      fprintfIf (ret < 0) "remove directory for %s error\n" [.string fpath]
      unlockDirectory fd ⟨ret⟩

def bbOpendir6Svc (argp : OpendirArg) (result : OpendirRet) : Server OpendirRet := do
  let ip := argp.ip
  let path := argp.path
  let fpath := translateAbspath path
  fprintf "Open directory for %s\n" [.string fpath]
  let flagToCheck := R_REQ ||| X_REQ
  if (← isOpValid fpath ip flagToCheck) ≠ 1 then do
    fprintf "Authentication when open directory %s error\n" [.string fpath]
    return { result with ret := -EACCES }
  else
    match ← sys (.opendir fpath) with
    | none => do
      fprintf "opendir %s error\n" [.string fpath]
      return { result with ret := ← negErrno }
    | some dp => return { fd := dp.fd, ret := 0 }

def bbReaddir6Svc (argp : ReaddirArg) (result : ReaddirRet) : Server ReaddirRet := do
  let fd := argp.fd
  fprintf "Read directory for fd %d\n" [.int fd]
  let result := { result with count := 0 }
  let _ ← sys (.flock fd .sh)
  match ← sys (.fdopendir fd) with
  | none => do
    let _ ← sys (.flock fd .un)
    fprintf "opendir of fd %d error\n" [.int fd]
    return { result with ret := ← negErrno }
  | some dp => do
    let packed := packNames (← sys (.readdir dp))
    let _ ← sys (.flock fd .un)
    return { count := packed.count, entries := (List.range maxSize).map packed.buf, ret := 0 }

def bbReleasedir6Svc (argp : ReleasedirArg) : Server ReleasedirRet := do
  let fd := argp.fd
  fprintf "Close directory with fd = %d\n" [.int fd]
  match ← sys (.fdopendir fd) with
  | none => do
    fprintf "Open directory associated with fd %d error\n" [.int fd]
    return ⟨← negErrno⟩
  | some dir =>
    if (← sys (.closedir dir)) = -1 then do
      fprintf "Close directory error\n" []
      return ⟨← negErrno⟩
    else return ⟨0⟩

/-- Both parents are looked at before either is locked. -/
def bbRename6Svc (argp : RenameArg) : Server RenameRet := do
  transmitToSecondaty argp.serverInfo fun info => .rename { argp with serverInfo := info }
  let ip := argp.ip
  let path := argp.path
  let fpath := translateAbspath path
  let newpath := argp.newpath
  let fnewpath := translateAbspath newpath
  let parentPath ← getParentPath fpath
  checkParentDirectoryValid parentPath fpath ip .rename do
    let newParentPath ← getParentPath fnewpath
    checkParentDirectoryValid newParentPath fnewpath ip .rename <|
      lockDirectory parentPath fun parentFd => do
        let act : Int → Server RenameRet := fun newParentFd => do
          fprintf "Rename file from %s to %s\n" [.string fpath, .string fnewpath]
          let ret ← sys (.rename fpath fnewpath)
          fprintfIf (ret < 0) "Rename file from %s to %s error\n" [.string fpath, .string fnewpath]
          let result ← unlockDirectory parentFd ⟨ret⟩
          if parentPath ≠ newParentPath then unlockDirectory newParentFd result
          else return result
        if parentPath ≠ newParentPath then lockDirectory newParentPath act
        else act (-1)

def bbSymlink6Svc (argp : SymlinkArg) : Server SymlinkRet := do
  transmitToSecondaty argp.serverInfo fun info => .symlink { argp with serverInfo := info }
  let ip := argp.ip
  let path := argp.path
  let link := argp.link
  let flink := translateAbspath link
  fprintf "Create symlink target = %s, original path = %s\n" [.string flink, .string path]
  let linkParentPath ← getParentPath flink
  checkParentDirectoryValid linkParentPath flink ip .symlink do
    let ret ← sys (.symlink path flink)
    fprintfIf (ret = -1) "symlink error for creating link %s to file %s\n"
      [.string flink, .string path]
    if ret ≥ 0 then
      if (← setSoftlinkOwner flink ip) < 0 then return ⟨-1⟩ else return ⟨ret⟩
    else return ⟨ret⟩

def bbLink6Svc (argp : LinkArg) : Server LinkRet := do
  transmitToSecondaty argp.serverInfo fun info => .link { argp with serverInfo := info }
  let ip := argp.ip
  let path := argp.path
  let fpath := translateAbspath path
  let newpath := argp.newpath
  let fnewpath := translateAbspath newpath
  fprintf "Create hard link source = %s, new path = %s\n" [.string fpath, .string fnewpath]
  let parentPath ← getParentPath fpath
  checkParentDirectoryValid parentPath fpath ip .link do
    let newParentPath ← getParentPath fnewpath
    checkParentDirectoryValid newParentPath fnewpath ip .link do
      let ret ← sys (.link fpath fnewpath)
      fprintfIf (ret = -1) "hard link creation error for creating link %s to file %s\n"
        [.string fnewpath, .string fpath]
      if ret ≥ 0 then
        if (← setOwner fnewpath ip) < 0 then return ⟨-1⟩ else return ⟨ret⟩
      else return ⟨ret⟩

def bbReadlink6Svc (argp : ReadlinkArg) (result : ReadlinkRet) : Server ReadlinkRet := do
  let size := argp.size
  let path := argp.path
  let fpath := translateAbspath path
  fprintf "Read link %s with size %u\n" [.string fpath, .unsigned size]
  match ← sys (.readlink fpath size.toInt32.toInt) with
  | none => do
    fprintf "read link %s, with size = %u error with errno %d\n"
      [.string fpath, .unsigned size, .errno]
    return { result with ret := ← negErrno }
  | some target => return {
      buffer := (target ++ List.replicate maxSize '\x00').take maxSize
      len := target.length
      ret := 0 }

def bbMknod6Svc (argp : MknodArg) : Server MknodRet := do
  transmitToSecondaty argp.serverInfo fun info => .mknod { argp with serverInfo := info }
  let ip := argp.ip
  let path := argp.path
  let fpath := translateAbspath path
  let mode := argp.mode
  let dev := argp.dev
  fprintf "Mknod for file %s with mode %d and dev %d\n" [.string fpath, .bits mode, .int dev]
  let parentPath ← getParentPath fpath
  checkParentDirectoryValid parentPath fpath ip .mknod <|
    lockDirectory parentPath fun fd => do
      let failed : String → List PrintArg → Server MknodRet := fun fmt args => do
        let _ ← unlockDirectory fd ⟨-1⟩
        fprintf fmt args
        return ⟨-1⟩
      let owned : Server MknodRet := do
        let ret : Int := if (← setOwner fpath ip) < 0 then -1 else 0
        unlockDirectory fd ⟨ret⟩
      if isReg mode then
        let funcRet ← sys (.openPath fpath (O_CREAT ||| O_EXCL ||| O_WRONLY) mode)
        if funcRet < 0 then
          failed "mknod for regular file %s with mode %d with errno %d\n"
            [.string fpath, .bits mode, .negErrno]
        else
          let _ ← sys (.close funcRet)
          owned
      else if isFifo mode then
        let funcRet ← sys (.mkfifo fpath mode)
        if funcRet < 0 then
          failed "mknod for fifo file %s with mode %d with errno %d\n"
            [.string fpath, .bits mode, .negErrno]
        else owned
      else
        let funcRet ← sys (.mknod fpath mode dev)
        if funcRet < 0 then
          failed "mknod for device file %s with mode %d device id %d with errno %d\n"
            [.string fpath, .bits mode, .int dev, .negErrno]
        else owned

def bbTruncate6Svc (argp : TruncateArg) : Server TruncateRet := do
  transmitToSecondaty argp.serverInfo fun info => .truncate { argp with serverInfo := info }
  let path := argp.path
  let fpath := translateAbspath path
  let newsize := argp.newsize
  fprintf "Truncate file %s to new size %d\n" [.string fpath, .int newsize]
  let syscallRet ← sys (.truncate fpath newsize)
  if syscallRet < 0 then do
    fprintf "truncate file %s to new size %d fail with errno %d\n"
      [.string fpath, .int newsize, .errno]
    return ⟨← negErrno⟩
  else return ⟨0⟩

/-- A failing `unlink` is not commented on. -/
def bbUnlink6Svc (argp : UnlinkArg) : Server UnlinkRet := do
  transmitToSecondaty argp.serverInfo fun info => .unlink { argp with serverInfo := info }
  let ip := argp.ip
  let path := argp.path
  let fpath := translateAbspath path
  fprintf "Unlink file for %s\n" [.string fpath]
  let parentPath ← getParentPath fpath
  checkParentDirectoryValid parentPath fpath ip .unlink <|
    lockDirectory parentPath fun fd => do
      let ret ← sys (.unlink fpath)
      unlockDirectory fd ⟨ret⟩

def bbUtime6Svc (argp : UtimeArg) : Server UtimeRet := do
  transmitToSecondaty argp.serverInfo fun info => .utime { argp with serverInfo := info }
  let ip := argp.ip
  let path := argp.path
  let fpath := translateAbspath path
  let actime := argp.actime
  let modtime := argp.modtime
  fprintf "Utime %s with access time %ld and modification time %ld\n"
    [.string fpath, .int actime, .int modtime]
  if !(← isOwner fpath ip) then do
    fprintf "Utime failure for not being the owner of file\n" []
    return ⟨-EACCES⟩
  else do
    let ret ← sys (.utime fpath actime modtime)
    fprintfIf (ret < 0)
      "utime %s with access time %ld and modification time %ld error with errno %d\n"
      [.string fpath, .int actime, .int modtime, .errno]
    return ⟨ret⟩

def bbChmod6Svc (argp : ChmodArg) : Server ChmodRet := do
  transmitToSecondaty argp.serverInfo fun info => .chmod { argp with serverInfo := info }
  let ip := argp.ip
  let path := argp.path
  let fpath := translateAbspath path
  let mode := argp.mode
  fprintf "Change file %s to mode %d\n" [.string fpath, .bits mode]
  if !(← isOwner fpath ip) then do
    fprintf "Chmod failure for not being the owner of file\n" []
    return ⟨-EACCES⟩
  else do
    let ret ← sys (.chmod fpath mode)
    fprintfIf (ret < 0) "change file to %s mode %d error with errno %d\n"
      [.string fpath, .bits mode, .errno]
    return ⟨ret⟩

def bbChown6Svc (argp : ChownArg) : Server ChownRet := do
  transmitToSecondaty argp.serverInfo fun info => .chown { argp with serverInfo := info }
  let path := argp.path
  let fpath := translateAbspath path
  let uid := argp.uid
  let gid := argp.gid
  fprintf "Change file %s to uid %u, gid %u\n" [.string fpath, .unsigned uid, .unsigned gid]
  let syscallRet ← sys (.chown fpath uid gid)
  if syscallRet < 0 then do
    fprintf "change file to %s to uid %u, gid %u with errno %d\n"
      [.string fpath, .unsigned uid, .unsigned gid, .errno]
    return ⟨← negErrno⟩
  else return ⟨0⟩

def bbOpen6Svc (argp : OpenArg) (mode : UInt32) (result : OpenRet) : Server OpenRet := do
  let ip := argp.ip
  let path := argp.path
  let fpath := translateAbspath path
  let flags := argp.flags
  fprintf "Open file for %s with flag %d\n" [.string fpath, .bits flags]
  if (← isOpValid fpath ip (openFlagToCheck flags)) ≠ 1 then do
    fprintf "Authentication when open file %s error\n" [.string fpath]
    return { result with ret := -EACCES }
  else
    let fd ← sys (.openPath fpath flags mode)
    if fd = -1 then do
      fprintf "open file %s with flag %d error with errno %d\n"
        [.string fpath, .bits flags, .errno]
      return { fd := fd, ret := ← negErrno }
    else return { fd := fd, ret := 0 }

def bbRelease6Svc (argp : ReleaseArg) : Server ReleaseRet := do
  let fd := argp.fd
  fprintf "Close file with fd = %d\n" [.int fd]
  let closeRet ← sys (.close fd)
  if closeRet = -1 then do
    fprintf "Close file error\n" []
    return ⟨← negErrno⟩
  else return ⟨0⟩

def bbRead6Svc (argp : ReadArg) (result : ReadRet) : Server ReadRet := do
  let fd := argp.fd
  let size := argp.size
  let offset := argp.offset
  fprintf "Read file with fd = %d, with size = %u, offset = %u\n"
    [.int fd, .unsigned size, .unsigned offset]
  let _ ← sys (.flock fd .sh)
  let data ← sys (.pread fd size.toNat offset.toNat)
  let _ ← sys (.flock fd .un)
  match data with
  | none => do
    fprintf "read file with fd = %d, with size = %u, offset = %u error with errno %d\n"
      [.int fd, .unsigned size, .unsigned offset, .errno]
    return { result with ret := ← negErrno }
  | some data => return {
      buffer := (Opaque.ofBytes data).bytes
      len := data.length
      ret := 0 }

/-- What the secondary does for a descriptor of the file. -/
def openInSecondary (fpath : CStr) : Server Int := do
  let fd ← sys (.openPath fpath writeOpenFlags 0)
  fprintfIf (fd < 0) "Open file %s in the secondary server error\n" [.string fpath]
  fprintf "Open file %s with fd %d in the secondary server\n" [.string fpath, .int fd]
  return fd

def bbWrite6Svc (argp : WriteArg) (result : WriteRet) : Server WriteRet := do
  transmitToSecondaty argp.serverInfo fun info => .write { argp with serverInfo := info }
  let size := argp.size
  let offset := argp.offset
  let buf := argp.buffer
  fprintf "Write file with fd = %d, with size = %u, offset = %u\n"
    [.int argp.fd, .unsigned size, .unsigned offset]
  let isMaster := argp.serverInfo.isMaster
  let isDegraded := argp.serverInfo.isDegraded
  let fd ← if isMaster = 0 ∧ isDegraded = 0 then openInSecondary (translateAbspath argp.path)
    else pure argp.fd
  let _ ← sys (.flock fd .ex)
  let writeRet ← sys (.pwrite fd buf.bytes size.toNat offset.toNat)
  let _ ← sys (.flock fd .un)
  if writeRet = -1 then do
    fprintf "write file with fd = %d, with size = %u, offset = %u error\n"
      [.int fd, .unsigned size, .unsigned offset]
    return { result with ret := ← negErrno }
  else
    if isMaster = 0 ∧ isDegraded = 0 then
      fprintf "Close file with fd %d\n" [.int fd]
      let _ ← sys (.close fd)
    return { len := writeRet, ret := 0 }

def bbStatfs6Svc (argp : StatfsArg) (result : StatfsRet) : Server StatfsRet := do
  let path := argp.path
  let fpath := translateAbspath path
  fprintf "Stat file system with path %s\n" [.string fpath]
  match ← sys (.statvfs fpath) with
  | none => do
    fprintf "statvfs %s error\n" [.string fpath]
    return { result with ret := ← negErrno }
  | some statv => return { vfs := statv, ret := 0 }

/-- `compute_6`. -/
def compute6 (stale : Stale) : Request → Server Reply
  | .initRootdir argp => .status <$> initRootdir6Svc argp
  | .getattr argp => .getattr <$> bbGetattr6Svc argp stale.getattr
  | .access argp => .status <$> bbAccess6Svc argp
  | .mkdir argp => .status <$> bbMkdir6Svc argp
  | .rmdir argp => .status <$> bbRmdir6Svc argp
  | .opendir argp => .opendir <$> bbOpendir6Svc argp stale.opendir
  | .readdir argp => .readdir <$> bbReaddir6Svc argp stale.readdir
  | .releasedir argp => .status <$> bbReleasedir6Svc argp
  | .rename argp => .status <$> bbRename6Svc argp
  | .symlink argp => .status <$> bbSymlink6Svc argp
  | .link argp => .status <$> bbLink6Svc argp
  | .readlink argp => .readlink <$> bbReadlink6Svc argp stale.readlink
  | .mknod argp => .status <$> bbMknod6Svc argp
  | .truncate argp => .status <$> bbTruncate6Svc argp
  | .unlink argp => .status <$> bbUnlink6Svc argp
  | .utime argp => .status <$> bbUtime6Svc argp
  | .chmod argp => .status <$> bbChmod6Svc argp
  | .chown argp => .status <$> bbChown6Svc argp
  | .openFile argp => .openFile <$> bbOpen6Svc argp stale.openMode stale.openFile
  | .release argp => .status <$> bbRelease6Svc argp
  | .read argp => .read <$> bbRead6Svc argp stale.read
  | .write argp => .write <$> bbWrite6Svc argp stale.write
  | .statfs argp => .statfs <$> bbStatfs6Svc argp stale.statfs

/-! ## The same without messages -/

section

variable {α β : Type}

@[simp] theorem silence_sys (c : Sys β) : (sys c).silence = DFS.sys c := rfl

@[simp] theorem silence_rpc (c : Rpc β) : (rpc c).silence = perform (.rpc c) := rfl

@[simp] theorem silence_fprintf (fmt : String) (args : List PrintArg) :
    (fprintf fmt args).silence = pure () := rfl

@[simp] theorem silence_fprintfIf (c : Prop) [Decidable c] (fmt : String) (args : List PrintArg) :
    (fprintfIf c fmt args).silence = pure () := silence_remarkIf c _

@[simp] theorem silence_negErrno : negErrno.silence = DFS.negErrno := rfl

/-- A call with an answer that may be missing. -/
theorem silence_option {c : Sys (Option β)} {k : Option β → Server α}
    {k' : Option β → DFS.Server α} (hnone : (k none).silence = k' none)
    (hsome : ∀ b, (k (some b)).silence = k' (some b)) :
    (sys c >>= k).silence = DFS.sys c >>= k' := by
  rw [silence_bind, silence_sys]
  refine congrArg (DFS.sys c >>= ·) (funext fun b => ?_)
  cases b with
  | none => exact hnone
  | some b => exact hsome b

@[simp] theorem silence_connectServer : connectServer.silence = DFS.connectServer := by
  simp [connectServer, DFS.connectServer]

@[simp] theorem silence_complain (slaveRet : Option Reply) :
    (complain slaveRet).silence = pure () := by
  cases slaveRet <;> simp [complain]

@[simp] theorem silence_transmit (info : Identity) (slaveArg : Identity → Request) :
    (transmitToSecondaty info slaveArg).silence = DFS.transmitToSecondaty info slaveArg := by
  unfold transmitToSecondaty DFS.transmitToSecondaty
  simp

@[simp] theorem silence_getParentPath (fpath : CStr) :
    (getParentPath fpath).silence = pure (DFS.getParentPath fpath) := by
  simp [getParentPath]

@[simp] theorem silence_setOwner (fpath ip : CStr) :
    (setOwner fpath ip).silence = DFS.setOwner fpath ip := by
  simp [setOwner, DFS.setOwner]

@[simp] theorem silence_setSoftlinkOwner (flink ip : CStr) :
    (setSoftlinkOwner flink ip).silence = DFS.setSoftlinkOwner flink ip := by
  simp [setSoftlinkOwner, DFS.setSoftlinkOwner]

@[simp] theorem silence_isOwner (fpath ip : CStr) :
    (isOwner fpath ip).silence = DFS.isOwner fpath ip :=
  silence_option (by simp) fun _ => rfl

@[simp] theorem silence_isOpValid (fpath ip : CStr) (flags : UInt32) :
    (isOpValid fpath ip flags).silence = DFS.isOpValid fpath ip flags :=
  silence_option (by simp) fun _ => rfl

@[simp] theorem silence_isRootdirOpValidToDelete (fpath ip : CStr) :
    (isRootdirOpValidToDelete fpath ip).silence = DFS.isRootdirOpValidToDelete fpath ip :=
  silence_option (by simp) fun _ => rfl

@[simp] theorem silence_isParentDirValid (parentPath fpath ip : CStr) (op : OpName) :
    (isParentDirValid parentPath fpath ip op).silence =
      DFS.isParentDirValid parentPath fpath ip op := by
  simp [isParentDirValid, DFS.isParentDirValid]

@[simp] theorem silence_checkParent (parentPath fpath ip : CStr) (op : OpName)
    (rest : Server StatusRet) :
    (checkParentDirectoryValid parentPath fpath ip op rest).silence =
      DFS.checkParentDirectoryValid parentPath fpath ip op rest.silence := by
  simp [checkParentDirectoryValid, DFS.checkParentDirectoryValid]

@[simp] theorem silence_dlock (path : CStr) : (dlock path).silence = DFS.dlock path := by
  unfold dlock DFS.dlock
  rw [silence_bind, silence_fprintf, pure_bind]
  refine silence_option (by simp [dlockBad]) fun dir => ?_
  by_cases hfd : dir.fd = -1 <;> simp [hfd, dlockBad]

@[simp] theorem silence_dunlock (fd : Int) : (dunlock fd).silence = DFS.dunlock fd := by
  simp [dunlock, DFS.dunlock]

@[simp] theorem silence_lockDirectory (parentPath : CStr) (rest : Int → Server StatusRet) :
    (lockDirectory parentPath rest).silence =
      DFS.lockDirectory parentPath fun fd => (rest fd).silence := by
  simp [lockDirectory, DFS.lockDirectory]

@[simp] theorem silence_unlockDirectory (fd : Int) (result : StatusRet) :
    (unlockDirectory fd result).silence = DFS.unlockDirectory fd result := by
  simp [unlockDirectory, DFS.unlockDirectory]

@[simp] theorem silence_openInSecondary (fpath : CStr) :
    (openInSecondary fpath).silence = DFS.sys (.openPath fpath writeOpenFlags 0) := by
  simp [openInSecondary]

/-- **Without its messages** a handler is the handler that prints nothing. -/
theorem compute6_silence (stale : Stale) (r : Request) :
    (compute6 stale r).silence = DFS.compute6 stale r := by
  cases r <;> refine (silence_map _ _).trans (congrArg (_ <$> ·) ?_)
  case initRootdir argp => simp [initRootdir6Svc, DFS.initRootdir6Svc]
  case getattr argp =>
    unfold bbGetattr6Svc DFS.bbGetattr6Svc
    rw [silence_bind, silence_fprintf, pure_bind]
    exact silence_option (by simp) fun _ => rfl
  case access argp => simp [bbAccess6Svc, DFS.bbAccess6Svc]
  case mkdir argp => simp [bbMkdir6Svc, DFS.bbMkdir6Svc]
  case rmdir argp => simp [bbRmdir6Svc, DFS.bbRmdir6Svc]
  case opendir argp =>
    unfold bbOpendir6Svc DFS.bbOpendir6Svc
    simp only [silence_bind, silence_fprintf, pure_bind, silence_isOpValid, silence_ite,
      silence_pure]
    refine congrArg (DFS.isOpValid _ _ _ >>= ·) (funext fun v => if_congr Iff.rfl rfl ?_)
    exact silence_option (by simp) fun _ => rfl
  case readdir argp =>
    unfold bbReaddir6Svc DFS.bbReaddir6Svc
    simp only [silence_bind, silence_fprintf, silence_sys, pure_bind]
    refine congrArg (DFS.sys _ >>= ·) (funext fun _ => ?_)
    exact silence_option (by simp) fun _ => by simp
  case releasedir argp =>
    unfold bbReleasedir6Svc DFS.bbReleasedir6Svc
    rw [silence_bind, silence_fprintf, pure_bind]
    exact silence_option (by simp) fun _ => by simp
  case rename argp => simp [bbRename6Svc, DFS.bbRename6Svc]
  case symlink argp => simp [bbSymlink6Svc, DFS.bbSymlink6Svc]
  case link argp => simp [bbLink6Svc, DFS.bbLink6Svc]
  case readlink argp =>
    unfold bbReadlink6Svc DFS.bbReadlink6Svc
    rw [silence_bind, silence_fprintf, pure_bind]
    exact silence_option (by simp) fun _ => rfl
  case mknod argp => simp [bbMknod6Svc, DFS.bbMknod6Svc]
  case truncate argp => simp [bbTruncate6Svc, DFS.bbTruncate6Svc]
  case unlink argp => simp [bbUnlink6Svc, DFS.bbUnlink6Svc]
  case utime argp => simp [bbUtime6Svc, DFS.bbUtime6Svc]
  case chmod argp => simp [bbChmod6Svc, DFS.bbChmod6Svc]
  case chown argp => simp [bbChown6Svc, DFS.bbChown6Svc]
  case openFile argp => simp [bbOpen6Svc, DFS.bbOpen6Svc]
  case release argp => simp [bbRelease6Svc, DFS.bbRelease6Svc]
  case read argp =>
    unfold bbRead6Svc DFS.bbRead6Svc
    simp only [silence_bind, silence_fprintf, silence_sys, pure_bind]
    refine congrArg (DFS.sys _ >>= ·) (funext fun _ => ?_)
    refine congrArg (DFS.sys _ >>= ·) (funext fun data => ?_)
    refine congrArg (DFS.sys _ >>= ·) (funext fun _ => ?_)
    cases data <;> simp
  case write argp => simp [bbWrite6Svc, DFS.bbWrite6Svc]
  case statfs argp =>
    unfold bbStatfs6Svc DFS.bbStatfs6Svc
    rw [silence_bind, silence_fprintf, pure_bind]
    exact silence_option (by simp) fun _ => rfl

end

end Verbose

end DFS
