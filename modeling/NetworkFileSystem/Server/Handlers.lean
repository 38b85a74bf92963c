import NetworkFileSystem.Server.Access

/-!
# The handlers (`fuse_rpc_server.c`, lines 300-987)

One program for each procedure, under the name of the source.  A handler whose result structure
has more than a status receives the memory that the result lies in, because on failure the source
sets `ret` only and sends back whatever the other members hold.

Every handler that changes the tree by path is written in the order of the source: forward, check,
lock, act, unlock, change the owner.

The messages to `stderr` are left out here; `Server.Verbose` has every one of them in its place.
While descriptor 2 is what the process was started with they make no difference
(`Verbose.serve_unheard`, `Verbose.servePair_unheard`).  A client can have it closed
(`bb_release_6_svc` closes any descriptor): then a message sets `errno`, and once an `open` has
taken the number it is written into that file.  So these results are about processes whose standard
error is in place:

* what becomes of contents or of the whole tree: `contents_replicated_iff`, `counterparts_iff`,
  `content_guarded_iff`, `leaves_tree_iff`, `duplicate_harmless`, `serialisable_of_orderly`,
  `contained_run`, `contained_of_tame`, and of the client `read_whole`, `write_whole_iff`,
  `read_atomic_iff`, `arrives_iff`;
* what a status says of `errno`: `travels_iff`.

Where clients can bring it about, and where two servers have to agree, the results are about the
handlers that print: `replicas_agree`, `messages_refine`, `pair_messages_refine`,
`cluster_messages_refine`, `one_tree`, `failover_unnoticed` and `store_refined`.
-/

namespace DFS

open Effects Posix

/-- A negative `errno` as a result. -/
def negErrno : Server Int := do
  return -(← sys .errno : ℕ)

/-- The value of an `int` that a wider integer is assigned to. -/
def toInt (n : Int) : Int := (Int32.ofInt n).toInt

def initRootdir6Svc (argp : InitArg) : Server InitRet := do
  transmitToSecondaty argp.serverInfo fun info => .initRootdir { argp with serverInfo := info }
  let root := dfsRoot
  if (← sys (.access root 0)) = -1 then
    if (← sys (.mkdir root 0o777)) ≠ 0 then
      let _ ← sys (.exit 1)
  let mode : UInt32 := 0o777
  if (← sys (.chmod dfsRoot mode)) ≠ 0 then
    let _ ← sys (.exit 1)
  return ⟨0⟩

def bbGetattr6Svc (argp : GetattrArg) (result : GetattrRet) : Server GetattrRet := do
  let path := argp.path
  let fpath := translateAbspath path
  match ← sys (.lstat fpath) with
  | none => return { result with ret := ← negErrno }
  | some statbuf => return {
      st_dev := toInt statbuf.st_dev
      st_ino := toInt statbuf.st_ino
      st_mode := statbuf.st_mode.toInt32.toInt
      st_nlink := toInt statbuf.st_nlink
      st_uid := statbuf.st_uid.toInt32.toInt
      st_gid := statbuf.st_gid.toInt32.toInt
      st_rdev := toInt statbuf.st_rdev
      st_size := statbuf.st_size
      st_blksize := statbuf.st_blksize
      st_blocks := statbuf.st_blocks
      st_acc_time := statbuf.st_atime
      st_mod_time := statbuf.st_mtime
      st_chg_time := statbuf.st_ctime
      ret := 0 }

def bbAccess6Svc (argp : AccessArg) : Server AccessRet := do
  let path := argp.path
  let mask := argp.mask
  let fpath := translateAbspath path
  return ⟨← sys (.access fpath mask)⟩

def bbMkdir6Svc (argp : MkdirArg) : Server MkdirRet := do
  transmitToSecondaty argp.serverInfo fun info => .mkdir { argp with serverInfo := info }
  let ip := argp.ip
  let path := argp.path
  let mode := argp.mode
  let fpath := translateAbspath path
  let parentPath := getParentPath fpath
  checkParentDirectoryValid parentPath fpath ip .mkdir <|
    lockDirectory parentPath fun fd => do
      let ret ← sys (.mkdir fpath mode)
      let result ← unlockDirectory fd ⟨ret⟩
      if result.ret ≥ 0 then
        if (← setOwner fpath ip) < 0 then return ⟨-1⟩ else return result
      else return result

def bbRmdir6Svc (argp : RmdirArg) : Server RmdirRet := do
  transmitToSecondaty argp.serverInfo fun info => .rmdir { argp with serverInfo := info }
  let ip := argp.ip
  let path := argp.path
  let fpath := translateAbspath path
  let parentPath := getParentPath fpath
  checkParentDirectoryValid parentPath fpath ip .rmdir <|
    lockDirectory parentPath fun fd => do
      let ret ← sys (.rmdir fpath)
      unlockDirectory fd ⟨ret⟩

def bbOpendir6Svc (argp : OpendirArg) (result : OpendirRet) : Server OpendirRet := do
  let ip := argp.ip
  let path := argp.path
  let fpath := translateAbspath path
  let flagToCheck := R_REQ ||| X_REQ
  if (← isOpValid fpath ip flagToCheck) ≠ 1 then
    return { result with ret := -EACCES }
  else
    match ← sys (.opendir fpath) with
    | none => return { result with ret := ← negErrno }
    | some dp => return { fd := dp.fd, ret := 0 }

/-! ## Listing a directory -/

/-- The local variables of the loop in `bb_readdir_6_svc`; `buf` is the memory from the start of
the buffer on. -/
structure Packing where
  offset : ℕ
  count : ℕ
  buf : ℕ → Char

/-- `memcpy(buf + offset, s, strlen(s))`. -/
def memcpyAt (buf : ℕ → Char) (offset : ℕ) (s : List Char) : ℕ → Char := fun k =>
  if offset ≤ k ∧ k < offset + s.length then s.getD (k - offset) '\x00' else buf k

/-- One round of the loop. -/
def Packing.add (p : Packing) (entryName : Name) : Packing where
  offset := p.offset + (entryName.length + 1)
  count := p.count + 1
  buf := memcpyAt p.buf p.offset entryName

/-- The loop over the names that `readdir` returns. -/
def packNames (names : List Name) : Packing :=
  names.foldl Packing.add ⟨0, 0, fun _ => '\x00'⟩

def bbReaddir6Svc (argp : ReaddirArg) (result : ReaddirRet) : Server ReaddirRet := do
  let fd := argp.fd
  let result := { result with count := 0 }
  let _ ← sys (.flock fd .sh)
  match ← sys (.fdopendir fd) with
  | none => do
    let _ ← sys (.flock fd .un)
    return { result with ret := ← negErrno }
  | some dp => do
    let packed := packNames (← sys (.readdir dp))
    let _ ← sys (.flock fd .un)
    return { count := packed.count, entries := (List.range maxSize).map packed.buf, ret := 0 }

def bbReleasedir6Svc (argp : ReleasedirArg) : Server ReleasedirRet := do
  let fd := argp.fd
  match ← sys (.fdopendir fd) with
  | none => return ⟨← negErrno⟩
  | some dir =>
    if (← sys (.closedir dir)) = -1 then return ⟨← negErrno⟩
    else return ⟨0⟩

/-! ## Names and links -/

def bbRename6Svc (argp : RenameArg) : Server RenameRet := do
  transmitToSecondaty argp.serverInfo fun info => .rename { argp with serverInfo := info }
  let ip := argp.ip
  let path := argp.path
  let fpath := translateAbspath path
  let newpath := argp.newpath
  let fnewpath := translateAbspath newpath
  let parentPath := getParentPath fpath
  let newParentPath := getParentPath fnewpath
  checkParentDirectoryValid parentPath fpath ip .rename <|
    checkParentDirectoryValid newParentPath fnewpath ip .rename <|
      lockDirectory parentPath fun parentFd => do
        -- With one parent directory only one lock is taken, to avoid a deadlock.
        let act : Int → Server RenameRet := fun newParentFd => do
          let ret ← sys (.rename fpath fnewpath)
          let result ← unlockDirectory parentFd ⟨ret⟩
          if parentPath ≠ newParentPath then unlockDirectory newParentFd result
          else return result
        if parentPath ≠ newParentPath then lockDirectory newParentPath act
        else act (-1)

def bbSymlink6Svc (argp : SymlinkArg) : Server SymlinkRet := do
  transmitToSecondaty argp.serverInfo fun info => .symlink { argp with serverInfo := info }
  let ip := argp.ip
  let path := argp.path
  let link := argp.link
  let flink := translateAbspath link
  let linkParentPath := getParentPath flink
  checkParentDirectoryValid linkParentPath flink ip .symlink do
    let ret ← sys (.symlink path flink)
    if ret ≥ 0 then
      if (← setSoftlinkOwner flink ip) < 0 then return ⟨-1⟩ else return ⟨ret⟩
    else return ⟨ret⟩

def bbLink6Svc (argp : LinkArg) : Server LinkRet := do
  transmitToSecondaty argp.serverInfo fun info => .link { argp with serverInfo := info }
  let ip := argp.ip
  let path := argp.path
  let fpath := translateAbspath path
  let newpath := argp.newpath
  let fnewpath := translateAbspath newpath
  let parentPath := getParentPath fpath
  let newParentPath := getParentPath fnewpath
  checkParentDirectoryValid parentPath fpath ip .link <|
    checkParentDirectoryValid newParentPath fnewpath ip .link do
      let ret ← sys (.link fpath fnewpath)
      if ret ≥ 0 then
        if (← setOwner fnewpath ip) < 0 then return ⟨-1⟩ else return ⟨ret⟩
      else return ⟨ret⟩

def bbReadlink6Svc (argp : ReadlinkArg) (result : ReadlinkRet) : Server ReadlinkRet := do
  let size := argp.size
  let path := argp.path
  let fpath := translateAbspath path
  -- The size is converted to the `int` that the system call takes.
  match ← sys (.readlink fpath size.toInt32.toInt) with
  | none => return { result with ret := ← negErrno }
  | some target => return {
      buffer := (target ++ List.replicate maxSize '\x00').take maxSize
      len := target.length
      ret := 0 }

/-- The type bits of a mode: `S_ISREG`, `S_ISFIFO`. -/
def isReg (mode : UInt32) : Bool := mode &&& S_IFMT = S_IFREG

def isFifo (mode : UInt32) : Bool := mode &&& S_IFMT = S_IFIFO

def bbMknod6Svc (argp : MknodArg) : Server MknodRet := do
  transmitToSecondaty argp.serverInfo fun info => .mknod { argp with serverInfo := info }
  let ip := argp.ip
  let path := argp.path
  let fpath := translateAbspath path
  let mode := argp.mode
  let dev := argp.dev
  let parentPath := getParentPath fpath
  checkParentDirectoryValid parentPath fpath ip .mknod <|
    lockDirectory parentPath fun fd => do
      let failed : Server MknodRet := do
        let _ ← unlockDirectory fd ⟨-1⟩
        return ⟨-1⟩
      let owned : Server MknodRet := do
        let ret : Int := if (← setOwner fpath ip) < 0 then -1 else 0
        unlockDirectory fd ⟨ret⟩
      if isReg mode then
        let funcRet ← sys (.openPath fpath (O_CREAT ||| O_EXCL ||| O_WRONLY) mode)
        if funcRet < 0 then failed
        else
          let _ ← sys (.close funcRet)
          owned
      else if isFifo mode then
        let funcRet ← sys (.mkfifo fpath mode)
        if funcRet < 0 then failed else owned
      else
        let funcRet ← sys (.mknod fpath mode dev)
        if funcRet < 0 then failed else owned

def bbTruncate6Svc (argp : TruncateArg) : Server TruncateRet := do
  transmitToSecondaty argp.serverInfo fun info => .truncate { argp with serverInfo := info }
  let path := argp.path
  let fpath := translateAbspath path
  let newsize := argp.newsize
  let syscallRet ← sys (.truncate fpath newsize)
  if syscallRet < 0 then return ⟨← negErrno⟩
  else return ⟨0⟩

def bbUnlink6Svc (argp : UnlinkArg) : Server UnlinkRet := do
  transmitToSecondaty argp.serverInfo fun info => .unlink { argp with serverInfo := info }
  let ip := argp.ip
  let path := argp.path
  let fpath := translateAbspath path
  let parentPath := getParentPath fpath
  checkParentDirectoryValid parentPath fpath ip .unlink <|
    lockDirectory parentPath fun fd => do
      let ret ← sys (.unlink fpath)
      unlockDirectory fd ⟨ret⟩

/-! ## Attributes -/

def bbUtime6Svc (argp : UtimeArg) : Server UtimeRet := do
  transmitToSecondaty argp.serverInfo fun info => .utime { argp with serverInfo := info }
  let ip := argp.ip
  let path := argp.path
  let fpath := translateAbspath path
  let actime := argp.actime
  let modtime := argp.modtime
  if !(← isOwner fpath ip) then return ⟨-EACCES⟩
  else return ⟨← sys (.utime fpath actime modtime)⟩

def bbChmod6Svc (argp : ChmodArg) : Server ChmodRet := do
  transmitToSecondaty argp.serverInfo fun info => .chmod { argp with serverInfo := info }
  let ip := argp.ip
  let path := argp.path
  let fpath := translateAbspath path
  let mode := argp.mode
  if !(← isOwner fpath ip) then return ⟨-EACCES⟩
  else return ⟨← sys (.chmod fpath mode)⟩

def bbChown6Svc (argp : ChownArg) : Server ChownRet := do
  transmitToSecondaty argp.serverInfo fun info => .chown { argp with serverInfo := info }
  let path := argp.path
  let fpath := translateAbspath path
  let uid := argp.uid
  let gid := argp.gid
  let syscallRet ← sys (.chown fpath uid gid)
  if syscallRet < 0 then return ⟨← negErrno⟩
  else return ⟨0⟩

/-! ## Open files -/

/-- What `bb_open_6_svc` checks for an access mode. -/
def openFlagToCheck (flags : UInt32) : UInt32 :=
  let flagToCheck : UInt32 := 0
  let accMode := flags &&& O_ACCMODE
  let flagToCheck :=
    if accMode = O_RDONLY ∨ accMode = O_RDWR then flagToCheck ||| R_REQ else flagToCheck
  if accMode = O_WRONLY ∨ accMode = O_RDWR then flagToCheck ||| W_REQ else flagToCheck

/-- `mode` is what `open` finds where its third argument would be. -/
def bbOpen6Svc (argp : OpenArg) (mode : UInt32) (result : OpenRet) : Server OpenRet := do
  let ip := argp.ip
  let path := argp.path
  let fpath := translateAbspath path
  let flags := argp.flags
  if (← isOpValid fpath ip (openFlagToCheck flags)) ≠ 1 then
    return { result with ret := -EACCES }
  else
    let fd ← sys (.openPath fpath flags mode)
    if fd = -1 then return { fd := fd, ret := ← negErrno }
    else return { fd := fd, ret := 0 }

def bbRelease6Svc (argp : ReleaseArg) : Server ReleaseRet := do
  let fd := argp.fd
  let closeRet ← sys (.close fd)
  if closeRet = -1 then return ⟨← negErrno⟩
  else return ⟨0⟩

def bbRead6Svc (argp : ReadArg) (result : ReadRet) : Server ReadRet := do
  let fd := argp.fd
  let size := argp.size
  let offset := argp.offset
  let _ ← sys (.flock fd .sh)
  let data ← sys (.pread fd size.toNat offset.toNat)
  let _ ← sys (.flock fd .un)
  match data with
  | none => return { result with ret := ← negErrno }
  | some data => return {
      buffer := (Opaque.ofBytes data).bytes
      len := data.length
      ret := 0 }

/-- The flags with which the secondary opens the file of a write: `O_WRONLY | O_APPEND |
O_LARGEFILE`. -/
abbrev writeOpenFlags : UInt32 := 33793

example : writeOpenFlags = O_WRONLY ||| O_APPEND ||| O_LARGEFILE := by decide

/-- The primary uses the descriptor of the request; the secondary opens the path. -/
def bbWrite6Svc (argp : WriteArg) (result : WriteRet) : Server WriteRet := do
  transmitToSecondaty argp.serverInfo fun info => .write { argp with serverInfo := info }
  let size := argp.size
  let offset := argp.offset
  let buf := argp.buffer
  let isMaster := argp.serverInfo.isMaster
  let isDegraded := argp.serverInfo.isDegraded
  let fd ← if isMaster = 0 ∧ isDegraded = 0 then
      sys (.openPath (translateAbspath argp.path) writeOpenFlags 0)
    else pure argp.fd
  let _ ← sys (.flock fd .ex)
  let writeRet ← sys (.pwrite fd buf.bytes size.toNat offset.toNat)
  let _ ← sys (.flock fd .un)
  if writeRet = -1 then return { result with ret := ← negErrno }
  else
    if isMaster = 0 ∧ isDegraded = 0 then
      let _ ← sys (.close fd)
    return { len := writeRet, ret := 0 }

def bbStatfs6Svc (argp : StatfsArg) (result : StatfsRet) : Server StatfsRet := do
  let path := argp.path
  let fpath := translateAbspath path
  match ← sys (.statvfs fpath) with
  | none => return { result with ret := ← negErrno }
  | some statv => return { vfs := statv, ret := 0 }

end DFS
