import NetworkFileSystem.Client.Calls

/-!
# The operations of the client (`tweakfs.c`, lines 175-1230)

One program for each entry of `bb_oper` that the source implements, under its name.  An operation
receives the arguments of FUSE and the memory that its reply structure lies in; what it hands back
to the caller goes through the calls of `Net`.
-/

namespace DFS

open Effects Posix

namespace Client

/-! ## Attributes -/

/-- `init_rootdir`: ask the server to initialise the root directory. -/
def initRootdir (m : Mount) (unset : Unset) : Operation Unit := do
  let ret ← callOnce (fun info => .initRootdir {
    serverInfo := info, ip := m.ip, rootdir := m.rootdir }) Reply.status? unset.init
  if ret.ret < 0 then return (← net (.exit 1)).elim
  else return ()

/-- What `bb_getattr` assigns to the members of its `struct stat`. -/
def statOf (ret : GetattrRet) : Stat where
  st_dev := (UInt64.ofInt ret.st_dev).toNat
  st_ino := (UInt64.ofInt ret.st_ino).toNat
  st_mode := UInt32.ofInt ret.st_mode
  st_nlink := (UInt64.ofInt ret.st_nlink).toNat
  st_uid := UInt32.ofInt ret.st_uid
  st_gid := UInt32.ofInt ret.st_gid
  st_rdev := (UInt64.ofInt ret.st_rdev).toNat
  st_size := ret.st_size
  st_blksize := ret.st_blksize
  st_blocks := ret.st_blocks
  st_atime := ret.st_acc_time
  st_mtime := ret.st_mod_time
  st_ctime := ret.st_chg_time

/-- The first function for the file system first has the server initialise the root. -/
def initializeOnce (m : Mount) (unset : Unset) : Operation Unit := do
  if ← net .initialized then return ()
  else
    initRootdir m unset
    net .setInitialized

def bbGetattr (m : Mount) (unset : Unset) (path : CStr) : Operation Int := do
  initializeOnce m unset
  let fpath := bbFullpath path
  let ret ← callOnce (fun _ => .getattr { ip := m.ip, path := fpath }) Reply.getattr? unset.getattr
  if ret.ret < 0 then return ret.ret
  else
    net (.setStat (statOf ret))
    return 0

def bbReadlink (m : Mount) (unset : Unset) (path : CStr) (size : UInt64) : Operation Int := do
  let fpath := bbFullpath path
  let ret ← callOnce (fun _ => .readlink {
    ip := m.ip, path := fpath, size := (size - 1).toUInt32 }) Reply.readlink? unset.readlink
  net (.strncpy ret.buffer size)
  if ret.ret = -1 then return ret.ret
  else
    net (.terminate ret.len)
    return 0

def bbStatfs (_m : Mount) (unset : Unset) (path : CStr) : Operation Int := do
  let (clnt, _) ← connectServer
  let fpath := bbFullpath path
  let ret ← stub clnt (.statfs { path := fpath }) Reply.statfs? unset.statfs
  if ret.ret < 0 then
    net (.clntDestroy clnt)
    return -1
  else
    net (.setStatv ret.vfs)
    net (.clntDestroy clnt)
    return 0

/-! ## Names

The operations of this kind send one request and return the status that they find in the reply
structure. -/

/-- One request; its status is the result. -/
def statusOf (unset : Unset) (r : Identity → Request) : Operation Int := do
  let ret ← callOnce r Reply.status? unset.status
  return ret.ret

/-- One request; `-1` for a negative status. -/
def statusOrMinusOne (unset : Unset) (r : Identity → Request) : Operation Int := do
  let ret ← callOnce r Reply.status? unset.status
  if ret.ret < 0 then return -1
  else return 0

def bbMknod (m : Mount) (unset : Unset) (path : CStr) (mode : UInt32) (dev : UInt64) :
    Operation Int :=
  statusOf unset fun info => .mknod {
    ip := m.ip, serverInfo := info, path := bbFullpath path, mode := mode, dev := toInt dev.toNat }

def bbMkdir (m : Mount) (unset : Unset) (path : CStr) (mode : UInt32) : Operation Int :=
  statusOf unset fun info => .mkdir {
    ip := m.ip, serverInfo := info, path := bbFullpath path, mode := mode }

def bbUnlink (m : Mount) (unset : Unset) (path : CStr) : Operation Int :=
  statusOf unset fun info => .unlink { ip := m.ip, serverInfo := info, path := bbFullpath path }

def bbRmdir (m : Mount) (unset : Unset) (path : CStr) : Operation Int :=
  statusOf unset fun info => .rmdir { ip := m.ip, serverInfo := info, path := bbFullpath path }

def bbSymlink (m : Mount) (unset : Unset) (path link : CStr) : Operation Int :=
  statusOf unset fun info => .symlink {
    ip := m.ip, serverInfo := info, path := bbFullpath path, link := bbFullpath link }

def bbRename (m : Mount) (unset : Unset) (path newpath : CStr) : Operation Int :=
  statusOf unset fun info => .rename {
    ip := m.ip, serverInfo := info, path := bbFullpath path, newpath := bbFullpath newpath }

def bbLink (m : Mount) (unset : Unset) (path newpath : CStr) : Operation Int :=
  statusOrMinusOne unset fun info => .link {
    ip := m.ip, serverInfo := info, path := bbFullpath path, newpath := bbFullpath newpath }

def bbChmod (m : Mount) (unset : Unset) (path : CStr) (mode : UInt32) : Operation Int :=
  statusOf unset fun info => .chmod {
    ip := m.ip, serverInfo := info, path := bbFullpath path, mode := mode }

/-- Not allowed on a distributed file system. -/
def bbChown (_path : CStr) (_uid _gid : UInt32) : Operation Int := return -1

def bbTruncate (m : Mount) (unset : Unset) (path : CStr) (newsize : Int64) : Operation Int :=
  statusOf unset fun info => .truncate {
    ip := m.ip, serverInfo := info, path := bbFullpath path, newsize := toInt newsize.toInt }

def bbUtime (m : Mount) (unset : Unset) (path : CStr) (actime modtime : Int) : Operation Int :=
  statusOf unset fun info => .utime {
    ip := m.ip, serverInfo := info, path := bbFullpath path, actime := actime, modtime := modtime }

def bbAccess (m : Mount) (unset : Unset) (path : CStr) (mask : UInt32) : Operation Int :=
  statusOf unset fun _ => .access { ip := m.ip, path := bbFullpath path, mask := mask }

/-! ## Open files -/

/-- `struct fuse_file_info`, as far as it is read. -/
structure FileInfo where
  flags : UInt32
  fh : UInt64

/-- `fi->fh` as the `int` of a message. -/
def FileInfo.fd (fi : FileInfo) : Int := fi.fh.toUInt32.toInt32.toInt

def bbOpen (m : Mount) (unset : Unset) (path : CStr) (fi : FileInfo) : Operation Int := do
  let fpath := bbFullpath path
  let ret ← callOnce (fun _ => .openFile { ip := m.ip, path := fpath, flags := fi.flags })
    Reply.openFile? unset.openFile
  if ret.ret < 0 then return -1
  else
    net (.setHandle (UInt64.ofInt ret.fd))
    return 0

/-- The loop of `bb_read`, with its local variables `total_len`, `arg` and `ret`. -/
def readRounds (clnt : Clnt) (size : UInt64) : ℕ → Int → ReadArg → ReadRet → Operation Int
  | 0, _, _, _ => return (← net .more).elim
  | n + 1, totalLen, arg, ret =>
    if UInt64.ofInt totalLen < size then do
      let ret ← stub clnt (.read arg) Reply.read? ret
      if ret.ret < 0 then
        net (.clntDestroy clnt)
        return -1
      else
        let len := ret.len
        if len = 0 then
          net (.clntDestroy clnt)
          return totalLen
        else
          net (.store totalLen (Opaque.ofBytes ret.buffer))
          let totalLen := toInt (totalLen + len)
          let leftSize := toInt (size - UInt64.ofInt totalLen).toNat
          readRounds clnt size n totalLen { arg with
            offset := arg.offset + UInt32.ofInt len
            size := UInt32.ofInt (if leftSize ≤ maxSize then leftSize else maxSize) } ret
    else do
      net (.clntDestroy clnt)
      return totalLen

def bbRead (rounds : ℕ) (m : Mount) (unset : Unset) (_path : CStr) (size : UInt64)
    (offset : Int64) (fi : FileInfo) : Operation Int := do
  let (clnt, _) ← connectServer
  readRounds clnt size rounds 0 {
    ip := m.ip
    fd := fi.fd
    size := if size ≤ UInt64.ofNat maxSize then size.toUInt32 else UInt32.ofNat maxSize
    offset := UInt32.ofInt offset.toInt } unset.read

/-- The loop of `bb_write`, with its local variables `total_len`, `arg` and `ret`. -/
def writeRounds (clnt : Clnt) (size : UInt64) (offset : Int64) :
    ℕ → Int → WriteArg → WriteRet → Operation Int
  | 0, _, _, _ => return (← net .more).elim
  | n + 1, totalLen, arg, ret => do
    let ret ← stub clnt (.write arg) Reply.write? ret
    if ret.ret < 0 then
      net (.clntDestroy clnt)
      return -1
    else
      let len := ret.len
      let totalLen := toInt (totalLen + len)
      -- The loop is left without dropping the handle.
      if UInt64.ofInt totalLen = size then return totalLen
      else
        let buffer ← net (.load totalLen)
        writeRounds clnt size offset n totalLen { arg with
          size := (size - UInt64.ofInt len).toUInt32
          offset := UInt32.ofInt (offset.toInt + len)
          buffer := buffer } ret

def bbWrite (rounds : ℕ) (m : Mount) (unset : Unset) (path : CStr) (size : UInt64)
    (offset : Int64) (fi : FileInfo) : Operation Int := do
  let (clnt, isDegraded) ← connectServer
  let fpath := bbFullpath path
  let buffer ← net (.load 0)
  writeRounds clnt size offset rounds 0 {
    ip := m.ip
    serverInfo := getIdentity isDegraded
    fd := fi.fd
    path := fpath
    size := size.toUInt32
    offset := UInt32.ofInt offset.toInt
    buffer := buffer } unset.write

def bbRelease (m : Mount) (unset : Unset) (_path : CStr) (fi : FileInfo) : Operation Int :=
  statusOrMinusOne unset fun _ => .release { ip := m.ip, fd := fi.fd }

/-! ## Directories -/

def bbOpendir (m : Mount) (unset : Unset) (path : CStr) (_fi : FileInfo) : Operation Int := do
  let fpath := bbFullpath path
  let ret ← callOnce (fun _ => .opendir { ip := m.ip, path := fpath }) Reply.opendir? unset.opendir
  if ret.ret ≠ 0 then return -1
  else
    net (.setHandle (UInt64.ofInt ret.fd))
    return 0

/-- The loop of `bb_readdir`: `entries` points into the reply. -/
def fillEntries : ℕ → List Char → Operation Int
  | 0, _ => return 0
  | n + 1, entries => do
    let name := entries.takeWhile (· ≠ '\x00')
    if (← net (.fill name)) ≠ 0 then return -ENOMEM
    else fillEntries n (entries.drop (name.length + 1))

def bbReaddir (_m : Mount) (unset : Unset) (_path : CStr) (fi : FileInfo) : Operation Int := do
  let ret ← callOnce (fun _ => .readdir { fd := fi.fd }) Reply.readdir? unset.readdir
  if ret.ret ≠ 0 then return -1
  else fillEntries ret.count.toNat ret.entries

def bbReleasedir (_m : Mount) (unset : Unset) (_path : CStr) (fi : FileInfo) : Operation Int :=
  statusOrMinusOne unset fun _ => .releasedir { fd := fi.fd }

/-! ## All operations -/

/-- An operation that FUSE asks for, with its arguments. -/
inductive Fuse
  | getattr (path : CStr)
  | readlink (path : CStr) (size : UInt64)
  | mknod (path : CStr) (mode : UInt32) (dev : UInt64)
  | mkdir (path : CStr) (mode : UInt32)
  | unlink (path : CStr)
  | rmdir (path : CStr)
  | symlink (path link : CStr)
  | rename (path newpath : CStr)
  | link (path newpath : CStr)
  | chmod (path : CStr) (mode : UInt32)
  | chown (path : CStr) (uid gid : UInt32)
  | truncate (path : CStr) (newsize : Int64)
  | utime (path : CStr) (actime modtime : Int)
  | openFile (path : CStr) (fi : FileInfo)
  | read (path : CStr) (size : UInt64) (offset : Int64) (fi : FileInfo)
  | write (path : CStr) (size : UInt64) (offset : Int64) (fi : FileInfo)
  | statfs (path : CStr)
  | release (path : CStr) (fi : FileInfo)
  | opendir (path : CStr) (fi : FileInfo)
  | readdir (path : CStr) (fi : FileInfo)
  | releasedir (path : CStr) (fi : FileInfo)
  | access (path : CStr) (mask : UInt32)

/-- `bb_oper`, with the number of rounds that the loops may take. -/
def operation (rounds : ℕ) (m : Mount) (unset : Unset) : Fuse → Operation Int
  | .getattr path => bbGetattr m unset path
  | .readlink path size => bbReadlink m unset path size
  | .mknod path mode dev => bbMknod m unset path mode dev
  | .mkdir path mode => bbMkdir m unset path mode
  | .unlink path => bbUnlink m unset path
  | .rmdir path => bbRmdir m unset path
  | .symlink path link => bbSymlink m unset path link
  | .rename path newpath => bbRename m unset path newpath
  | .link path newpath => bbLink m unset path newpath
  | .chmod path mode => bbChmod m unset path mode
  | .chown path uid gid => bbChown path uid gid
  | .truncate path newsize => bbTruncate m unset path newsize
  | .utime path actime modtime => bbUtime m unset path actime modtime
  | .openFile path fi => bbOpen m unset path fi
  | .read path size offset fi => bbRead rounds m unset path size offset fi
  | .write path size offset fi => bbWrite rounds m unset path size offset fi
  | .statfs path => bbStatfs m unset path
  | .release path fi => bbRelease m unset path fi
  | .opendir path fi => bbOpendir m unset path fi
  | .readdir path fi => bbReaddir m unset path fi
  | .releasedir path fi => bbReleasedir m unset path fi
  | .access path mask => bbAccess m unset path mask

end Client

end DFS
