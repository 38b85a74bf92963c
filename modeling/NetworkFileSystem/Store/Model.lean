import NetworkFileSystem.Client.Answers
import NetworkFileSystem.Security.Content
import NetworkFileSystem.Service.Tables

/-!
# What the server is for

A server is a file store: a tree and the open files, without `errno`, locks, positions in
directories, messages and other servers.  `Store.step` says in one step what each request does to
it, and what it yields.
-/

namespace DFS

open Effects Posix

/-- The tree and the open files. -/
structure Store where
  fs : FS
  fds : Descriptors

/-- What never changes while a server runs: the `umask`, and the memory behind the buffer of a
request message. -/
structure Setting where
  umask : UInt32
  beyond : List UInt8

/-- The bytes that a request to write takes. -/
def Setting.taken (v : Setting) (arg : WriteArg) : List UInt8 :=
  (arg.buffer.bytes ++ v.beyond).take (min arg.size.toNat maxRwCount)

/-- A request with what its outcome depends on besides the store: the mode that a created file
gets, and whether a pipe is ready when it is opened. -/
structure Command where
  request : Request
  openMode : UInt32
  ready : Bool

/-- What comes of a request. -/
inductive Yield
  | answer (ret : Int) (x : Shown)
  | refused
  /-- The number of the descriptor. -/
  | opened (fd : Int)
  | closed
  | listed
  /-- The bytes that were read. -/
  | data (d : List UInt8)
  /-- How many bytes were written. -/
  | taken (n : ℕ)

/-- The reply says what came of the request. -/
def Yield.In : Yield → Reply → Prop
  | .answer ret x, reply => reply.ret = ret ∧ x.In reply
  | .refused, reply => reply.ret < 0
  | .opened fd, reply => reply = .openFile ⟨fd, 0⟩ ∨ reply = .opendir ⟨fd, 0⟩
  | .closed, reply => reply.ret = 0
  | .listed, reply => reply.ret = 0
  | .data d, reply => reply = .read ⟨(Opaque.ofBytes d).bytes, d.length, 0⟩
  | .taken n, reply => reply = .write ⟨n, 0⟩

namespace Store

variable (st : Store)

/-- The regular file behind a descriptor, with its content. -/
def regular (f : OpenFile) : Option (Ino × List UInt8) := do
  let i ← f.ino
  let d ← content st.fs i
  pure (i, d)

/-- An open file that can be listed: a directory that is open for reading. -/
def listable (f : OpenFile) : Bool :=
  !f.pathOnly && f.readable && (f.ino.map st.fs.isDir).getD false

def openFile (v : Setting) (arg : OpenArg) (mode : UInt32) (ready : Bool) : Yield × Store :=
  let path := translateAbspath arg.path
  if opValid st.fs path (atoi arg.ip) (openFlagToCheck arg.flags) = 1 then
    match st.fs.openAt v.umask path arg.flags mode with
    | .ok (i, fs) =>
      if (fs.node i).map Inode.kind = some .fifo ∧ ready = false then (.refused, st)
      else (.opened st.fds.nextFd, ⟨fs, st.fds.addFile (OS.opened arg.flags i)⟩)
    | .error _ => (.refused, st)
  else (.refused, st)

def opendir (arg : OpendirArg) : Yield × Store :=
  let path := translateAbspath arg.path
  if opValid st.fs path (atoi arg.ip) (R_REQ ||| X_REQ) = 1 then
    match dirOf st.fs path with
    | some i => (.opened st.fds.nextFd, { st with fds := st.fds.addFile (dirFile i) })
    | none => (.refused, st)
  else (.refused, st)

def release (arg : ReleaseArg) : Yield × Store :=
  match st.fds.file arg.fd with
  | some _ => (.closed, { st with fds := st.fds.dropFile arg.fd })
  | none => (.refused, st)

def releasedir (arg : ReleasedirArg) : Yield × Store :=
  match st.fds.file arg.fd with
  | some f =>
    if st.listable f then (.closed, { st with fds := st.fds.dropFile arg.fd }) else (.refused, st)
  | none => (.refused, st)

def readdir (arg : ReaddirArg) : Yield × Store :=
  match st.fds.file arg.fd with
  | some f => if st.listable f then (.listed, st) else (.refused, st)
  | none => (.refused, st)

def read (arg : ReadArg) : Yield × Store :=
  match st.fds.file arg.fd with
  | some f =>
    match st.regular f with
    | some (_, d) =>
      if f.readable then
        (.data ((d.drop arg.offset.toNat).take (min arg.size.toNat maxRwCount)), st)
      else (.refused, st)
    | none => (.refused, st)
  | none => (.refused, st)

/-- A write through a descriptor: at its offset, or at the end of a file that is open for
appending. -/
def write (v : Setting) (arg : WriteArg) : Yield × Store :=
  match st.fds.file arg.fd with
  | some f =>
    match st.regular f with
    | some (i, d) =>
      if f.writable then
        (.taken (v.taken arg).length, { st with
          fs := st.fs.modify i (Inode.setData (splice d
            (if f.append then d.length else arg.offset.toNat) (v.taken arg))) })
      else (.refused, st)
    | none => (.refused, st)
  | none => (.refused, st)

/-- A write by path, which goes to the end of the file.  A pipe stays open. -/
def append (v : Setting) (arg : WriteArg) : Yield × Store :=
  let fds := st.fds.addFiles (leftOpen [] st.fs (.write arg))
  match st.fs.resolve (translateAbspath arg.path) with
  | .ok i =>
    match content st.fs i with
    | some d => (.taken (v.taken arg).length, ⟨appended st.fs i d (v.taken arg), fds⟩)
    | none => (.refused, { st with fds := fds })
  | .error _ => (.refused, { st with fds := fds })

/-- What a request does. -/
def step (v : Setting) (c : Command) : Yield × Store :=
  match c.request with
  | .openFile arg => st.openFile v arg c.openMode c.ready
  | .opendir arg => st.opendir arg
  | .release arg => st.release arg
  | .releasedir arg => st.releasedir arg
  | .readdir arg => st.readdir arg
  | .read arg => st.read arg
  | .write arg => if arg.byPath then st.append v arg else st.write v arg
  | r =>
    match answerOf v.umask st.fs r with
    -- What the handler has locked stays open.
    | some x => (.answer x.ret x.shown, ⟨x.fs, st.fds.addFiles (leftOpen [] st.fs r)⟩)
    | none => (.refused, st)

end Store

end DFS
