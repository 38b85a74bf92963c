import NetworkFileSystem.Effects.Run
import NetworkFileSystem.Server.Handlers

/-!
# The dispatcher and the servers (`fuse_rpc_svc.c`)

`compute6` runs the handler of a request.  Two systems are built from it.

* A single server, `serve`.  The other server is the environment: whether it can be reached and
  what it answers is part of what arrives with a request (`Peer`), so a statement about every run
  is one about every behaviour of the other side.
* A primary with its secondary, `Pair.serve`.  Every forwarded call is executed by `compute6` on
  the secondary and answered; a run in which the secondary does not answer stops there.  The
  secondary is a server with a `Peer` of its own and a list of what it has forwarded.

A server handles one request after the other, so a run is a sequence of requests.
-/

namespace DFS

open Effects Posix

/-- Memory that the dispatcher and the handlers use without initialising it: the result
structures, and where `bb_open_6_svc` does not pass a third argument to `open`. -/
structure Stale where
  getattr : GetattrRet
  opendir : OpendirRet
  readdir : ReaddirRet
  readlink : ReadlinkRet
  openFile : OpenRet
  openMode : UInt32
  read : ReadRet
  write : WriteRet
  statfs : StatfsRet

/-- Memory that happens to hold zeros. -/
def Stale.zero : Stale where
  getattr := ⟨0, 0, 0, 0, 0, 0, 0, 0, 0, 0, 0, 0, 0, 0⟩
  opendir := ⟨0, 0⟩
  readdir := ⟨0, [], 0⟩
  readlink := ⟨[], 0, 0⟩
  openFile := ⟨0, 0⟩
  openMode := 0
  read := ⟨[], 0, 0⟩
  write := ⟨0, 0⟩
  statfs := ⟨⟨0, 0, 0, 0, 0, 0, 0, 0, 0, 0, 0⟩, 0⟩

/-- `compute_6`: from the procedure number to the handler. -/
def compute6 (stale : Stale) : Request → Server Reply
  | .initRootdir argp => .status <$> initRootdir6Svc argp
  | .getattr argp => .getattr <$> bbGetattr6Svc argp stale.getattr
  | .access argp => .status <$> bbAccess6Svc argp
  | .mkdir argp => .status <$> bbMkdir6Svc argp
  | .rmdir argp => .status <$> bbRmdir6Svc argp
  | .opendir argp => .opendir <$> bbOpendir6Svc argp stale.opendir
  | .readdir argp => .readdir <$> bbReaddir6Svc argp stale.readdir
  | .releasedir argp => .status <$> bbReleasedir6Svc argp
  | .rename argp => .status <$> bbRename6Svc argp
  | .symlink argp => .status <$> bbSymlink6Svc argp
  | .link argp => .status <$> bbLink6Svc argp
  | .readlink argp => .readlink <$> bbReadlink6Svc argp stale.readlink
  | .mknod argp => .status <$> bbMknod6Svc argp
  | .truncate argp => .status <$> bbTruncate6Svc argp
  | .unlink argp => .status <$> bbUnlink6Svc argp
  | .utime argp => .status <$> bbUtime6Svc argp
  | .chmod argp => .status <$> bbChmod6Svc argp
  | .chown argp => .status <$> bbChown6Svc argp
  | .openFile argp => .openFile <$> bbOpen6Svc argp stale.openMode stale.openFile
  | .release argp => .status <$> bbRelease6Svc argp
  | .read argp => .read <$> bbRead6Svc argp stale.read
  | .write argp => .write <$> bbWrite6Svc argp stale.write
  | .statfs argp => .statfs <$> bbStatfs6Svc argp stale.statfs

/-! ## One server -/

/-- A server process, with the requests it has forwarded so far. -/
structure Host where
  os : OS
  sent : List Request

/-- The other server as one request meets it. -/
structure Peer where
  up : Bool
  answer : Request → Option Reply

/-- The RPC client of a server. -/
def Host.rpc (peer : Peer) {β : Type} : Rpc β → Host → β × Host
  | .clntCreate, h => (peer.up, h)
  | .clntCall r, h => (peer.answer r, { h with sent := h.sent ++ [r] })
  | .clntDestroy, h => ((), h)

/-- No other server. -/
def Peer.absent : Peer := ⟨false, fun _ => none⟩

/-- A server that has just been started. -/
def Host.start (fs : FS) : Host := ⟨OS.start fs, []⟩

/-- The machine of a server. -/
def server (peer : Peer) : Machine Call Host Halt where
  step
    | .os c, h => (OS.exec c h.os).map fun r => (r.1, { h with os := r.2 })
    | .rpc c, h => .ok (h.rpc peer c)

/-- A request on its arrival at a server. -/
structure Arrival where
  request : Request
  stale : Stale
  peer : Peer

/-- A request that arrives while there is no other server. -/
def Arrival.alone (r : Request) : Arrival := ⟨r, .zero, .absent⟩

/-- A server answers a request. -/
def serve (a : Arrival) (h : Host) : Except Halt (Reply × Host) :=
  (compute6 a.stale a.request).run (server a.peer) h

/-! ## A primary and its secondary -/

/-- The two servers. -/
structure Pair where
  primary : OS
  secondary : Host

/-- The forwarded requests with the replies that came back, during one request at the primary. -/
abbrev Forwarded := List (Request × Reply)

/-- What the secondary meets when a request is forwarded to it. -/
structure Relay where
  stale : Stale
  peer : Peer

namespace Pair

/-- The RPC client of the primary: the secondary executes what is forwarded. -/
def rpc (relay : Relay) {β : Type} :
    Rpc β → Pair × Forwarded → Except Halt (β × Pair × Forwarded)
  | .clntCreate, t => .ok (true, t)
  | .clntCall r, (s, log) =>
    (DFS.serve ⟨r, relay.stale, relay.peer⟩ s.secondary).map fun a =>
      (some a.1, { s with secondary := a.2 }, log ++ [(r, a.1)])
  | .clntDestroy, t => .ok ((), t)

/-- The machine of the primary. -/
def machine (relay : Relay) : Machine Call (Pair × Forwarded) Halt where
  step
    | .os c, (s, log) =>
      (OS.exec c s.primary).map fun r => (r.1, { s with primary := r.2 }, log)
    | .rpc c, t => rpc relay c t

end Pair

/-- A request on its arrival at the primary of a pair. -/
structure PairArrival where
  request : Request
  stale : Stale
  relay : Relay

/-- The primary answers a request; what it forwarded is kept beside the reply. -/
def Pair.serve (a : PairArrival) (s : Pair) : Except Halt ((Reply × Forwarded) × Pair) :=
  ((compute6 a.stale a.request).run (Pair.machine a.relay) (s, [])).map fun r =>
    ((r.1, r.2.2), r.2.1)

end DFS
