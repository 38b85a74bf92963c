import NetworkFileSystem.Server.Dispatch

/-!
# What a client calls (`tweakfs.c`, lines 1-173)

A client is a family of programs over `Net`: the RPC client library with the two hosts that the
client is started with, the memory that the caller of an operation passes in, and the process's own
`exit`.  The network is a parameter of the machine (`Network`), so that a statement about every
network is one about every behaviour of the servers and of the connection.

A loop of the source takes the number of its rounds as an argument; a run that needs more stops
with `Stop.rounds`, which is how a run that goes on for ever looks from any finite number.
-/

namespace DFS

open Effects Posix

namespace Client

/-- The two hosts that a client is started with. -/
inductive HostName
  | host1 | host2
  deriving DecidableEq, Repr

/-- A client handle of the RPC library. -/
structure Clnt where
  id : ℕ
  host : HostName
  deriving DecidableEq, Repr

/-- What a client calls. -/
inductive Net : Type → Type
  | clntCreate (host : HostName) : Net (Option Clnt)
  /-- The stub of a procedure: no reply when it does not return `RPC_SUCCESS`. -/
  | clntCall (clnt : Clnt) (r : Request) : Net (Option Reply)
  | clntDestroy (clnt : Clnt) : Net Unit
  | exit (status : Int) : Net Empty
  /-- The rounds of a loop are used up. -/
  | more : Net Empty
  | initialized : Net Bool
  | setInitialized : Net Unit
  | setStat (st : Stat) : Net Unit
  | setStatv (st : StatVfs) : Net Unit
  | setHandle (fh : UInt64) : Net Unit
  /-- `memmove(buf + pos, bytes, MAX_SIZE)`. -/
  | store (pos : Int) (bytes : Opaque) : Net Unit
  /-- `memcpy(arg.buffer, buf + pos, MAX_SIZE)`. -/
  | load (pos : Int) : Net Opaque
  | strncpy (src : List Char) (n : UInt64) : Net Unit
  | terminate (pos : Int) : Net Unit
  /-- `filler(buf, name, NULL, 0)`. -/
  | fill (name : CStr) : Net Int

/-- A program of the client. -/
abbrev Operation (α : Type) := Prog Net α

def net {β : Type} (c : Net β) : Operation β := Prog.perform c

/-! ## The memory of the caller -/

/-- What the caller of an operation passes in to be filled. -/
structure Caller where
  stat : Stat
  statv : StatVfs
  /-- `fi->fh`. -/
  fh : UInt64
  /-- The memory around the data buffer, by the distance from its start. -/
  data : Int → UInt8
  /-- The memory around the buffer of `readlink`. -/
  link : Int → Char
  /-- The names that `filler` has taken. -/
  names : List CStr

namespace Caller

/-- Memory that holds zeros. -/
def blank : Caller where
  stat := ⟨0, 0, 0, 0, 0, 0, 0, 0, 0, 0, 0, 0, 0⟩
  statv := ⟨0, 0, 0, 0, 0, 0, 0, 0, 0, 0, 0⟩
  fh := 0
  data _ := 0
  link _ := '\x00'
  names := []

/-- The bytes of the message buffer, put into memory from `pos` on. -/
def store (c : Caller) (pos : Int) (bytes : Opaque) : Caller :=
  { c with data := fun k =>
      if pos ≤ k ∧ k < pos + maxSize then bytes.bytes.getD (k - pos).toNat 0 else c.data k }

/-- As many bytes as the message buffer has, from `pos` on. -/
def load (c : Caller) (pos : Int) : Opaque where
  bytes := (List.range maxSize).map fun k : ℕ => c.data (pos + (k : Int))
  length_eq := by rw [List.length_map, List.length_range]

/-- `strncpy`: up to the end of the string, then zeros. -/
def strncpy (c : Caller) (src : List Char) (n : UInt64) : Caller :=
  { c with link := fun k =>
      if 0 ≤ k ∧ k < n.toNat then (src.takeWhile (· ≠ '\x00')).getD k.toNat '\x00'
      else c.link k }

/-- `buf[pos] = '\0'`. -/
def terminate (c : Caller) (pos : Int) : Caller :=
  { c with link := fun k => if k = pos then '\x00' else c.link k }

end Caller

/-! ## The network -/

/-- The two hosts and the connections to them, as a client sees them. -/
structure Network (σ : Type) where
  up : HostName → σ → Bool
  call : HostName → Request → σ → Option Reply × σ
  /-- What `filler` answers, by the names that it has taken. -/
  filler : List CStr → CStr → Int

/-- One call of a stub, with the caller's memory as it was. -/
structure Exchange where
  host : HostName
  request : Request
  reply : Option Reply
  before : Caller

/-- A client with its surroundings. -/
structure Station (σ : Type) where
  world : σ
  caller : Caller
  initialized : Bool
  /-- The client handles that are not destroyed. -/
  live : List Clnt
  /-- How many client handles were made. -/
  made : ℕ
  log : List Exchange

/-- Why a client never returns. -/
inductive Stop
  | exit
  | rounds
  deriving DecidableEq, Repr

variable {σ : Type}

namespace Network

variable (w : Network σ)

/-- What the stub of a procedure gets; an answer that does not decode is none. -/
def answer (host : HostName) (r : Request) (world : σ) : Option Reply :=
  (w.call host r world).1.filter (·.answers r)

def exec {β : Type} : Net β → Station σ → Except Stop (β × Station σ)
  | .clntCreate host, s =>
    if w.up host s.world then
      let clnt : Clnt := ⟨s.made, host⟩
      .ok (some clnt, { s with live := clnt :: s.live, made := s.made + 1 })
    else .ok (none, s)
  | .clntCall clnt r, s =>
    .ok (w.answer clnt.host r s.world, { s with
      world := (w.call clnt.host r s.world).2
      log := s.log ++ [⟨clnt.host, r, w.answer clnt.host r s.world, s.caller⟩] })
  | .clntDestroy clnt, s => .ok ((), { s with live := s.live.erase clnt })
  | .exit _, _ => .error .exit
  | .more, _ => .error .rounds
  | .initialized, s => .ok (s.initialized, s)
  | .setInitialized, s => .ok ((), { s with initialized := true })
  | .setStat st, s => .ok ((), { s with caller := { s.caller with stat := st } })
  | .setStatv st, s => .ok ((), { s with caller := { s.caller with statv := st } })
  | .setHandle fh, s => .ok ((), { s with caller := { s.caller with fh := fh } })
  | .store pos bytes, s => .ok ((), { s with caller := s.caller.store pos bytes })
  | .load pos, s => .ok (s.caller.load pos, s)
  | .strncpy src n, s => .ok ((), { s with caller := s.caller.strncpy src n })
  | .terminate pos, s => .ok ((), { s with caller := s.caller.terminate pos })
  | .fill name, s =>
    let answer := w.filler s.caller.names name
    .ok (answer, if answer = 0 then
      { s with caller := { s.caller with names := s.caller.names ++ [name] } } else s)

/-- The machine of a client. -/
def machine : Machine Net (Station σ) Stop where
  step c s := w.exec c s

end Network

/-! ## Connecting -/

abbrev IS_NOT_DEGRADED : Int := 0
abbrev IS_DEGRADED : Int := 1

/-- `CONNECT_SERVER`: every time the primary first, then the secondary. -/
def connectServer : Operation (Clnt × Int) := do
  match ← net (.clntCreate .host1) with
  | some clnt => return (clnt, IS_NOT_DEGRADED)
  | none =>
    match ← net (.clntCreate .host2) with
    | some clnt => return (clnt, IS_DEGRADED)
    | none => return (← net (.exit 1)).elim

/-- `get_identity`: generate `server_info` to contact the main server. -/
def getIdentity (isDegraded : Int) : Identity := ⟨1, isDegraded⟩

/-- `bb_fullpath`: the path as it is; the bound of its buffer is a matter of its own. -/
def bbFullpath (path : CStr) : CStr := path

/-- What a mounted client knows of itself: `ip`, `BB_DATA->rootdir`. -/
structure Mount where
  ip : CStr
  rootdir : CStr

/-- Memory that the operations use without initialising it. -/
structure Unset extends Stale where
  /-- Where the result of `init_rootdir_6` goes. -/
  init : StatusRet
  /-- Where a result that is a status only goes. -/
  status : StatusRet

/-- Memory that happens to hold zeros. -/
def Unset.zero : Unset := { Stale.zero with init := ⟨0⟩, status := ⟨0⟩ }

/-- The stub of a procedure: it fills the result in, or leaves it as it is. -/
def stub {α : Type} (clnt : Clnt) (r : Request) (decode : Reply → Option α) (ret : α) :
    Operation α := do
  let reply ← net (.clntCall clnt r)
  return (reply.bind decode).getD ret

/-- Connect, call one procedure and drop the handle.  The outcome of the call only decides which
message is printed. -/
def callOnce {α : Type} (r : Identity → Request) (decode : Reply → Option α) (ret : α) :
    Operation α := do
  let (clnt, isDegraded) ← connectServer
  let ret ← stub clnt (r (getIdentity isDegraded)) decode ret
  net (.clntDestroy clnt)
  return ret

end Client

end DFS
