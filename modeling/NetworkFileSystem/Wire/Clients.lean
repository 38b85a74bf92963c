import NetworkFileSystem.Client.Failover
import NetworkFileSystem.Wire.Refinement

/-!
# A client among bytes (`fuse_rpc_clnt.c`)

Every request that an operation makes can be sent when its strings and times can, so that the
operation does the same whether requests reach the hosts or messages do.  With that, a client and
two servers that exchange messages, while others send the servers any messages they like, are the
client and the servers of the model (**`cluster_messages_refine`**).
-/

namespace DFS

open Effects Posix Prog

namespace Client

/-! ## What an operation sends -/

/-- The strings of an operation. -/
def Fuse.texts : Fuse → List CStr
  | .getattr path | .readlink path _ | .mknod path _ _ | .mkdir path _ | .unlink path
  | .rmdir path | .chmod path _ | .chown path _ _ | .truncate path _ | .utime path _ _
  | .openFile path _ | .read path _ _ _ | .write path _ _ _ | .statfs path | .release path _
  | .opendir path _ | .readdir path _ | .releasedir path _ | .access path _ => [path]
  | .symlink path newpath | .rename path newpath | .link path newpath => [path, newpath]

/-- The times of an operation. -/
def Fuse.times : Fuse → List Int
  | .utime _ actime modtime => [actime, modtime]
  | _ => []

/-- The strings of an operation and of the client, and the times, can be sent. -/
structure Sendable (lib : Library) (m : Mount) (op : Fuse) : Prop where
  ip : Xdr.IsString m.ip
  rootdir : Xdr.IsString m.rootdir
  texts : ∀ s ∈ op.texts, Xdr.IsString s
  times : ∀ t ∈ op.times, lib.longs.IsLong t

/-- A call whose request can be sent. -/
def Net.Fits (lib : Library) : {β : Type} → Net β → Prop
  | _, .clntCall _ r => r.Fits lib
  | _, _ => True

section

variable {lib : Library} {m : Mount} {unset : Unset} {op : Fuse} {α β : Type} {clnt : Clnt}

theorem isInt_toInt (n : Int) : Words.IsInt (toInt n) := by
  rw [toInt_eq_int, ← Words.int_ofInt_iff, Words.ofInt_int]

theorem isInt_fd (fi : FileInfo) : Words.IsInt fi.fd := by
  have hofInt : UInt32.ofInt fi.fd = fi.fh.toUInt32 := Words.ofInt_int fi.fh.toUInt32
  rw [← Words.int_ofInt_iff, hofInt]
  rfl

/-- Connecting sends nothing, and yields one of two roles. -/
theorem fits_connect {f : Clnt × Int → Operation β}
    (hf : ∀ clnt isDegraded, Words.IsInt isDegraded → (f (clnt, isDegraded)).Calls (Net.Fits lib)) :
    (connectServer >>= f).Calls (Net.Fits lib) := by
  refine ⟨trivial, fun b => ?_⟩
  cases b with
  | some clnt => exact hf clnt IS_NOT_DEGRADED (by decide)
  | none =>
      refine ⟨trivial, fun b => ?_⟩
      cases b with
      | some clnt => exact hf clnt IS_DEGRADED (by decide)
      | none => exact ⟨trivial, fun e => e.elim⟩

/-- An operation with one call sends what fits when its request does. -/
theorem fits_stub {r : Request} (hr : r.Fits lib) (decode : Reply → Option α) (ret : α) :
    (stub clnt r decode ret).Calls (Net.Fits lib) :=
  ⟨hr, fun _ => trivial⟩

theorem fits_callOnce {r : Identity → Request} {decode : Reply → Option α} {ret : α}
    (hr : ∀ isDegraded, Words.IsInt isDegraded → (r (getIdentity isDegraded)).Fits lib) :
    (callOnce r decode ret).Calls (Net.Fits lib) :=
  fits_connect fun _ isDegraded hint =>
    calls_bind (fits_stub (hr isDegraded hint) _ _) fun _ => ⟨trivial, fun _ => trivial⟩

theorem fits_statusOf {r : Identity → Request}
    (hr : ∀ isDegraded, Words.IsInt isDegraded → (r (getIdentity isDegraded)).Fits lib) :
    (statusOf unset r).Calls (Net.Fits lib) :=
  calls_bind (fits_callOnce hr) fun _ => trivial

theorem fits_statusOrMinusOne {r : Identity → Request}
    (hr : ∀ isDegraded, Words.IsInt isDegraded → (r (getIdentity isDegraded)).Fits lib) :
    (statusOrMinusOne unset r).Calls (Net.Fits lib) := by
  refine calls_bind (fits_callOnce hr) fun _ => ?_
  split <;> trivial

/-- The rounds of `bb_read` change what is a word. -/
theorem fits_readRounds {size : UInt64} {n : ℕ} {totalLen : Int} {arg : ReadArg} {ret : ReadRet}
    (harg : (Request.read arg).Fits lib) :
    (readRounds clnt size n totalLen arg ret).Calls (Net.Fits lib) := by
  induction n generalizing totalLen arg ret with
  | zero => exact ⟨trivial, fun e => e.elim⟩
  | succ n ih =>
      rw [readRounds]
      split
      · refine calls_bind (fits_stub harg _ _) fun ret => ?_
        split
        · exact ⟨trivial, fun _ => trivial⟩
        · dsimp only
          split
          · exact ⟨trivial, fun _ => trivial⟩
          · exact ⟨trivial, fun _ => ih (by simpa [fits_iff, Request.texts, Request.ints,
              Request.forwarding, Request.longs] using harg)⟩
      · exact ⟨trivial, fun _ => trivial⟩

/-- The rounds of `bb_write` change the buffer and what is a word. -/
theorem fits_writeRounds {size : UInt64} {offset : Int64} {n : ℕ} {totalLen : Int} {arg : WriteArg}
    {ret : WriteRet} (harg : (Request.write arg).Fits lib) :
    (writeRounds clnt size offset n totalLen arg ret).Calls (Net.Fits lib) := by
  induction n generalizing totalLen arg ret with
  | zero => exact ⟨trivial, fun e => e.elim⟩
  | succ n ih =>
      rw [writeRounds]
      refine calls_bind (fits_stub harg _ _) fun ret => ?_
      split
      · exact ⟨trivial, fun _ => trivial⟩
      · dsimp only
        split
        · trivial
        · exact ⟨trivial, fun _ => ih (by simpa [fits_iff, Request.texts, Request.ints,
            Request.forwarding, Request.longs] using harg)⟩

theorem fits_fillEntries {n : ℕ} {entries : List Char} :
    (fillEntries n entries).Calls (Net.Fits lib) :=
  (fillEntries_local n entries).mono fun e he => by cases e <;> first | exact he.elim | trivial

/-- A request with the strings and the times of the operation. -/
theorem fits_request {r : Request} (h : Sendable lib m op)
    (htexts : ∀ s ∈ r.texts, s = m.ip ∨ s = m.rootdir ∨ s ∈ op.texts)
    (hinfo : ∀ f ∈ r.forwarding,
      ∃ isDegraded, Words.IsInt isDegraded ∧ f.1 = getIdentity isDegraded)
    (hints : ∀ x ∈ r.ints, Words.IsInt x) (hlongs : ∀ x ∈ r.longs, x ∈ op.times) :
    r.Fits lib := by
  refine fits_iff.mpr ⟨fun s hs => ?_, fun f hf => ?_, hints, fun x hx => h.times x (hlongs x hx)⟩
  · rcases htexts s hs with rfl | rfl | hs
    · exact h.ip
    · exact h.rootdir
    · exact h.texts s hs
  · obtain ⟨isDegraded, hint, hf⟩ := hinfo f hf
    rw [hf]
    exact ⟨show Words.IsInt 1 by decide, hint⟩

/-- A request that stays at one server. -/
theorem fits_plain {r : Request} (h : Sendable lib m op)
    (htexts : ∀ s ∈ r.texts, s = m.ip ∨ s = m.rootdir ∨ s ∈ op.texts) (hf : r.forwarding = none)
    (hints : ∀ x ∈ r.ints, Words.IsInt x) (hlongs : r.longs = []) : r.Fits lib :=
  fits_request h htexts (by simp [hf]) hints (by simp [hlongs])

/-- A request that is forwarded. -/
theorem fits_forward {r : Request} {isDegraded : Int} {slaveArg : Identity → Request}
    (h : Sendable lib m op) (hint : Words.IsInt isDegraded)
    (htexts : ∀ s ∈ r.texts, s = m.ip ∨ s = m.rootdir ∨ s ∈ op.texts)
    (hf : r.forwarding = some (getIdentity isDegraded, slaveArg))
    (hints : ∀ x ∈ r.ints, Words.IsInt x) (hlongs : ∀ x ∈ r.longs, x ∈ op.times) : r.Fits lib := by
  refine fits_request h htexts (fun f hmem => ⟨isDegraded, hint, ?_⟩) hints hlongs
  obtain rfl := Option.some.inj (hf.symm.trans hmem)
  rfl

/-- **What an operation sends.**  Every request of a sendable operation fits. -/
theorem operation_fits (rounds : ℕ) (h : Sendable lib m op) :
    (operation rounds m unset op).Calls (Net.Fits lib) := by
  cases op with
  | getattr path =>
      refine calls_bind ⟨trivial, fun done => ?_⟩ fun _ => calls_bind (fits_callOnce fun d hd => ?_)
        fun ret => ?_
      · cases done with
        | true => trivial
        | false =>
            refine calls_bind (p := initRootdir m unset) ?_ fun _ => ⟨trivial, fun _ => trivial⟩
            refine calls_bind (fits_callOnce fun d hd => ?_) fun ret => ?_
            · exact fits_forward h hd (by simp [Request.texts]) rfl (by simp [Request.ints])
                (by simp [Request.longs])
            · split
              · exact ⟨trivial, fun e => e.elim⟩
              · trivial
      · exact fits_plain h (by simp [Request.texts, Fuse.texts, bbFullpath]) rfl
          (by simp [Request.ints]) rfl
      · split
        · trivial
        · exact ⟨trivial, fun _ => trivial⟩
  | readlink path size =>
      refine calls_bind (fits_callOnce fun d hd => ?_) fun ret => ⟨trivial, fun _ => ?_⟩
      · exact fits_plain h (by simp [Request.texts, Fuse.texts, bbFullpath]) rfl
          (by simp [Request.ints]) rfl
      · split
        · trivial
        · exact ⟨trivial, fun _ => trivial⟩
  | statfs path =>
      refine fits_connect fun clnt d hd => calls_bind (fits_stub ?_ _ _) fun ret => ?_
      · exact fits_plain h (by simp [Request.texts, Fuse.texts, bbFullpath]) rfl
          (by simp [Request.ints]) rfl
      · split
        · exact ⟨trivial, fun _ => trivial⟩
        · exact ⟨trivial, fun _ => ⟨trivial, fun _ => trivial⟩⟩
  | openFile path fi =>
      refine calls_bind (fits_callOnce fun d hd => ?_) fun ret => ?_
      · exact fits_plain h (by simp [Request.texts, Fuse.texts, bbFullpath]) rfl
          (by simp [Request.ints]) rfl
      · split
        · trivial
        · exact ⟨trivial, fun _ => trivial⟩
  | read path size offset fi =>
      refine fits_connect fun clnt d hd => fits_readRounds (fits_plain h ?_ rfl ?_ rfl)
      · simp [Request.texts]
      · simp [Request.ints, isInt_fd]
  | write path size offset fi =>
      refine fits_connect fun clnt d hd => ⟨trivial, fun buffer =>
        fits_writeRounds (fits_forward h hd ?_ rfl ?_ (by simp [Request.longs]))⟩
      · simp [Request.texts, Fuse.texts, bbFullpath]
      · simp [Request.ints, isInt_fd]
  | opendir path fi =>
      refine calls_bind (fits_callOnce fun d hd => ?_) fun ret => ?_
      · exact fits_plain h (by simp [Request.texts, Fuse.texts, bbFullpath]) rfl
          (by simp [Request.ints]) rfl
      · split
        · trivial
        · exact ⟨trivial, fun _ => trivial⟩
  | readdir path fi =>
      refine calls_bind (fits_callOnce fun d hd => ?_) fun ret => ?_
      · exact fits_plain h (by simp [Request.texts]) rfl (by simp [Request.ints, isInt_fd]) rfl
      · split
        · trivial
        · exact fits_fillEntries
  | release path fi | releasedir path fi =>
      exact fits_statusOrMinusOne fun d hd => fits_plain h (by simp [Request.texts]) rfl
        (by simp [Request.ints, isInt_fd]) rfl
  | link path newpath =>
      exact fits_statusOrMinusOne fun d hd => fits_forward h hd
        (by simp [Request.texts, Fuse.texts, bbFullpath]) rfl (by simp [Request.ints])
        (by simp [Request.longs])
  | access path mask =>
      exact fits_statusOf fun d hd => fits_plain h
        (by simp [Request.texts, Fuse.texts, bbFullpath]) rfl (by simp [Request.ints]) rfl
  | chown path uid gid => trivial
  | _ =>
      exact fits_statusOf fun d hd => fits_forward h hd
        (by simp [Request.texts, Fuse.texts, bbFullpath]) rfl
        (by simp [Request.ints, isInt_toInt]) (by simp [Request.longs, Fuse.times])

end

/-! ## Hosts -/

/-- The hosts as a client reaches them with messages. -/
structure MessageNetwork (σ : Type) where
  up : HostName → σ → Bool
  call : HostName → Message → σ → Option Accepted × σ
  filler : List CStr → CStr → Int

section

variable {σ : Type} {lib : Library} {m : Mount} {unset : Unset} {op : Fuse}

/-- The stubs over a network of messages. -/
def MessageNetwork.stubs (lib : Library) (v : MessageNetwork σ) : Network σ where
  up := v.up
  call host r s := match lib.message r with
    | none => (none, s)
    | some m => ((v.call host m s).1.bind (lib.received r), (v.call host m s).2)
  filler := v.filler

/-- A network of requests in which the results travel in bytes. -/
def Network.arriving (lib : Library) (w : Network σ) : Network σ where
  up := w.up
  call host r s :=
    ((w.call host r s).1.bind fun reply => lib.received r (lib.sendreply r reply),
      (w.call host r s).2)
  filler := w.filler

/-- Hosts that answer the message of a request as they answer the request. -/
structure Speaks (lib : Library) (v : MessageNetwork σ) (w : Network σ) : Prop where
  up_eq : v.up = w.up
  filler_eq : v.filler = w.filler
  call_eq : ∀ host r m s, r.Fits lib → lib.message r = some m →
    v.call host m s = ((w.call host r s).1.map (lib.sendreply r), (w.call host r s).2)

/-- What fits is called over messages as it is called directly. -/
theorem stubs_call {v : MessageNetwork σ} {w : Network σ} (h : Speaks lib v w) {r : Request}
    (hr : r.Fits lib) (host : HostName) (s : σ) :
    (v.stubs lib).call host r s = (w.arriving lib).call host r s := by
  obtain ⟨m, hmessage, -⟩ := understand_sent hr
  have hcall := h.call_eq host r m s hr hmessage
  simp only [MessageNetwork.stubs, Network.arriving, hmessage, hcall]
  cases (w.call host r s).1 <;> rfl

/-- **An operation in bytes** is the operation. -/
theorem operation_in_messages {v : MessageNetwork σ} {w : Network σ} (h : Speaks lib v w)
    (rounds : ℕ) (hop : Sendable lib m op) (s : Station σ) :
    (operation rounds m unset op).run (v.stubs lib).machine s =
      (operation rounds m unset op).run (w.arriving lib).machine s := by
  refine (operation_fits rounds hop).run_congr (fun e he t => ?_) s
  have hcall : ∀ host (r : Request) (world : σ), r.Fits lib →
      (v.stubs lib).call host r world = (w.arriving lib).call host r world :=
    fun host r world hr => stubs_call h hr host world
  obtain ⟨hup, hfiller, -⟩ := h
  obtain ⟨up, call, filler⟩ := v
  obtain rfl : up = w.up := hup
  obtain rfl : filler = w.filler := hfiller
  cases e with
  | clntCall clnt r => simp only [step_machine, Network.exec, Network.answer, hcall _ _ _ he]
  | _ => rfl

end

/-! ## A client and both servers -/

/-- What a client runs with, when everybody exchanges messages. -/
structure MessageSite where
  rounds : ℕ
  mount : Mount
  unset : Unset
  around : Cluster → MessageRelay
  filler : List CStr → CStr → Int

/-- What happens next among messages: an operation that can be sent, a message of somebody else, or
the failure of the primary. -/
inductive MessageMove (lib : Library) (m : Mount)
  | own (op : Fuse) (h : Sendable lib m op)
  | other (host : HostName) (a : MessageArrival)
  | crash

/-- A server answers a message; nothing comes back when it never returns. -/
def Cluster.askIn (lib : Library) (w : Cluster) (host : HostName) (a : MessageArrival) :
    Option Accepted × Cluster :=
  match lib.serve a (w.host host) with
  | .ok (o, h) => (some o, w.put host h)
  | .error _ => (none, w)

namespace MessageSite

variable (lib : Library) (site : MessageSite)

/-- What a message meets at a server. -/
def arrival (m : Message) (w : Cluster) : MessageArrival :=
  ⟨m, (site.around w).behind, (site.around w).stale, (site.around w).peer⟩

def network : MessageNetwork Cluster where
  up host w := match host with
    | .host1 => w.up
    | .host2 => true
  call host m w := w.askIn lib host (site.arrival m w)
  filler := site.filler

/-- One step of the client and both servers. -/
def step : MessageMove lib site.mount → Station Cluster → Except Stop (Int × Station Cluster)
  | .own op _, s =>
    (operation site.rounds site.mount site.unset op).run ((site.network lib).stubs lib).machine s
  | .other host a, s => .ok (0, { s with world := (s.world.askIn lib host a).2 })
  | .crash, s => .ok (0, { s with world := { s.world with up := false } })

/-- The client and both servers in requests. -/
def inRequests : Site where
  rounds := site.rounds
  mount := site.mount
  unset := site.unset
  around w := lib.relay (site.around w)
  filler := site.filler

end MessageSite

/-- A server that prints answers a request; nothing comes back when it never returns. -/
def Cluster.askAloud (texts : Verbose.RpcTexts) (w : Cluster) (host : HostName) (a : Arrival) :
    Option Reply × Cluster :=
  match Verbose.serve texts a (w.host host) with
  | .ok (reply, h) => (some reply, w.put host h)
  | .error _ => (none, w)

/-- The servers of a client as they print. -/
def Site.networkAloud (texts : Verbose.RpcTexts) (site : Site) : Network Cluster where
  up := site.network.up
  call host r w := w.askAloud texts host (site.arrival r w)
  filler := site.filler

/-- One step of the client and both servers, in which the results for the client travel in bytes. -/
def Site.arrivingStep (lib : Library) (site : Site) :
    Move → Station Cluster → Except Stop (Int × Station Cluster)
  | .own op, s =>
    (site.run op).run ((site.networkAloud lib.toRpcTexts).arriving lib).machine s
  | .other host a, s => .ok (0, { s with world := (s.world.askAloud lib.toRpcTexts host a).2 })
  | .crash, s => .ok (0, { s with world := { s.world with up := false } })

/-- The move that a message brings about. -/
def MessageMove.toMove {lib : Library} {m : Mount} : MessageMove lib m → Option Move
  | .own op _ => some (.own op)
  | .other host a => (lib.arrival a).map fun a => .other host a
  | .crash => some .crash

/-- A step among messages as one among requests. -/
structure MoveCarries {lib : Library} {m : Mount}
    (e : Event (MessageMove lib m) Int (Station Cluster)) (e' : Happening) : Prop where
  pre_eq : e.pre = e'.pre
  post_eq : e.post = e'.post
  output_eq : e.output = e'.output
  move_eq : e.input.toMove = some e'.input

/-- A message of somebody else that carries no request. -/
structure MoveUnread {lib : Library} {m : Mount}
    (e : Event (MessageMove lib m) Int (Station Cluster)) : Prop where
  move_eq : e.input.toMove = none
  unchanged : e.post = e.pre

section

variable {lib : Library} {site : MessageSite}

/-- A message that is understood asks the server its request. -/
theorem askIn_understood {a : MessageArrival} {r : Request} (hr : lib.understand a.buffer = some r)
    (w : Cluster) (host : HostName) : w.askIn lib host a =
      ((w.askAloud lib.toRpcTexts host ⟨r, a.stale, lib.peer a.peer⟩).1.map (lib.sendreply r),
        (w.askAloud lib.toRpcTexts host ⟨r, a.stale, lib.peer a.peer⟩).2) := by
  simp only [Cluster.askIn, Cluster.askAloud, serve_understood hr]
  cases Verbose.serve lib.toRpcTexts ⟨r, a.stale, lib.peer a.peer⟩ (w.host host) <;> rfl

/-- A message that is not understood changes neither server. -/
theorem askIn_refused {a : MessageArrival} (hr : lib.understand a.buffer = none) (w : Cluster)
    (host : HostName) : (w.askIn lib host a).2 = w := by
  simp only [Cluster.askIn, serve_refused hr]
  cases host <;> rfl

/-- The servers answer messages as they answer requests. -/
theorem speaks_site : Speaks lib (site.network lib)
    ((site.inRequests lib).networkAloud lib.toRpcTexts) where
  up_eq := rfl
  filler_eq := rfl
  call_eq host r m w hr hmessage := by
    obtain ⟨m', hmessage', hread⟩ := understand_sent hr
    obtain rfl := Option.some.inj (hmessage.symm.trans hmessage')
    exact askIn_understood (a := site.arrival m w) (hread _) w host

/-- One step among messages is one among requests, or nothing. -/
theorem move_refines {i : MessageMove lib site.mount} {s t : Station Cluster} {v : Int}
    (hs : site.step lib i s = .ok (v, t)) :
    (∃ j o, (site.inRequests lib).arrivingStep lib j s = .ok (o, t) ∧
      MoveCarries ⟨s, i, v, t⟩ ⟨s, j, o, t⟩) ∨ (t = s ∧ MoveUnread ⟨s, i, v, t⟩) := by
  cases i with
  | own op hop =>
      refine .inl ⟨.own op, v, ?_, rfl, rfl, rfl, rfl⟩
      have hspeaks : Speaks lib (site.network lib)
        ((site.inRequests lib).networkAloud lib.toRpcTexts) := speaks_site
      exact (operation_in_messages hspeaks site.rounds hop s).symm.trans hs
  | other host a =>
      obtain ⟨rfl, ht⟩ := Prod.mk.inj (Except.ok.inj hs)
      cases hr : lib.understand a.buffer with
      | none =>
          rw [askIn_refused hr] at ht
          exact .inr ⟨ht.symm, by simp [MessageMove.toMove, Library.arrival, hr], ht.symm⟩
      | some r =>
          rw [askIn_understood hr] at ht
          refine .inl ⟨.other host ⟨r, a.stale, lib.peer a.peer⟩, 0, ?_, rfl, rfl, rfl,
            by simp [MessageMove.toMove, Library.arrival, hr]⟩
          rw [← ht]
          rfl
  | crash => exact .inl ⟨.crash, v, hs, rfl, rfl, rfl, rfl⟩

/-- **A client and two servers among bytes.**  A run of a client and both servers in which
everything travels in bytes, while anyone sends the servers any messages, is a run of the client
and the servers in requests; only messages in which no request can be read are lost, and nothing
changes when they are. -/
theorem cluster_messages_refine {s₀ s : Station Cluster}
    {tr : List (Event (MessageMove lib site.mount) Int (Station Cluster))}
    (hrun : Runs (site.step lib) s₀ tr s) :
    ∃ tr', Runs ((site.inRequests lib).arrivingStep lib) s₀ tr' s ∧
      Reads MoveCarries MoveUnread tr tr' :=
  hrun.refined (C := fun _ => True) (fun _ hs _ => move_refines hs) fun _ _ => trivial

end

/-- A client beside two servers that have the directory `/d`. -/
def directorySite : MessageSite where
  rounds := 1
  mount := ⟨"1".toList, "/r".toList⟩
  unset := .zero
  around _ := ⟨[], .zero, ⟨false, fun _ => none⟩⟩
  filler _ _ := 0

/-- The client is started. -/
def directoryStation : Station Cluster :=
  ⟨⟨oneDirectory, oneDirectory, true⟩, .blank, true, [], 0, []⟩

/-- The directory can be removed. -/
theorem sendable_rmdir : Sendable looseLibrary directorySite.mount (.rmdir "/d".toList) where
  ip := isString_of_check (by decide) (by rfl)
  rootdir := isString_of_check (by decide) (by rfl)
  texts s hs := by
    rw [List.mem_singleton.mp hs]
    exact isString_of_check (by decide) (by rfl)
  times t ht := absurd ht List.not_mem_nil

/-- The client removes it, and then the primary fails. -/
theorem cluster_messages_refine_rmdir : ∃ tr s tr',
    Runs (directorySite.step looseLibrary) directoryStation tr s ∧ tr.map (·.output) = [0, 0] ∧
      Runs ((directorySite.inRequests looseLibrary).arrivingStep looseLibrary) directoryStation
        tr' s ∧ Reads MoveCarries MoveUnread tr tr' := by
  have hrun : ((directorySite.inRequests looseLibrary).arrivingStep looseLibrary
      (.own (.rmdir "/d".toList)) directoryStation).map (·.1) = .ok 0 := by rfl
  obtain ⟨⟨v, s⟩, hs, rfl⟩ := map_eq_ok.mp hrun
  have hspeaks : Speaks looseLibrary (directorySite.network looseLibrary)
    ((directorySite.inRequests looseLibrary).networkAloud looseLibrary.toRpcTexts) := speaks_site
  have hown : directorySite.step looseLibrary (.own (.rmdir "/d".toList) sendable_rmdir)
      directoryStation = .ok (0, s) :=
    (operation_in_messages hspeaks directorySite.rounds sendable_rmdir directoryStation).trans hs
  have hruns := Runs.snoc (e := ⟨s, .crash, 0, { s with world := { s.world with up := false } }⟩)
    (.single hown) rfl
  obtain ⟨tr', hrefines⟩ := cluster_messages_refine hruns
  exact ⟨_, _, tr', hruns, rfl, hrefines⟩

end Client

end DFS
