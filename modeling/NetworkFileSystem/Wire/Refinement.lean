import NetworkFileSystem.Replication.Agreement
import NetworkFileSystem.Wire.Calls

/-!
# A server among bytes (`compute_6`)

Anyone can send a server a procedure number with any bytes for its arguments, over either of its
transports.  What it reads is the message and, behind a datagram, what older ones have left in the
buffer of the library: a message that is cut short need not be refused.  Whatever can be read is a
request that a stub could have sent, and all else is refused and changes nothing; so a run over
messages is a run over such requests (**`messages_refine`**).
-/

namespace DFS

open Effects Posix Prog

/-! ## One message -/

/-- The other server as one message meets it. -/
structure MessagePeer where
  up : Bool
  answer : Message → Option Accepted

/-- A message on its arrival at a server. -/
structure MessageArrival where
  message : Message
  /-- What stands behind it in the buffer of the library. -/
  behind : List UInt8
  stale : Stale
  peer : MessagePeer

/-- The message as the server reads it. -/
abbrev MessageArrival.buffer (a : MessageArrival) : Message := a.message.followedBy a.behind

namespace Library

variable (lib : Library)

/-- The other server through the stubs. -/
def peer (p : MessagePeer) : Peer where
  up := p.up
  answer r := (lib.message r).bind fun m => (p.answer m).bind (lib.received r)

/-- A server answers a message. -/
def serve (a : MessageArrival) (h : Host) : Except Halt (Accepted × Host) :=
  (lib.compute6 a.stale a.buffer).run (Verbose.server lib.toRpcTexts (lib.peer a.peer)) h

/-- The request that arrives with a message. -/
def arrival (a : MessageArrival) : Option Arrival :=
  (lib.understand a.buffer).map fun r => ⟨r, a.stale, lib.peer a.peer⟩

end Library

section

variable {lib : Library} {r : Request} {a : MessageArrival} {h : Host}

/-- A handler returns a result of its own kind. -/
theorem answers_compute6 (stale : Stale) :
    (Verbose.compute6 stale r).Gives fun reply => reply.answers r := by
  have hmap : ∀ {α : Type} {p : Verbose.Server α} {f : α → Reply}, (∀ a, (f a).answers r = true) →
      (f <$> p).Gives fun reply => reply.answers r = true := by
    intro α p f hf
    rw [← bind_pure_comp]
    exact gives_bind (gives_true p) fun a _ => hf a
  cases r <;> exact hmap fun _ => rfl

/-- A message without a request is refused. -/
theorem serve_refused (hr : lib.understand a.buffer = none) :
    lib.serve a h = .ok (lib.refusal a.buffer, h) := by
  rw [Library.serve, Library.compute6, Library.refusal]
  cases hx : lib.xdrArgument a.buffer.proc with
  | none => rfl
  | some f =>
      have hargs : f a.buffer.args = none := by simpa [Library.understand, hx] using hr
      simp only [hargs]
      rfl

/-- A message with a request is answered with its result. -/
theorem serve_understood (hr : lib.understand a.buffer = some r) :
    lib.serve a h = (Verbose.serve lib.toRpcTexts ⟨r, a.stale, lib.peer a.peer⟩ h).map fun x =>
      (lib.sendreply r x.1, x.2) := by
  obtain ⟨f, hf, hargs⟩ := Option.bind_eq_some_iff.mp hr
  rw [Library.serve, Library.compute6, hf]
  simp only [hargs, run_bind]
  unfold Verbose.serve
  cases (Verbose.compute6 a.stale r).run (Verbose.server lib.toRpcTexts (lib.peer a.peer)) h <;>
    rfl

/-- The result of a handler can be written. -/
theorem sendreply_of_gives (lib : Library) {stale : Stale} {σ W : Type}
    {m : Machine (Remarked Verbose.Message Call) σ W} {s t : σ} {reply : Reply}
    (hrun : (Verbose.compute6 stale r).run m s = .ok (reply, t)) :
    ∃ bytes, (lib.result r).put reply = some bytes ∧ lib.sendreply r reply = .results bytes := by
  obtain ⟨bytes, hput⟩ := result_put lib ((answers_compute6 (r := r) stale).of_run hrun)
  exact ⟨bytes, hput, by rw [Library.sendreply, hput]⟩

end

/-! ## Runs -/

/-- A message as the request that it carries: the same states around, the result in bytes. -/
structure Carries (lib : Library) (e : Event MessageArrival Accepted Host)
    (e' : Event Arrival Reply Host) : Prop where
  pre_eq : e.pre = e'.pre
  post_eq : e.post = e'.post
  arrival_eq : lib.arrival e.input = some e'.input
  result_eq : ∃ bytes, (lib.result e'.input.request).put e'.output = some bytes ∧
    e.output = .results bytes

/-- A message that carries none. -/
structure Unread (lib : Library) (e : Event MessageArrival Accepted Host) : Prop where
  arrival_eq : lib.arrival e.input = none
  refusal_eq : e.output = lib.refusal e.input.buffer
  unchanged : e.post = e.pre

/-- One message is one request, or nothing. -/
theorem step_refines {lib : Library} {e : Event MessageArrival Accepted Host}
    (hs : lib.serve e.input e.pre = .ok (e.output, e.post)) :
    (∃ a reply, Verbose.serve lib.toRpcTexts a e.pre = .ok (reply, e.post) ∧
      Carries lib e ⟨e.pre, a, reply, e.post⟩) ∨
      (e.post = e.pre ∧ Unread lib e) := by
  cases hr : lib.understand e.input.buffer with
  | none =>
      have hserve := serve_refused (h := e.pre) hr
      obtain ⟨hout, hpost⟩ := Prod.mk.inj (Except.ok.inj (hserve.symm.trans hs))
      exact .inr ⟨hpost.symm, by rw [Library.arrival, hr]; rfl, hout.symm, hpost.symm⟩
  | some r =>
      rw [serve_understood hr] at hs
      obtain ⟨⟨reply, t⟩, hserve, heq⟩ := map_eq_ok.mp hs
      obtain ⟨hout, rfl⟩ := Prod.mk.inj heq
      obtain ⟨bytes, hput, hsend⟩ := sendreply_of_gives lib hserve
      exact .inl ⟨⟨r, e.input.stale, lib.peer e.input.peer⟩, reply, hserve, rfl, rfl,
        by rw [Library.arrival, hr]; rfl, bytes, hput, hout.symm.trans hsend⟩

/-- **A server among bytes.**  Whatever messages arrive and whatever stands behind them, the run of
a server is a run of the requests that it reads, all of which a stub could have sent; the results go
back in bytes, and where it can read none, the message is refused without an effect. -/
theorem messages_refine {lib : Library} {h₀ h : Host}
    {tr : List (Event MessageArrival Accepted Host)} (hrun : Runs lib.serve h₀ tr h) :
    ∃ tr', Runs (Verbose.serve lib.toRpcTexts) h₀ tr' h ∧ Reads (Carries lib) (Unread lib) tr tr' ∧
      ∀ e ∈ tr', e.input.request.Fits lib := by
  obtain ⟨tr', hrun', hreads⟩ := hrun.refined (C := fun _ => True) (fun _ hs _ => step_refines hs)
    fun _ _ => trivial
  refine ⟨tr', hrun', hreads, fun e' he' => ?_⟩
  obtain ⟨e, -, hcarries⟩ := hreads.exists_of_mem he'
  obtain ⟨r, hr, harr⟩ := Option.map_eq_some_iff.mp hcarries.arrival_eq
  rw [← harr]
  exact fits_of_understand hr

/-- A server with nobody else around. -/
def MessageArrival.alone (m : Message) (behind : List UInt8) : MessageArrival :=
  ⟨m, behind, .zero, ⟨false, fun _ => none⟩⟩

/-- `rmdirMessage`, cut short after the client. -/
def rmdirCut : Message := ⟨BB_RMDIR, rmdirMessage.args.take 8⟩

/-- A server with the directory `/d`. -/
def oneDirectory : Host := .start (.ofNodes [
  .plain (.dir 0 [("DFS".toList, 1)]) 0 0o755,
  .plain (.dir 0 [("d".toList, 2)]) 0 0o777,
  .plain (.dir 1 []) 1 0o755])

/-- The half of a message is refused from a stream; as a datagram it removes the directory, when
the other half is left from an older one. -/
theorem messages_refine_rmdir : ∃ tr h tr', Runs looseLibrary.serve oneDirectory tr h ∧
    tr.map (·.output) = [.decode, .results [0, 0, 0, 0]] ∧
      Runs (Verbose.serve looseLibrary.toRpcTexts) oneDirectory tr' h ∧
      Reads (Carries looseLibrary) (Unread looseLibrary) tr tr' ∧
      ∀ e ∈ tr', e.input.request.Fits looseLibrary := by
  have hrun : (looseLibrary.serve (.alone rmdirCut (rmdirMessage.args.drop 8)) oneDirectory).map
      (·.1) = .ok (.results [0, 0, 0, 0]) := by rfl
  obtain ⟨⟨o, h⟩, hs, hout⟩ := map_eq_ok.mp hrun
  obtain rfl : o = .results [0, 0, 0, 0] := hout
  have hrefused : looseLibrary.serve (.alone rmdirCut []) oneDirectory =
      .ok (.decode, oneDirectory) := by rfl
  have hruns := Runs.snoc (e := ⟨oneDirectory, _, _, h⟩) (.single hrefused) hs
  obtain ⟨tr', hrefines⟩ := messages_refine hruns
  exact ⟨_, h, tr', hruns, rfl, hrefines⟩

/-! ## A primary and its secondary -/

/-- The messages that went to the secondary during one message at the primary, with the answers. -/
abbrev Exchanged := List (Message × Accepted)

/-- What the secondary meets when a message is forwarded to it. -/
structure MessageRelay where
  behind : List UInt8
  stale : Stale
  peer : MessagePeer

/-- A message on its arrival at the primary of a pair. -/
structure MessagePairArrival where
  message : Message
  behind : List UInt8
  stale : Stale
  relay : MessageRelay

/-- The message as the primary reads it. -/
abbrev MessagePairArrival.buffer (a : MessagePairArrival) : Message :=
  a.message.followedBy a.behind

namespace Library

variable (lib : Library)

/-- The RPC client of the primary, which sends datagrams.  A message that is too long for one is not
sent; none is lost and none arrives twice. -/
def pairRpc (relay : MessageRelay) {β : Type} :
    Rpc β → Pair × Exchanged → Except Halt (β × Pair × Exchanged)
  | .clntCreate, t => .ok (true, t)
  | .clntCall r, (s, log) =>
    match lib.message r with
    | none => .ok (none, s, log)
    | some m =>
      if m.args.length ≤ lib.datagram then
        (lib.serve ⟨m, relay.behind, relay.stale, relay.peer⟩ s.secondary).map fun a =>
          (lib.received r a.1, { s with secondary := a.2 }, log ++ [(m, a.1)])
      else .ok (none, s, log)
  | .clntDestroy, t => .ok ((), t)

/-- The machine of the primary. -/
def pairMachine (relay : MessageRelay) :
    Machine (Remarked Verbose.Message Call) (Pair × Exchanged) Halt where
  step
    | .call (.os c), (s, log) =>
      (OS.exec c s.primary).map fun r => (r.1, { s with primary := r.2 }, log)
    | .call (.rpc c), t => lib.pairRpc relay c t
    | .remark m answer, (s, log) =>
      .ok (answer (), { s with primary := Verbose.print lib.toRpcTexts m s.primary }, log)

/-- The primary answers a message. -/
def servePair (a : MessagePairArrival) (s : Pair) : Except Halt ((Accepted × Exchanged) × Pair) :=
  ((lib.compute6 a.stale a.buffer).run (lib.pairMachine a.relay) (s, [])).map fun r =>
    ((r.1, r.2.2), r.2.1)

/-- The RPC client of a primary that forwards requests and hears the results as they arrive. -/
def arrivingRpc (relay : Relay) {β : Type} :
    Rpc β → Pair × Forwarded → Except Halt (β × Pair × Forwarded)
  | .clntCreate, t => .ok (true, t)
  | .clntCall r, (s, log) =>
    (Verbose.serve lib.toRpcTexts ⟨r, relay.stale, relay.peer⟩ s.secondary).map fun a =>
      (lib.received r (lib.sendreply r a.1), { s with secondary := a.2 }, log ++ [(r, a.1)])
  | .clntDestroy, t => .ok ((), t)

/-- The machine of such a primary. -/
def arrivingMachine (relay : Relay) :
    Machine (Remarked Verbose.Message Call) (Pair × Forwarded) Halt where
  step
    | .call (.os c), (s, log) =>
      (OS.exec c s.primary).map fun r => (r.1, { s with primary := r.2 }, log)
    | .call (.rpc c), t => lib.arrivingRpc relay c t
    | .remark m answer, (s, log) =>
      .ok (answer (), { s with primary := Verbose.print lib.toRpcTexts m s.primary }, log)

/-- The primary answers a request. -/
def serveArriving (a : PairArrival) (s : Pair) : Except Halt ((Reply × Forwarded) × Pair) :=
  ((Verbose.compute6 a.stale a.request).run (lib.arrivingMachine a.relay) (s, [])).map fun r =>
    ((r.1, r.2.2), r.2.1)

/-- What the secondary meets, in requests. -/
def relay (x : MessageRelay) : Relay := ⟨x.stale, lib.peer x.peer⟩

/-- The request that arrives with a message at the primary. -/
def pairArrival (a : MessagePairArrival) : Option PairArrival :=
  (lib.understand a.buffer).map fun r => ⟨r, a.stale, lib.relay a.relay⟩

/-- What was forwarded, in bytes. -/
def exchanged (log : Forwarded) : Exchanged :=
  log.filterMap fun x => (lib.message x.1).map fun m => (m, lib.sendreply x.1 x.2)

end Library

section

variable {lib : Library} {r : Request} {a : MessagePairArrival} {s s' : Pair}

/-- What the primary forwards for the request goes into a datagram. -/
def Request.InDatagram (lib : Library) (r : Request) : Prop :=
  ∀ info slaveArg, r.forwarding = some (info, slaveArg) → info.isMaster ≠ 0 →
    info.isDegraded = 0 → ∀ m ∈ lib.message (slaveArg { info with isMaster := 0 }),
      m.args.length ≤ lib.datagram

/-- What is forwarded fits when the request does. -/
theorem fits_forwarded {info : Identity} {slaveArg : Identity → Request} (hfits : r.Fits lib)
    (hr : r.forwarding = some (info, slaveArg)) :
    (slaveArg { info with isMaster := 0 }).Fits lib := by
  rw [fits_iff] at hfits ⊢
  obtain ⟨htexts, hinfo, hints, hlongs⟩ := hfits
  have hdegraded := (hinfo (info, slaveArg) hr).2
  have hmaster : Words.IsInt 0 := by decide
  cases r <;> simp only [Request.forwarding, Option.some.injEq, Prod.mk.injEq, reduceCtorEq] at hr
    <;> obtain ⟨rfl, rfl⟩ := hr <;>
    exact ⟨htexts, by rintro f ⟨⟩; exact ⟨hmaster, hdegraded⟩, hints, hlongs⟩

/-- A call that can be made in bytes: what is sent to the other server fits, also in a datagram. -/
def Call.Sent (lib : Library) : {β : Type} → Call β → Prop
  | _, .rpc (.clntCall r) => r.Fits lib ∧ ∀ m ∈ lib.message r, m.args.length ≤ lib.datagram
  | _, _ => True

/-- Forwarding sends the request in a message that its receiver understands. -/
theorem transmit_sends {info : Identity} {slaveArg : Identity → Request}
    (hfits : (slaveArg { info with isMaster := 0 }).Fits lib)
    (hsize : info.isMaster ≠ 0 → info.isDegraded = 0 →
      ∀ m ∈ lib.message (slaveArg { info with isMaster := 0 }), m.args.length ≤ lib.datagram) :
    (transmitToSecondaty info slaveArg).Calls (Call.Sent lib) := by
  unfold transmitToSecondaty connectServer
  split
  · next hrole =>
      refine ⟨trivial, fun clnt => ?_⟩
      cases clnt with
      | false => trivial
      | true => exact ⟨⟨hfits, hsize hrole.1 hrole.2⟩, fun _ => ⟨trivial, fun _ => trivial⟩⟩
  · trivial

/-- Every call of a handler can be made in bytes. -/
theorem compute6_sends (hfits : r.Fits lib) (hsize : r.InDatagram lib) (stale : Stale) :
    (Verbose.compute6 stale r).silence.Calls (Call.Sent lib) := by
  have hown : ∀ {p : Server Reply}, p.Calls Call.IsOs → p.Calls (Call.Sent lib) := fun hp =>
    hp.mono fun e he => by
      cases e with
      | os c => trivial
      | rpc c => exact he.elim
  rw [Verbose.compute6_silence]
  cases hf : r.forwarding with
  | none => exact hown (compute6_local hf stale)
  | some f =>
      obtain ⟨info, slaveArg⟩ := f
      obtain ⟨rest, hcompute, hrest⟩ := compute6_forwards hf stale
      rw [hcompute]
      exact calls_bind (transmit_sends (fits_forwarded hfits hf) (hsize info slaveArg hf))
        fun _ => hown hrest

theorem exchanged_append {log : Forwarded} {m : Message} {reply : Reply}
    (hm : lib.message r = some m) :
    lib.exchanged (log ++ [(r, reply)]) = lib.exchanged log ++ [(m, lib.sendreply r reply)] := by
  simp [Library.exchanged, hm]

/-- A handler of a request that fits runs on the pair as if no bytes were exchanged, and whatever it
forwards can be sent. -/
theorem run_compute6_bytes (hfits : r.Fits lib) (hsize : r.InDatagram lib) (stale : Stale)
    (x : MessageRelay) (s : Pair) :
    (Verbose.compute6 stale r).run (lib.pairMachine x) (s, []) =
      ((Verbose.compute6 stale r).run (lib.arrivingMachine (lib.relay x)) (s, [])).map
        (fun t => (t.1, t.2.1, lib.exchanged t.2.2)) ∧
    ∀ reply t, (Verbose.compute6 stale r).run (lib.arrivingMachine (lib.relay x)) (s, []) =
      .ok (reply, t) → ∀ y ∈ t.2, y.1.Fits lib := by
  have hstart : ∀ y ∈ ([] : Forwarded), y.1.Fits lib := fun y hy => absurd hy List.not_mem_nil
  refine run_aloud (g := fun t : Pair × Forwarded => (t.1, lib.exchanged t.2))
    (I := fun t => ∀ y ∈ t.2, y.1.Fits lib) (s := (s, []))
    (fun m answer t ht =>
      ⟨({ t.1 with primary := Verbose.print lib.toRpcTexts m t.1.primary }, t.2), rfl, rfl, ht⟩)
    (fun c hc t ht => ?_)
    (compute6_sends hfits hsize stale) hstart
  obtain ⟨s, log⟩ := t
  cases c with
  | os c =>
      show (OS.exec c s.primary).map _ = ((OS.exec c s.primary).map _).map _ ∧ ∀ b t,
        (OS.exec c s.primary).map _ = .ok (b, t) → _
      cases OS.exec c s.primary with
      | error w => exact ⟨rfl, fun b t h => by cases h⟩
      | ok r =>
          refine ⟨rfl, fun b t h => ?_⟩
          cases h
          exact ht
  | rpc c =>
      cases c with
      | clntCreate | clntDestroy =>
          refine ⟨rfl, fun b t h => ?_⟩
          cases h
          exact ht
      | clntCall r =>
          obtain ⟨hr, hlen⟩ := hc
          obtain ⟨m, hmessage, hunderstand⟩ := understand_sent hr
          have hserve := serve_understood (a := ⟨m, x.behind, x.stale, x.peer⟩) (h := s.secondary)
            (hunderstand x.behind)
          simp only [Library.pairMachine, Library.arrivingMachine, Library.pairRpc,
            Library.arrivingRpc, hmessage, if_pos (hlen m hmessage), hserve, Library.relay]
          cases Verbose.serve lib.toRpcTexts ⟨r, x.stale, lib.peer x.peer⟩ s.secondary with
          | error w => exact ⟨rfl, fun b t h => by cases h⟩
          | ok a =>
              refine ⟨by simp [Except.map, exchanged_append hmessage], fun b t h => ?_⟩
              cases h
              intro y hy
              rcases List.mem_append.mp hy with hy | hy
              · exact ht y hy
              · rw [List.mem_singleton.mp hy]
                exact hr

/-- A message that is not understood is refused, and nothing changes. -/
theorem servePair_refused (hr : lib.understand a.buffer = none) :
    lib.servePair a s = .ok ((lib.refusal a.buffer, []), s) := by
  rw [Library.servePair, Library.compute6, Library.refusal]
  cases hx : lib.xdrArgument a.buffer.proc with
  | none => rfl
  | some f =>
      have hargs : f a.buffer.args = none := by simpa [Library.understand, hx] using hr
      simp only [hargs]
      rfl

/-- A message that is understood is served as its request. -/
theorem servePair_understood (hr : lib.understand a.buffer = some r) (hsize : r.InDatagram lib) :
    lib.servePair a s =
      (lib.serveArriving ⟨r, a.stale, lib.relay a.relay⟩ s).map fun x =>
        ((lib.sendreply r x.1.1, lib.exchanged x.1.2), x.2) := by
  obtain ⟨f, hf, hargs⟩ := Option.bind_eq_some_iff.mp hr
  have hbytes := (run_compute6_bytes (fits_of_understand hr) hsize a.stale a.relay s).1
  rw [Library.servePair, Library.compute6, hf]
  simp only [hargs, run_bind, hbytes, Library.serveArriving]
  cases (Verbose.compute6 a.stale r).run (lib.arrivingMachine (lib.relay a.relay)) (s, []) <;> rfl

end

/-- A message at the primary as the request that it carries. -/
structure PairCarries (lib : Library) (e : Event MessagePairArrival (Accepted × Exchanged) Pair)
    (e' : PairEvent) : Prop where
  pre_eq : e.pre = e'.pre
  post_eq : e.post = e'.post
  arrival_eq : lib.pairArrival e.input = some e'.input
  result_eq : ∃ bytes, (lib.result e'.input.request).put e'.output.1 = some bytes ∧
    e.output.1 = .results bytes
  exchanged_eq : e.output.2 = lib.exchanged e'.output.2

/-- A message at the primary that carries none. -/
structure PairUnread (lib : Library) (e : Event MessagePairArrival (Accepted × Exchanged) Pair) :
    Prop where
  arrival_eq : lib.pairArrival e.input = none
  refusal_eq : e.output = (lib.refusal e.input.buffer, [])
  unchanged : e.post = e.pre

/-- One message at the primary is one request, or nothing. -/
theorem pair_step_refines {lib : Library}
    {e : Event MessagePairArrival (Accepted × Exchanged) Pair}
    (hs : lib.servePair e.input e.pre = .ok (e.output, e.post))
    (hsize : ∀ r, lib.understand e.input.buffer = some r → r.InDatagram lib) :
    (∃ a o, lib.serveArriving a e.pre = .ok (o, e.post) ∧
      PairCarries lib e ⟨e.pre, a, o, e.post⟩) ∨ (e.post = e.pre ∧ PairUnread lib e) := by
  cases hr : lib.understand e.input.buffer with
  | none =>
      have hserve := servePair_refused (s := e.pre) hr
      obtain ⟨hout, hpost⟩ := Prod.mk.inj (Except.ok.inj (hserve.symm.trans hs))
      exact .inr ⟨hpost.symm, by rw [Library.pairArrival, hr]; rfl, hout.symm, hpost.symm⟩
  | some r =>
      rw [servePair_understood hr (hsize r hr)] at hs
      obtain ⟨⟨⟨reply, log⟩, t⟩, hserve, heq⟩ := map_eq_ok.mp hs
      obtain ⟨hout, rfl⟩ := Prod.mk.inj heq
      obtain ⟨x, hrun, hx⟩ := map_eq_ok.mp hserve
      obtain rfl : x.1 = reply := congrArg (fun y => y.1.1) hx
      obtain ⟨bytes, hput, hsend⟩ := sendreply_of_gives lib hrun
      refine .inl ⟨⟨r, e.input.stale, lib.relay e.input.relay⟩, (x.1, log), hserve, rfl, rfl,
        by rw [Library.pairArrival, hr]; rfl, ⟨bytes, hput, ?_⟩, ?_⟩
      · rw [← hout]
        exact hsend
      · rw [← hout]

/-- **Two servers among bytes.**  A primary that is sent any messages and forwards in datagrams, as
long as what it forwards goes into one, is the pair of servers that answers the requests in them and
forwards requests: all of these fit, the bytes between the servers are those of the forwarded
requests and of their results, and every other message is refused without an effect. -/
theorem pair_messages_refine {lib : Library} {s₀ s : Pair}
    {tr : List (Event MessagePairArrival (Accepted × Exchanged) Pair)}
    (hrun : Runs lib.servePair s₀ tr s)
    (hsize : ∀ e ∈ tr, ∀ r, lib.understand e.input.buffer = some r → r.InDatagram lib) :
    ∃ tr', Runs lib.serveArriving s₀ tr' s ∧ Reads (PairCarries lib) (PairUnread lib) tr tr' ∧
      ∀ e ∈ tr', e.input.request.Fits lib ∧ ∀ x ∈ e.output.2, x.1.Fits lib := by
  obtain ⟨tr', hrun', hreads⟩ := hrun.refined (fun _ => pair_step_refines) hsize
  refine ⟨tr', hrun', hreads, fun e' he' => ?_⟩
  obtain ⟨e, hmem, hcarries⟩ := hreads.exists_of_mem he'
  obtain ⟨r, hr, harr⟩ := Option.map_eq_some_iff.mp hcarries.arrival_eq
  have hstep := hrun'.step_of_mem he'
  rw [← harr] at hstep ⊢
  have hfits := fits_of_understand hr
  obtain ⟨x, hx, heq⟩ := map_eq_ok.mp hstep
  have hlog := (run_compute6_bytes hfits (hsize e hmem r hr) _ _ _).2 _ _ hx
  rw [← (Prod.mk.inj heq).1]
  exact ⟨hfits, hlog⟩

/-- The request of the example fits a datagram. -/
theorem inDatagram_rmdir : rmdirRequest.InDatagram looseLibrary := by
  rintro info slaveArg ⟨⟩ - - m hm
  obtain rfl : m = ⟨BB_RMDIR, [0, 0, 0, 1, 49, 0, 0, 0, 0, 0, 0, 0, 0, 0, 0, 0, 0, 0, 0, 2, 47, 100,
    0, 0]⟩ := (Option.some.inj hm).symm
  decide

/-- A message at a primary whose secondary finds old bytes behind what is forwarded to it. -/
def MessagePairArrival.alone (m : Message) (behind : List UInt8) : MessagePairArrival :=
  ⟨m, behind, .zero, ⟨[5, 6], .zero, ⟨false, fun _ => none⟩⟩⟩

/-- The directory is removed from both servers. -/
theorem pair_messages_refine_rmdir : ∃ tr s tr',
    Runs looseLibrary.servePair ⟨oneDirectory.os, oneDirectory⟩ tr s ∧
      tr.map (·.output.1) = [.results [0, 0, 0, 0]] ∧
      Runs looseLibrary.serveArriving ⟨oneDirectory.os, oneDirectory⟩ tr' s ∧
      Reads (PairCarries looseLibrary) (PairUnread looseLibrary) tr tr' ∧
      ∀ e ∈ tr', e.input.request.Fits looseLibrary ∧
        ∀ x ∈ e.output.2, x.1.Fits looseLibrary := by
  have hread : looseLibrary.understand (rmdirMessage.followedBy [1, 2, 3]) = some rmdirRequest := by
    rfl
  have hrun : (looseLibrary.servePair (.alone rmdirMessage [1, 2, 3])
      ⟨oneDirectory.os, oneDirectory⟩).map (·.1.1) = .ok (.results [0, 0, 0, 0]) := by
    decide +kernel
  obtain ⟨⟨⟨o, log⟩, s⟩, hs, hout⟩ := map_eq_ok.mp hrun
  obtain rfl : o = .results [0, 0, 0, 0] := hout
  obtain ⟨tr', hrefines⟩ := pair_messages_refine (.single hs) fun e he r hr => by
    obtain rfl := List.mem_singleton.mp he
    obtain rfl := Option.some.inj (hread.symm.trans hr)
    exact inDatagram_rmdir
  exact ⟨_, s, tr', .single hs, rfl, hrefines⟩

end DFS
