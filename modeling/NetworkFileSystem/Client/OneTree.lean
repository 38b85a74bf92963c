import NetworkFileSystem.Client.ByPath
import NetworkFileSystem.Service.Bounds

/-!
# One tree behind two servers

A client that names files by their paths sees one tree, although there are two servers and the one
that answers changes when the primary fails.  `OneTree.step` is that tree: an operation is its
request, answered by `answerOf`.  **`one_tree`** maps the runs of a client with a pair, to which
others talk as well and whose primary may fail between any two requests, to runs of one tree with
the same results, as long as no contents are written.  When the primary fails is then of no
consequence (**`failover_unnoticed`**).
-/

namespace DFS

open Effects Posix Prog

namespace Client

/-! ## The pair behind a client -/

/-- How requests are answered: by a primary that has its secondary, and by the secondary alone. -/
structure Answering where
  pair : PairArrival → Pair → Except Halt ((Reply × Forwarded) × Pair)
  alone : Arrival → Host → Except Halt (Reply × Host)

/-- The servers, with what they print. -/
def Answering.aloud (texts : Verbose.RpcTexts) : Answering :=
  ⟨Verbose.servePair texts, Verbose.serve texts⟩

/-- Servers that print nothing. -/
def Answering.silent : Answering := ⟨Pair.serve, serve⟩

/-- Both servers of a pair, and whether the primary can be reached. -/
structure Replicated where
  pair : Pair
  up : Bool

namespace Replicated

/-- The host to which a request goes. -/
def inCharge (w : Replicated) : HostName := if w.up then .host1 else .host2

/-- A host answers a request; the primary forwards it before.  Nothing comes back from a primary
that has failed, nor when a handler never returns. -/
def ask (w : Replicated) (servers : Answering) (host : HostName) (a : PairArrival) :
    Option Reply × Replicated :=
  match host with
  | .host1 =>
    if w.up then
      match servers.pair a w.pair with
      | .ok ((reply, _), s) => (some reply, { w with pair := s })
      | .error _ => (none, w)
    else (none, w)
  | .host2 =>
    match servers.alone ⟨a.request, a.stale, a.relay.peer⟩ w.pair.secondary with
    | .ok (reply, h) => (some reply, { w with pair := { w.pair with secondary := h } })
    | .error _ => (none, w)

end Replicated

/-- What a client of a pair runs with: the rounds that its loops may take, what it knows of itself
and the memory it does not initialise, what its requests meet at the servers, and its `filler`. -/
structure PairSite where
  rounds : ℕ
  mount : Mount
  unset : Unset
  stale : Replicated → Stale
  relay : Replicated → Relay
  filler : List CStr → CStr → Int

/-- What happens next: an operation of the client, a request of somebody else, or the failure of
the primary. -/
inductive PairMove
  | own (op : Fuse)
  | other (a : PairArrival)
  | crash

namespace PairSite

variable (site : PairSite)

/-- What a request meets at the servers. -/
def arrival (r : Request) (w : Replicated) : PairArrival := ⟨r, site.stale w, site.relay w⟩

def network (servers : Answering) : Network Replicated where
  up host w := match host with
    | .host1 => w.up
    | .host2 => true
  call host r w := w.ask servers host (site.arrival r w)
  filler := site.filler

def run (op : Fuse) : Operation Int := operation site.rounds site.mount site.unset op

/-- One step of the client and the pair.  Others get the status of their reply. -/
def step (servers : Answering) :
    PairMove → Station Replicated → Except Stop (Int × Station Replicated)
  | .own op, s => (site.run op).run (site.network servers).machine s
  | .other a, s => .ok (((s.world.ask servers s.world.inCharge a).1.map Reply.ret).getD 0,
      { s with world := (s.world.ask servers s.world.inCharge a).2 })
  | .crash, s => .ok (0, { s with world := { s.world with up := false } })

end PairSite

/-! ## One tree -/

/-- What a client sees of the servers: a tree, and whether it has had the root initialised. -/
structure OneTree where
  fs : FS
  initialized : Bool

/-- What is done to the tree. -/
inductive Deed
  | own (op : Fuse)
  | other (r : Request)

/-- The tree that an operation meets, which is an initialised one after the first `bb_getattr`. -/
def OneTree.met (umask : UInt32) (op : Fuse) (t : OneTree) : OneTree :=
  if op.prepares && !t.initialized then ⟨(initOp umask t.fs).fs, true⟩ else t

/-- One step of the tree; only deeds that name files by their paths have one. -/
def OneTree.step (umask : UInt32) (m : Mount) :
    Deed → OneTree → Except Unit ((Int × Shown) × OneTree)
  | .own op, t =>
    match (op.request m (getIdentity IS_NOT_DEGRADED)).bind
        (answerOf umask (t.met umask op).fs) with
    | some x => .ok ((op.value x.ret, x.shown), { t.met umask op with fs := x.fs })
    | none => .error ()
  | .other r, t =>
    match answerOf umask t.fs r with
    | some x => .ok ((x.ret, x.shown), { t with fs := x.fs })
    | none => .error ()

/-! ## The servers hold the tree -/

/-- The servers that can be reached hold the tree. -/
structure Replicated.Hold (umask : UInt32) (fs : FS) (w : Replicated) : Prop where
  primary : w.up = true → Agree w.pair.primary.fs fs
  secondary : Agree w.pair.secondary.os.fs fs
  primary_umask : w.pair.primary.umask = umask
  secondary_umask : w.pair.secondary.os.umask = umask

/-- What comes of a request to a host. -/
inductive Asked (w : Replicated) (a : PairArrival) : HostName → Option Reply → Replicated → Prop
  | lost (host : HostName) : Asked w a host none w
  | primary {reply : Reply} {log : Forwarded} {s : Pair} (hup : w.up = true)
      (hr : Pair.serve a w.pair = .ok ((reply, log), s)) :
      Asked w a .host1 (some reply) { w with pair := s }
  | secondary {reply : Reply} {h : Host}
      (hr : serve ⟨a.request, a.stale, a.relay.peer⟩ w.pair.secondary = .ok (reply, h)) :
      Asked w a .host2 (some reply) { w with pair := { w.pair with secondary := h } }

section

variable {umask : UInt32} {fs : FS} {w : Replicated} {a : PairArrival} {x : Answer}

/-- Asking a server is one of the ways in which it is asked. -/
theorem Replicated.asked (w : Replicated) (host : HostName) (a : PairArrival) :
    Asked w a host (w.ask .silent host a).1 (w.ask .silent host a).2 := by
  unfold ask
  cases host with
  | host1 =>
      dsimp only
      split
      · next hup =>
        split
        · next hr => exact .primary hup hr
        · exact .lost _
      · exact .lost _
  | host2 =>
      dsimp only
      split
      · next hr => exact .secondary hr
      · exact .lost _

/-- A server that holds the tree answers like the tree, and then holds the tree that comes out. -/
theorem serve_holds {a : Arrival} {h h' : Host} {reply : Reply} (hfs : Agree h.os.fs fs)
    (humask : h.os.umask = umask) (hx : answerOf umask fs a.request = some x)
    (hr : serve a h = .ok (reply, h')) :
    reply.ret = x.ret ∧ x.shown.In reply ∧ Agree h'.os.fs x.fs := by
  subst humask
  have hsome := answerOf_isSome h.os.umask h.os.fs a.request
  rw [← answerOf_isSome h.os.umask fs, hx, Option.isSome_some] at hsome
  obtain ⟨y, hy⟩ := Option.isSome_iff_exists.mp hsome
  obtain ⟨x', hx', halike⟩ := answerOf_agree hfs hy
  obtain rfl := Option.some.inj (hx.symm.trans hx')
  have hgiven := serve_answer hy hr
  refine ⟨hgiven.ret_eq.trans halike.ret_eq.symm, hgiven.shown.alike halike.shown, ?_⟩
  rw [hgiven.fs_eq]
  exact halike.fs

/-- The secondary follows what a primary answers. -/
theorem secondary_holds {s s' : Pair} {reply : Reply} {log : Forwarded}
    (hstep : PairStep a s reply log s') (hfs : Agree s.secondary.os.fs fs)
    (humask : s.secondary.os.umask = umask) (hx : answerOf umask fs a.request = some x)
    (hrole : a.request.ToPrimary) :
    Agree s'.secondary.os.fs x.fs ∧ s'.secondary.os.umask = umask := by
  cases hf : a.request.forwarding with
  | none =>
      obtain ⟨-, hsec⟩ := hstep.alone fun info f h => by rw [hf] at h; cases h
      rw [hsec, answerOf_local hf hx]
      exact ⟨hfs, humask⟩
  | some r =>
      obtain ⟨info, slaveArg⟩ := r
      obtain ⟨hmaster, hdegraded⟩ := hrole info slaveArg hf
      obtain ⟨reply', -, hsec⟩ := hstep.secondary info slaveArg hf
        (by rw [hmaster]; decide) hdegraded
      have hslave : answerOf umask fs (slaveArg { info with isMaster := 0 }) = some x :=
        (answerOf_forwarding hf).trans hx
      obtain ⟨-, -, hfs'⟩ := serve_holds hfs humask hslave hsec
      exact ⟨hfs', (serve_umask hsec).trans humask⟩

/-- **The host in charge answers like the tree**, and every host that can be reached then holds the
tree that comes out. -/
theorem Replicated.ask_answer (hw : w.Hold umask fs) (hx : answerOf umask fs a.request = some x)
    (hrole : w.up = true → a.request.ToPrimary) {reply : Reply}
    (hr : (w.ask .silent w.inCharge a).1 = some reply) :
    reply.ret = x.ret ∧ x.shown.In reply ∧ (w.ask .silent w.inCharge a).2.Hold umask x.fs ∧
      (w.ask .silent w.inCharge a).2.up = w.up := by
  have hasked := w.asked w.inCharge a
  revert hasked
  rw [hr]
  generalize (w.ask .silent w.inCharge a).2 = w'
  generalize hhost : w.inCharge = host
  intro hasked
  cases hasked with
  | primary hup hr =>
      next log s =>
      have hstep := pair_serve hr
      obtain ⟨hret, hshown, hfs⟩ := serve_holds (hw.primary hup) hw.primary_umask hx hstep.primary
      have humask : s.primary.umask = w.pair.primary.umask := serve_umask hstep.primary
      obtain ⟨hsec, hmask⟩ := secondary_holds hstep hw.secondary hw.secondary_umask hx (hrole hup)
      exact ⟨hret, hshown, ⟨fun _ => hfs, hsec, humask.trans hw.primary_umask, hmask⟩, rfl⟩
  | secondary hr =>
      next h =>
      obtain ⟨hret, hshown, hfs⟩ := serve_holds hw.secondary hw.secondary_umask hx hr
      have hdown : w.up = false := by
        unfold inCharge at hhost
        split at hhost
        · cases hhost
        · next hup => exact Bool.eq_false_iff.mpr hup
      refine ⟨hret, hshown, ⟨fun hup => ?_, hfs, hw.primary_umask, ?_⟩, rfl⟩
      · exact absurd (hup.symm.trans hdown) (by simp)
      · exact (serve_umask hr).trans hw.secondary_umask

/-- Requests that act on open files and write nothing leave the tree as it is at every host. -/
theorem Replicated.ask_keeps (hw : w.Hold umask fs) (host : HostName)
    (hwrites : a.request.writesNothing = true) (hhandle : a.request.goesByPath = false) :
    (w.ask .silent host a).2.Hold umask fs ∧ (w.ask .silent host a).2.up = w.up := by
  have hlocal : a.request.forwarding = none := by
    cases hr : a.request <;> rw [hr] at hwrites hhandle <;> cases hhandle <;>
      first | rfl | cases hwrites
  have hasked := w.asked host a
  revert hasked
  generalize (w.ask .silent host a).1 = o
  generalize (w.ask .silent host a).2 = w'
  intro hasked
  cases hasked with
  | lost host => exact ⟨hw, rfl⟩
  | primary hup hr =>
      next reply log s =>
      have hstep := pair_serve hr
      obtain ⟨-, hsec⟩ := hstep.alone fun info f h => by rw [hlocal] at h; cases h
      have humask : s.primary.umask = w.pair.primary.umask := serve_umask hstep.primary
      have hfs : Agree s.primary.fs fs :=
        serve_keeps_agree hstep.primary hwrites hlocal (hw.primary hup)
      refine ⟨⟨fun _ => hfs, ?_, humask.trans hw.primary_umask, ?_⟩, rfl⟩
      · show Agree s.secondary.os.fs fs
        rw [hsec]
        exact hw.secondary
      · show s.secondary.os.umask = umask
        rw [hsec]
        exact hw.secondary_umask
  | secondary hr =>
      exact ⟨⟨hw.primary, serve_keeps_agree hr hwrites hlocal hw.secondary, hw.primary_umask,
        (serve_umask hr).trans hw.secondary_umask⟩, rfl⟩

end

/-! ## Operations on open files -/

/-- Any operation but a write; a file is opened without being made or emptied. -/
def Fuse.writesNothing : Fuse → Bool
  | .write _ _ _ _ => false
  | .openFile _ fi =>
    !hasBit fi.flags O_CREAT && !hasBit fi.flags O_EXCL && !hasBit fi.flags O_TRUNC
  | _ => true

/-- The calls that leave the tree as it is at every host. -/
def Net.KeepsTree : {β : Type} → Net β → Prop
  | _, .clntCall _ r => r.writesNothing = true ∧ r.goesByPath = false
  | _, .setInitialized => False
  | _, _ => True

section

variable {α β : Type} {m : Mount} {unset : Unset} {clnt : Clnt}

/-- `CONNECT_SERVER` leaves the tree alone. -/
theorem keepsTree_connect : connectServer.Calls Net.KeepsTree := by
  refine ⟨trivial, fun b => ?_⟩
  cases b with
  | some clnt => trivial
  | none =>
      refine ⟨trivial, fun b => ?_⟩
      cases b with
      | some clnt => trivial
      | none => exact ⟨trivial, fun e => e.elim⟩

/-- So does an operation whose one call writes nothing. -/
theorem keepsTree_callOnce {r : Identity → Request} {decode : Reply → Option α} {ret : α}
    {k : α → Operation β} (hr : ∀ info, (r info).writesNothing = true ∧ (r info).goesByPath = false)
    (hk : ∀ a, (k a).Calls Net.KeepsTree) :
    (callOnce r decode ret >>= k).Calls Net.KeepsTree :=
  calls_bind (calls_bind keepsTree_connect fun _ =>
    ⟨hr _, fun _ => ⟨trivial, fun _ => trivial⟩⟩) hk

/-- So does the loop of `bb_read`. -/
theorem keepsTree_readRounds {size : UInt64} {n : ℕ} {totalLen : Int} {arg : ReadArg}
    {ret : ReadRet} : (readRounds clnt size n totalLen arg ret).Calls Net.KeepsTree := by
  induction n generalizing totalLen arg ret with
  | zero => exact ⟨trivial, fun e => e.elim⟩
  | succ n ih =>
      rw [readRounds]
      split
      · refine calls_bind ⟨⟨rfl, rfl⟩, fun _ => trivial⟩ fun ret => ?_
        split
        · exact ⟨trivial, fun _ => trivial⟩
        · dsimp only
          split
          · exact ⟨trivial, fun _ => trivial⟩
          · exact ⟨trivial, fun _ => ih⟩
      · exact ⟨trivial, fun _ => trivial⟩

/-- So does the handing out of names. -/
theorem keepsTree_fillEntries {n : ℕ} {entries : List Char} :
    (fillEntries n entries).Calls Net.KeepsTree := by
  induction n generalizing entries with
  | zero => trivial
  | succ n ih =>
      refine calls_bind ((calls_net _).mpr trivial) fun answer => ?_
      split
      · trivial
      · exact ih

/-- **Operations on open files** that write nothing leave the tree as it is. -/
theorem operation_keepsTree {rounds : ℕ} {op : Fuse} {info : Identity}
    (hop : op.request m info = none) (hwrites : op.writesNothing = true) :
    (operation rounds m unset op).Calls Net.KeepsTree := by
  have hstatus : ∀ {r : Identity → Request},
      (∀ info, (r info).writesNothing = true ∧ (r info).goesByPath = false) →
      (statusOrMinusOne unset r).Calls Net.KeepsTree := by
    intro r hr
    refine keepsTree_callOnce hr fun ret => ?_
    split <;> trivial
  cases op <;> cases hop
  case chown path uid gid => trivial
  case openFile path fi =>
    refine keepsTree_callOnce (fun _ => ⟨hwrites, rfl⟩) fun ret => ?_
    split
    · trivial
    · exact ⟨trivial, fun _ => trivial⟩
  case read path size offset fi =>
    exact calls_bind keepsTree_connect fun _ => keepsTree_readRounds
  case write path size offset fi => cases hwrites
  case release path fi => exact hstatus fun _ => ⟨rfl, rfl⟩
  case opendir path fi =>
    refine keepsTree_callOnce (fun _ => ⟨rfl, rfl⟩) fun ret => ?_
    split
    · trivial
    · exact ⟨trivial, fun _ => trivial⟩
  case readdir path fi =>
    refine keepsTree_callOnce (fun _ => ⟨rfl, rfl⟩) fun ret => ?_
    split
    · trivial
    · exact keepsTree_fillEntries
  case releasedir path fi => exact hstatus fun _ => ⟨rfl, rfl⟩

end

/-! ## One operation -/

/-- The memory of the caller before and after an operation that shows `x`. -/
def Fuse.Sees (x : Shown) (c c' : Caller) : Fuse → Prop
  | .getattr _ => ∀ n, x = .attributes n → Describes n c'.stat
  | .readlink _ size => ∀ t, x = .target t →
      c' = (c.strncpy ((t ++ List.replicate maxSize '\x00').take maxSize) size).terminate t.length
  | .statfs _ => True
  | _ => c' = c

/-- The servers hold the tree, and the client knows whether it has had the root initialised. -/
def OneTree.Held (umask : UInt32) (s : Station Replicated) (t : OneTree) : Prop :=
  s.world.Hold umask t.fs ∧ s.initialized = t.initialized

section

variable {umask : UInt32} {fs : FS} {m : Mount} {op : Fuse} {r : Request} {x : Answer}
  {info info' : Identity} {c c' : Caller} {reply : Reply}

/-- What is asked for does not depend on the server that is asked. -/
theorem answerOf_request : (op.request m info).bind (answerOf umask fs) =
    (op.request m info').bind (answerOf umask fs) := by
  cases op <;> rfl

/-- A request that is forwarded carries the identity of its sender. -/
theorem request_names (hop : op.request m info = some r) {slaveArg : Identity → Request}
    (hf : r.forwarding = some (info', slaveArg)) : info' = info := by
  cases op <;> cases hop <;> cases hf <;> rfl

/-- What is shown comes with the status of a success. -/
theorem answerOf_shown (hx : answerOf umask fs r = some x) : x.shown = .nothing ∨ x.ret = 0 := by
  have hlooked : ∀ {α : Type} {shows : α → Shown} {u : Except Errno α},
      (Answer.looked fs shows u).shown = .nothing ∨ (Answer.looked fs shows u).ret = 0 := by
    intro α shows u
    cases u with
    | ok a => exact .inr rfl
    | error e => exact .inl rfl
  cases r <;> cases hx
  case getattr => exact hlooked
  case readlink => exact hlooked
  case statfs => exact hlooked
  all_goals exact .inl rfl

/-- What the reply hands to the caller is what the tree shows. -/
theorem sees_of_hands (hx : answerOf umask fs r = some x) (hret : reply.ret = x.ret)
    (hshown : x.shown.In reply) (hhands : op.Hands reply c c') : op.Sees x.shown c c' := by
  cases op with
  | getattr path =>
      intro n hn
      rw [hn] at hshown
      obtain ⟨ret, rfl, hdescribes⟩ := hshown
      have hzero : x.ret = 0 := by
        rcases answerOf_shown hx with h | h
        · rw [hn] at h
          cases h
        · exact h
      rw [hhands ret rfl (by rw [show ret.ret = 0 from hret.trans hzero])]
      exact hdescribes
  | readlink path size =>
      intro t ht
      rw [ht] at hshown
      obtain ⟨old, e, rfl⟩ := hshown
      exact hhands _ rfl (by simp [readlinkResult])
  | statfs path => trivial
  | _ => exact hhands

end

section

variable {site : PairSite} {umask : UInt32} {s t : Station Replicated} {u : OneTree} {op : Fuse}
  {r : Request} {x : Answer} {v : Int} {reply : Reply}

/-- The client turns to the server that is in charge. -/
theorem pairSite_chosen (s : Station Replicated) : (site.network .silent).chosen s =
    some (s.world.inCharge, if s.world.up then IS_NOT_DEGRADED else IS_DEGRADED) := by
  unfold Network.chosen Replicated.inCharge
  show (if s.world.up then _ else _) = _
  split <;> rfl

/-- A call of the client is answered like the tree does. -/
theorem pairSite_answer (hw : s.world.Hold umask u.fs) (hx : answerOf umask u.fs r = some x)
    (hrole : s.world.up = true → r.ToPrimary)
    (hr : (site.network .silent).answer s.world.inCharge r s.world = some reply) :
    reply.ret = x.ret ∧ x.shown.In reply ∧
      ((site.network .silent).call s.world.inCharge r s.world).2.Hold umask x.fs ∧
      ((site.network .silent).call s.world.inCharge r s.world).2.up = s.world.up :=
  Replicated.ask_answer (a := site.arrival r s.world) hw hx hrole
    (Option.filter_eq_some_iff.mp hr).1

/-- The client tells the primary that it is one. -/
theorem request_toPrimary {w : Replicated}
    (hop : op.request site.mount (getIdentity (if w.up then IS_NOT_DEGRADED else IS_DEGRADED)) =
      some r) (hup : w.up = true) : r.ToPrimary := by
  rw [if_pos hup] at hop
  intro info slaveArg hf
  rw [request_names hop hf]
  exact ⟨rfl, rfl⟩

/-- Before an operation that prepares the root, the tree is the one that the operation meets. -/
theorem own_prepared (hheld : u.Held umask s)
    (hrun : (site.run op).run (site.network .silent).machine s =
      .ok (v, t)) (hans : ∀ x ∈ newExchanges s t, x.reply ≠ none) : ∃ s' : Station Replicated,
      (u.met umask op).Held umask s' ∧ s'.caller = s.caller ∧
      (op.prepares = true → s'.initialized = true) ∧
      (site.run op).run (site.network .silent).machine s' = .ok (v, t) ∧
      ∀ x ∈ newExchanges s' t, x.reply ≠ none := by
  obtain ⟨hworld, hinit⟩ := hheld
  by_cases hfirst : op.prepares = true ∧ u.initialized = false
  · obtain ⟨hop, hnew⟩ := hfirst
    obtain ⟨reply, s', hans', hworld', hdone, hcaller, hrun', hrest⟩ :=
      operation_prepared hop (hinit.trans hnew) (pairSite_chosen s) hrun hans
    have hmet : u.met umask op = ⟨(initOp umask u.fs).fs, true⟩ := by
      unfold OneTree.met
      rw [hop, hnew]
      rfl
    obtain ⟨-, -, hhold, -⟩ := pairSite_answer (x := (initOp umask u.fs).answer) hworld rfl
      (fun hup info slaveArg hf => by cases hf; rw [if_pos hup]; exact ⟨rfl, rfl⟩) hans'
    refine ⟨s', ?_, hcaller, fun _ => hdone, hrun', hrest⟩
    rw [hmet]
    exact ⟨by rw [hworld']; exact hhold, hdone⟩
  · have hmet : u.met umask op = u := by
      unfold OneTree.met
      rw [if_neg]
      intro h
      simp only [Bool.and_eq_true, Bool.not_eq_true'] at h
      exact hfirst h
    refine ⟨s, by rw [hmet]; exact ⟨hworld, hinit⟩, rfl, fun hop => ?_, hrun, hans⟩
    rw [hinit]
    by_contra hnew
    exact hfirst ⟨hop, Bool.eq_false_iff.mpr hnew⟩

/-- **An operation by path is one step of the tree.** -/
theorem own_step {r₀ : Request}
    (hop : op.request site.mount (getIdentity IS_NOT_DEGRADED) = some r₀) (hheld : u.Held umask s)
    (hrun : (site.run op).run (site.network .silent).machine s =
      .ok (v, t)) (hans : ∀ x ∈ newExchanges s t, x.reply ≠ none) :
    ∃ shown u', OneTree.step umask site.mount (.own op) u = .ok ((v, shown), u') ∧
      u'.Held umask t ∧ op.Sees shown s.caller t.caller := by
  obtain ⟨s', ⟨hworld, hinit⟩, hcaller, hprepared, hrun, hans⟩ := own_prepared hheld hrun hans
  obtain ⟨r, hr⟩ : ∃ r, op.request site.mount
      (getIdentity (if s'.world.up then IS_NOT_DEGRADED else IS_DEGRADED)) = some r := by
    cases op <;> first | exact ⟨_, rfl⟩ | cases hop
  obtain ⟨x, hx⟩ : ∃ x, answerOf umask (u.met umask op).fs r = some x := by
    cases op <;> cases hr <;> exact ⟨_, rfl⟩
  obtain ⟨reply, hcall, hv, hhands⟩ :=
    operation_answered hr (pairSite_chosen s') hprepared hrun hans
  obtain ⟨hret, hshown, hhold, -⟩ :=
    pairSite_answer hworld hx (request_toPrimary hr) hcall.answer
  have hstep : (op.request site.mount (getIdentity IS_NOT_DEGRADED)).bind
      (answerOf umask (u.met umask op).fs) = some x := by
    rw [answerOf_request, hr]
    exact hx
  refine ⟨x.shown, { u.met umask op with fs := x.fs }, ?_, ?_, ?_⟩
  · simp only [OneTree.step, hstep, hv, hret]
  · refine ⟨?_, hcall.initialized_eq.trans hinit⟩
    rw [hcall.world_eq]
    exact hhold
  · rw [← hcaller]
    exact sees_of_hands hx hret hshown hhands

/-- **What keeps the tree** keeps the servers in step with the single tree. -/
theorem exec_keeps {β : Type} {c : Net β} {b : β} (hc : c.KeepsTree) (hheld : u.Held umask s)
    (hs : (site.network .silent).exec c s = .ok (b, t)) : u.Held umask t := by
  have hsame : ∀ t : Station Replicated, t.world = s.world → t.initialized = s.initialized →
      u.Held umask t := by
    intro t hw hi
    unfold OneTree.Held
    rw [hw, hi]
    exact hheld
  cases c with
  | clntCreate host =>
      simp only [Network.exec] at hs
      split at hs <;> cases hs <;> exact hsame _ rfl rfl
  | clntCall clnt r =>
      cases hs
      exact ⟨(Replicated.ask_keeps (a := site.arrival r s.world) hheld.1 clnt.host hc.1 hc.2).1,
        hheld.2⟩
  | setInitialized => exact hc.elim
  | exit status => cases hs
  | more => cases hs
  | fill name =>
      rw [← (Prod.mk.inj (Except.ok.inj hs)).2]
      split
      · exact hsame _ rfl rfl
      · exact hheld
  | _ =>
      rw [← (Prod.mk.inj (Except.ok.inj hs)).2]
      exact hsame _ rfl rfl

/-- An operation on an open file that writes nothing leaves the tree as it is. -/
theorem own_keeps (hop : op.request site.mount (getIdentity IS_NOT_DEGRADED) = none)
    (hwrites : op.writesNothing = true) (hheld : u.Held umask s)
    (hrun : (site.run op).run (site.network .silent).machine s =
      .ok (v, t)) : u.Held umask t := by
  have hkeeps : (site.run op).Calls Net.KeepsTree :=
    operation_keepsTree hop hwrites
  refine hkeeps.run_rel (R := fun s t : Station Replicated => u.Held umask s → u.Held umask t)
    (fun _ h => h) (fun _ _ _ h h' hs => h' (h hs))
    (fun c hc s b t hs hheld => exec_keeps hc hheld hs) hrun hheld

end

/-! ## Runs -/

/-- What a move does to the tree; none when it names no file by its path. -/
def PairMove.deed (m : Mount) : PairMove → Option Deed
  | .own op => (op.request m (getIdentity IS_NOT_DEGRADED)).map fun _ => .own op
  | .other a => if a.request.goesByPath then some (.other a.request.anywhere) else none
  | .crash => none

/-- An event of a run of a client and a pair. -/
abbrev PairHappening := Event PairMove Int (Station Replicated)

/-- Nothing is written, and servers that print nothing answer every request.  Whoever talks to the
primary says that it is one. -/
def Answered (e : PairHappening) : Prop :=
  match e.input with
  | .own op => op.writesNothing = true ∧ ∀ x ∈ newExchanges e.pre e.post, x.reply ≠ none
  | .other a => a.request.writesNothing = true ∧
    (e.pre.world.up = true → a.request.ToPrimary) ∧
    (e.pre.world.ask .silent e.pre.world.inCharge a).1 ≠ none
  | .crash => True

/-- An event of the pair is one of the tree: it returns and shows the same. -/
structure Told (m : Mount) (e : PairHappening) (d : Event Deed (Int × Shown) OneTree) : Prop where
  deed_eq : e.input.deed m = some d.input
  output_eq : e.output = d.output.1
  sees : ∀ op, e.input = .own op → op.Sees d.output.2 e.pre.caller e.post.caller

section

variable {site : PairSite} {umask : UInt32} {s t : Station Replicated} {u : OneTree}
  {tr : List PairHappening}

/-- **One step**: it is a step of the tree, or the tree stays as it is. -/
theorem tree_step {e : PairHappening} (hheld : u.Held umask e.pre)
    (hs : site.step .silent e.input e.pre = .ok (e.output, e.post)) (hC : Answered e) :
    (∃ d o u', OneTree.step umask site.mount d u = .ok (o, u') ∧ u'.Held umask e.post ∧
      Told site.mount e ⟨u, d, o, u'⟩) ∨
      (u.Held umask e.post ∧ e.input.deed site.mount = none) := by
  obtain ⟨s, i, v, t⟩ := e
  dsimp only at hheld hs ⊢
  cases i with
  | own op =>
      obtain ⟨hwrites, hans⟩ := hC
      cases hop : op.request site.mount (getIdentity IS_NOT_DEGRADED) with
      | none =>
          refine .inr ⟨own_keeps hop hwrites hheld hs, ?_⟩
          simp [PairMove.deed, hop]
      | some r =>
          obtain ⟨shown, u', hstep, hheld', hsees⟩ := own_step hop hheld hs hans
          refine .inl ⟨.own op, (v, shown), u', hstep, hheld', ?_, rfl, ?_⟩
          · simp [PairMove.deed, hop]
          · rintro op' hop'
            cases hop'
            exact hsees
  | other a =>
      obtain ⟨hwrites, hrole, hans⟩ := hC
      dsimp only at hrole hans
      obtain ⟨rfl, rfl⟩ := Prod.mk.inj (Except.ok.inj hs)
      obtain ⟨hworld, hinit⟩ := hheld
      cases hpath : a.request.goesByPath with
      | false =>
          refine .inr ⟨⟨(Replicated.ask_keeps hworld _ hwrites hpath).1, hinit⟩, ?_⟩
          simp [PairMove.deed, hpath]
      | true =>
          obtain ⟨reply, hreply⟩ := Option.ne_none_iff_exists'.mp hans
          obtain ⟨x, hx⟩ : ∃ x, answerOf umask u.fs a.request = some x := by
            rw [← Option.isSome_iff_exists, answerOf_isSome]
            exact hpath
          obtain ⟨hret, -, hhold, -⟩ := Replicated.ask_answer hworld hx hrole hreply
          refine .inl ⟨.other a.request.anywhere, (x.ret, x.shown), { u with fs := x.fs }, ?_,
            ⟨hhold, hinit⟩, ?_, ?_, ?_⟩
          · simp only [OneTree.step, answerOf_anywhere, hx]
          · simp [PairMove.deed, hpath]
          · simp [hreply, hret]
          · intro op hop
            cases hop
  | crash =>
      obtain ⟨rfl, rfl⟩ := Prod.mk.inj (Except.ok.inj hs)
      obtain ⟨⟨-, hsec, hmask, hmask'⟩, hinit⟩ := hheld
      exact .inr ⟨⟨⟨fun hup => absurd hup (by simp), hsec, hmask, hmask'⟩, hinit⟩, rfl⟩

end

/-! ## Servers that print -/

/-- The process at a host. -/
def Replicated.os (w : Replicated) : HostName → OS
  | .host1 => w.pair.primary
  | .host2 => w.pair.secondary.os

/-- Nothing is written, every request is answered, and all of them are within the bounds of the
server to which they go.  Whoever talks to the primary says that it is one. -/
def Attended (texts : Verbose.RpcTexts) (site : PairSite) (e : PairHappening) : Prop :=
  match e.input with
  | .own op => op.writesNothing = true ∧ (∀ x ∈ newExchanges e.pre e.post, x.reply ≠ none) ∧
    (site.run op).Each (site.network (.aloud texts)).machine
      (OnCall fun clnt r u => r.InBounds (u.world.os clnt.host)) e.pre
  | .other a => a.request.writesNothing = true ∧
    (e.pre.world.up = true → a.request.ToPrimary) ∧
    (e.pre.world.ask (.aloud texts) e.pre.world.inCharge a).1 ≠ none ∧
    a.request.InBounds (e.pre.world.os e.pre.world.inCharge)
  | .crash => True

section

variable {texts : Verbose.RpcTexts} {site : PairSite} {umask : UInt32}
  {s t : Station Replicated} {u : OneTree} {tr : List PairHappening}

/-- What the hosts print goes unheard while their standard errors are in place. -/
theorem Replicated.ask_unheard (texts : Verbose.RpcTexts) {w : Replicated}
    (hin : Verbose.InPlace w.pair) {host : HostName} {a : PairArrival}
    (ha : a.request.InBounds (w.os host)) :
    w.ask .silent host a = w.ask (.aloud texts) host a ∧
      Verbose.InPlace (w.ask .silent host a).2.pair := by
  cases host with
  | host1 =>
      obtain ⟨heq, hkeep⟩ :=
        Verbose.servePair_unheard texts (a := a) hin (ha.leavesOwn.spares hin.primary)
      refine ⟨by simp only [ask, Answering.aloud, Answering.silent, heq], ?_⟩
      simp only [ask, Answering.silent]
      split
      · split
        · next hr => exact hkeep _ _ hr
        · exact hin
      · exact hin
  | host2 =>
      obtain ⟨heq, hkeep⟩ := Verbose.serve_unheard texts
        (a := ⟨a.request, a.stale, a.relay.peer⟩) hin.secondary (ha.leavesOwn.spares hin.secondary)
      refine ⟨by simp only [ask, Answering.aloud, Answering.silent, heq], ?_⟩
      simp only [ask, Answering.silent]
      split
      · next hr => exact ⟨hin.primary, hkeep _ _ hr⟩
      · exact hin

/-- A call of the client. -/
theorem exec_unheard {β : Type} {c : Net β} (hin : Verbose.InPlace s.world.pair)
    (hc : OnCall (fun clnt r u => r.InBounds (u.world.os clnt.host)) c s) :
    (site.network .silent).exec c s = (site.network (.aloud texts)).exec c s ∧
      ∀ b t, (site.network .silent).exec c s = .ok (b, t) → Verbose.InPlace t.world.pair := by
  have hsame : ∀ t : Station Replicated, t.world = s.world → Verbose.InPlace t.world.pair := by
    intro t hw
    rw [hw]
    exact hin
  cases c with
  | clntCall clnt r =>
      obtain ⟨heq, hkeep⟩ :=
        Replicated.ask_unheard texts (a := site.arrival r s.world) hin hc
      have hcall : (site.network .silent).call clnt.host r s.world =
          (site.network (.aloud texts)).call clnt.host r s.world := heq
      refine ⟨by simp only [Network.exec, Network.answer, hcall], fun b t hs => ?_⟩
      cases hs
      exact hkeep
  | clntCreate host =>
      refine ⟨rfl, fun b t hs => ?_⟩
      simp only [Network.exec] at hs
      split at hs <;> cases hs <;> exact hsame _ rfl
  | exit | more => exact ⟨rfl, fun b t hs => by cases hs⟩
  | fill name =>
      refine ⟨rfl, fun b t hs => ?_⟩
      rw [← (Prod.mk.inj (Except.ok.inj hs)).2]
      split
      · exact hsame _ rfl
      · exact hin
  | _ =>
      refine ⟨rfl, fun b t hs => ?_⟩
      rw [← (Prod.mk.inj (Except.ok.inj hs)).2]
      exact hsame _ rfl

/-- **A step goes unheard.** -/
theorem step_unheard {e : PairHappening} (hin : Verbose.InPlace e.pre.world.pair)
    (hs : site.step (.aloud texts) e.input e.pre = .ok (e.output, e.post))
    (hC : Attended texts site e) :
    site.step .silent e.input e.pre = .ok (e.output, e.post) ∧ Answered e ∧
      Verbose.InPlace e.post.world.pair := by
  obtain ⟨s, i, v, t⟩ := e
  dsimp only at hin hs ⊢
  cases i with
  | own op =>
      obtain ⟨hwrites, hans, hbounds⟩ := hC
      obtain ⟨heq, hkeep⟩ := hbounds.run_congr (m := (site.network (.aloud texts)).machine)
        (n := (site.network .silent).machine)
        (I := fun s : Station Replicated => Verbose.InPlace s.world.pair)
        (fun c s hin hc => exec_unheard (c := c) hin hc) hin
      have hsilent := heq.trans hs
      exact ⟨hsilent, ⟨hwrites, hans⟩, hkeep _ _ hsilent⟩
  | other a =>
      obtain ⟨hwrites, hrole, hans, hbounds⟩ := hC
      obtain ⟨heq, hkeep⟩ := Replicated.ask_unheard texts hin hbounds
      dsimp only at hrole hans
      rw [← heq] at hans
      simp only [PairSite.step, ← heq] at hs ⊢
      refine ⟨hs, ⟨hwrites, hrole, hans⟩, ?_⟩
      rw [← (Prod.mk.inj (Except.ok.inj hs)).2]
      exact hkeep
  | crash =>
      refine ⟨hs, trivial, ?_⟩
      rw [← (Prod.mk.inj (Except.ok.inj hs)).2]
      exact hin

/-- The servers hold the tree, and what they print goes unheard. -/
structure HeldQuietly (umask : UInt32) (s : Station Replicated) (u : OneTree) : Prop where
  held : u.Held umask s
  inPlace : Verbose.InPlace s.world.pair

/-- **One step of a pair that prints** is a step of the tree, or the tree stays as it is. -/
theorem tree_step_aloud {e : PairHappening} (hheld : HeldQuietly umask e.pre u)
    (hs : site.step (.aloud texts) e.input e.pre = .ok (e.output, e.post))
    (hC : Attended texts site e) :
    (∃ d o u', OneTree.step umask site.mount d u = .ok (o, u') ∧ HeldQuietly umask e.post u' ∧
      Told site.mount e ⟨u, d, o, u'⟩) ∨
      (HeldQuietly umask e.post u ∧ e.input.deed site.mount = none) := by
  obtain ⟨hsilent, hanswered, hin⟩ := step_unheard hheld.inPlace hs hC
  rcases tree_step hheld.held hsilent hanswered with ⟨d, o, u', hstep, hheld', htold⟩ | ⟨hheld', hd⟩
  · exact .inl ⟨d, o, u', hstep, ⟨hheld', hin⟩, htold⟩
  · exact .inr ⟨⟨hheld', hin⟩, hd⟩

/-- **One tree.**  Every run of a client and a pair in which nothing is written and every request is
within bounds is a run of one tree with the same results, wherever in it the primary fails. -/
theorem one_tree (h : Runs (site.step (.aloud texts)) s tr t) (hstart : HeldQuietly umask s u)
    (hC : ∀ e ∈ tr, Attended texts site e) :
    ∃ tr' u', Runs (OneTree.step umask site.mount) u tr' u' ∧ u'.Held umask t ∧
      Reads (Told site.mount) (fun e => e.input.deed site.mount = none) tr tr' := by
  obtain ⟨tr', u', hrun, hheld, hreads⟩ :=
    h.simulated (fun _ _ hheld hs hC => tree_step_aloud hheld hs hC) hstart hC
  exact ⟨tr', u', hrun, hheld.held, hreads⟩

/-- What the operations and requests that name files by their paths do to the tree. -/
def deeds (m : Mount) (tr : List PairHappening) : List Deed := tr.filterMap fun e => e.input.deed m

/-- What they return. -/
def results (m : Mount) (tr : List PairHappening) : List Int :=
  tr.filterMap fun e => (e.input.deed m).map fun _ => e.output

/-- The two runs did the same. -/
theorem deeds_eq {m : Mount} {tr : List PairHappening}
    {tr' : List (Event Deed (Int × Shown) OneTree)}
    (h : Reads (Told m) (fun e => e.input.deed m = none) tr tr') :
    deeds m tr = tr'.map (·.input) :=
  h.filterMap_eq (fun _ _ hr => hr.deed_eq) fun _ hs => hs

/-- The two runs returned the same. -/
theorem results_eq {m : Mount} {tr : List PairHappening}
    {tr' : List (Event Deed (Int × Shown) OneTree)}
    (h : Reads (Told m) (fun e => e.input.deed m = none) tr tr') :
    results m tr = tr'.map (·.output.1) :=
  h.filterMap_eq (fun _ _ hr => by rw [hr.deed_eq, hr.output_eq]; rfl) fun _ hs => by rw [hs]; rfl

/-- **Failover is not noticed.**  Two runs in which the same is done to the same tree are runs of
one tree with the same results, wherever in each the primary fails, and the servers that can be
reached at their ends hold the same tree. -/
theorem failover_unnoticed {texts' : Verbose.RpcTexts} {site' : PairSite}
    {s' t' : Station Replicated} {tr' : List PairHappening}
    (h : Runs (site.step (.aloud texts)) s tr t)
    (h' : Runs (site'.step (.aloud texts')) s' tr' t') (hmount : site'.mount = site.mount)
    (hstart : HeldQuietly umask s u) (hstart' : HeldQuietly umask s' u)
    (hC : ∀ e ∈ tr, Attended texts site e) (hC' : ∀ e ∈ tr', Attended texts' site' e)
    (hdeeds : deeds site.mount tr' = deeds site.mount tr) :
    results site.mount tr' = results site.mount tr ∧
      ∃ tr₀ u₀, Runs (OneTree.step umask site.mount) u tr₀ u₀ ∧
        Reads (Told site.mount) (fun e => e.input.deed site.mount = none) tr tr₀ ∧
        Reads (Told site.mount) (fun e => e.input.deed site.mount = none) tr' tr₀ ∧
        u₀.Held umask t ∧ u₀.Held umask t' := by
  obtain ⟨tr₀, u₀, hrun, hheld, hreads⟩ :=
    h.simulated (fun _ _ hheld hs hC => tree_step_aloud hheld hs hC) hstart hC
  obtain ⟨tr₁, u₁, hrun', hheld', hreads'⟩ :=
    h'.simulated (fun _ _ hheld hs hC => tree_step_aloud hheld hs hC) hstart' hC'
  rw [hmount] at hrun' hreads'
  have hinputs : tr₁.map Event.input = tr₀.map Event.input := by
    rw [← deeds_eq hreads', ← deeds_eq hreads]
    exact hdeeds
  obtain ⟨rfl, rfl⟩ := hrun'.unique hrun hinputs
  refine ⟨?_, tr₁, u₁, hrun, hreads, hreads', hheld.held, hheld'.held⟩
  rw [results_eq hreads, results_eq hreads']

end

/-! ## One file -/

/-- A client of a pair whose secondary has no other server. -/
def lonePair : PairSite where
  rounds := 0
  mount := ⟨"1".toList, []⟩
  unset := .zero
  stale _ := .zero
  relay _ := ⟨.zero, .absent⟩
  filler _ _ := 0

/-- One step of this client and its pair, whose library prints nothing. -/
abbrev loneStep := PairSite.step lonePair (.aloud .none)

/-- The client before its first operation. -/
def beforeUnlink : Station Replicated := ⟨⟨.launch oneFile, true⟩, .blank, false, [], 0, []⟩

/-- The servers as they are started hold the tree. -/
theorem beforeUnlink_held :
    HeldQuietly (OS.start oneFile).umask beforeUnlink ⟨oneFile, false⟩ := by
  have hagree : Agree oneFile oneFile := .refl (FS.closed_ofNodes (by decide) (by decide))
  exact ⟨⟨⟨fun _ => hagree, hagree, rfl, rfl⟩, rfl⟩, launch_inPlace oneFile⟩

/-- The station after the primary has failed. -/
def Station.alone (s : Station Replicated) : Station Replicated :=
  { s with world := { s.world with up := false } }

abbrev unlinkF : Fuse := .unlink "/f".toList

abbrev accessF : Fuse := .access "/f".toList 0

/-- An operation that has made one call, which was answered, has lost none. -/
theorem newExchanges_answered {s t : Station Replicated} {b : List Bool}
    (hlog : t.log.map (·.reply.isSome) = b) (hb : ∀ x ∈ b, x = true) :
    ∀ x ∈ newExchanges s t, x.reply ≠ none := by
  intro x hx hnone
  have hmem : x.reply.isSome ∈ b := by
    rw [← hlog]
    exact List.mem_map_of_mem (List.mem_of_mem_drop hx)
  rw [hnone] at hmem
  exact Bool.false_ne_true (hb _ hmem)

/-- Operations that make one request, which is within bounds everywhere. -/
theorem statusOf_inBounds {unset : Unset} {r : Identity → Request} {w : Network Replicated}
    {s : Station Replicated} (hr : ∀ info os, (r info).InBounds os) : (statusOf unset r).Each
      w.machine (OnCall fun clnt r u => r.InBounds (u.world.os clnt.host)) s := by
  have hcalls : (statusOf unset r).Calls fun {_} c => ∀ s : Station Replicated,
      OnCall (fun clnt r u => r.InBounds (u.world.os clnt.host)) c s := by
    refine calls_bind (calls_bind ⟨fun _ => trivial, fun b => ?_⟩ fun c => ?_) fun _ => trivial
    · cases b with
      | some clnt => trivial
      | none =>
          refine ⟨fun _ => trivial, fun b => ?_⟩
          cases b with
          | some clnt => trivial
          | none => exact ⟨fun _ => trivial, fun e => e.elim⟩
    · exact ⟨fun s => hr _ _, fun _ => ⟨fun _ => trivial, fun _ => trivial⟩⟩
  exact hcalls.each fun c s hc => hc s

theorem fits_f : Buffer.Fits "/f".toList := ⟨by decide, by decide⟩

/-- Removing `/f` is within the bounds. -/
theorem inBounds_unlinkF (info : Identity) (os : OS) :
    (Request.unlink ⟨lonePair.mount.ip, info, "/f".toList⟩).InBounds os :=
  .of_paths (List.forall_mem_singleton.mpr fits_f) rfl fun _ h => by cases h

/-- Asking for access to `/f` is within the bounds. -/
theorem inBounds_accessF (os : OS) :
    (Request.access ⟨lonePair.mount.ip, "/f".toList, 0⟩).InBounds os :=
  .of_paths (List.forall_mem_singleton.mpr fits_f) rfl fun _ h => by cases h

/-- An unlink that is answered meets the conditions on a step. -/
theorem attended_unlinkF {s t : Station Replicated} {v : Int}
    (hans : ∀ x ∈ newExchanges s t, x.reply ≠ none) :
    Attended .none lonePair ⟨s, .own unlinkF, v, t⟩ :=
  ⟨rfl, hans, statusOf_inBounds fun info os => inBounds_unlinkF info os⟩

/-- An access that is answered meets the conditions on a step. -/
theorem attended_accessF {s t : Station Replicated} {v : Int}
    (hans : ∀ x ∈ newExchanges s t, x.reply ≠ none) :
    Attended .none lonePair ⟨s, .own accessF, v, t⟩ :=
  ⟨rfl, hans, statusOf_inBounds fun _ os => inBounds_accessF os⟩

/-- The file is removed at the primary, and is not there at the secondary. -/
theorem one_tree_failover : ∃ tr t tr' u', Runs loneStep beforeUnlink tr t ∧
    t.world.up = false ∧ tr.map (·.output) = [0, 0, -1] ∧
    Runs (OneTree.step (OS.start oneFile).umask lonePair.mount) ⟨oneFile, false⟩ tr' u' ∧
    tr'.map (·.output.1) = [0, -1] := by
  have hrun : (loneStep (.own unlinkF) beforeUnlink >>= fun r =>
      (loneStep (.own accessF) r.2.alone).map fun r' =>
        ((r.1, r.2.log.map (·.reply.isSome)), r'.1, r'.2.log.map (·.reply.isSome),
          r'.2.world.up)) = .ok ((0, [true]), -1, [true, true], false) := by decide +kernel
  obtain ⟨⟨v, s₁⟩, hs₁, hrun⟩ := bind_eq_ok.mp hrun
  obtain ⟨⟨v', s₂⟩, hs₂, hvalues⟩ := map_eq_ok.mp hrun
  simp only [Prod.mk.injEq] at hvalues
  obtain ⟨⟨rfl, hlog⟩, rfl, hlog', hup⟩ := hvalues
  let e₁ : PairHappening := ⟨beforeUnlink, .own unlinkF, 0, s₁⟩
  let e₂ : PairHappening := ⟨s₁, .crash, 0, s₁.alone⟩
  let e₃ : PairHappening := ⟨s₁.alone, .own accessF, -1, s₂⟩
  have hruns : Runs loneStep beforeUnlink ([e₁] ++ [e₂] ++ [e₃]) s₂ :=
    ((Runs.single hs₁).snoc (e := e₂) rfl).snoc (e := e₃) hs₂
  have hC : ∀ e ∈ [e₁] ++ [e₂] ++ [e₃], Attended .none lonePair e := by
    intro e he
    simp only [List.cons_append, List.nil_append, List.mem_cons, List.not_mem_nil,
      or_false] at he
    rcases he with rfl | rfl | rfl
    · exact attended_unlinkF (newExchanges_answered hlog (by simp))
    · trivial
    · exact attended_accessF (newExchanges_answered hlog' (by simp))
  obtain ⟨tr', u', hrun', -, hreads⟩ := one_tree hruns beforeUnlink_held hC
  exact ⟨_, s₂, tr', u', hruns, hup, rfl, hrun', (results_eq hreads).symm⟩

/-- The file is removed before the primary fails, or after. -/
theorem failover_unnoticed_unlink : ∃ tr tr' t t',
    Runs loneStep beforeUnlink tr t ∧ Runs loneStep beforeUnlink tr' t' ∧
    tr.map (·.input) = [.own unlinkF, .crash] ∧ tr'.map (·.input) = [.crash, .own unlinkF] ∧
    results lonePair.mount tr = [0] ∧ results lonePair.mount tr' = [0] ∧
    ∃ fs, Agree t.world.pair.secondary.os.fs fs ∧ Agree t'.world.pair.secondary.os.fs fs := by
  have hrun : (loneStep (.own unlinkF) beforeUnlink).map (fun r =>
      (r.1, r.2.log.map (·.reply.isSome))) = .ok (0, [true]) := by decide +kernel
  have hrun' : (loneStep (.own unlinkF) beforeUnlink.alone).map (fun r =>
      (r.1, r.2.log.map (·.reply.isSome))) = .ok (0, [true]) := by decide +kernel
  obtain ⟨⟨v, s₁⟩, hs₁, hvalues⟩ := map_eq_ok.mp hrun
  obtain ⟨⟨v', s₂⟩, hs₂, hvalues'⟩ := map_eq_ok.mp hrun'
  obtain ⟨rfl, hlog⟩ := Prod.mk.inj hvalues
  obtain ⟨rfl, hlog'⟩ := Prod.mk.inj hvalues'
  let e₁ : PairHappening := ⟨beforeUnlink, .own unlinkF, 0, s₁⟩
  let e₂ : PairHappening := ⟨s₁, .crash, 0, s₁.alone⟩
  let e₃ : PairHappening := ⟨beforeUnlink, .crash, 0, beforeUnlink.alone⟩
  let e₄ : PairHappening := ⟨beforeUnlink.alone, .own unlinkF, 0, s₂⟩
  have hruns : Runs loneStep beforeUnlink ([e₁] ++ [e₂]) s₁.alone :=
    (Runs.single hs₁).snoc (e := e₂) rfl
  have hruns' : Runs loneStep beforeUnlink ([e₃] ++ [e₄]) s₂ :=
    (Runs.snoc (e := e₃) .nil rfl).snoc (e := e₄) hs₂
  have hC : ∀ e ∈ [e₁] ++ [e₂], Attended .none lonePair e := by
    intro e he
    simp only [List.cons_append, List.nil_append, List.mem_cons, List.not_mem_nil,
      or_false] at he
    rcases he with rfl | rfl
    · exact attended_unlinkF (newExchanges_answered hlog (by simp))
    · trivial
  have hC' : ∀ e ∈ [e₃] ++ [e₄], Attended .none lonePair e := by
    intro e he
    simp only [List.cons_append, List.nil_append, List.mem_cons, List.not_mem_nil,
      or_false] at he
    rcases he with rfl | rfl
    · trivial
    · exact attended_unlinkF (newExchanges_answered hlog' (by simp))
  obtain ⟨hsame, tr₀, u₀, -, -, -, hheld, hheld'⟩ :=
    failover_unnoticed hruns hruns' rfl beforeUnlink_held beforeUnlink_held hC hC' rfl
  exact ⟨_, _, s₁.alone, s₂, hruns, hruns', rfl, rfl, rfl, hsame, u₀.fs, hheld.1.secondary,
    hheld'.1.secondary⟩

end Client

end DFS
