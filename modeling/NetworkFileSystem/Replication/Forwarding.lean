import NetworkFileSystem.Service.Files

/-!
# Forwarding from the primary to the secondary

A handler that forwards does so before anything else, and once; what follows are system calls of
its own (**`compute6_forwards`**), and so are all the calls of a handler that does not forward
(**`compute6_local`**).  A request at the primary of a pair is therefore two runs of a single
server (**`pair_serve`**): the secondary answers the request in the role of a secondary, and the
primary answers it as if there were no other server.
-/

namespace DFS

open Effects Posix Prog

/-- What a request says about the servers, and the same request with other information; none for
the requests that stay at one server. -/
def Request.forwarding : Request → Option (Identity × (Identity → Request))
  | .initRootdir argp =>
    some (argp.serverInfo, fun info => .initRootdir { argp with serverInfo := info })
  | .mkdir argp => some (argp.serverInfo, fun info => .mkdir { argp with serverInfo := info })
  | .rmdir argp => some (argp.serverInfo, fun info => .rmdir { argp with serverInfo := info })
  | .rename argp => some (argp.serverInfo, fun info => .rename { argp with serverInfo := info })
  | .symlink argp => some (argp.serverInfo, fun info => .symlink { argp with serverInfo := info })
  | .link argp => some (argp.serverInfo, fun info => .link { argp with serverInfo := info })
  | .mknod argp => some (argp.serverInfo, fun info => .mknod { argp with serverInfo := info })
  | .truncate argp =>
    some (argp.serverInfo, fun info => .truncate { argp with serverInfo := info })
  | .unlink argp => some (argp.serverInfo, fun info => .unlink { argp with serverInfo := info })
  | .utime argp => some (argp.serverInfo, fun info => .utime { argp with serverInfo := info })
  | .chmod argp => some (argp.serverInfo, fun info => .chmod { argp with serverInfo := info })
  | .chown argp => some (argp.serverInfo, fun info => .chown { argp with serverInfo := info })
  | .write argp => some (argp.serverInfo, fun info => .write { argp with serverInfo := info })
  | _ => none

/-- A call of the operating system. -/
def Call.IsOs {β : Type} : Call β → Prop
  | .os _ => True
  | .rpc _ => False

/-! ## The calls after forwarding -/

section

variable {α β : Type}

/-- A system call is no call to the other server. -/
theorem calls_own (c : Sys β) : (sys c).Calls Call.IsOs := calls_os trivial

theorem own_negErrno {ρ : Type} (f : Int → ρ) :
    (do return f (← negErrno) : Server ρ).Calls Call.IsOs :=
  calls_bind (calls_negErrno trivial) fun _ => trivial

/-- The check of the parents calls nobody. -/
theorem own_checkParent {p q ip : CStr} {op : OpName} {rest : Server StatusRet}
    (hrest : rest.Calls Call.IsOs) :
    (checkParentDirectoryValid p q ip op rest).Calls Call.IsOs :=
  calls_checkParent (fun _ => trivial) hrest

/-- Locking calls nobody. -/
theorem own_lockDirectory {parentPath : CStr} {rest : Int → Server StatusRet}
    (hrest : ∀ fd, (rest fd).Calls Call.IsOs) :
    (lockDirectory parentPath rest).Calls Call.IsOs := by
  refine calls_bind (calls_bind (calls_own _) fun dir => ?_) fun fd => ?_
  · cases dir with
    | none => trivial
    | some dir =>
        dsimp only
        split
        · trivial
        · exact calls_bind (calls_own _) fun _ => by split <;> trivial
  · split
    · trivial
    · exact hrest fd

theorem own_unlockDirectory (fd : Int) (result : StatusRet) :
    (unlockDirectory fd result).Calls Call.IsOs := by
  refine calls_bind (calls_bind (calls_own _) fun _ => ?_) fun _ => ?_
  · split <;> trivial
  · split <;> trivial

/-- Changing the owner calls nobody. -/
theorem own_setOwner (p ip : CStr) : (setOwner p ip).Calls Call.IsOs :=
  calls_bind (calls_own _) fun _ => by split <;> trivial

theorem own_setSoftlinkOwner (p ip : CStr) : (setSoftlinkOwner p ip).Calls Call.IsOs :=
  calls_bind (calls_own _) fun _ => by split <;> trivial

/-- A handler that forwards and goes on with calls of its own. -/
theorem forwards {info : Identity} {slaveArg : Identity → Request} {p : Server α} (f : α → Reply)
    (hp : p.Calls Call.IsOs) : ∃ rest : Server Reply,
      f <$> (do transmitToSecondaty info slaveArg; p) =
        (do transmitToSecondaty info slaveArg; rest) ∧ rest.Calls Call.IsOs :=
  ⟨f <$> p, map_bind _ _ _, calls_map hp⟩

/-- The checks of the initialization call nobody. -/
theorem own_exitUnless {c : Sys Int} {p : Server α} (hp : p.Calls Call.IsOs) :
    (do if (← sys c) ≠ 0 then let _ ← sys (.exit 1)
        p : Server α).Calls Call.IsOs := by
  refine calls_bind (calls_own _) fun v => ?_
  split
  · exact calls_bind (calls_own _) fun _ => hp
  · exact hp

end

/-- **A forwarding handler** forwards first and only once. -/
theorem compute6_forwards {r : Request} {info : Identity} {slaveArg : Identity → Request}
    (hr : r.forwarding = some (info, slaveArg)) (stale : Stale) : ∃ rest : Server Reply,
      compute6 stale r = (do transmitToSecondaty info slaveArg; rest) ∧ rest.Calls Call.IsOs := by
  cases r <;> simp only [Request.forwarding, Option.some.injEq, Prod.mk.injEq, reduceCtorEq] at hr
    <;> obtain ⟨rfl, rfl⟩ := hr <;> refine forwards _ ?_
  case initRootdir argp =>
    have hchmod : (do if (← sys (.chmod dfsRoot 0o777)) ≠ 0 then let _ ← sys (.exit 1)
                      return ⟨0⟩ : Server InitRet).Calls Call.IsOs := own_exitUnless trivial
    refine calls_bind (calls_own _) fun v => ?_
    split
    · exact own_exitUnless hchmod
    · exact hchmod
  case mkdir argp =>
    refine own_checkParent (own_lockDirectory fun fd => calls_bind (calls_own _) fun ret => ?_)
    refine calls_bind (own_unlockDirectory _ _) fun result => ?_
    split
    · exact calls_bind (own_setOwner _ _) fun _ => by split <;> trivial
    · trivial
  case rmdir argp =>
    refine own_checkParent (own_lockDirectory fun fd => calls_bind (calls_own _) fun ret => ?_)
    exact own_unlockDirectory _ _
  case rename argp =>
    refine own_checkParent (own_checkParent (own_lockDirectory fun fd => ?_))
    dsimp only
    split
    · refine own_lockDirectory fun newFd => calls_bind (calls_own _) fun ret => ?_
      exact calls_bind (own_unlockDirectory _ _) fun _ => own_unlockDirectory _ _
    · refine calls_bind (calls_own _) fun ret => ?_
      exact calls_bind (own_unlockDirectory _ _) fun _ => trivial
  case symlink argp =>
    refine own_checkParent (calls_bind (calls_own _) fun ret => ?_)
    split
    · exact calls_bind (own_setSoftlinkOwner _ _) fun _ => by split <;> trivial
    · trivial
  case link argp =>
    refine own_checkParent (own_checkParent (calls_bind (calls_own _) fun ret => ?_))
    split
    · exact calls_bind (own_setOwner _ _) fun _ => by split <;> trivial
    · trivial
  case mknod argp =>
    refine own_checkParent (own_lockDirectory fun fd => ?_)
    have hfailed : (do
        let _ ← unlockDirectory fd ⟨-1⟩
        return ⟨-1⟩ : Server MknodRet).Calls Call.IsOs :=
      calls_bind (own_unlockDirectory _ _) fun _ => trivial
    have howned : (do
        let ret : Int := if (← setOwner (translateAbspath argp.path) argp.ip) < 0 then -1 else 0
        unlockDirectory fd ⟨ret⟩ : Server MknodRet).Calls Call.IsOs :=
      calls_bind (own_setOwner _ _) fun _ => own_unlockDirectory _ _
    dsimp only
    split
    · refine calls_bind (calls_own _) fun v => ?_
      split
      · exact hfailed
      · exact calls_bind (calls_own _) fun _ => howned
    · split
      · refine calls_bind (calls_own _) fun v => ?_
        split
        · exact hfailed
        · exact howned
      · refine calls_bind (calls_own _) fun v => ?_
        split
        · exact hfailed
        · exact howned
  case truncate argp =>
    refine calls_bind (calls_own _) fun v => ?_
    split
    · exact own_negErrno _
    · trivial
  case unlink argp =>
    refine own_checkParent (own_lockDirectory fun fd => calls_bind (calls_own _) fun ret => ?_)
    exact own_unlockDirectory _ _
  case utime argp =>
    refine calls_bind (calls_isOwner (fun _ => trivial) _ _) fun v => ?_
    split
    · trivial
    · exact calls_bind (calls_own _) fun _ => trivial
  case chmod argp =>
    refine calls_bind (calls_isOwner (fun _ => trivial) _ _) fun v => ?_
    split
    · trivial
    · exact calls_bind (calls_own _) fun _ => trivial
  case chown argp =>
    refine calls_bind (calls_own _) fun v => ?_
    split
    · exact own_negErrno _
    · trivial
  case write argp =>
    have hbody : ∀ (fd : Int) (k : Int → Server WriteRet), (∀ v, (k v).Calls Call.IsOs) → (do
        let _ ← sys (.flock fd .ex)
        let v ← sys (.pwrite fd argp.buffer.bytes argp.size.toNat argp.offset.toNat)
        let _ ← sys (.flock fd .un)
        k v : Server WriteRet).Calls Call.IsOs := by
      intro fd k hk
      refine calls_bind (calls_own _) fun _ => calls_bind (calls_own _) fun v => ?_
      exact calls_bind (calls_own _) fun _ => hk v
    dsimp only
    split
    · refine calls_bind (calls_own _) fun fd => hbody fd _ fun v => ?_
      split
      · exact own_negErrno _
      · exact calls_bind (calls_own _) fun _ => trivial
    · refine hbody argp.fd _ fun v => ?_
      split
      · exact own_negErrno _
      · trivial

/-- The handlers that do not forward use no other server. -/
theorem compute6_local {r : Request} (hr : r.forwarding = none) (stale : Stale) :
    (compute6 stale r).Calls Call.IsOs := by
  by_cases hk : r.keepsTree = true
  · exact compute6_calls_keepsTree (fun _ _ => trivial) hk stale
  · cases r <;> simp only [Request.forwarding, Request.keepsTree, Request.quiet, reduceCtorEq,
      not_true_eq_false] at hr hk
    case openFile argp =>
      refine calls_map (calls_bind (calls_isOpValid (fun _ => trivial) _ _ _) fun v => ?_)
      split
      · trivial
      · refine calls_bind (calls_own _) fun fd => ?_
        split
        · exact own_negErrno _
        · trivial

/-! ## The runs -/

/-- The state of the pair around a run at the primary alone. -/
def Pair.around (secondary : Host) (log : Forwarded) (h : Host) : Pair × Forwarded :=
  (⟨h.os, secondary⟩, log)

/-- A program that uses no other server runs at the primary of a pair as at a single server. -/
theorem run_own {α : Type} {p : Server α} (hp : p.Calls Call.IsOs) (relay : Relay) (peer : Peer)
    (secondary : Host) (log : Forwarded) (h : Host) :
    p.run (Pair.machine relay) (Pair.around secondary log h) =
      (p.run (server peer) h).map fun r => (r.1, Pair.around secondary log r.2) := by
  refine Calls.run_embed (A := Call.IsOs) (fun e he h => ?_) hp h
  cases e with
  | os c =>
      simp only [Pair.machine, server, Pair.around]
      cases OS.exec c h.os <;> rfl
  | rpc c => exact he.elim

/-- Forwarding to the secondary of a pair. -/
theorem run_transmit_pair {info : Identity} {slaveArg : Identity → Request} (relay : Relay)
    (s : Pair) (hrole : info.isMaster ≠ 0 ∧ info.isDegraded = 0) :
    (transmitToSecondaty info slaveArg).run (Pair.machine relay) (s, []) =
      (serve ⟨slaveArg { info with isMaster := 0 }, relay.stale, relay.peer⟩ s.secondary).map
        fun a => ((), { s with secondary := a.2 },
          [(slaveArg { info with isMaster := 0 }, a.1)]) := by
  unfold transmitToSecondaty connectServer
  rw [if_pos hrole, run_bind, run_perform]
  simp only [Pair.machine, Pair.rpc, Except.bind, if_true, run_bind, run_perform]
  cases serve ⟨slaveArg { info with isMaster := 0 }, relay.stale, relay.peer⟩ s.secondary with
  | error w => rfl
  | ok a => rfl

/-- Without another server nothing is forwarded. -/
theorem run_transmit_absent {info : Identity} {slaveArg : Identity → Request} (h : Host) :
    (transmitToSecondaty info slaveArg).run (server .absent) h = .ok ((), h) := by
  unfold transmitToSecondaty connectServer
  by_cases hrole : info.isMaster ≠ 0 ∧ info.isDegraded = 0
  · rw [if_pos hrole, run_bind, run_perform]
    rfl
  · rw [if_neg hrole]
    rfl

/-- What one request at the primary of a pair consists of. -/
structure PairStep (a : PairArrival) (s : Pair) (reply : Reply) (log : Forwarded) (s' : Pair) :
    Prop where
  /-- The primary answers as if there were no other server. -/
  primary : serve ⟨a.request, a.stale, .absent⟩ ⟨s.primary, []⟩ = .ok (reply, ⟨s'.primary, []⟩)
  /-- A request that names a primary with a secondary has been answered by the secondary first. -/
  secondary : ∀ info slaveArg, a.request.forwarding = some (info, slaveArg) →
    info.isMaster ≠ 0 → info.isDegraded = 0 → ∃ reply',
      log = [(slaveArg { info with isMaster := 0 }, reply')] ∧
      serve ⟨slaveArg { info with isMaster := 0 }, a.relay.stale, a.relay.peer⟩ s.secondary =
        .ok (reply', s'.secondary)
  /-- Any other request does not reach the secondary. -/
  alone : (∀ info slaveArg, a.request.forwarding = some (info, slaveArg) →
    ¬ (info.isMaster ≠ 0 ∧ info.isDegraded = 0)) → log = [] ∧ s'.secondary = s.secondary

/-- The end of a run at the primary, seen from the pair. -/
theorem run_own_eq_ok {p : Server Reply} (hp : p.Calls Call.IsOs) {relay : Relay} {s : Pair}
    {secondary : Host} {log log' : Forwarded} {reply : Reply} {s' : Pair}
    (hr : p.run (Pair.machine relay) (⟨s.primary, secondary⟩, log) = .ok (reply, s', log')) :
    p.run (server .absent) ⟨s.primary, []⟩ = .ok (reply, ⟨s'.primary, []⟩) ∧
      s'.secondary = secondary ∧ log' = log := by
  have hrun := run_own hp relay .absent secondary log ⟨s.primary, []⟩
  have hframe : ∀ a h', p.run (server .absent) ⟨s.primary, []⟩ = .ok (a, h') → h'.sent = [] := by
    intro a h' hr'
    refine hp.run_rel (R := fun h h' : Host => h'.sent = h.sent) (fun _ => rfl)
      (fun _ _ _ h h' => h'.trans h) (fun e he t b t' hstep => ?_) hr'
    cases e with
    | os c =>
        obtain ⟨r, -, hrt⟩ := map_eq_ok.mp hstep
        cases hrt
        rfl
    | rpc c => exact he.elim
  have hstart : Pair.around secondary log ⟨s.primary, []⟩ = (⟨s.primary, secondary⟩, log) := rfl
  rw [hstart, hr] at hrun
  cases hp' : p.run (server .absent) ⟨s.primary, []⟩ with
  | error w =>
      rw [hp'] at hrun
      cases hrun
  | ok r =>
      rw [hp'] at hrun
      obtain ⟨a, os, sent⟩ := r
      obtain rfl : sent = [] := hframe _ _ hp'
      have heq := Except.ok.inj hrun
      simp only [Pair.around, Prod.mk.injEq] at heq
      obtain ⟨rfl, rfl, rfl⟩ := heq
      exact ⟨rfl, rfl, rfl⟩

/-- **A request at a pair is a request at each server.** -/
theorem pair_serve {a : PairArrival} {s s' : Pair} {reply : Reply} {log : Forwarded}
    (hr : Pair.serve a s = .ok ((reply, log), s')) : PairStep a s reply log s' := by
  obtain ⟨⟨reply₁, s₁, log₁⟩, hrun, heq⟩ := map_eq_ok.mp hr
  simp only [Prod.mk.injEq] at heq
  obtain ⟨⟨rfl, rfl⟩, rfl⟩ := heq
  cases hf : a.request.forwarding with
  | none =>
      obtain ⟨hp, hs, hlog⟩ := run_own_eq_ok (compute6_local hf a.stale) hrun
      refine ⟨hp, fun info f h => ?_, fun _ => ⟨hlog, hs⟩⟩
      rw [hf] at h
      cases h
  | some r =>
      obtain ⟨info, slaveArg⟩ := r
      obtain ⟨rest, hcompute, hrest⟩ := compute6_forwards hf a.stale
      have hprimary : ∀ {os' : OS},
          rest.run (server .absent) ⟨s.primary, []⟩ = .ok (reply₁, ⟨os', []⟩) →
          serve ⟨a.request, a.stale, .absent⟩ ⟨s.primary, []⟩ = .ok (reply₁, ⟨os', []⟩) := by
        intro os' h
        unfold serve
        simp only [hcompute, run_bind, run_transmit_absent, Except.bind, h]
      rw [hcompute, run_bind] at hrun
      by_cases hrole : info.isMaster ≠ 0 ∧ info.isDegraded = 0
      · rw [run_transmit_pair a.relay s hrole] at hrun
        cases hsec : serve ⟨slaveArg { info with isMaster := 0 }, a.relay.stale, a.relay.peer⟩
            s.secondary with
        | error w =>
            rw [hsec] at hrun
            cases hrun
        | ok r =>
            rw [hsec] at hrun
            obtain ⟨hp, hs, hlog⟩ := run_own_eq_ok hrest hrun
            refine ⟨hprimary hp, ?_, fun h => absurd hrole (h info slaveArg hf)⟩
            intro info' f' h _ _
            rw [hf] at h
            cases h
            exact ⟨r.1, hlog, by rw [hs]; exact hsec⟩
      · have hidle : (transmitToSecondaty info slaveArg).run (Pair.machine a.relay) (s, []) =
            .ok ((), s, []) := by
          unfold transmitToSecondaty
          rw [if_neg hrole]
          rfl
        rw [hidle] at hrun
        obtain ⟨hp, hs, hlog⟩ := run_own_eq_ok hrest hrun
        refine ⟨hprimary hp, ?_, fun _ => ⟨hlog, hs⟩⟩
        intro info' f' h hm hd
        rw [hf] at h
        cases h
        exact absurd ⟨hm, hd⟩ hrole

end DFS
