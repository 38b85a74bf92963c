import NetworkFileSystem.Server.Verbose

/-!
# Servers that print what they do (`fuse_rpc_server.c`)

The messages of a handler go to descriptor 2 of its process.  `bb_release_6_svc` closes any
descriptor, and `open` takes the least number that is free, so a client can put a file of the tree
there; every message is then written into that file.

As long as nobody asks for descriptor 2 to be closed, no handler closes it (**`compute6_spares`**),
and a server does what the one does that prints nothing (**`serve_unheard`**,
**`servePair_unheard`**).
-/

namespace DFS

open Effects Posix Prog

/-- A request that does not ask for descriptor 2 to be closed. -/
def Request.SparesStderr : Request → Prop
  | .release argp => argp.fd ≠ stderrFileno
  | _ => True

/-- The request does not ask for a descriptor to be closed that the process has for itself: its
standard streams and its sockets, which have no inode. -/
def Request.LeavesOwn (os : OS) (r : Request) : Prop :=
  ∀ argp, r = .release argp → ∀ f, os.fds.file argp.fd = some f → f.ino ≠ none

/-- Standard error is one of the process's own descriptors. -/
theorem Request.LeavesOwn.spares {os : OS} {r : Request} (h : r.LeavesOwn os)
    (hin : os.StderrInPlace) : r.SparesStderr := by
  obtain ⟨f, hf, hino, -⟩ := hin
  cases r with
  | release argp =>
      intro hfd
      exact h argp rfl f (hfd ▸ hf) hino
  | _ => trivial

/-- A call that does not close standard error, here or at the other server. -/
def Call.SparesStderr : {β : Type} → Call β → Prop
  | _, .os c => c.SparesStderr
  | _, .rpc (.clntCall r) => r.SparesStderr
  | _, .rpc _ => True

/-- What a call can answer while standard error is in place. -/
def Call.Answers {β : Type} : Call β → β → Prop
  | .os c, b => c.Answers b
  | .rpc _, _ => True

/-- While standard error is in place no call of the program closes it, and what is returned
satisfies `Q`. -/
def Spares {α : Type} (p : Server α) (Q : α → Prop) : Prop :=
  p.Within Call.SparesStderr Call.Answers Q

section

variable {α β : Type} {Q : α → Prop}

@[simp] theorem spares_pure (a : α) : Spares (pure a) Q ↔ Q a := Iff.rfl

@[simp] theorem spares_bind (p : Server β) (f : β → Server α) :
    Spares (p >>= f) Q ↔ Spares p fun b => Spares (f b) Q := within_bind p f

@[simp] theorem spares_ite (c : Prop) [Decidable c] (p q : Server α) :
    Spares (if c then p else q) Q ↔ if c then Spares p Q else Spares q Q := within_ite c p q

@[simp] theorem spares_map (f : β → α) (p : Server β) :
    Spares (f <$> p) Q ↔ Spares p fun b => Q (f b) := within_map f p

@[simp] theorem spares_sys (c : Sys α) :
    Spares (sys c) Q ↔ c.SparesStderr ∧ ∀ b, c.Answers b → Q b := Iff.rfl

theorem spares_sys_bind {c : Sys β} {k : β → Server α} (hc : c.SparesStderr)
    (hk : ∀ b, c.Answers b → Spares (k b) Q) : Spares (sys c >>= k) Q := ⟨hc, hk⟩

/-- What is forwarded is no `release`. -/
theorem spares_forward {info : Identity} {slaveArg : Identity → Request} {p : Server α}
    (h : ∀ info, (slaveArg info).SparesStderr) (hp : Spares p Q) :
    Spares (do transmitToSecondaty info slaveArg; p) Q := by
  have hsent : ∀ clnt, Spares (if clnt = true then do
      let _slaveRet ← perform (.rpc (.clntCall (slaveArg { info with isMaster := 0 })))
      perform (.rpc .clntDestroy) else pure () : Server Unit) fun _ => Spares p Q := by
    intro clnt
    cases clnt
    · exact hp
    · exact ⟨h _, fun _ _ => ⟨trivial, fun _ _ => hp⟩⟩
  rw [spares_bind]
  unfold transmitToSecondaty connectServer
  split
  · exact ⟨trivial, fun clnt _ => hsent clnt⟩
  · exact hp

/-- The check of the parents closes nothing. -/
theorem spares_checkParent {p q ip : CStr} {op : OpName} {rest : Server StatusRet}
    (hrest : Spares rest fun _ => True) :
    Spares (checkParentDirectoryValid p q ip op rest) fun _ => True := by
  simp [checkParentDirectoryValid, isParentDirValid, isOpValid, isRootdirOpValidToDelete,
    Option.forall, Sys.SparesStderr, hrest]

/-- Locking opens a descriptor other than 2. -/
theorem spares_lockDirectory {p : CStr} {rest : Int → Server StatusRet}
    (hrest : ∀ fd, Spares (rest fd) fun _ => True) :
    Spares (lockDirectory p rest) fun _ => True := by
  simp [lockDirectory, dlock, Option.forall, Sys.SparesStderr, hrest]

/-- A handler with one lock: forward, check, open and lock, and whatever closes nothing from
there. -/
theorem spares_oneLock {info : Identity} {slaveArg : Identity → Request} {p q r ip : CStr}
    {op : OpName} {rest : Int → Server StatusRet} (hslave : ∀ info, (slaveArg info).SparesStderr)
    (hrest : ∀ fd, Spares (rest fd) fun _ => True) :
    Spares (do
      transmitToSecondaty info slaveArg
      checkParentDirectoryValid p q ip op (lockDirectory r rest)) fun _ => True :=
  spares_forward hslave (spares_checkParent (spares_lockDirectory hrest))

theorem spares_unlockDirectory (fd : Int) (result : StatusRet) {k : StatusRet → Server StatusRet}
    (hk : ∀ result, Spares (k result) fun _ => True) :
    Spares (unlockDirectory fd result >>= k) fun _ => True := by
  simp [unlockDirectory, dunlock, Sys.SparesStderr, hk]

theorem spares_unlock (fd : Int) (result : StatusRet) :
    Spares (unlockDirectory fd result) fun _ => True := by
  simp [unlockDirectory, dunlock, Sys.SparesStderr]

/-- **No handler closes standard error**, unless it is asked to. -/
theorem compute6_spares (stale : Stale) {r : Request} (hr : r.SparesStderr) :
    Spares (compute6 stale r) fun _ => True := by
  cases r <;> refine (spares_map _ _).mpr ?_
  case initRootdir argp =>
    exact spares_forward (fun _ => trivial) (by simp [Sys.SparesStderr])
  case getattr argp => simp [bbGetattr6Svc, negErrno, Option.forall, Sys.SparesStderr]
  case access argp => simp [bbAccess6Svc, Sys.SparesStderr]
  case mkdir argp =>
    refine spares_oneLock (fun _ => trivial) fun fd => ?_
    refine spares_sys_bind trivial fun ret _ => spares_unlockDirectory _ _ fun result => ?_
    simp [setOwner, Sys.SparesStderr]
  case rmdir argp =>
    refine spares_oneLock (fun _ => trivial) fun fd => ?_
    exact spares_sys_bind trivial fun ret _ => spares_unlock _ _
  case opendir argp =>
    simp [bbOpendir6Svc, isOpValid, negErrno, Option.forall, Sys.SparesStderr]
  case readdir argp => simp [bbReaddir6Svc, negErrno, Option.forall, Sys.SparesStderr]
  case releasedir argp =>
    simp [bbReleasedir6Svc, negErrno, Option.forall, Sys.SparesStderr, Sys.Answers]
  case rename argp =>
    refine spares_forward (fun _ => trivial) (spares_checkParent (spares_checkParent
      (spares_lockDirectory fun fd => ?_)))
    dsimp only
    split
    · refine spares_lockDirectory fun newFd => spares_sys_bind trivial fun ret _ => ?_
      exact spares_unlockDirectory _ _ fun _ => spares_unlock _ _
    · exact spares_sys_bind trivial fun ret _ => spares_unlockDirectory _ _ fun _ => trivial
  case symlink argp =>
    refine spares_forward (fun _ => trivial) (spares_checkParent ?_)
    simp [setSoftlinkOwner, Sys.SparesStderr]
  case link argp =>
    refine spares_forward (fun _ => trivial) (spares_checkParent (spares_checkParent ?_))
    simp [setOwner, Sys.SparesStderr]
  case readlink argp => simp [bbReadlink6Svc, negErrno, Option.forall, Sys.SparesStderr]
  case mknod argp =>
    refine spares_oneLock (fun _ => trivial) fun fd => ?_
    have hfailed : Spares (do
        let _ ← unlockDirectory fd ⟨-1⟩
        return ⟨-1⟩ : Server MknodRet) fun _ => True :=
      spares_unlockDirectory _ _ fun _ => trivial
    have howned : Spares (do
        let ret : Int := if (← setOwner (translateAbspath argp.path) argp.ip) < 0 then -1 else 0
        unlockDirectory fd ⟨ret⟩ : Server MknodRet) fun _ => True := by
      simp [setOwner, Sys.SparesStderr, spares_unlock]
    dsimp only
    split
    · -- What is closed is the file that has been made.
      refine spares_sys_bind trivial fun newFd hne => ?_
      split
      · exact hfailed
      · exact spares_sys_bind hne fun _ _ => howned
    · split
      · refine spares_sys_bind trivial fun ret _ => ?_
        split
        · exact hfailed
        · exact howned
      · refine spares_sys_bind trivial fun ret _ => ?_
        split
        · exact hfailed
        · exact howned
  case truncate argp =>
    exact spares_forward (fun _ => trivial) (by simp [negErrno, Sys.SparesStderr])
  case unlink argp =>
    refine spares_oneLock (fun _ => trivial) fun fd => ?_
    exact spares_sys_bind trivial fun ret _ => spares_unlock _ _
  case utime argp =>
    exact spares_forward (fun _ => trivial) (by simp [isOwner, Option.forall, Sys.SparesStderr])
  case chmod argp =>
    exact spares_forward (fun _ => trivial) (by simp [isOwner, Option.forall, Sys.SparesStderr])
  case chown argp =>
    exact spares_forward (fun _ => trivial) (by simp [negErrno, Sys.SparesStderr])
  case openFile argp =>
    simp [bbOpen6Svc, isOpValid, negErrno, Option.forall, Sys.SparesStderr]
  case release argp =>
    have hne : argp.fd ≠ stderrFileno := hr
    simp [bbRelease6Svc, negErrno, Sys.SparesStderr, hne]
  case read argp => simp [bbRead6Svc, negErrno, Option.forall, Sys.SparesStderr]
  case write argp =>
    refine spares_forward (fun _ => trivial) ?_
    dsimp only
    split
    · -- What is closed is the file that has been opened for the path.
      refine spares_sys_bind trivial fun fd hne => ?_
      have hne : fd ≠ stderrFileno := hne
      simp [negErrno, Sys.SparesStderr, hne]
    · simp [negErrno, Sys.SparesStderr]
  case statfs argp => simp [bbStatfs6Svc, negErrno, Option.forall, Sys.SparesStderr]

end

/-! ## The machines -/

/-- A descriptor that a process has for itself: a standard stream or a socket. -/
def ownFile : OpenFile := ⟨none, true, true, false, false, 0, none⟩

/-- A server process that waits for requests: it has its standard streams and two sockets. -/
def OS.launch (fs : FS) : OS :=
  { OS.start fs with
    fds := (OS.start fs).fds.addFiles [ownFile, ownFile, ownFile, ownFile, ownFile] }

/-- A process has its standard error when it is started. -/
theorem launch_stderr (fs : FS) : (OS.launch fs).StderrInPlace := ⟨ownFile, rfl, rfl, rfl⟩

namespace Verbose

/-- What the RPC library prints about its own errors. -/
structure RpcTexts where
  pcreateerror : CStr → CStr
  perror : CStr → CStr

/-- An RPC library that prints nothing. -/
def RpcTexts.none : RpcTexts := ⟨fun _ => [], fun _ => []⟩

/-- The text of a message, when `errno` is `e`. -/
def Message.text (lib : RpcTexts) (e : Errno) : Message → CStr
  | fprintf fmt args => format e fmt args
  | clntPcreateerror host => lib.pcreateerror host
  | clntPerror s => lib.perror s

/-- `stderr` is not buffered: a message is written at once. -/
def print (lib : RpcTexts) (m : Message) (os : OS) : OS :=
  os.write stderrFileno ((m.text lib os.errno).map Char.toUInt8)

/-- The machine of a server that prints. -/
def server (lib : RpcTexts) (peer : Peer) : Machine (Remarked Message Call) Host Halt where
  step
    | .call c, h => (DFS.server peer).step c h
    | .remark m answer, h => .ok (answer (), { h with os := print lib m h.os })

/-- A server answers a request. -/
def serve (lib : RpcTexts) (a : Arrival) (h : Host) : Except Halt (Reply × Host) :=
  (compute6 a.stale a.request).run (server lib a.peer) h

/-- The RPC client of the primary: the secondary executes what is forwarded, and prints as well. -/
def pairRpc (lib : RpcTexts) (relay : Relay) {β : Type} :
    Rpc β → Pair × Forwarded → Except Halt (β × Pair × Forwarded)
  | .clntCreate, t => .ok (true, t)
  | .clntCall r, (s, log) =>
    (serve lib ⟨r, relay.stale, relay.peer⟩ s.secondary).map fun a =>
      (some a.1, { s with secondary := a.2 }, log ++ [(r, a.1)])
  | .clntDestroy, t => .ok ((), t)

/-- The machine of a primary that prints. -/
def pairMachine (lib : RpcTexts) (relay : Relay) :
    Machine (Remarked Message Call) (Pair × Forwarded) Halt where
  step
    | .call (.os c), (s, log) =>
      (OS.exec c s.primary).map fun r => (r.1, { s with primary := r.2 }, log)
    | .call (.rpc c), t => pairRpc lib relay c t
    | .remark m answer, (s, log) =>
      .ok (answer (), { s with primary := print lib m s.primary }, log)

/-- The primary answers a request. -/
def servePair (lib : RpcTexts) (a : PairArrival) (s : Pair) :
    Except Halt ((Reply × Forwarded) × Pair) :=
  ((compute6 a.stale a.request).run (pairMachine lib a.relay) (s, [])).map fun r =>
    ((r.1, r.2.2), r.2.1)

/-! ## Messages that nobody hears -/

variable (lib : RpcTexts)

/-- **A server whose standard error is in place** does what the one does that prints nothing, unless
it is asked to close it, and standard error stays in place. -/
theorem serve_unheard {a : Arrival} {h : Host} (hin : h.os.StderrInPlace)
    (hr : a.request.SparesStderr) : serve lib a h = DFS.serve a h ∧
      ∀ reply h', DFS.serve a h = .ok (reply, h') → h'.os.StderrInPlace := by
  have hwithin : Spares (compute6 a.stale a.request).silence fun _ => True := by
    rw [compute6_silence]
    exact compute6_spares a.stale hr
  have hrun := run_unheard (n := server lib a.peer) (m := DFS.server a.peer)
    (I := fun h : Host => h.os.StderrInPlace)
    (fun m answer h hin => by simp only [server, print, OS.write_inPlace hin])
    (fun c _ h _ => rfl)
    (fun c hc h b t hin hstep => by
      cases c with
      | os c =>
          obtain ⟨r, hexec, heq⟩ := map_eq_ok.mp hstep
          cases heq
          exact OS.exec_inPlace hc hin hexec
      | rpc c => cases c <;> cases hstep <;> exact ⟨trivial, hin⟩)
    hwithin hin
  rw [compute6_silence] at hrun
  exact hrun

/-- Both servers of a pair have their standard errors in place. -/
structure InPlace (s : Pair) : Prop where
  primary : s.primary.StderrInPlace
  secondary : s.secondary.os.StderrInPlace

/-- **A pair of servers** whose standard errors are in place does what the one does that prints
nothing. -/
theorem servePair_unheard {a : PairArrival} {s : Pair} (hin : InPlace s)
    (hr : a.request.SparesStderr) : servePair lib a s = Pair.serve a s ∧
      ∀ r s', Pair.serve a s = .ok (r, s') → InPlace s' := by
  have hwithin : Spares (compute6 a.stale a.request).silence fun _ => True := by
    rw [compute6_silence]
    exact compute6_spares a.stale hr
  have hrun := run_unheard (n := pairMachine lib a.relay) (m := Pair.machine a.relay)
    (I := fun t : Pair × Forwarded => InPlace t.1)
    (fun m answer t hin => by
      simp only [pairMachine, print, OS.write_inPlace hin.primary])
    (fun c hc t hin => by
      cases c with
      | os c => rfl
      | rpc c =>
          cases c with
          | clntCall r =>
              simp only [pairMachine, pairRpc, Pair.machine, Pair.rpc]
              rw [(serve_unheard lib (a := ⟨r, a.relay.stale, a.relay.peer⟩) hin.secondary hc).1]
          | clntCreate | clntDestroy => rfl)
    (fun c hc t b t' hin hstep => by
      cases c with
      | os c =>
          obtain ⟨r, hexec, heq⟩ := map_eq_ok.mp hstep
          cases heq
          obtain ⟨hanswer, hplace⟩ := OS.exec_inPlace hc hin.primary hexec
          exact ⟨hanswer, hplace, hin.secondary⟩
      | rpc c =>
          cases c with
          | clntCall r =>
              obtain ⟨⟨reply, h'⟩, hserve, heq⟩ := map_eq_ok.mp hstep
              cases heq
              exact ⟨trivial, hin.primary,
                (serve_unheard lib (a := ⟨r, a.relay.stale, a.relay.peer⟩)
                  hin.secondary hc).2 _ _ hserve⟩
          | clntCreate | clntDestroy =>
              cases hstep
              exact ⟨trivial, hin⟩)
    hwithin (s := (s, [])) hin
  rw [compute6_silence] at hrun
  unfold servePair Pair.serve
  rw [hrun.1]
  refine ⟨rfl, fun r s' hs => ?_⟩
  obtain ⟨⟨reply, t⟩, hserve, heq⟩ := map_eq_ok.mp hs
  cases heq
  exact hrun.2 reply t hserve

/-- **Runs of a server** whose own descriptors nobody closes are runs of the one that prints
nothing. -/
theorem serve_runs_unheard {s t : Host} {tr : List (Event Arrival Reply Host)}
    (h : Runs (serve lib) s tr t) (hin : s.os.StderrInPlace)
    (hown : ∀ e ∈ tr, e.input.request.LeavesOwn e.pre.os) :
    Runs DFS.serve s tr t ∧ t.os.StderrInPlace :=
  h.of_steps (I := fun h : Host => h.os.StderrInPlace)
    (C := fun e => e.input.request.LeavesOwn e.pre.os)
    (fun e hin hs he => by
      obtain ⟨heq, hkeep⟩ := serve_unheard lib (a := e.input) hin (he.spares hin)
      rw [heq] at hs
      exact ⟨hs, hkeep _ _ hs⟩) hin hown

/-- **Runs of a pair** whose own descriptors nobody closes are runs of the pair that prints
nothing. -/
theorem runs_unheard {s t : Pair} {tr : List (Event PairArrival (Reply × Forwarded) Pair)}
    (h : Runs (servePair lib) s tr t) (hin : InPlace s)
    (hown : ∀ e ∈ tr, e.input.request.LeavesOwn e.pre.primary) :
    Runs Pair.serve s tr t ∧ InPlace t :=
  h.of_steps (I := InPlace) (C := fun e => e.input.request.LeavesOwn e.pre.primary)
    (fun e hin hs he => by
      obtain ⟨heq, hkeep⟩ := servePair_unheard lib (a := e.input) hin
        (he.spares hin.primary)
      rw [heq] at hs
      exact ⟨hs, hkeep _ _ hs⟩) hin hown

end Verbose

end DFS
