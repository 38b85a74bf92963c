import NetworkFileSystem.Effects.Issues
import NetworkFileSystem.Service.Frames

/-!
# Running the permission checks

A permission check looks at the tree and comes to the verdict that `Service.Outcome` states; the
server is afterwards as it was, up to `errno` (`Looks`).  Forwarding adds to the list of forwarded
requests and changes nothing else of the server.
-/

namespace DFS

open Effects Posix Prog

/-! ## Verdicts -/

/-- The check of the bits passes when `lstat` finds an object that grants them. -/
theorem opValid_eq_one {fs : FS} {p : CStr} {id : Int32} {flags : UInt32} :
    opValid fs p id flags = 1 ↔
      ∃ j, fs.lresolve p = .ok j ∧ ∃ n, fs.node j = some n ∧ grants n id flags = true := by
  unfold opValid attrs
  cases fs.lresolve p with
  | error e => simp
  | ok j =>
      simp only [ok_bind, Except.ok.injEq, exists_eq_left']
      cases fs.node j with
      | none => simp [orElse]
      | some n => simp [orElse]

theorem owns_eq_true {fs : FS} {p : CStr} {id : Int32} : owns fs p id = true ↔
    ∃ j, fs.lresolve p = .ok j ∧ ∃ n, fs.node j = some n ∧ id = n.uid.toInt32 := by
  unfold owns attrs
  cases fs.lresolve p with
  | error e => simp
  | ok j =>
      simp only [ok_bind, Except.ok.injEq, exists_eq_left']
      cases fs.node j with
      | none => simp [orElse]
      | some n => simp [orElse]

/-! ## Runs -/

/-- The program returns `a` and changes `errno` at most. -/
def Looks {α : Type} (peer : Peer) (p : Server α) (a : α) (h : Host) : Prop :=
  ∃ e, p.run (server peer) h = .ok (a, { h with os := h.os.fail e })

section

variable {peer : Peer} {h : Host}

theorem Looks.pure {α : Type} (a : α) : Looks peer (pure a : Server α) a h :=
  ⟨h.os.errno, rfl⟩

/-- A look at a stat buffer, and a verdict on it. -/
theorem looks_lstat {α : Type} {p : CStr} {k : Option Stat → Server α} {a : α}
    (hok : ∀ n i, attrs h.os.fs p = .ok n → k (some (n.stat h.os.vol i)) = Pure.pure a)
    (herr : ∀ e, attrs h.os.fs p = .error e → k none = Pure.pure a) :
    Looks peer (sys (.lstat p) >>= k) a h := by
  unfold Looks sys
  simp only [run_bind, run_perform, server, OS.exec, Except.map, Except.bind]
  rcases lstat_cases h.os p with ⟨n, i, hn, hl⟩ | ⟨e, he, hl⟩
  · refine ⟨h.os.errno, ?_⟩
    rw [hl]
    simp only [OS.tryGet, hok n i hn]
    rfl
  · refine ⟨e, ?_⟩
    rw [hl]
    simp only [OS.tryGet, herr e he]
    rfl

theorem looks_isOpValid (p ip : CStr) (flags : UInt32) :
    Looks peer (isOpValid p ip flags) (opValid h.os.fs p (atoi ip) flags) h := by
  refine looks_lstat ?_ ?_
  · intro n i hn
    simp only [opValid, hn, modeGrants_stat]
  · intro e he
    simp only [opValid, he]

theorem looks_isRootdirOpValidToDelete (p ip : CStr) :
    Looks peer (isRootdirOpValidToDelete p ip)
      (rootdirOpValidToDelete h.os.fs p (atoi ip)) h := by
  refine looks_lstat ?_ ?_
  · intro n i hn
    simp only [rootdirOpValidToDelete, hn, Inode.stat]
    rfl
  · intro e he
    simp only [rootdirOpValidToDelete, he]

theorem looks_isOwner (p ip : CStr) :
    Looks peer (isOwner p ip) (owns h.os.fs p (atoi ip)) h := by
  refine looks_lstat ?_ ?_
  · intro n i hn
    simp only [owns, hn, Inode.stat]
    rfl
  · intro e he
    simp only [owns, he]

theorem Looks.map {α β : Type} {p : Server α} {a : α} (hp : Looks peer p a h)
    {k : α → Server β} {b : β} (hk : k a = Pure.pure b) : Looks peer (p >>= k) b h := by
  obtain ⟨e, he⟩ := hp
  refine ⟨e, ?_⟩
  rw [run_bind, he]
  simp only [Except.bind, hk]
  rfl

/-- **The check of the parent** only looks, and answers what the tree says. -/
theorem looks_isParentDirValid (parent p ip : CStr) (op : OpName) :
    Looks peer (isParentDirValid parent p ip op)
      (parentDirValid h.os.fs parent p (atoi ip) op) h := by
  unfold isParentDirValid parentDirValid
  dsimp only
  by_cases hroot : parent = dfsRoot
  · simp only [if_pos hroot]
    by_cases hdel : op = .rmdir ∨ op = .unlink
    · simp only [if_pos hdel]
      refine (looks_isRootdirOpValidToDelete p ip).map ?_
      by_cases hz : rootdirOpValidToDelete h.os.fs p (atoi ip) = 0 <;> simp [hz]
    · simp only [if_neg hdel]
      exact .pure true
  · simp only [if_neg hroot]
    refine (looks_isOpValid parent ip _).map ?_
    by_cases hz : opValid h.os.fs parent (atoi ip) (R_REQ ||| W_REQ ||| X_REQ) = 1 <;> simp [hz]

/-- Forwarding returns, and this server has then forwarded something at most. -/
theorem run_transmit (info : Identity) (slaveArg : Identity → Request) :
    ∃ sent, (transmitToSecondaty info slaveArg).run (server peer) h =
      .ok ((), { h with sent := sent }) := by
  unfold transmitToSecondaty connectServer
  by_cases hc : info.isMaster ≠ 0 ∧ info.isDegraded = 0
  · rw [if_pos hc, run_bind, run_perform]
    cases hup : peer.up with
    | true =>
        simp only [server, Host.rpc, hup, Except.bind, if_true, run_bind, run_perform]
        exact ⟨_, rfl⟩
    | false =>
        simp only [server, Host.rpc, hup, Except.bind]
        exact ⟨h.sent, rfl⟩
  · rw [if_neg hc]
    exact ⟨h.sent, rfl⟩

end

end DFS
