import NetworkFileSystem.Posix.Paths
import NetworkFileSystem.Replication.Agreement
import NetworkFileSystem.Security.Spelling
import NetworkFileSystem.Service.Locking

/-!
# Names below the root (`is_parent_dir_valid`)

Seven requests make, remove or move names.  Below the shared root that takes the permission of the
directories concerned: a client to whom one of them does not grant everything is refused before
anything is locked, on both servers of a pair (`turnedAway_of_denied`).

A client to whom all of them grant everything gets as far as the locks.  The call itself is issued
exactly when these can be had, that is, when no open file of the server holds a lock on one of the
directories and a rename does not lock one directory twice: **`parents_guard_iff`**.
-/

namespace DFS

open Effects Posix Prog

/-- What a request says that makes, removes or moves names: the client, the operation, and the
paths of these names. -/
structure Naming where
  ip : CStr
  op : OpName
  paths : List CStr

def Request.naming : Request → Option Naming
  | .mkdir arg => some ⟨arg.ip, .mkdir, [arg.path]⟩
  | .rmdir arg => some ⟨arg.ip, .rmdir, [arg.path]⟩
  | .mknod arg => some ⟨arg.ip, .mknod, [arg.path]⟩
  | .unlink arg => some ⟨arg.ip, .unlink, [arg.path]⟩
  | .symlink arg => some ⟨arg.ip, .symlink, [arg.link]⟩
  | .rename arg => some ⟨arg.ip, .rename, [arg.path, arg.newpath]⟩
  | .link arg => some ⟨arg.ip, .link, [arg.path, arg.newpath]⟩
  | _ => none

/-- An absolute path in normal form that has a directory below the root and fits. -/
structure Nested (p : CStr) : Prop where
  plain : ∀ x ∈ components p, Plain x
  normal : joined (components p) = p
  below : 2 ≤ (components p).length
  fits : (translateAbspath p).length < maxPathLen

/-- The directory of the last name, as the server names it. -/
def parentPath (p : CStr) : CStr := dfsRoot ++ joined (components p).dropLast

/-- `lstat` finds something there that grants the client reading, writing and searching. -/
def Grants (fs : FS) (id : Int32) (p : CStr) : Prop :=
  ∃ n, attrs fs (parentPath p) = .ok n ∧ grants n id (R_REQ ||| W_REQ ||| X_REQ) = true

/-- What grants it is a directory. -/
def Open (fs : FS) (id : Int32) (p : CStr) : Prop :=
  ∃ n, attrs fs (parentPath p) = .ok n ∧ grants n id (R_REQ ||| W_REQ ||| X_REQ) = true ∧
    n.kind = .dir

/-- The call that the request is about, on the paths as the server names them. -/
def Request.acts {β : Type} : Request → Sys β → Prop
  | .mkdir arg, .mkdir p mode => p = dfsRoot ++ arg.path ∧ mode = arg.mode
  | .rmdir arg, .rmdir p => p = dfsRoot ++ arg.path
  | .mknod arg, .openPath p flags mode => isReg arg.mode = true ∧ p = dfsRoot ++ arg.path ∧
      flags = O_CREAT ||| O_EXCL ||| O_WRONLY ∧ mode = arg.mode
  | .mknod arg, .mkfifo p mode => isReg arg.mode = false ∧ isFifo arg.mode = true ∧
      p = dfsRoot ++ arg.path ∧ mode = arg.mode
  | .mknod arg, .mknod p mode dev => isReg arg.mode = false ∧ isFifo arg.mode = false ∧
      p = dfsRoot ++ arg.path ∧ mode = arg.mode ∧ dev = arg.dev
  | .unlink arg, .unlink p => p = dfsRoot ++ arg.path
  | .symlink arg, .symlink target p => target = arg.path ∧ p = dfsRoot ++ arg.link
  | .rename arg, .rename p q => p = dfsRoot ++ arg.path ∧ q = dfsRoot ++ arg.newpath
  | .link arg, .link p q => p = dfsRoot ++ arg.path ∧ q = dfsRoot ++ arg.newpath
  | _, _ => False

def Performs (r : Request) {β : Type} : Call β → Prop
  | .os c => r.acts c
  | .rpc _ => False

/-- The directories that the handler locks, by their paths. -/
def Request.locks : Request → List CStr
  | .mkdir arg => [parentPath arg.path]
  | .rmdir arg => [parentPath arg.path]
  | .mknod arg => [parentPath arg.path]
  | .unlink arg => [parentPath arg.path]
  | .rename arg =>
    if parentPath arg.path = parentPath arg.newpath then [parentPath arg.path]
    else [parentPath arg.path, parentPath arg.newpath]
  | _ => []

/-- The locks can be had: no open file of the server holds one on a directory that is to be locked,
and none is to be locked twice. -/
structure LocksFree (fs : FS) (t : Descriptors) (ps : List CStr) : Prop where
  held : ∀ p ∈ ps, ∀ d, dirOf fs p = some d → t.locks d = false
  apart : ps.Pairwise fun p q => dirOf fs p ≠ dirOf fs q

def isFlock {β : Type} : Sys β → Bool
  | .flock _ _ => true
  | _ => false

/-- The server answers `-EACCES`, takes no lock and keeps the tree. -/
structure TurnedAway (a : Arrival) (h : Host) : Prop where
  answer : ∃ h', serve a h = .ok (.status ⟨-EACCES⟩, h') ∧ h'.os.fs = h.os.fs ∧
    h'.os.fds = h.os.fds
  lockless : (compute6 a.stale a.request).Each (server a.peer) (fun e _ => ¬ e.Does isFlock) h

/-- The same at both servers of a pair. -/
structure PairTurnedAway (a : PairArrival) (s : Pair) : Prop where
  answer : ∃ log s', Pair.serve a s = .ok ((.status ⟨-EACCES⟩, log), s') ∧
    s'.primary.fs = s.primary.fs ∧ s'.primary.fds = s.primary.fds ∧
    s'.secondary.os.fs = s.secondary.os.fs ∧ s'.secondary.os.fds = s.secondary.os.fds
  secondary : ∀ info slaveArg, a.request.forwarding = some (info, slaveArg) →
    TurnedAway ⟨slaveArg { info with isMaster := 0 }, a.relay.stale, a.relay.peer⟩ s.secondary

/-- Names below the root need the permission of the directories concerned. -/
structure ParentsGuard (a : Arrival) (h : Host) (m : Naming) : Prop where
  /-- Without it the request is refused, also at a secondary with an equal tree. -/
  refuses : (∃ p ∈ m.paths, ¬ Grants h.os.fs (atoi m.ip) p) → TurnedAway a h ∧
    ∀ relay secondary, secondary.os.fs = h.os.fs ∨ Agree h.os.fs secondary.os.fs →
      PairTurnedAway ⟨a.request, a.stale, relay⟩ ⟨h.os, secondary⟩
  /-- With it the call is issued. -/
  issues : (∀ p ∈ m.paths, Open h.os.fs (atoi m.ip) p) →
    (compute6 a.stale a.request).Issues (server a.peer) (fun e _ => Performs a.request e) h

/-! ## Paths -/

section

variable {p : CStr}

/-- A nested path is its directory, a slash and the last name. -/
theorem Nested.split (hp : Nested p) : ∃ x, p = joined (components p).dropLast ++ '/' :: x ∧
    '/' ∉ x := by
  have hne : components p ≠ [] := by
    intro hnil
    have hbelow := hp.below
    rw [hnil] at hbelow
    cases hbelow
  refine ⟨(components p).getLast hne, ?_, (hp.plain _ (List.getLast_mem hne)).slash⟩
  rw [← joined_concat, List.dropLast_append_getLast, hp.normal]

/-- A path below the root is put behind `/DFS`. -/
theorem Nested.translate (hp : Nested p) : translateAbspath p = dfsRoot ++ p := by
  have hform := hp.normal
  have hbelow := hp.below
  match hc : components p with
  | [] => simp [hc] at hbelow
  | [x] => simp [hc] at hbelow
  | x :: y :: l =>
      rw [hc, joined_cons, joined_cons] at hform
      have hx := (hp.plain x (by simp [hc])).ne_nil
      have hroot : p ≠ ['/'] := by
        intro heq
        simp [← hform, hx] at heq
      have hslash : p.head? = some '/' := by simp [← hform]
      rw [translateAbspath, if_neg hroot, if_neg (not_not_intro hslash)]

/-- Its parent is another directory of the tree. -/
theorem Nested.parent (hp : Nested p) : getParentPath (translateAbspath p) = parentPath p := by
  obtain ⟨x, hsplit, hx⟩ := hp.split
  rw [hp.translate]
  conv_lhs => rw [hsplit, ← List.append_assoc]
  exact Buffer.parent_eq hx

theorem Nested.parent_ne (hp : Nested p) : parentPath p ≠ dfsRoot := by
  intro heq
  have hnil := joined_eq_nil.mp (List.append_right_eq_self.mp heq)
  have hlen := congrArg List.length hnil
  rw [List.length_dropLast, List.length_nil] at hlen
  have hbelow := hp.below
  omega

/-- Below the root the check of the parent asks for its bits. -/
theorem Nested.valid_iff (hp : Nested p) {fs : FS} {id : Int32} {op : OpName} :
    parentDirValid fs (getParentPath (translateAbspath p)) (translateAbspath p) id op = true ↔
      Grants fs id p := by
  rw [parentDirValid, hp.parent, if_neg hp.parent_ne, decide_eq_true_iff, opValid_one]
  exact Iff.rfl

/-- A directory that `lstat` sees can be opened. -/
theorem dirOf_of_open {fs : FS} {id : Int32} (h : Open fs id p) :
    ∃ d, dirOf fs (parentPath p) = some d := by
  obtain ⟨n, hattrs, -, hkind⟩ := h
  unfold attrs at hattrs
  simp only [bind_eq_ok, orElse_eq_ok] at hattrs
  obtain ⟨d, hd, hn⟩ := hattrs
  have hlink : fs.linkTarget d = none := by
    cases hb : n.body <;> simp_all [FS.linkTarget, Inode.kind, Body.kind]
  refine ⟨d, ?_⟩
  rw [dirOf, FS.resolve_of_lresolve hd hlink]
  exact if_pos (FS.isDir_iff.mpr ⟨n, hn, hkind⟩)

end

/-! ## The checks -/

/-- The checks of the parents of some paths, one after the other. -/
def checkParents (ip : CStr) (op : OpName) (rest : Server StatusRet) : List CStr → Server StatusRet
  | [] => rest
  | p :: ps => checkParentDirectoryValid (getParentPath (translateAbspath p)) (translateAbspath p)
      ip op (checkParents ip op rest ps)

section

variable {peer : Peer} {h : Host} {ip : CStr} {op : OpName} {rest : Server StatusRet}
  {ps : List CStr} {A : {β : Type} → Call β → Prop}

/-- One check, when something is asked of the calls that a look is not. -/
theorem each_check (hA : ∀ p, ¬ A (.os (Sys.lstat p))) (p : CStr) :
    (isParentDirValid (getParentPath (translateAbspath p)) (translateAbspath p) ip op).Each
      (server peer) (fun e _ => ¬ A e) h :=
  (calls_isParentDirValid hA _ _ _ _).each fun _ _ he => he

/-- A parent that does not grant everything ends the handler. -/
theorem checkParents_refused (hA : ∀ p, ¬ A (.os (Sys.lstat p))) (hps : ∀ p ∈ ps, Nested p)
    (hno : ∃ p ∈ ps, ¬ Grants h.os.fs (atoi ip) p) :
    Looks peer (checkParents ip op rest ps) ⟨-EACCES⟩ h ∧
      (checkParents ip op rest ps).Each (server peer) (fun e _ => ¬ A e) h := by
  induction ps generalizing h with
  | nil =>
      obtain ⟨p, hp, -⟩ := hno
      cases hp
  | cons p ps ih =>
      have hlook := @looks_isParentDirValid peer h (getParentPath (translateAbspath p))
        (translateAbspath p) ip op
      have hvalid := @Nested.valid_iff p (hps p (by simp)) h.os.fs (atoi ip) op
      unfold checkParents checkParentDirectoryValid Looks
      by_cases hp : Grants h.os.fs (atoi ip) p
      · -- The next parents decide.
        have hrest : ∃ q ∈ ps, ¬ Grants h.os.fs (atoi ip) q := by
          obtain ⟨q, hq, hqno⟩ := hno
          rcases List.mem_cons.mp hq with rfl | hq
          · exact absurd hp hqno
          · exact ⟨q, hq, hqno⟩
        rw [hvalid.mpr hp] at hlook
        obtain ⟨e, he⟩ := hlook
        obtain ⟨⟨e', he'⟩, heach⟩ := @ih { h with os := h.os.fail e }
          (fun q hq => hps q (by simp [hq])) hrest
        refine ⟨⟨e', ?_⟩, (each_bind_of_run (each_check hA p) he).mpr heach⟩
        rw [run_bind, he]
        exact he'
      · rw [Bool.eq_false_iff.mpr fun hv => hp (hvalid.mp hv)] at hlook
        obtain ⟨e, he⟩ := hlook
        refine ⟨⟨e, ?_⟩, (each_bind_of_run (each_check hA p) he).mpr trivial⟩
        rw [run_bind, he]
        rfl

/-- Parents that grant everything leave it to the rest of the handler. -/
theorem checkParents_passed (hA : ∀ p, ¬ A (.os (Sys.lstat p))) (hps : ∀ p ∈ ps, Nested p)
    (hall : ∀ p ∈ ps, Grants h.os.fs (atoi ip) p) :
    ∃ e, (checkParents ip op rest ps).Issues (server peer) (fun e _ => A e) h ↔
      rest.Issues (server peer) (fun e _ => A e) { h with os := h.os.fail e } := by
  induction ps generalizing h with
  | nil => exact ⟨h.os.errno, Iff.rfl⟩
  | cons p ps ih =>
      obtain ⟨e, he⟩ := @looks_isParentDirValid peer h (getParentPath (translateAbspath p))
        (translateAbspath p) ip op
      rw [(hps p (by simp)).valid_iff.mpr (hall p (by simp))] at he
      obtain ⟨e', he'⟩ := @ih { h with os := h.os.fail e } (fun q hq => hps q (by simp [hq]))
        fun q hq => hall q (by simp [hq])
      refine ⟨e', ?_⟩
      unfold checkParents checkParentDirectoryValid
      rw [issues_bind_of_run (each_check hA p) he]
      exact he'

/-! ## The locks -/

/-- A directory is locked, or its lock is waited for in vain. -/
theorem run_dlock {p : CStr} {d : Ino} (hd : dirOf h.os.fs p = some d) :
    (dlock p).run (server peer) h = if h.os.fds.locks d then .error .flock
      else .ok (h.os.fds.nextFd,
        { h with os := { h.os with fds := h.os.fds.addFile (lockedFile d) } }) := by
  unfold dlock
  rcases opendir_cases h.os p with ⟨i, hi, ho⟩ | ⟨e, -, hi, -⟩
  · obtain rfl : i = d := Option.some.inj (hi.symm.trans hd)
    have hflock : OS.flock { h.os with fds := h.os.fds.addFile (dirFile i) } h.os.fds.nextFd .ex =
        _ := flock_new rfl
    rw [run_sys_bind (c := .opendir p) (congrArg Except.ok ho)]
    dsimp only
    rw [if_neg (by omega), run_bind, sys, run_perform]
    simp only [server, OS.exec, hflock]
    cases h.os.fds.locks i <;> rfl
  · cases hi.symm.trans hd

/-- The calls that look and lock. -/
def prepares {β : Type} : Sys β → Bool
  | .lstat _ | .opendir _ | .flock _ _ => true
  | _ => false

/-- What comes after the lock of a directory is done when the lock can be had. -/
theorem issues_locked {p : CStr} {d : Ino} {k : Int → Server StatusRet}
    (hA : ∀ {β : Type} (e : Call β), Call.Is prepares e → ¬ A e) (hd : dirOf h.os.fs p = some d) :
    (lockDirectory p k).Issues (server peer) (fun e _ => A e) h ↔ h.os.fds.locks d = false ∧
      (k h.os.fds.nextFd).Issues (server peer) (fun e _ => A e)
        { h with os := { h.os with fds := h.os.fds.addFile (lockedFile d) } } := by
  have hno : ¬ (dlock p).Issues (server peer) (fun e _ => A e) h :=
    not_issues_iff.mpr ((calls_dlock (A := Call.Is prepares) (fun _ => rfl) (fun _ => rfl) p).each
      fun e _ he => hA e he)
  unfold lockDirectory
  rw [issues_bind, or_iff_right hno, run_dlock hd]
  cases hl : h.os.fds.locks d with
  | true => simp
  | false =>
      simp only [Bool.false_eq_true, if_false, Except.ok.injEq, Prod.mk.injEq, and_assoc,
        exists_and_left, exists_eq_left', true_and]
      rw [if_neg (by omega)]

/-- One lock. -/
theorem issues_lockOne {p : CStr} {d : Ino} {k : Int → Server StatusRet}
    (hA : ∀ {β : Type} (e : Call β), Call.Is prepares e → ¬ A e) (hd : dirOf h.os.fs p = some d)
    (hk : ∀ fd h, (k fd).Issues (server peer) (fun e _ => A e) h) :
    (lockDirectory p k).Issues (server peer) (fun e _ => A e) h ↔
      LocksFree h.os.fs h.os.fds [p] := by
  rw [issues_locked hA hd, and_iff_left (hk _ _)]
  constructor
  · intro hfree
    refine ⟨fun q hq i hi => ?_, List.pairwise_singleton _ _⟩
    rw [List.mem_singleton.mp hq, hd] at hi
    rwa [← Option.some.inj hi]
  · intro hfree
    exact hfree.held p (by simp) d hd

/-- Two locks, one after the other. -/
theorem issues_lockTwo {p q : CStr} {d e : Ino} {k : Int → Int → Server StatusRet}
    (hA : ∀ {β : Type} (c : Call β), Call.Is prepares c → ¬ A c) (hd : dirOf h.os.fs p = some d)
    (he : dirOf h.os.fs q = some e)
    (hk : ∀ fd fd' h, (k fd fd').Issues (server peer) (fun e _ => A e) h) :
    (lockDirectory p fun fd => lockDirectory q (k fd)).Issues (server peer) (fun e _ => A e) h ↔
      LocksFree h.os.fs h.os.fds [p, q] := by
  have hsecond : ∀ fds, dirOf (Host.mk { h.os with fds := fds } h.sent).os.fs q = some e :=
    fun _ => he
  rw [issues_locked hA hd, issues_locked hA (hsecond _), and_iff_left (hk _ _ _)]
  simp only [Bool.eq_false_iff, ne_eq, locks_addFile, not_or]
  constructor
  · rintro ⟨hheld, hne, hheld'⟩
    refine ⟨fun x hx i hi => ?_, List.pairwise_pair.mpr ?_⟩
    · rw [Bool.eq_false_iff]
      rcases List.mem_pair.mp hx with rfl | rfl
      · rw [hd] at hi
        rwa [← Option.some.inj hi]
      · rw [he] at hi
        rwa [← Option.some.inj hi]
    · rw [hd, he]
      exact fun heq => hne (Option.some.inj heq)
  · intro hfree
    refine ⟨?_, fun heq => ?_, ?_⟩
    · exact Bool.eq_false_iff.mp (hfree.held p (by simp) d hd)
    · exact List.pairwise_pair.mp hfree.apart (by rw [hd, he, heq])
    · exact Bool.eq_false_iff.mp (hfree.held q (by simp) e he)

end

/-! ## The handlers -/

theorem performs_prepares {r : Request} {β : Type} (e : Call β) (he : Call.Is prepares e) :
    ¬ Performs r e := by
  cases e with
  | rpc c => exact id
  | os c => cases r <;> cases c <;> first | exact id | cases he

/-- A request about names forwards, checks the parents, locks, and makes its call. -/
theorem compute6_checks {r : Request} {m : Naming} (hm : r.naming = some m)
    (hps : ∀ p ∈ m.paths, Nested p) (stale : Stale) :
    ∃ info slaveArg rest, r.forwarding = some (info, slaveArg) ∧
      compute6 stale r = (do
        transmitToSecondaty info slaveArg
        Reply.status <$> checkParents m.ip m.op rest m.paths) ∧
      ∀ peer h, (∀ p ∈ m.paths, ∃ d, dirOf h.os.fs (parentPath p) = some d) →
        (rest.Issues (server peer) (fun e _ => Performs r e) h ↔
          LocksFree h.os.fs h.os.fds r.locks) := by
  cases r <;> simp only [Request.naming, Option.some.injEq, reduceCtorEq] at hm <;> subst hm <;>
    refine ⟨_, _, _, rfl, map_bind _ _ _, fun peer h hdirs => ?_⟩
  case mkdir arg =>
    have hp : Nested arg.path := hps _ (by simp)
    obtain ⟨d, hd⟩ := hdirs arg.path (by simp)
    dsimp only
    rw [hp.parent, hp.translate]
    exact issues_lockOne performs_prepares hd fun _ _ => .inl ⟨rfl, rfl⟩
  case rmdir arg =>
    have hp : Nested arg.path := hps _ (by simp)
    obtain ⟨d, hd⟩ := hdirs arg.path (by simp)
    dsimp only
    rw [hp.parent, hp.translate]
    exact issues_lockOne performs_prepares hd fun _ _ => .inl rfl
  case rename arg =>
    have hp : Nested arg.path := hps _ (by simp)
    have hq : Nested arg.newpath := hps _ (by simp)
    obtain ⟨d, hd⟩ := hdirs arg.path (by simp)
    obtain ⟨e, he⟩ := hdirs arg.newpath (by simp)
    dsimp only
    rw [hp.parent, hp.translate, hq.parent, hq.translate]
    by_cases heq : parentPath arg.path = parentPath arg.newpath
    · simp only [Request.locks, heq, ne_eq, not_true_eq_false, if_false, if_true]
      exact issues_lockOne performs_prepares he fun _ _ => .inl ⟨rfl, rfl⟩
    · simp only [Request.locks, heq, ne_eq, not_false_eq_true, if_true, if_false]
      exact issues_lockTwo performs_prepares hd he fun _ _ _ => .inl ⟨rfl, rfl⟩
  case symlink arg =>
    have hp : Nested arg.link := hps _ (by simp)
    rw [hp.translate]
    exact iff_of_true (.inl ⟨rfl, rfl⟩) ⟨fun q hq => (List.not_mem_nil hq).elim, .nil⟩
  case link arg =>
    have hp : Nested arg.path := hps _ (by simp)
    have hq : Nested arg.newpath := hps _ (by simp)
    rw [hp.translate, hq.translate]
    exact iff_of_true (.inl ⟨rfl, rfl⟩) ⟨fun q hq => (List.not_mem_nil hq).elim, .nil⟩
  case mknod arg =>
    have hp : Nested arg.path := hps _ (by simp)
    obtain ⟨d, hd⟩ := hdirs arg.path (by simp)
    dsimp only
    rw [hp.parent, hp.translate]
    refine issues_lockOne performs_prepares hd fun fd h => ?_
    split
    · next hreg => exact .inl ⟨hreg, rfl, rfl, rfl⟩
    · next hreg =>
      rw [Bool.not_eq_true] at hreg
      split
      · next hfifo => exact .inl ⟨hreg, hfifo, rfl, rfl⟩
      · next hfifo => exact .inl ⟨hreg, Bool.eq_false_iff.mpr hfifo, rfl, rfl, rfl⟩
  case unlink arg =>
    have hp : Nested arg.path := hps _ (by simp)
    obtain ⟨d, hd⟩ := hdirs arg.path (by simp)
    dsimp only
    rw [hp.parent, hp.translate]
    exact issues_lockOne performs_prepares hd fun _ _ => .inl rfl

/-! ## Refusal -/

/-- What comes after forwarding can be told from the whole. -/
theorem transmit_cancel {α : Type} {info : Identity} {slaveArg : Identity → Request}
    {p q : Server α} (h : (do transmitToSecondaty info slaveArg; p) =
      (do transmitToSecondaty info slaveArg; q)) : p = q := by
  unfold transmitToSecondaty connectServer at h
  split at h
  · -- Without a connection the rest follows at once.
    injection h with _ _ hk
    exact congrFun hk false
  · exact h

/-- The request that is forwarded is about the same names. -/
theorem naming_forwarded {r : Request} {m : Naming} {info info' : Identity}
    {slaveArg : Identity → Request} (hm : r.naming = some m)
    (hf : r.forwarding = some (info, slaveArg)) : (slaveArg info').naming = some m := by
  cases r <;> simp only [Request.naming, Option.some.injEq, reduceCtorEq] at hm <;> subst hm <;>
    simp only [Request.forwarding, Option.some.injEq, Prod.mk.injEq] at hf <;>
    obtain ⟨rfl, rfl⟩ := hf <;> rfl

section

variable {a : Arrival} {h : Host} {m : Naming}

/-- The handler after forwarding, refused. -/
theorem Looks.status {peer : Peer} {p : Server StatusRet} {ret : Int} (hp : Looks peer p ⟨ret⟩ h) :
    Looks peer (Reply.status <$> p) (.status ⟨ret⟩) h := by
  rw [← bind_pure_comp]
  exact hp.map rfl

/-- A client who is not granted everything is refused. -/
theorem turnedAway_of_denied (hm : a.request.naming = some m) (hps : ∀ p ∈ m.paths, Nested p)
    (hno : ∃ p ∈ m.paths, ¬ Grants h.os.fs (atoi m.ip) p) : TurnedAway a h := by
  obtain ⟨info, slaveArg, rest, -, hcompute, -⟩ := compute6_checks hm hps a.stale
  obtain ⟨sent, hsent⟩ := @run_transmit a.peer h info slaveArg
  have hlook : ∀ p, ¬ Call.Does isFlock (.os (Sys.lstat p)) := fun p hd => by cases hd
  obtain ⟨hchecks, heach⟩ := @checkParents_refused a.peer { h with sent := sent } m.ip m.op rest
    m.paths (Call.Does isFlock) hlook hps hno
  obtain ⟨e, he⟩ := hchecks.status
  refine ⟨⟨⟨h.os.fail e, sent⟩, ?_, rfl, rfl⟩, ?_⟩
  · rw [serve, hcompute, run_bind, hsent]
    exact he
  · have hforward : (transmitToSecondaty info slaveArg).Calls (Call.Is fun c => !isFlock c) :=
      calls_transmit _ _
    rw [hcompute, each_bind_of_run (hforward.each fun _ _ hc => not_does hc) hsent]
    exact each_map.mpr heach

/-- On equal trees the directories grant the same. -/
theorem grants_equal {fs fs' : FS} {id : Int32} {p : CStr} (heq : fs' = fs ∨ Agree fs fs') :
    Grants fs' id p ↔ Grants fs id p := by
  rcases heq with rfl | hagree
  · exact Iff.rfl
  · have hone := @opValid_agree fs fs' (parentPath p) id hagree (R_REQ ||| W_REQ ||| X_REQ)
    exact opValid_one.symm.trans ((by rw [hone]) : _ ↔ _) |>.trans opValid_one

/-- Both servers of a pair refuse. -/
theorem pair_turnedAway {stale : Stale} {r : Request} (relay : Relay) {secondary : Host}
    (hm : r.naming = some m) (hps : ∀ p ∈ m.paths, Nested p)
    (heq : secondary.os.fs = h.os.fs ∨ Agree h.os.fs secondary.os.fs)
    (hno : ∃ p ∈ m.paths, ¬ Grants h.os.fs (atoi m.ip) p) :
    PairTurnedAway ⟨r, stale, relay⟩ ⟨h.os, secondary⟩ := by
  obtain ⟨info, slaveArg, rest, hforward, hcompute, -⟩ := compute6_checks hm hps stale
  have hsecondary : TurnedAway ⟨slaveArg { info with isMaster := 0 }, relay.stale, relay.peer⟩
      secondary := by
    refine turnedAway_of_denied (naming_forwarded hm hforward) hps ?_
    obtain ⟨p, hp, hdenied⟩ := hno
    exact ⟨p, hp, fun hg => hdenied ((grants_equal heq).mp hg)⟩
  -- The primary on its own, whatever the secondary has done.
  obtain ⟨e, he⟩ := (@checkParents_refused .absent ⟨h.os, []⟩ m.ip m.op rest m.paths
    (Call.Does isFlock) (fun p hd => by cases hd) hps hno).1.status
  obtain ⟨rest', hcompute', hown⟩ := compute6_forwards hforward stale
  rw [← transmit_cancel (hcompute.symm.trans hcompute')] at hown
  have hprimary : ∀ secondary log,
      (Reply.status <$> checkParents m.ip m.op rest m.paths).run (Pair.machine relay)
        (⟨h.os, secondary⟩, log) =
      .ok (.status ⟨-EACCES⟩, ⟨h.os.fail e, secondary⟩, log) := by
    intro secondary log
    have hrun := run_own hown relay .absent secondary log ⟨h.os, []⟩
    rw [he] at hrun
    exact hrun
  refine ⟨?_, ?_⟩
  · unfold Pair.serve
    rw [hcompute, run_bind]
    by_cases hrole : info.isMaster ≠ 0 ∧ info.isDegraded = 0
    · obtain ⟨h', hserve, hfs, hfds⟩ := hsecondary.answer
      rw [run_transmit_pair relay _ hrole, hserve]
      simp only [Except.map, Except.bind, hprimary]
      exact ⟨_, _, rfl, rfl, rfl, hfs, hfds⟩
    · have hidle : (transmitToSecondaty info slaveArg).run (Pair.machine relay)
          (⟨h.os, secondary⟩, []) = .ok ((), ⟨h.os, secondary⟩, []) := by
        unfold transmitToSecondaty
        rw [if_neg hrole]
        rfl
      rw [hidle]
      simp only [Except.map, Except.bind, hprimary]
      exact ⟨_, _, rfl, rfl, rfl, rfl, rfl⟩
  · intro info' slaveArg' hforward'
    obtain ⟨rfl, rfl⟩ := Prod.mk.inj (Option.some.inj (hforward.symm.trans hforward'))
    exact hsecondary

/-! ## The call -/

theorem Open.grants {fs : FS} {id : Int32} {p : CStr} (h : Open fs id p) : Grants fs id p := by
  obtain ⟨n, hn, hgrants, -⟩ := h
  exact ⟨n, hn, hgrants⟩

/-- A client to whom every directory is open gets as far as the locks. -/
theorem issues_iff (hm : a.request.naming = some m) (hps : ∀ p ∈ m.paths, Nested p)
    (hopen : ∀ p ∈ m.paths, Open h.os.fs (atoi m.ip) p) :
    (compute6 a.stale a.request).Issues (server a.peer) (fun e _ => Performs a.request e) h ↔
      LocksFree h.os.fs h.os.fds a.request.locks := by
  obtain ⟨info, slaveArg, rest, -, hcompute, hrest⟩ := compute6_checks hm hps a.stale
  obtain ⟨sent, hsent⟩ := @run_transmit a.peer h info slaveArg
  have hforward : (transmitToSecondaty info slaveArg).Calls (Call.Is prepares) :=
    calls_transmit _ _
  obtain ⟨e, he⟩ := @checkParents_passed a.peer { h with sent := sent } m.ip m.op rest m.paths
    (Performs a.request) (fun p => performs_prepares _ rfl) hps fun p hp => (hopen p hp).grants
  rw [hcompute, issues_bind_of_run (hforward.each fun _ _ hc => performs_prepares _ hc) hsent,
    issues_map, he]
  exact hrest a.peer ⟨h.os.fail e, sent⟩ fun p hp => dirOf_of_open (hopen p hp)

/-- **Names below the root.**  Without the permission of every directory a request is refused.  With
it the call is issued exactly when the locks can be had. -/
theorem parents_guard_iff (hm : a.request.naming = some m) (hps : ∀ p ∈ m.paths, Nested p) :
    ParentsGuard a h m ↔ ((∀ p ∈ m.paths, Open h.os.fs (atoi m.ip) p) →
      LocksFree h.os.fs h.os.fds a.request.locks) := by
  constructor
  · intro hguard hopen
    exact (issues_iff hm hps hopen).mp (hguard.issues hopen)
  · intro hfree
    refine ⟨fun hno => ⟨turnedAway_of_denied hm hps hno, fun relay secondary heq => ?_⟩, ?_⟩
    · exact pair_turnedAway relay hm hps heq hno
    · intro hopen
      exact (issues_iff hm hps hopen).mpr (hfree hopen)

end

/-- A path that is put together from plain names. -/
theorem nested_joined {l : List Name} (hplain : ∀ x ∈ l, Plain x) (hlen : 2 ≤ l.length)
    (hfits : (translateAbspath (joined l)).length < maxPathLen) : Nested (joined l) := by
  have hcomps := components_joined hplain
  refine ⟨?_, ?_, ?_, hfits⟩
  · rwa [hcomps]
  · rw [hcomps]
  · rwa [hcomps]

/-- `/DFS` with a directory `d` that holds a file, and with a file `g` that grants everything. -/
def fileAsDir : FS := .ofNodes [
  .plain (.dir 0 [("DFS".toList, 1)]) 0 0o755,
  .plain (.dir 0 [("d".toList, 2), ("g".toList, 4)]) 0 0o777,
  .plain (.dir 1 [("f".toList, 3)]) 1 0o700,
  .plain (.reg []) 1 0o600,
  .plain (.reg []) 1 0o777]

/-- The file in the directory is to move below the other file. -/
def moveBelowFile : Request := .rename ⟨"1".toList, ⟨1, 1⟩, "/d/f".toList, "/g/x".toList⟩

/-- A new directory in the directory. -/
def makeSub : Request := .mkdir ⟨"1".toList, ⟨1, 1⟩, "/d/s".toList, 0o755⟩

theorem nested_sub : Nested "/d/s".toList := by
  have hplain : ∀ x ∈ ["d".toList, "s".toList], Plain x := by
    intro x hx
    rcases List.mem_pair.mp hx with rfl | rfl
    · exact ⟨by decide, by decide, by decide, by decide⟩
    · exact ⟨by decide, by decide, by decide, by decide⟩
  exact nested_joined hplain (by decide) (by decide)

/-- A directory is asked for below a file. -/
theorem parents_guard_iff_mkdir :
    ParentsGuard (.alone makeSub) (.start fileAsDir) ⟨"1".toList, .mkdir, ["/d/s".toList]⟩ := by
  refine (parents_guard_iff (a := .alone makeSub) rfl fun p hp => ?_).mpr fun _ => ?_
  · rw [List.mem_singleton.mp hp]
    exact nested_sub
  · exact ⟨fun _ _ _ _ => rfl, List.pairwise_singleton _ _⟩

/-- The rename keeps the lock of the first directory when the second one is no directory.  From then
on nothing can be made in the first one. -/
theorem mkdir_waits : ∃ reply h, serve (.alone moveBelowFile) (.start fileAsDir) = .ok (reply, h) ∧
    Nested "/d/s".toList ∧ Open h.os.fs 1 "/d/s".toList ∧
    ¬ ParentsGuard (.alone makeSub) h ⟨"1".toList, .mkdir, ["/d/s".toList]⟩ := by
  have hrun : (serve (.alone moveBelowFile) (.start fileAsDir)).map (fun r =>
      ((attrs r.2.os.fs (parentPath "/d/s".toList)).map fun n => (n.perm, n.uid, n.kind),
        dirOf r.2.os.fs (parentPath "/d/s".toList), r.2.os.fds.locks 2)) =
      .ok (.ok (0o700, 1, .dir), some 2, true) := by rfl
  obtain ⟨⟨reply, h⟩, hs, hret⟩ := map_eq_ok.mp hrun
  simp only [Prod.mk.injEq] at hret
  obtain ⟨hattrs, hdir, hlocked⟩ := hret
  obtain ⟨n, hn, hbits⟩ := map_eq_ok.mp hattrs
  simp only [Prod.mk.injEq] at hbits
  obtain ⟨hperm, huid, hkind⟩ := hbits
  have hgrants : grants n 1 (R_REQ ||| W_REQ ||| X_REQ) = true := by
    simp only [grants, permits, hperm, huid]
    decide
  have hopen : Open h.os.fs 1 "/d/s".toList := ⟨n, hn, hgrants, hkind⟩
  refine ⟨reply, h, hs, nested_sub, hopen, fun hguard => ?_⟩
  have hnested : ∀ p ∈ ["/d/s".toList], Nested p := by
    intro p hp
    rw [List.mem_singleton.mp hp]
    exact nested_sub
  have hall : ∀ p ∈ ["/d/s".toList], Open h.os.fs (atoi "1".toList) p := by
    intro p hp
    rw [List.mem_singleton.mp hp]
    exact hopen
  have hfree := (issues_iff (a := .alone makeSub) rfl hnested hall).mp (hguard.issues hall)
  rw [hfree.held _ (List.mem_singleton.mpr rfl) 2 hdir] at hlocked
  cases hlocked

end DFS
