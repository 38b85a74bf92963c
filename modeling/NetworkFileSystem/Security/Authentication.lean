import NetworkFileSystem.Posix.Links
import NetworkFileSystem.Service.Checks

/-!
# What the permission checks are worth

Two results about the checks that come before a system call on the same path.

**The object checked is the object used** — the check looks at the last component of the path
itself, the call that follows goes through a symbolic link there.  **`object_kept_iff`** says
exactly when the two meet the same inode.

**`access` and `open`** — `bb_access_6_svc` asks the kernel, which answers for the superuser that
runs the server; `bb_open_6_svc` applies the mode bits to the client.  **`access_agrees_iff`** says
exactly when the answers are the same.
-/

namespace DFS

open Effects Posix Prog

/-! ## The object of a call -/

/-- The calls of this section act on the inode to which they follow their path. -/
def ActsOn (os : OS) {β : Type} : Sys β → Ino → Prop
  | .openPath p flags mode, i => ∃ fs, os.fs.openAt os.umask p flags mode = .ok (i, fs)
  | .opendir p, i =>
    ∃ fs, os.fs.openAt os.umask p (O_RDONLY ||| O_NONBLOCK ||| O_DIRECTORY) 0 = .ok (i, fs)
  | .chmod p _, i => os.fs.resolve p = .ok i
  | .utime p _ _, i => os.fs.resolve p = .ok i
  | _, _ => False

/-- The calls that `ActsOn` speaks about. -/
def usesPath {β : Type} : Sys β → Bool
  | .openPath _ _ _ | .opendir _ | .chmod _ _ | .utime _ _ _ => true
  | _ => false

/-- The path of a request whose handler checks the object itself. -/
def Request.checked : Request → Option CStr
  | .openFile arg => some (translateAbspath arg.path)
  | .opendir arg => some (translateAbspath arg.path)
  | .chmod arg => some (translateAbspath arg.path)
  | .utime arg => some (translateAbspath arg.path)
  | _ => none

/-- What the check of a request says of an inode, by its owner and its mode bits. -/
def Request.admits (n : Inode) : Request → Bool
  | .openFile arg => grants n (atoi arg.ip) (openFlagToCheck arg.flags)
  | .opendir arg => grants n (atoi arg.ip) (R_REQ ||| X_REQ)
  | .chmod arg => atoi arg.ip = n.uid.toInt32
  | .utime arg => atoi arg.ip = n.uid.toInt32
  | _ => false

/-- The call acts on the inode that `lstat` finds at the path, and the owner and mode bits of this
inode let the client. -/
def MeetsCheck (fs : FS) (r : Request) (p : CStr) {β : Type} : Call β → Host → Prop
  | .os c, h => ∀ i, ActsOn h.os c i →
    fs.lresolve p = .ok i ∧ ∃ n, fs.node i = some n ∧ r.admits n = true
  | .rpc _, _ => True

/-- Every call of the handler meets its check. -/
def ObjectKept (a : Arrival) (h : Host) (p : CStr) : Prop :=
  (compute6 a.stale a.request).Each (server a.peer) (MeetsCheck h.os.fs a.request p) h

/-- The check passes: it admits the inode in the last place of the path. -/
def Passes (fs : FS) (r : Request) (p : CStr) (j : Ino) : Prop :=
  fs.lresolve p = .ok j ∧ ∃ n, fs.node j = some n ∧ r.admits n = true

/-- The call of the request goes away from the inode `j` in the last place of its path: `j` is a
link that leads to something the call can act on, or `open` makes a file without a name. -/
def Strays (a : Arrival) (os : OS) (j : Ino) : Prop :=
  match a.request with
  | .openFile arg => (∃ r, os.fs.openAt os.umask (translateAbspath arg.path) arg.flags
      a.stale.openMode = .ok r) ∧ (FS.unnamed arg.flags = true ∨
      (os.fs.linkTarget j ≠ none ∧ hasBit arg.flags O_NOFOLLOW = false))
  | .opendir arg => os.fs.linkTarget j ≠ none ∧ lockable os.fs (translateAbspath arg.path) = true
  | .chmod arg => os.fs.linkTarget j ≠ none ∧
      isOk (os.fs.resolve (translateAbspath arg.path)) = true
  | .utime arg => os.fs.linkTarget j ≠ none ∧
      isOk (os.fs.resolve (translateAbspath arg.path)) = true
  | _ => False

section

variable {fs : FS} {r : Request} {p : CStr} {peer : Peer} {h : Host}

theorem meetsCheck_of_not_usesPath {β : Type} (e : Call β) (h : Host)
    (he : Call.Is (fun c => !usesPath c) e) : MeetsCheck fs r p e h := by
  cases e with
  | rpc c => trivial
  | os c =>
      intro i hi
      cases c <;> first
        | exact hi.elim
        | cases he

/-- The rest of a handler after its call. -/
theorem each_rest {α : Type} {q : Server α} (hq : q.Calls (Call.Is fun c => !usesPath c)) :
    q.Each (server peer) (MeetsCheck fs r p) h :=
  hq.each fun e h he => meetsCheck_of_not_usesPath e h he

/-- A check followed by one call on the same path. -/
theorem each_checked {α β γ : Type} {chk : Server α} {b : α} {k : α → Server β} {c : Sys γ}
    {rest : γ → Server β} (hchk : chk.Calls (Call.Is fun c => !usesPath c))
    (hlooks : Looks peer chk b h) (hyes : (∃ j, Passes fs r p j) → k b = sys c >>= rest)
    (hno : ¬ (∃ j, Passes fs r p j) → (k b).Calls (Call.Is fun c => !usesPath c))
    (hrest : ∀ g, (rest g).Calls (Call.Is fun c => !usesPath c)) :
    (chk >>= k).Each (server peer) (MeetsCheck fs r p) h ↔
      ∀ j, Passes fs r p j → ∀ i, ActsOn h.os c i → j = i := by
  obtain ⟨e, he⟩ := hlooks
  rw [each_bind_of_run (each_rest hchk) he]
  by_cases hp : ∃ j, Passes fs r p j
  · have hacts : ∀ i, ActsOn (h.os.fail e) c i ↔ ActsOn h.os c i := by
      intro i
      cases c <;> rfl
    obtain ⟨j, hj, hn⟩ := hp
    rw [hyes ⟨j, hj, hn⟩, each_bind, and_iff_left fun g t _ => each_rest (hrest g), sys,
      each_perform]
    simp only [MeetsCheck, hacts]
    constructor
    · intro hall j' hj' i hi
      have hji := hj'.1.symm.trans (hall i hi).1
      exact Except.ok.inj hji
    · intro hall i hi
      obtain rfl := hall j ⟨hj, hn⟩ i hi
      exact ⟨hj, hn⟩
  · refine iff_of_true (each_rest (hno hp)) ?_
    intro j hj
    exact absurd ⟨j, hj⟩ hp

/-- After forwarding, the calls are judged on the same tree. -/
theorem each_transmit {α : Type} {info : Identity} {slaveArg : Identity → Request}
    {rest : Server α} {P : Prop}
    (hrest : ∀ sent, rest.Each (server peer) (MeetsCheck fs r p) { h with sent := sent } ↔ P) :
    (transmitToSecondaty info slaveArg >>= fun _ => rest).Each (server peer)
      (MeetsCheck fs r p) h ↔ P := by
  obtain ⟨sent, hrun⟩ := @run_transmit peer h info slaveArg
  rw [each_bind_of_run (each_rest (calls_transmit _ _)) hrun]
  exact hrest sent

theorem bbOpen6Svc_meets {argp : OpenArg} {mode : UInt32} {result : OpenRet}
    (hpath : translateAbspath argp.path = p) :
    (bbOpen6Svc argp mode result).Each (server peer) (MeetsCheck h.os.fs (.openFile argp) p) h ↔
      ∀ j, Passes h.os.fs (.openFile argp) p j →
        ∀ i, ActsOn h.os (.openPath p argp.flags mode) i → j = i := by
  subst hpath
  have hverdict : opValid h.os.fs (translateAbspath argp.path) (atoi argp.ip)
      (openFlagToCheck argp.flags) = 1 ↔
      ∃ j, Passes h.os.fs (.openFile argp) (translateAbspath argp.path) j := opValid_eq_one
  refine each_checked (calls_isOpValid (fun _ => rfl) _ _ _) (looks_isOpValid _ _ _)
    (fun hp => if_neg (not_not.mpr (hverdict.mpr hp))) ?_ ?_
  · intro hp
    rw [if_pos fun hv => hp (hverdict.mp hv)]
    trivial
  · intro fd
    split
    · exact calls_bind (calls_negErrno rfl) fun _ => trivial
    · trivial

theorem bbOpendir6Svc_meets {argp : OpendirArg} {result : OpendirRet}
    (hpath : translateAbspath argp.path = p) :
    (bbOpendir6Svc argp result).Each (server peer) (MeetsCheck h.os.fs (.opendir argp) p) h ↔
      ∀ j, Passes h.os.fs (.opendir argp) p j → ∀ i, ActsOn h.os (.opendir p) i → j = i := by
  subst hpath
  have hverdict : opValid h.os.fs (translateAbspath argp.path) (atoi argp.ip) (R_REQ ||| X_REQ) = 1
      ↔ ∃ j, Passes h.os.fs (.opendir argp) (translateAbspath argp.path) j := opValid_eq_one
  refine each_checked (calls_isOpValid (fun _ => rfl) _ _ _) (looks_isOpValid _ _ _)
    (fun hp => if_neg (not_not.mpr (hverdict.mpr hp))) ?_ ?_
  · intro hp
    rw [if_pos fun hv => hp (hverdict.mp hv)]
    trivial
  · intro dp
    cases dp with
    | none => exact calls_bind (calls_negErrno rfl) fun _ => trivial
    | some dp => trivial

theorem bbChmod6Svc_meets {argp : ChmodArg} (hpath : translateAbspath argp.path = p) :
    (bbChmod6Svc argp).Each (server peer) (MeetsCheck h.os.fs (.chmod argp) p) h ↔
      ∀ j, Passes h.os.fs (.chmod argp) p j → ∀ i, ActsOn h.os (.chmod p argp.mode) i → j = i := by
  subst hpath
  refine each_transmit fun sent => ?_
  have hverdict : owns h.os.fs (translateAbspath argp.path) (atoi argp.ip) = true ↔
      ∃ j, Passes h.os.fs (.chmod argp) (translateAbspath argp.path) j := by
    simp [Passes, Request.admits, owns_eq_true]
  refine each_checked (calls_isOwner (fun _ => rfl) _ _) (looks_isOwner _ _)
    (fun hp => if_neg (by simp [hverdict.mpr hp])) ?_ ?_
  · intro hp
    rw [if_pos (by simpa [← hverdict] using hp)]
    trivial
  · intro ret
    trivial

theorem bbUtime6Svc_meets {argp : UtimeArg} (hpath : translateAbspath argp.path = p) :
    (bbUtime6Svc argp).Each (server peer) (MeetsCheck h.os.fs (.utime argp) p) h ↔
      ∀ j, Passes h.os.fs (.utime argp) p j →
        ∀ i, ActsOn h.os (.utime p argp.actime argp.modtime) i → j = i := by
  subst hpath
  refine each_transmit fun sent => ?_
  have hverdict : owns h.os.fs (translateAbspath argp.path) (atoi argp.ip) = true ↔
      ∃ j, Passes h.os.fs (.utime argp) (translateAbspath argp.path) j := by
    simp [Passes, Request.admits, owns_eq_true]
  refine each_checked (calls_isOwner (fun _ => rfl) _ _) (looks_isOwner _ _)
    (fun hp => if_neg (by simp [hverdict.mpr hp])) ?_ ?_
  · intro hp
    rw [if_pos (by simpa [← hverdict] using hp)]
    trivial
  · intro ret
    trivial

end

/-! ## Where a call goes -/

/-- A call that follows the path reaches the inode in its last place, or that inode is a link to
something else. -/
theorem follows_iff {fs : FS} {p : CStr} {j : Ino} (hj : fs.lresolve p = .ok j) :
    (∀ i, fs.resolve p = .ok i → j = i) ↔
      ¬ (fs.linkTarget j ≠ none ∧ isOk (fs.resolve p) = true) := by
  constructor
  · rintro hall ⟨hl, hok⟩
    obtain ⟨i, hi⟩ := isOk_iff.mp hok
    exact hl ((FS.resolve_eq_lresolve_iff hj hi).mp (hall i hi))
  · intro hno i hi
    refine (FS.resolve_eq_lresolve_iff hj hi).mpr ?_
    by_contra hl
    exact hno ⟨hl, isOk_iff.mpr ⟨i, hi⟩⟩

/-- The same for `open`. -/
theorem opens_iff {fs : FS} {umask flags mode : UInt32} {p : CStr} {j : Ino}
    (hj : fs.lresolve p = .ok j) :
    (∀ i, (∃ fs', fs.openAt umask p flags mode = .ok (i, fs')) → j = i) ↔
      ¬ ((∃ r, fs.openAt umask p flags mode = .ok r) ∧ (FS.unnamed flags = true ∨
        (fs.linkTarget j ≠ none ∧ hasBit flags O_NOFOLLOW = false))) := by
  have hstray : ¬ (FS.unnamed flags = false ∧
      (fs.linkTarget j = none ∨ hasBit flags O_NOFOLLOW = true)) ↔
      FS.unnamed flags = true ∨
        (fs.linkTarget j ≠ none ∧ hasBit flags O_NOFOLLOW = false) := by
    simp only [not_and_or, not_or, Bool.not_eq_false, Bool.not_eq_true, ne_eq]
  rw [← hstray]
  constructor
  · rintro hall ⟨⟨⟨i, fs'⟩, hr⟩, hno⟩
    exact hno ((FS.openAt_inode_iff hj hr).mp (hall i ⟨fs', hr⟩))
  · rintro hno i ⟨fs', hr⟩
    refine (FS.openAt_inode_iff hj hr).mpr ?_
    by_contra hs
    exact hno ⟨⟨_, hr⟩, hs⟩

/-- **When the object checked is the object used.**  It is, exactly when the call does not stray
from an inode that passes the check. -/
theorem object_kept_iff {a : Arrival} {p : CStr} (hp : a.request.checked = some p) (h : Host) :
    ObjectKept a h p ↔ ∀ j, Passes h.os.fs a.request p j → ¬ Strays a h.os j := by
  obtain ⟨r, stale, peer⟩ := a
  unfold ObjectKept
  cases r <;> simp only [Request.checked, Option.some.injEq, reduceCtorEq] at hp <;>
    simp only [compute6, each_map]
  case opendir arg =>
    rw [bbOpendir6Svc_meets hp]
    subst hp
    refine forall₂_congr fun j hj => (opens_iff hj.1).trans (not_congr ?_)
    have hopen : (∃ r, h.os.fs.openAt h.os.umask (translateAbspath arg.path)
        (O_RDONLY ||| O_NONBLOCK ||| O_DIRECTORY) 0 = .ok r) ↔
        lockable h.os.fs (translateAbspath arg.path) = true := by
      rw [lockable_iff]
      constructor
      · rintro ⟨⟨i, fs'⟩, hr⟩
        obtain ⟨hi, hdir, -⟩ := openAt_directory.mp hr
        exact ⟨i, hi, hdir⟩
      · rintro ⟨i, hi, hdir⟩
        exact ⟨_, openAt_directory.mpr ⟨hi, hdir, rfl⟩⟩
    have hflags : FS.unnamed (O_RDONLY ||| O_NONBLOCK ||| O_DIRECTORY) = false ∧
        hasBit (O_RDONLY ||| O_NONBLOCK ||| O_DIRECTORY) O_NOFOLLOW = false := by decide
    rw [hopen, hflags.1, hflags.2]
    simp [Strays, and_comm]
  case utime arg =>
    rw [bbUtime6Svc_meets hp]
    subst hp
    exact forall₂_congr fun j hj => follows_iff hj.1
  case chmod arg =>
    rw [bbChmod6Svc_meets hp]
    subst hp
    exact forall₂_congr fun j hj => follows_iff hj.1
  case openFile arg =>
    rw [bbOpen6Svc_meets hp]
    subst hp
    exact forall₂_congr fun j hj => opens_iff hj.1

/-- `/DFS` with a file `f` of client 2, and a symbolic link `l` of client 1 that leads to it. -/
def linkedFile : FS := .ofNodes [
  .plain (.dir 0 [("DFS".toList, 1)]) 0 0o755,
  .plain (.dir 0 [("f".toList, 2), ("l".toList, 3)]) 0 0o777,
  .plain (.reg []) 2 0o600,
  .plain (.symlink "f".toList) 1 0o777]

/-- Client 1 may change the mode of the link, and changes the mode of the file of client 2. -/
theorem chmod_follows_link : ¬ ∀ (a : Arrival) (p : CStr) (h : Host),
    a.request.checked = some p → ObjectKept a h p := by
  intro hall
  have hkept := hall (.alone (.chmod ⟨"1".toList, ⟨1, 1⟩, "/l".toList, 0o777⟩))
    "/DFS/l".toList (.start linkedFile) rfl
  have heq : (3 : ℕ) = 2 :=
    (bbChmod6Svc_meets rfl).mp (each_map.mp hkept) 3 ⟨rfl, _, rfl, rfl⟩ 2 rfl
  cases heq

/-- A chmod through a link: what is checked is the link, what is changed is its target. -/
theorem object_kept_iff_chmod :
    ObjectKept (.alone (.chmod ⟨"2".toList, ⟨1, 1⟩, "/f".toList, 0o777⟩)) (.start linkedFile)
      "/DFS/f".toList ↔ ∀ j,
      Passes linkedFile (.chmod ⟨"2".toList, ⟨1, 1⟩, "/f".toList, 0o777⟩) "/DFS/f".toList j →
      ¬ Strays (.alone (.chmod ⟨"2".toList, ⟨1, 1⟩, "/f".toList, 0o777⟩)) (OS.start linkedFile) j :=
  object_kept_iff rfl _

/-! ## `access` and `open` -/

abbrev R_OK : UInt32 := 4
abbrev W_OK : UInt32 := 2

/-- A mask of `access` and flags of `open` that ask for the same. -/
def Matching (mask flags : UInt32) : Prop :=
  (mask = R_OK ∧ flags &&& O_ACCMODE = O_RDONLY) ∨
  (mask = W_OK ∧ flags &&& O_ACCMODE = O_WRONLY) ∨
  (mask = R_OK ||| W_OK ∧ flags &&& O_ACCMODE = O_RDWR)

/-- The mode bits give the client what the mask asks for. -/
def BitsGive (n : Inode) (id : Int32) (mask : UInt32) : Prop :=
  (hasBit mask R_OK = true → permits n id S_IRUSR S_IROTH = true) ∧
  (hasBit mask W_OK = true → permits n id S_IWUSR S_IWOTH = true)

/-- The `open` call itself. -/
def isOpen {β : Type} : Sys β → Bool
  | .openPath _ _ _ => true
  | _ => false

/-- `bb_access_6_svc` answers 0 exactly when `bb_open_6_svc` goes on to its `open`. -/
def AccessAgrees (ip path : CStr) (mask flags : UInt32) (stale : Stale) (peer : Peer)
    (h : Host) : Prop :=
  (∃ h', serve ⟨.access ⟨ip, path, mask⟩, stale, peer⟩ h = .ok (.status ⟨0⟩, h')) ↔
    (compute6 stale (.openFile ⟨ip, path, flags⟩)).Issues (server peer)
      (fun e _ => e.Does isOpen) h

/-- For the superuser, `access` says no more than whether there is such a file. -/
theorem access_of_resolve {fs : FS} {p : CStr} {mask : UInt32} {i : Ino} {n : Inode}
    (hi : fs.resolve p = .ok i) (hn : fs.node i = some n) (hmask : mask &&& ~~~7 = 0)
    (hx : hasBit mask X_OK = false) : fs.access p mask = .ok () := by
  unfold FS.access
  simp only [need, hmask, hi, hn, hx, if_true, true_or, ok_bind, orElse]

/-- `bb_open_6_svc` goes on to its `open` when its check passes. -/
theorem issues_open_iff {argp : OpenArg} {stale : Stale} {peer : Peer} {h : Host} :
    (compute6 stale (.openFile argp)).Issues (server peer) (fun e _ => e.Does isOpen) h ↔
      opValid h.os.fs (translateAbspath argp.path) (atoi argp.ip)
        (openFlagToCheck argp.flags) = 1 := by
  obtain ⟨e, he⟩ := @looks_isOpValid peer h (translateAbspath argp.path) argp.ip
    (openFlagToCheck argp.flags)
  have hcheck := (calls_isOpValid (A := Call.Is fun c => !isOpen c) (fun _ => rfl)
    (translateAbspath argp.path) argp.ip (openFlagToCheck argp.flags))
  simp only [compute6, issues_map, bbOpen6Svc]
  rw [issues_bind_of_run (hcheck.each fun e t => not_does) he]
  split
  · next hv => exact iff_of_false (not_issues_pure _) hv
  · next hv =>
    refine iff_of_true (issues_bind.mpr (.inl ?_)) (not_not.mp hv)
    simp [sys, Call.Does, isOpen]

/-- What the check of `open` asks of the mode bits. -/
theorem grants_open_iff {n : Inode} {id : Int32} {mask flags : UInt32} (hm : Matching mask flags) :
    grants n id (openFlagToCheck flags) = true ↔ BitsGive n id mask := by
  unfold grants BitsGive
  generalize permits n id S_IRUSR S_IROTH = r, permits n id S_IWUSR S_IWOTH = w,
    permits n id S_IXUSR S_IXOTH = x
  rcases hm with ⟨rfl, hacc⟩ | ⟨rfl, hacc⟩ | ⟨rfl, hacc⟩
  · have hflag : openFlagToCheck flags = R_REQ := by
      simp only [openFlagToCheck, hacc]
      decide
    rw [hflag]
    decide +revert
  · have hflag : openFlagToCheck flags = W_REQ := by
      simp only [openFlagToCheck, hacc]
      decide
    rw [hflag]
    decide +revert
  · have hflag : openFlagToCheck flags = R_REQ ||| W_REQ := by
      simp only [openFlagToCheck, hacc]
      decide
    rw [hflag]
    decide +revert

/-- **When `access` agrees with `open`.**  For an existing regular file they agree exactly when the
mode bits give the client what is asked for: `access` always says yes. -/
theorem access_agrees_iff {ip path : CStr} {mask flags : UInt32} {stale : Stale} {peer : Peer}
    {h : Host} {i : Ino} {n : Inode} (hi : h.os.fs.lresolve (translateAbspath path) = .ok i)
    (hn : h.os.fs.node i = some n) (hreg : n.kind = .reg) (hm : Matching mask flags) :
    AccessAgrees ip path mask flags stale peer h ↔ BitsGive n (atoi ip) mask := by
  have hlink : h.os.fs.linkTarget i = none := by
    unfold FS.linkTarget
    rw [hn]
    cases hb : n.body <;> simp_all [Inode.kind, Body.kind]
  have hbits : mask &&& ~~~7 = 0 ∧ hasBit mask X_OK = false := by
    rcases hm with ⟨rfl, -⟩ | ⟨rfl, -⟩ | ⟨rfl, -⟩ <;> decide
  have haccess : ∃ h', serve ⟨.access ⟨ip, path, mask⟩, stale, peer⟩ h =
      .ok (.status ⟨0⟩, h') := by
    have hok := access_of_resolve (FS.resolve_of_lresolve hi hlink) hn hbits.1 hbits.2
    refine ⟨h, ?_⟩
    simp only [serve, compute6, run_map_eq_ok]
    refine ⟨⟨0⟩, ?_, rfl⟩
    simp only [bbAccess6Svc, sys, run_bind, run_perform, server, OS.exec, hok]
    rfl
  unfold AccessAgrees
  rw [iff_true_left haccess, issues_open_iff, opValid_eq_one]
  simp only [hi, Except.ok.injEq, exists_eq_left', hn, Option.some.injEq]
  exact grants_open_iff hm

/-- `/DFS` with a file `f` of client 1 that is for its owner only. -/
def ownersFile : FS := .ofNodes [
  .plain (.dir 0 [("DFS".toList, 1)]) 0 0o755,
  .plain (.dir 0 [("f".toList, 2)]) 0 0o777,
  .plain (.reg []) 1 0o600]

/-- The owner of a file, for whom both answers agree. -/
theorem access_agrees_iff_owner : AccessAgrees "1".toList "/f".toList R_OK O_RDONLY .zero .absent
    (.start ownersFile) ↔ BitsGive (.plain (.reg []) 1 0o600) 1 R_OK :=
  @access_agrees_iff "1".toList _ _ _ _ _ _ 2 _ rfl rfl rfl (.inl ⟨rfl, rfl⟩)

/-- Client 2 is told that it may read the file, and is refused when it opens it. -/
theorem access_disagrees : ¬ ∀ (ip path : CStr) (mask flags : UInt32) (stale : Stale) (peer : Peer)
    (h : Host) (i : Ino) (n : Inode), h.os.fs.lresolve (translateAbspath path) = .ok i →
    h.os.fs.node i = some n → n.kind = .reg → Matching mask flags →
    AccessAgrees ip path mask flags stale peer h := by
  intro hall
  have hagrees := hall "2".toList "/f".toList R_OK O_RDONLY .zero .absent (.start ownersFile) 2 _
    rfl rfl rfl (.inl ⟨rfl, rfl⟩)
  have hrun : (serve ⟨.access ⟨"2".toList, "/f".toList, R_OK⟩, .zero, .absent⟩
      (.start ownersFile)).map (fun r => r.1) = .ok (.status ⟨0⟩) := by rfl
  obtain ⟨⟨reply, h'⟩, hs, hreply⟩ := map_eq_ok.mp hrun
  obtain rfl : reply = .status ⟨0⟩ := hreply
  have hopen := issues_open_iff.mp (hagrees.mp ⟨h', hs⟩)
  have hrefused : opValid ownersFile "/DFS/f".toList 2 R_REQ = 0 := by rfl
  exact absurd (hrefused.symm.trans hopen) (by decide)

end DFS
