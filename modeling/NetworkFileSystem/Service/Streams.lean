import NetworkFileSystem.Service.Handles
import NetworkFileSystem.Service.Listings
import NetworkFileSystem.Service.Locking

/-!
# Listing a directory more than once (`bb_opendir_6_svc`, `bb_readdir_6_svc`)

Every request wraps the descriptor in a new stream, but the position belongs to the open file, and
nothing rewinds it.  The first listing of a handle is complete and leaves the position at the end;
every further one is empty.

**`relisting_iff`** says when all of several listings are complete.
-/

namespace Posix

/-- Some open file of the inode is locked exclusively. -/
def Descriptors.locksEx (t : Descriptors) (i : Ino) : Bool :=
  t.entries.any fun e => e.2.ino = some i ∧ e.2.lock = some .ex

/-- A shared lock for the newest open file is granted unless another one is locked exclusively. -/
theorem OS.flock_newest_sh {os : OS} {t : Descriptors} {f : OpenFile} {i : Ino}
    (ht : os.fds = t.addFile f) (hino : f.ino = some i) (hp : f.pathOnly = false) :
    os.flock t.nextFd .sh = if t.locksEx i then .error .flock
      else .ok (0, { os with fds := t.addFile { f with lock := some .sh } }) := by
  have hfile : os.fds.file t.nextFd = some f := by
    rw [ht, Descriptors.file_addFile, if_pos rfl]
  have hconf : os.conflict t.nextFd i .sh = t.locksEx i := by
    unfold conflict Descriptors.locksEx
    rw [ht, Descriptors.addFile]
    simp only [List.any_cons, ne_eq, not_true_eq_false, false_and, decide_false, Bool.false_or]
    rw [Bool.eq_iff_iff]
    simp only [List.any_eq_true, decide_eq_true_eq, reduceCtorEq, false_or]
    constructor
    · rintro ⟨e, he, -, hino, -, hlock⟩
      exact ⟨e, he, hino, hlock⟩
    · rintro ⟨e, he, hino, hlock⟩
      exact ⟨e, he, by exact_mod_cast Descriptors.ne_nextFd_of_mem he, hino, by simp [hlock], hlock⟩
  have hset : os.fds.setFile t.nextFd (fun f => { f with lock := some .sh }) =
      t.addFile { f with lock := some .sh } := by rw [ht, Descriptors.setFile_addFile]
  unfold flock
  simp only [hfile, hp, Bool.false_eq_true, if_false, hino, lockMode, hconf, hset]

/-- What a directory stream returns depends on the position of the open file, not on its lock. -/
theorem OS.flock_names {os : OS} {fd : Int} {op : LockOp} {r : Int × OS}
    (h : os.flock fd op = .ok r) : (r.2.readdir fd).1 = (os.readdir fd).1 := by
  have hset : ∀ lock : Option LockMode, (({ os with
      fds := os.fds.setFile fd fun f => { f with lock := lock } } : OS).readdir fd).1 =
      (os.readdir fd).1 := by
    intro lock
    simp only [readdir, Descriptors.file_setFile, if_true]
    cases os.fds.file fd with
    | none => rfl
    | some f =>
        have hbody : ({ os with fds := os.fds.setFile fd fun f => { f with lock := lock } } :
            OS).bodyOf { f with lock := lock } = os.bodyOf f := rfl
        simp only [Option.map_some, hbody]
        split <;> rfl
  have hfail : ((os.fail EBADF).readdir fd).1 = (os.readdir fd).1 := by
    have hfile : (os.fail EBADF).fds.file fd = os.fds.file fd := rfl
    have hbody : ∀ f, (os.fail EBADF).bodyOf f = os.bodyOf f := fun _ => rfl
    simp only [readdir, hfile, hbody]
    repeat' split
    all_goals rfl
  unfold flock at h
  repeat' split at h
  all_goals cases h
  · exact hfail
  · exact hfail
  · exact hset _
  · exact hset _

end Posix

namespace DFS

open Effects Posix Prog

/-- The open file of a directory, read up to some position. -/
def streamAt (i : Ino) (pos : ℕ) : OpenFile := { dirFile i with pos := pos }

/-- A server answers several requests, one after the other. -/
def serveAll : List Arrival → Host → Except Halt (List Reply × Host)
  | [], h => .ok ([], h)
  | a :: rest, h => do
    let (reply, h') ← serve a h
    let (replies, h'') ← serveAll rest h'
    return (reply :: replies, h'')

theorem serveAll_cons {a : Arrival} {rest : List Arrival} {h h' : Host} {replies : List Reply} :
    serveAll (a :: rest) h = .ok (replies, h') ↔ ∃ reply h₁ rs, serve a h = .ok (reply, h₁) ∧
      serveAll rest h₁ = .ok (rs, h') ∧ reply :: rs = replies := by
  simp only [serveAll, bind_eq_ok, pure_eq_ok, Prod.mk.injEq]
  constructor
  · rintro ⟨⟨reply, h₁⟩, hr, ⟨rs, h₂⟩, hrest, hreplies, rfl⟩
    exact ⟨reply, h₁, rs, hr, hrest, hreplies⟩
  · rintro ⟨reply, h₁, rs, hr, hrest, hreplies⟩
    exact ⟨(reply, h₁), hr, (rs, h'), hrest, hreplies, rfl⟩

/-- The reply is a success and lists exactly these names. -/
def Complete (names : List Name) (reply : Reply) : Prop :=
  ∃ ret, reply = .readdir ret ∧ ret.ret = 0 ∧ ret.count = names.length ∧
    ret.entries = layout names ++ List.replicate (maxSize - packedSize names) '\x00'

/-- All requests are answered with the complete listing, and the handle can be released. -/
def ListedEachTime (names : List Name) (fd : Int) (as : List Arrival) (h : Host) : Prop :=
  ∃ replies h', serveAll as h = .ok (replies, h') ∧ (∀ reply ∈ replies, Complete names reply) ∧
    ∀ a, a.request = .releasedir ⟨fd⟩ → ∃ h'', serve a h' = .ok (.status ⟨0⟩, h'')

section

variable {peer : Peer} {stale : Stale} {h h' : Host} {t : Descriptors} {i : Ino} {n : Inode}
  {parent : Ino} {es : List (Name × Ino)} {pos : ℕ} {names : List Name}

theorem bodyOf_stream (hn : h.os.fs.node i = some n) (hb : n.body = .dir parent es)
    {f : OpenFile} (hf : f.ino = some i) : h.os.bodyOf f = some (.dir parent es) := by
  simp [OS.bodyOf, hf, hn, hb]

/-- **One listing** returns the names from the position on, and leaves the position at the end. -/
theorem run_readdir (hfds : h.os.fds = t.addFile (streamAt i pos))
    (hn : h.os.fs.node i = some n) (hb : n.body = .dir parent es) (result : ReaddirRet) :
    (bbReaddir6Svc ⟨t.nextFd⟩ result).run (server peer) h = if t.locksEx i then .error .flock
      else .ok (listing ((OS.names es).drop pos), { h with os := { h.os with
        fds := t.addFile (streamAt i (max pos (OS.names es).length)) } }) := by
  have hshared := OS.flock_newest_sh hfds rfl rfl
  unfold bbReaddir6Svc
  by_cases hl : t.locksEx i = true
  · rw [if_pos hl] at hshared ⊢
    rw [run_bind]
    unfold sys
    rw [run_perform]
    simp only [server, OS.exec, hshared, Except.map, Except.bind]
  · rw [if_neg hl] at hshared ⊢
    let locked : OpenFile := { streamAt i pos with lock := some .sh }
    let read : OpenFile := { locked with pos := max pos (OS.names es).length }
    have hfile (g : OpenFile) : (t.addFile g).file t.nextFd = some g := by
      simp [Descriptors.file_addFile]
    let h₁ : Host := { h with os := { h.os with fds := t.addFile locked } }
    let h₂ : Host := { h with os := { h.os with fds := t.addFile read } }
    have hbody : h₁.os.bodyOf locked = some (.dir parent es) := bodyOf_stream (h := h₁) hn hb rfl
    have hstream : OS.exec (.fdopendir t.nextFd) h₁.os = .ok (some ⟨t.nextFd⟩, h₁.os) := by
      have hfile₁ : h₁.os.fds.file t.nextFd = some locked := hfile locked
      have hpath : locked.pathOnly = false := rfl
      have hread : locked.readable = true := rfl
      simp only [OS.exec, OS.fdopendir, hfile₁, hpath, Bool.false_eq_true, if_false, hbody, hread,
        if_true]
    have hnames : OS.exec (.readdir ⟨t.nextFd⟩) h₁.os = .ok ((OS.names es).drop pos, h₂.os) := by
      have hfile₁ : h₁.os.fds.file t.nextFd = some locked := hfile locked
      simp only [OS.exec, OS.readdir, hfile₁, hbody]
      simp only [h₁, h₂, Descriptors.setFile_addFile]
      rfl
    have hunlock : OS.exec (.flock t.nextFd .un) h₂.os = .ok (0, { h.os with
        fds := t.addFile (streamAt i (max pos (OS.names es).length)) }) := by
      have hun := OS.flock_un h₂.os (hfile read) rfl
      simp only [OS.exec, hun]
      simp only [h₂, Descriptors.setFile_addFile]
      rfl
    rw [run_sys_bind (c := .flock t.nextFd .sh) hshared, run_sys_bind (h := h₁) hstream]
    simp only
    rw [run_sys_bind (h := h₁) hnames, run_sys_bind (h := h₂) hunlock]
    rfl

theorem serve_readdir {a : Arrival} (hreq : a.request = .readdir ⟨t.nextFd⟩)
    (hfds : h.os.fds = t.addFile (streamAt i pos)) (hn : h.os.fs.node i = some n)
    (hb : n.body = .dir parent es) :
    serve a h = if t.locksEx i then .error .flock
      else .ok (.readdir (listing ((OS.names es).drop pos)), { h with os := { h.os with
        fds := t.addFile (streamAt i (max pos (OS.names es).length)) } }) := by
  obtain ⟨r, stale, peer⟩ := a
  obtain rfl : r = .readdir ⟨t.nextFd⟩ := hreq
  show (Reply.readdir <$> bbReaddir6Svc ⟨t.nextFd⟩ stale.readdir).run (server peer) h = _
  rw [← bind_pure_comp, run_bind, run_readdir hfds hn hb]
  split <;> rfl

/-- **What a server lists** are the names of the directory behind the handle, from the position of
its open file on. -/
theorem serve_listing {a : Arrival} {fd : Int} {f : OpenFile} {reply : Reply}
    (hreq : a.request = .readdir ⟨fd⟩) (hf : h.os.fds.file fd = some f)
    (hb : h.os.bodyOf f = some (.dir parent es)) (hp : f.pathOnly = false)
    (hread : f.readable = true) (hr : serve a h = .ok (reply, h')) :
    reply = .readdir (listing ((OS.names es).drop f.pos)) := by
  obtain ⟨r, stale, peer⟩ := a
  obtain rfl : r = .readdir ⟨fd⟩ := hreq
  obtain ⟨ret, hrun, rfl⟩ := (run_map_eq_ok _).mp hr
  have hnames : (h.os.readdir fd).1 = (OS.names es).drop f.pos := by
    simp only [OS.readdir, hf, hb]
  have hrule : (bbReaddir6Svc ⟨fd⟩ stale.readdir).wp (server peer)
      (fun ret _ => ret = listing (h.os.readdir fd).1) (fun _ => True) h := by
    unfold bbReaddir6Svc
    rw [wp_bind, wp_sys]
    simp only [OS.exec]
    cases hl : h.os.flock fd .sh with
    | error w => trivial
    | ok r =>
        have hs := OS.Same.flock hl
        simp only
        rw [wp_bind, wp_sys]
        simp only [OS.exec]
        rcases r.2.fdopendir_cases fd with ⟨-, -, -, ho⟩ | ⟨e, -, hno, -⟩
        · rw [ho]
          simp only
          rw [wp_bind, wp_sys]
          simp only [OS.exec]
          rw [wp_bind]
          refine wp_flock fun _ _ _ _ => ?_
          rw [wp_pure, OS.flock_names hl]
          rfl
        · obtain ⟨g, hg, hbare⟩ := hs.fds.file hf
          exact absurd ((OS.Same.listable hs hbare).mpr ⟨hp, hread, parent, es, hb⟩) (hno g hg)
  rw [hrule.of_run hrun, hnames]

/-- The handle of a directory can be released. -/
theorem serve_releasedir {a : Arrival} (hreq : a.request = .releasedir ⟨t.nextFd⟩)
    (hfds : h.os.fds = t.addFile (streamAt i pos)) (hn : h.os.fs.node i = some n)
    (hb : n.body = .dir parent es) : ∃ h', serve a h = .ok (.status ⟨0⟩, h') := by
  obtain ⟨r, stale, peer⟩ := a
  obtain rfl : r = .releasedir ⟨t.nextFd⟩ := hreq
  have hfile : h.os.fds.file t.nextFd = some (streamAt i pos) := by
    rw [hfds, Descriptors.file_addFile, if_pos rfl]
  have hstream : OS.exec (.fdopendir t.nextFd) h.os = .ok (some ⟨t.nextFd⟩, h.os) := by
    have hbody : h.os.bodyOf (streamAt i pos) = some (.dir parent es) := bodyOf_stream hn hb rfl
    have hpath : (streamAt i pos).pathOnly = false := rfl
    have hread : (streamAt i pos).readable = true := rfl
    simp only [OS.exec, OS.fdopendir, hfile, hpath, Bool.false_eq_true, if_false, hbody, hread,
      if_true]
  have hclose : OS.exec (.closedir ⟨t.nextFd⟩) h.os =
      .ok (0, { h.os with fds := h.os.fds.dropFile t.nextFd }) := by
    simp only [OS.exec, OS.close, hfile]
  refine ⟨{ h with os := { h.os with fds := h.os.fds.dropFile t.nextFd } }, ?_⟩
  refine (run_map_eq_ok _).mpr ⟨⟨0⟩, ?_, rfl⟩
  unfold bbReleasedir6Svc
  rw [run_sys_bind hstream]
  simp only
  rw [run_sys_bind hclose]
  rfl

/-- Opening a directory successfully opens what the path leads to. -/
theorem serve_opendir {a : Arrival} {arg : OpendirArg} {fd : Int}
    (hreq : a.request = .opendir arg) (hr : serve a h = .ok (.opendir ⟨fd, 0⟩, h')) :
    fd = h.os.fds.nextFd ∧ ∃ i, dirOf h.os.fs (translateAbspath arg.path) = some i ∧
      h'.os.fs = h.os.fs ∧ h'.os.fds = h.os.fds.addFile (streamAt i 0) := by
  obtain ⟨r, stale, peer⟩ := a
  obtain rfl : r = .opendir arg := hreq
  obtain ⟨ret, hrun, hret⟩ := (run_map_eq_ok _).mp hr
  obtain rfl : ret = ⟨fd, 0⟩ := Reply.opendir.inj hret
  have hrule : (bbOpendir6Svc arg stale.opendir).wp (server peer) (fun ret h' => ret.ret = 0 →
      ret.fd = h.os.fds.nextFd ∧ ∃ i, dirOf h.os.fs (translateAbspath arg.path) = some i ∧
        h'.os.fs = h.os.fs ∧ h'.os.fds = h.os.fds.addFile (streamAt i 0)) (fun _ => True) h := by
    unfold bbOpendir6Svc
    obtain ⟨e, he⟩ := @looks_isOpValid peer h (translateAbspath arg.path) arg.ip (R_REQ ||| X_REQ)
    rw [wp_bind, wp_of_run_eq he]
    split
    · intro hzero
      have hneg : -(EACCES : Int) ≠ 0 := by decide
      exact absurd hzero hneg
    · rw [wp_bind, wp_sys]
      simp only [OS.exec]
      rcases opendir_cases (h.os.fail e) (translateAbspath arg.path) with
        ⟨i, hi, ho⟩ | ⟨e', he', -, ho⟩
      · rw [ho]
        intro _
        exact ⟨rfl, i, hi, rfl, rfl⟩
      · rw [ho]
        simp only
        rw [wp_bind]
        have hneg : -(e' : Int) ≠ 0 := by
          have hpos : (0 : Int) < e' := Int.natCast_pos.mpr he'
          omega
        exact wp_negErrno fun hzero => absurd hzero hneg
  exact hrule.of_run hrun rfl

/-! ## Several listings -/

/-- A listing that fits the buffer is complete exactly when it has all names. -/
theorem complete_iff (hfit : packedSize names ≤ maxSize) (pos : ℕ) :
    Complete names (.readdir (listing (names.drop pos))) ↔ names.drop pos = names := by
  constructor
  · rintro ⟨ret, hret, -, hcount, -⟩
    obtain rfl := Reply.readdir.inj hret
    have hlen : (names.drop pos).length = names.length := by
      simp only [listing, packNames_count] at hcount
      exact_mod_cast hcount
    exact (List.drop_suffix pos names).eq_of_length hlen
  · intro hdrop
    rw [hdrop]
    exact ⟨_, rfl, rfl, by simp [listing], listing_entries_of_fits hfit⟩

theorem names_ne_nil (es : List (Name × Ino)) : OS.names es ≠ [] := List.cons_ne_nil _ _

/-- From the end of the directory there is no complete listing. -/
theorem not_relisted {as : List Arrival} (hreq : ∀ a ∈ as, a.request = .readdir ⟨t.nextFd⟩)
    (hne : as ≠ []) (hfit : packedSize (OS.names es) ≤ maxSize)
    (hfds : h.os.fds = t.addFile (streamAt i (OS.names es).length))
    (hn : h.os.fs.node i = some n) (hb : n.body = .dir parent es) :
    ¬ ListedEachTime (OS.names es) t.nextFd as h := by
  rintro ⟨replies, h', hall, hcomplete, -⟩
  cases as with
  | nil => exact hne rfl
  | cons a rest =>
      obtain ⟨reply, h₁, rs, hr, -, rfl⟩ := serveAll_cons.mp hall
      rw [serve_readdir (hreq a (by simp)) hfds hn hb] at hr
      split at hr
      · cases hr
      · have hreply : .readdir (listing ((OS.names es).drop (OS.names es).length)) = reply :=
          congrArg Prod.fst (Except.ok.inj hr)
        have hdrop := (complete_iff hfit _).mp (hreply ▸ hcomplete reply (by simp))
        rw [List.drop_length] at hdrop
        exact names_ne_nil es hdrop.symm

/-- **Several listings of one handle** that has just been opened are all complete exactly when
there is only one, and no other descriptor of the directory is locked exclusively. -/
theorem relisting_iff {a : Arrival} {arg : OpendirArg} {fd : Int} {as : List Arrival}
    (hreq : a.request = .opendir arg) (hopen : serve a h = .ok (.opendir ⟨fd, 0⟩, h'))
    (hi : dirOf h.os.fs (translateAbspath arg.path) = some i) (hn : h.os.fs.node i = some n)
    (hb : n.body = .dir parent es) (hfit : packedSize (OS.names es) ≤ maxSize) (hne : as ≠ [])
    (has : ∀ a ∈ as, a.request = .readdir ⟨fd⟩) :
    ListedEachTime (OS.names es) fd as h' ↔ as.length = 1 ∧ h.os.fds.locksEx i = false := by
  obtain ⟨rfl, k, hk, hfs, hfds⟩ := serve_opendir hreq hopen
  obtain rfl : i = k := Option.some.inj (hi.symm.trans hk)
  rw [← hfs] at hn
  cases as with
  | nil => exact absurd rfl hne
  | cons a rest =>
      have hfirst := serve_readdir (has a (by simp)) hfds hn hb
      rw [Nat.zero_max, List.drop_zero] at hfirst
      by_cases hl : h.os.fds.locksEx i = true
      · rw [if_pos hl] at hfirst
        refine iff_of_false ?_ fun hc => by simp [hl] at hc
        rintro ⟨replies, h₂, hall, -⟩
        obtain ⟨reply, h₁, rs, hr, -⟩ := serveAll_cons.mp hall
        cases hfirst.symm.trans hr
      · rw [if_neg hl] at hfirst
        let h₁ : Host := { h' with os := { h'.os with
          fds := h.os.fds.addFile (streamAt i (OS.names es).length) } }
        have hcomplete : Complete (OS.names es) (.readdir (listing (OS.names es))) :=
          (complete_iff hfit 0).mpr rfl
        cases rest with
        | nil =>
            refine iff_of_true ⟨[.readdir (listing (OS.names es))], h₁, ?_, ?_, ?_⟩
              ⟨rfl, by simpa using hl⟩
            · simp only [serveAll, hfirst]
              rfl
            · intro reply hmem
              rw [List.mem_singleton.mp hmem]
              exact hcomplete
            · intro a' hreq'
              exact serve_releasedir (h := h₁) hreq' rfl hn hb
        | cons a' rest =>
            refine iff_of_false ?_ fun hc => by simp at hc
            rintro ⟨replies, h₂, hall, hevery, hrelease⟩
            obtain ⟨reply, h₁', rs, hone, hrest, rfl⟩ := serveAll_cons.mp hall
            obtain rfl : h₁ = h₁' := congrArg Prod.snd (Except.ok.inj (hfirst.symm.trans hone))
            have hagain : ListedEachTime (OS.names es) h.os.fds.nextFd (a' :: rest) h₁ :=
              ⟨rs, h₂, hrest, fun reply hmem => hevery reply (by simp [hmem]), hrelease⟩
            exact not_relisted (h := h₁) (fun b hb => has b (by simp [List.mem_cons.mp hb]))
              (List.cons_ne_nil _ _) hfit rfl hn hb hagain

end

/-- A volume whose `/DFS` has one entry. -/
def oneEntry : FS := .ofNodes [
  .plain (.dir 0 [("DFS".toList, 1)]) 0 0o755,
  .plain (.dir 0 [("f".toList, 2)]) 0 0o777,
  .plain (.reg []) 1 0o600]

/-- The server after a client has opened the root of the file system, and read up to `pos`. -/
def rootOpened (pos : ℕ) : Host :=
  { Host.start oneEntry with os := { (Host.start oneEntry).os with
    fds := (Host.start oneEntry).os.fds.addFile (streamAt 1 pos) } }

theorem opendir_root : serve (.alone (.opendir ⟨"1".toList, "/".toList⟩)) (.start oneEntry) =
    .ok (.opendir ⟨0, 0⟩, rootOpened 0) := by rfl

theorem readdir_root (pos : ℕ) : serve (.alone (.readdir ⟨0⟩)) (rootOpened pos) =
    .ok (.readdir (listing ([".".toList, "..".toList, "f".toList].drop pos)),
      rootOpened (max pos 3)) := by
  refine (serve_readdir (h := rootOpened pos) (t := ⟨[], List.nodup_nil⟩) (i := 1) rfl rfl
    (by rfl) rfl).trans ?_
  rfl

/-- One listing of an open handle is complete. -/
theorem relisting_once : ListedEachTime [".".toList, "..".toList, "f".toList] 0
    [.alone (.readdir ⟨0⟩)] (rootOpened 0) := by
  have has : ∀ a ∈ [Arrival.alone (.readdir ⟨0⟩)], a.request = .readdir ⟨0⟩ := by
    intro a ha
    rw [List.mem_singleton.mp ha]
    rfl
  exact (relisting_iff (i := 1) rfl opendir_root (by rfl) (by rfl) rfl (by decide)
    (List.cons_ne_nil _ _) has).mpr ⟨rfl, by rfl⟩

/-- The second listing of a handle is empty. -/
theorem relisting_empty : ¬ ∀ (h h' : Host) (a : Arrival) (arg : OpendirArg) (fd : Int) (i : Ino)
    (n : Inode) (parent : Ino) (es : List (Name × Ino)) (as : List Arrival),
    a.request = .opendir arg → serve a h = .ok (.opendir ⟨fd, 0⟩, h') →
    dirOf h.os.fs (translateAbspath arg.path) = some i → h.os.fs.node i = some n →
    n.body = .dir parent es → packedSize (OS.names es) ≤ maxSize → as ≠ [] →
    (∀ a ∈ as, a.request = .readdir ⟨fd⟩) → ListedEachTime (OS.names es) fd as h' := by
  intro hall
  obtain ⟨replies, h₂, hrun, hcomplete, -⟩ := hall _ _ _ _ 0 1 _ _ _
    [.alone (.readdir ⟨0⟩), .alone (.readdir ⟨0⟩)] rfl opendir_root (by rfl) (by rfl) rfl
    (by decide) (List.cons_ne_nil _ _) (by simp [Arrival.alone])
  obtain ⟨reply, h₁, rs, hfirst, hrest, rfl⟩ := serveAll_cons.mp hrun
  obtain rfl : rootOpened 3 = h₁ :=
    congrArg Prod.snd (Except.ok.inj ((readdir_root 0).symm.trans hfirst))
  obtain ⟨reply', h₂', rs', hsecond, -, rfl⟩ := serveAll_cons.mp hrest
  obtain rfl : .readdir (listing ([".".toList, "..".toList, "f".toList].drop 3)) = reply' :=
    congrArg Prod.fst (Except.ok.inj ((readdir_root 3).symm.trans hsecond))
  have hdrop := (complete_iff (by decide) 3).mp (hcomplete _ (List.mem_cons_of_mem _
    (List.mem_cons_self ..)))
  revert hdrop
  decide

end DFS
