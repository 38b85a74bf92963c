import NetworkFileSystem.Service.Trials

/-!
# Requests that fail half way

Several handlers change the tree by one call and then go on to others: they give up a lock, or give
the new object to the client.  When such a late call fails the answer is `-1` and nothing takes the
first change back.  That is the only way in which a request that is answered with an error leaves
something behind (**`leaves_tree_iff`**); the outcome of `close` is not looked at.

It needs no exceptional failure: giving a link to the client follows the link, so a link to a
dangling symbolic link is made and reported as not made (**`link_left_behind`**).
-/

namespace Posix

/-- The call failed, and it found a changed tree.  `close` does not count. -/
def Trial.late (fs : FS) (t : Trial) : Prop :=
  t.call ≠ .close ∧ t.failed ≠ none ∧ t.tree ≠ fs

end Posix

namespace DFS

open Effects Posix Prog

/-- The requests that change the tree by a call on a path. -/
def Request.mutates : Request → Bool
  | .mkdir _ | .rmdir _ | .mknod _ | .unlink _ | .rename _ | .symlink _ | .link _ | .chmod _
  | .utime _ | .truncate _ => true
  | _ => false

/-- Answered with an error, the request leaves the tree as it was. -/
def LeavesTree (faults : Faults) (a : Arrival) (h : Host) : Prop :=
  ∀ reply s, serveTrying faults a h = .ok (reply, s) → ∀ r, reply.status? = some r → r.ret < 0 →
    treeOf s = h.os.fs

/-- No call fails after the tree has changed. -/
def NoneLate (faults : Faults) (a : Arrival) (h : Host) : Prop :=
  ∀ reply s, serveTrying faults a h = .ok (reply, s) → ∀ t ∈ s.2, ¬ t.late h.os.fs

section

variable {fs : FS} {s t : Observed} {peer : Peer}

/-! ## The state of a handler -/

/-- No trial so far is late. -/
def Clear (fs : FS) (s : Observed) : Prop := ∀ t ∈ s.2, ¬ t.late fs

/-- A late trial has been noted exactly when the tree has changed. -/
def Spoilt (fs : FS) (s : Observed) : Prop := Clear fs s ↔ treeOf s = fs

/-- Nothing has happened to the tree. -/
def Untouched (fs : FS) (s : Observed) : Prop := treeOf s = fs ∧ Clear fs s

theorem Untouched.spoilt (h : Untouched fs s) : Spoilt fs s := iff_of_true h.2 h.1

theorem Spoilt.untouched (h : Spoilt fs s) (hfs : treeOf s = fs) : Untouched fs s :=
  ⟨hfs, h.mpr hfs⟩

theorem clear_append {l : List Trial} (hl : t.2 = s.2 ++ l) :
    Clear fs t ↔ Clear fs s ∧ ∀ x ∈ l, ¬ x.late fs := by
  unfold Clear
  rw [hl, List.forall_mem_append]

theorem Spoilt.watched (h : Spoilt fs s) (hw : Watched s t) : Spoilt fs t := by
  obtain ⟨hfs, l, hl, htree⟩ := hw
  unfold Spoilt
  rw [clear_append hl, hfs]
  constructor
  · intro hc
    exact h.mp hc.1
  · intro heq
    exact ⟨h.mpr heq, fun x hx hlate => hlate.2.2 ((htree x hx).trans heq)⟩

theorem Untouched.watched (h : Untouched fs s) (hw : Watched s t) : Untouched fs t :=
  (h.spoilt.watched hw).untouched (hw.1.trans h.1)

/-- The answer is an error exactly when it should be. -/
def Kept (fs : FS) (r : StatusRet) (s : Observed) : Prop :=
  (r.ret < 0 → treeOf s = fs) ↔ Clear fs s

theorem Untouched.kept (h : Untouched fs s) (r : StatusRet) : Kept fs r s :=
  iff_of_true (fun _ => h.1) h.2

theorem Spoilt.kept (h : Spoilt fs s) {r : StatusRet} (hr : r.ret < 0) : Kept fs r s :=
  (imp_iff_right hr).trans h.symm

theorem Clear.kept (h : Clear fs s) {r : StatusRet} (hr : 0 ≤ r.ret) : Kept fs r s :=
  iff_of_true (fun hneg => absurd hneg (Int.not_lt.mpr hr)) h

/-! ## Calls -/

variable {Q : Int → Observed → Prop}

/-- A call while no trial is late. -/
theorem wp_clear {c : Sys Int} (hn : ∀ b, c.number b = some b) (hs : Clear fs s)
    (hfail : ∀ t, treeOf t = treeOf s → (c.name ≠ .close → Spoilt fs t) → Q (-1) t)
    (hok : ∀ v t, 0 ≤ v → (c.status = true → v = 0) → Clear fs t → Q v t) :
    (sys c).wp (trying peer) Q AnyHalt s := by
  refine wp_try_any fun r hr => ?_
  have hclear := @clear_append fs s (noting s c r) [c.trial s.1.1.os r] rfl
  simp only [List.mem_singleton, forall_eq] at hclear
  have hfailed : (c.trial s.1.1.os r).failed ≠ none ↔ r.1 = -1 := by
    rw [Sys.trial, Sys.failed_number (hn r.1)]
    simp
  cases OS.attempt_answered (hn r.1) hr with
  | fails e hv hos =>
      have htree : treeOf (noting s c r) = treeOf s := by simp [noting, hos, OS.fail]
      rw [hv]
      refine hfail _ htree fun hname => ?_
      unfold Spoilt
      rw [hclear, and_iff_right hs, htree]
      constructor
      · intro hnot
        by_contra hne
        exact hnot ⟨hname, hfailed.mpr hv, hne⟩
      · intro heq hlate
        exact hlate.2.2 heq
  | succeeds hpos hzero _ =>
      refine hok r.1 _ hpos hzero (hclear.mpr ⟨hs, fun hlate => ?_⟩)
      have hv := hfailed.mp hlate.2.1
      omega

/-- The first call that may change the tree. -/
theorem wp_first {c : Sys Int} (hn : ∀ b, c.number b = some b) (hname : c.name ≠ .close)
    (hs : Untouched fs s) (hfail : ∀ t, Untouched fs t → Q (-1) t)
    (hok : ∀ v t, 0 ≤ v → (c.status = true → v = 0) → Clear fs t → Q v t) :
    (sys c).wp (trying peer) Q AnyHalt s :=
  wp_clear hn hs.2 (fun _ htree hspoilt =>
    hfail _ ((hspoilt hname).untouched (htree.trans hs.1))) hok

/-- What remains of a handler after its first call. -/
theorem wp_quiet {α : Type} {p : Server α} {Q : α → Observed → Prop}
    (hp : p.Calls (Call.Is Sys.keepsTree)) (hs : Untouched fs s)
    (hQ : ∀ a t, Untouched fs t → Q a t) : p.wp (trying peer) Q AnyHalt s :=
  (wp_watched hp).imp fun a _ ht => hQ a _ (hs.watched ht)

/-! ## Locks and owners -/

/-- Giving up a lock after a failure. -/
theorem wp_unlockFailed {fd : Int} {result : StatusRet} {Q : StatusRet → Observed → Prop}
    (hs : Spoilt fs s) (hret : result.ret < 0) (hQ : ∀ r t, r.ret < 0 → Spoilt fs t → Q r t) :
    (unlockDirectory fd result).wp (trying peer) Q AnyHalt s := by
  unfold unlockDirectory
  rw [wp_bind]
  refine (wp_watched (calls_dunlock (fun _ => rfl) fd)).imp fun v t ht => ?_
  split
  · exact hQ _ _ (by decide) (hs.watched ht)
  · exact hQ _ _ hret (hs.watched ht)

/-- Giving up a lock while nothing has failed. -/
theorem wp_unlockClear {fd : Int} {result : StatusRet} {Q : StatusRet → Observed → Prop}
    (hs : Clear fs s) (hfail : ∀ t, Spoilt fs t → Q ⟨-1⟩ t) (hok : ∀ t, Clear fs t → Q result t) :
    (unlockDirectory fd result).wp (trying peer) Q AnyHalt s := by
  unfold unlockDirectory dunlock
  rw [wp_bind, wp_bind]
  refine wp_clear (fun _ => rfl) hs (fun t _ hspoilt => ?_) fun v t _ hzero ht => ?_
  · exact hfail t (hspoilt nofun)
  · rw [hzero rfl]
    exact hok t ht

/-- Giving up a lock when the first call has been made. -/
theorem wp_unlockKept {fd : Int} {result : StatusRet}
    (hs : 0 ≤ result.ret ∧ Clear fs s ∨ result.ret < 0 ∧ Spoilt fs s) :
    (unlockDirectory fd result).wp (trying peer) (Kept fs) AnyHalt s := by
  rcases hs with ⟨hret, hs⟩ | ⟨hret, hs⟩
  · exact wp_unlockClear hs (fun t ht => ht.kept (by decide)) fun t ht => ht.kept hret
  · exact wp_unlockFailed hs hret fun r t hr ht => ht.kept hr

/-- A call that changes an owner, and its verdict. -/
theorem wp_giveAway {c : Sys Int} (hn : ∀ b, c.number b = some b) (hstatus : c.status = true)
    (hname : c.name ≠ .close) (hs : Clear fs s) (hfail : ∀ t, Spoilt fs t → Q (-1) t)
    (hok : ∀ t, Clear fs t → Q 0 t) :
    (do if (← sys c) ≠ 0 then return -1 else return 0 : Server Int).wp (trying peer) Q AnyHalt
      s := by
  rw [wp_bind]
  refine wp_clear hn hs (fun t _ hspoilt => ?_) fun v t _ hzero ht => ?_
  · exact hfail t (hspoilt hname)
  · rw [hzero hstatus]
    exact hok t ht

/-! ## Handlers -/

/-- A handler forwards first. -/
theorem wp_forwarded {info : Identity} {slaveArg : Identity → Request} {k : Server StatusRet}
    (hs : Untouched fs s)
    (hk : ∀ t, Untouched fs t → k.wp (trying peer) (Kept fs) AnyHalt t) :
    (transmitToSecondaty info slaveArg >>= fun _ => k).wp (trying peer) (Kept fs) AnyHalt s := by
  rw [wp_bind]
  exact wp_quiet (calls_transmit _ _) hs fun _ t ht => hk t ht

theorem wp_checked {parent p ip : CStr} {op : OpName} {rest : Server StatusRet}
    (hs : Untouched fs s)
    (hrest : ∀ t, Untouched fs t → rest.wp (trying peer) (Kept fs) AnyHalt t) :
    (checkParentDirectoryValid parent p ip op rest).wp (trying peer) (Kept fs) AnyHalt s := by
  unfold checkParentDirectoryValid
  rw [wp_bind]
  refine wp_quiet (calls_isParentDirValid (fun _ => rfl) _ _ _ _) hs fun b t ht => ?_
  split
  · exact hrest t ht
  · exact ht.kept _

/-- Under a lock: what keeps the tree unless it succeeds still does so. -/
theorem wp_lockedKept {parent : CStr} {rest : Int → Server StatusRet} (hs : Untouched fs s)
    (hrest : ∀ fd t, Untouched fs t → (rest fd).wp (trying peer) (Kept fs) AnyHalt t) :
    (lockDirectory parent rest).wp (trying peer) (Kept fs) AnyHalt s := by
  unfold lockDirectory
  rw [wp_bind]
  refine wp_quiet (calls_dlock (fun _ => rfl) (fun _ => rfl) parent) hs fun fd t ht => ?_
  split
  · exact ht.kept _
  · exact hrest fd t ht

/-- The status of a first call. -/
theorem wp_firstStatus {c : Sys Int} (hn : ∀ b, c.number b = some b) (hname : c.name ≠ .close)
    (hs : Untouched fs s)
    (hQ : ∀ v t, 0 ≤ v ∧ Clear fs t ∨ v < 0 ∧ Spoilt fs t → Q v t) :
    (sys c).wp (trying peer) Q AnyHalt s :=
  wp_first hn hname hs (fun t ht => hQ _ t (.inr ⟨by decide, ht.spoilt⟩))
    fun v t hv _ ht => hQ v t (.inl ⟨hv, ht⟩)

theorem wp_setOwnerClear {p ip : CStr} (hs : Clear fs s) (hfail : ∀ t, Spoilt fs t → Q (-1) t)
    (hok : ∀ t, Clear fs t → Q 0 t) : (setOwner p ip).wp (trying peer) Q AnyHalt s :=
  wp_giveAway (fun _ => rfl) rfl nofun hs hfail hok

theorem wp_setSoftlinkOwnerClear {p ip : CStr} (hs : Clear fs s)
    (hfail : ∀ t, Spoilt fs t → Q (-1) t) (hok : ∀ t, Clear fs t → Q 0 t) :
    (setSoftlinkOwner p ip).wp (trying peer) Q AnyHalt s :=
  wp_giveAway (fun _ => rfl) rfl nofun hs hfail hok

theorem kept_mkdir (argp : MkdirArg) (hs : Untouched fs s) :
    (bbMkdir6Svc argp).wp (trying peer) (Kept fs) AnyHalt s := by
  refine wp_forwarded hs fun s hs => wp_checked hs fun s hs => wp_lockedKept hs fun fd s hs => ?_
  rw [wp_bind]
  refine wp_firstStatus (fun _ => rfl) nofun hs fun v s hv => ?_
  rw [wp_bind]
  rcases hv with ⟨hv, hs⟩ | ⟨hv, hs⟩
  · refine wp_unlockClear hs (fun t ht => ?_) fun t ht => ?_
    · rw [if_neg (by decide)]
      exact ht.kept (by decide)
    · dsimp only
      rw [if_pos hv, wp_bind]
      refine wp_setOwnerClear ht (fun u hu => ?_) fun u hu => ?_
      · exact hu.kept (by decide)
      · exact hu.kept hv
  · refine wp_unlockFailed hs hv fun r t hr ht => ?_
    rw [if_neg (Int.not_le.mpr hr)]
    exact ht.kept hr

theorem kept_rmdir (argp : RmdirArg) (hs : Untouched fs s) :
    (bbRmdir6Svc argp).wp (trying peer) (Kept fs) AnyHalt s := by
  refine wp_forwarded hs fun s hs => wp_checked hs fun s hs => wp_lockedKept hs fun fd s hs => ?_
  rw [wp_bind]
  exact wp_firstStatus (fun _ => rfl) nofun hs fun v s hv => wp_unlockKept hv

theorem kept_unlink (argp : UnlinkArg) (hs : Untouched fs s) :
    (bbUnlink6Svc argp).wp (trying peer) (Kept fs) AnyHalt s := by
  refine wp_forwarded hs fun s hs => wp_checked hs fun s hs => wp_lockedKept hs fun fd s hs => ?_
  rw [wp_bind]
  exact wp_firstStatus (fun _ => rfl) nofun hs fun v s hv => wp_unlockKept hv

/-- The call of a rename, and the locks that are given up after it. -/
theorem kept_move {p q : CStr} {fd newFd : Int} (two : Bool) (hs : Untouched fs s) :
    (do
      let ret ← sys (.rename p q)
      let result ← unlockDirectory fd ⟨ret⟩
      if two then unlockDirectory newFd result else return result : Server RenameRet).wp
      (trying peer) (Kept fs) AnyHalt s := by
  rw [wp_bind]
  refine wp_firstStatus (fun _ => rfl) nofun hs fun v s hv => ?_
  rw [wp_bind]
  cases two with
  | false => exact wp_unlockKept hv
  | true =>
      rcases hv with ⟨hv, hs⟩ | ⟨hv, hs⟩
      · refine wp_unlockClear hs (fun t ht => ?_) fun t ht => ?_
        · exact wp_unlockKept (.inr ⟨by decide, ht⟩)
        · exact wp_unlockKept (.inl ⟨hv, ht⟩)
      · refine wp_unlockFailed hs hv fun r t hr ht => ?_
        exact wp_unlockKept (.inr ⟨hr, ht⟩)

theorem kept_rename (argp : RenameArg) (hs : Untouched fs s) :
    (bbRename6Svc argp).wp (trying peer) (Kept fs) AnyHalt s := by
  refine wp_forwarded hs fun s hs => wp_checked hs fun s hs => wp_checked hs fun s hs =>
    wp_lockedKept hs fun fd s hs => ?_
  by_cases hp : getParentPath (translateAbspath argp.path) ≠
      getParentPath (translateAbspath argp.newpath)
  · simp only [if_pos hp]
    exact wp_lockedKept hs fun newFd t ht => kept_move true ht
  · simp only [if_neg hp]
    exact @kept_move _ _ _ _ _ _ (-1) false hs

theorem kept_symlink (argp : SymlinkArg) (hs : Untouched fs s) :
    (bbSymlink6Svc argp).wp (trying peer) (Kept fs) AnyHalt s := by
  refine wp_forwarded hs fun s hs => wp_checked hs fun s hs => ?_
  rw [wp_bind]
  refine wp_first (fun _ => rfl) nofun hs (fun t ht => ht.kept _) fun v t hv _ ht => ?_
  rw [if_pos hv, wp_bind]
  refine wp_setSoftlinkOwnerClear ht (fun u hu => ?_) fun u hu => ?_
  · exact hu.kept (by decide)
  · exact hu.kept hv

theorem kept_link (argp : LinkArg) (hs : Untouched fs s) :
    (bbLink6Svc argp).wp (trying peer) (Kept fs) AnyHalt s := by
  refine wp_forwarded hs fun s hs => wp_checked hs fun s hs => wp_checked hs fun s hs => ?_
  rw [wp_bind]
  refine wp_first (fun _ => rfl) nofun hs (fun t ht => ht.kept _) fun v t hv _ ht => ?_
  rw [if_pos hv, wp_bind]
  refine wp_setOwnerClear ht (fun u hu => ?_) fun u hu => ?_
  · exact hu.kept (by decide)
  · exact hu.kept hv

/-- `close` leaves everything clear, whatever comes of it. -/
theorem wp_closeClear {fd : Int} (hs : Clear fs s) (hQ : ∀ v t, Clear fs t → Q v t) :
    (sys (.close fd)).wp (trying peer) Q AnyHalt s := by
  refine wp_try_any fun r hr => hQ r.1 _ ((clear_append rfl).mpr ⟨hs, fun x hx => ?_⟩)
  rw [List.mem_singleton.mp hx]
  exact fun hlate => hlate.1 rfl

theorem kept_mknod (argp : MknodArg) (hs : Untouched fs s) :
    (bbMknod6Svc argp).wp (trying peer) (Kept fs) AnyHalt s := by
  refine wp_forwarded hs fun s hs => wp_checked hs fun s hs => wp_lockedKept hs fun fd s hs => ?_
  have hfailed : ∀ {s : Observed}, Untouched fs s → (do
      let _ ← unlockDirectory fd ⟨-1⟩
      return ⟨-1⟩ : Server MknodRet).wp (trying peer) (Kept fs) AnyHalt s := by
    intro s hs
    rw [wp_bind]
    refine wp_unlockFailed hs.spoilt (by decide) fun r t _ ht => ?_
    exact ht.kept (by decide)
  have howned : ∀ {s : Observed}, Clear fs s → (do
      let ret : Int := if (← setOwner (translateAbspath argp.path) argp.ip) < 0 then -1 else 0
      unlockDirectory fd ⟨ret⟩ : Server MknodRet).wp (trying peer) (Kept fs) AnyHalt s := by
    intro s hs
    rw [wp_bind]
    refine wp_setOwnerClear hs (fun t ht => ?_) fun t ht => ?_
    · exact wp_unlockKept (.inr ⟨by decide, ht⟩)
    · exact wp_unlockKept (.inl ⟨Int.le_refl 0, ht⟩)
  have hmade : ∀ {c : Sys Int} {k : Int → Server MknodRet}, (∀ b, c.number b = some b) →
      c.name ≠ .close → (∀ v t, Clear fs t → (k v).wp (trying peer) (Kept fs) AnyHalt t) → (do
        let funcRet ← sys c
        if funcRet < 0 then
          let _ ← unlockDirectory fd ⟨-1⟩
          return ⟨-1⟩
        else k funcRet : Server MknodRet).wp (trying peer) (Kept fs) AnyHalt s := by
    intro c k hn hname hk
    rw [wp_bind]
    refine wp_first hn hname hs (fun t ht => ?_) fun v t hv _ ht => ?_
    · rw [if_pos (by decide)]
      exact hfailed ht
    · rw [if_neg (Int.not_lt.mpr hv)]
      exact hk v t ht
  dsimp only
  split
  · refine hmade (fun _ => rfl) nofun fun v t ht => ?_
    rw [wp_bind]
    exact wp_closeClear ht fun _ u hu => howned hu
  · split
    · exact hmade (fun _ => rfl) nofun fun _ t ht => howned ht
    · exact hmade (fun _ => rfl) nofun fun _ t ht => howned ht

/-- A handler that checks who owns the file and then changes it. -/
theorem kept_owned {p ip : CStr} {c : Sys Int} (hn : ∀ b, c.number b = some b)
    (hname : c.name ≠ .close) (hs : Untouched fs s) :
    (do if !(← isOwner p ip) then return ⟨-EACCES⟩ else return ⟨← sys c⟩ : Server StatusRet).wp
      (trying peer) (Kept fs) AnyHalt s := by
  rw [wp_bind]
  refine wp_quiet (calls_isOwner (fun _ => rfl) _ _) hs fun b t ht => ?_
  split
  · exact ht.kept _
  · rw [wp_bind]
    refine wp_first hn hname ht (fun u hu => hu.kept _) fun v u hv _ hu => ?_
    exact hu.kept hv

theorem kept_truncate (argp : TruncateArg) (hs : Untouched fs s) :
    (bbTruncate6Svc argp).wp (trying peer) (Kept fs) AnyHalt s := by
  refine wp_forwarded hs fun s hs => ?_
  rw [wp_bind]
  refine wp_first (fun _ => rfl) nofun hs (fun t ht => ?_) fun v t hv _ ht => ?_
  · rw [if_pos (by decide), wp_bind]
    exact wp_quiet (calls_negErrno rfl) ht fun _ u hu => hu.kept _
  · rw [if_neg (Int.not_lt.mpr hv)]
    exact ht.kept (Int.le_refl 0)

end

/-! ## Requests -/

/-- The status of a reply is an error exactly when it should be. -/
theorem kept_request {a : Arrival} (hm : a.request.mutates = true) {faults : Faults} {h : Host}
    {reply : Reply} {s : Observed} (hrun : serveTrying faults a h = .ok (reply, s)) :
    ∃ r, reply = .status r ∧ Kept h.os.fs r s := by
  have hs : Untouched h.os.fs ((h, faults), []) := ⟨rfl, fun t ht => nomatch ht⟩
  have hstatus : ∀ {p : Server StatusRet}, p.wp (trying a.peer) (Kept h.os.fs) AnyHalt
      ((h, faults), []) → (Reply.status <$> p).run (trying a.peer) ((h, faults), []) =
        .ok (reply, s) → ∃ r, reply = .status r ∧ Kept h.os.fs r s := by
    intro p hp hrun
    obtain ⟨r, hr, rfl⟩ := (run_map_eq_ok _).mp hrun
    exact ⟨r, rfl, hp.of_run hr⟩
  unfold serveTrying at hrun
  obtain ⟨request, stale, peer⟩ := a
  cases request with
  | mkdir argp => exact hstatus (kept_mkdir argp hs) hrun
  | rmdir argp => exact hstatus (kept_rmdir argp hs) hrun
  | mknod argp => exact hstatus (kept_mknod argp hs) hrun
  | unlink argp => exact hstatus (kept_unlink argp hs) hrun
  | rename argp => exact hstatus (kept_rename argp hs) hrun
  | symlink argp => exact hstatus (kept_symlink argp hs) hrun
  | link argp => exact hstatus (kept_link argp hs) hrun
  | chmod argp =>
      exact hstatus (wp_forwarded hs fun s hs => kept_owned (fun _ => rfl) (by nofun) hs) hrun
  | utime argp =>
      exact hstatus (wp_forwarded hs fun s hs => kept_owned (fun _ => rfl) (by nofun) hs) hrun
  | truncate argp => exact hstatus (kept_truncate argp hs) hrun
  | _ => cases hm

/-- **A request that is answered with an error leaves the tree as it was exactly when no call fails
after the tree has changed.** -/
theorem leaves_tree_iff (faults : Faults) (a : Arrival) (h : Host)
    (hm : a.request.mutates = true) : LeavesTree faults a h ↔ NoneLate faults a h := by
  constructor
  · intro hkeep reply s hrun
    obtain ⟨r, rfl, hkept⟩ := kept_request hm hrun
    exact hkept.mp (hkeep _ s hrun r rfl)
  · intro hnone reply s hrun r hr
    obtain ⟨r', rfl, hkept⟩ := kept_request hm hrun
    cases hr
    exact hkept.mpr (hnone _ s hrun)

/-- `/DFS` with a symbolic link `l` that leads nowhere. -/
def danglingLink : FS := .ofNodes [
  .plain (.dir 0 [("DFS".toList, 1)]) 0 0o755,
  .plain (.dir 0 [("l".toList, 2)]) 0 0o777,
  .plain (.symlink "x".toList) 1 0o777]

/-- A hard link to a dangling link; the change of the owner fails after the link is made. -/
theorem leaves_tree_iff_link :
    LeavesTree [] (.alone (.link ⟨"1".toList, ⟨1, 1⟩, "/l".toList, "/b".toList⟩))
      (.start danglingLink) ↔
    NoneLate [] (.alone (.link ⟨"1".toList, ⟨1, 1⟩, "/l".toList, "/b".toList⟩))
      (.start danglingLink) := leaves_tree_iff _ _ _ rfl

/-- The new name is made, giving it to the client fails, and the client is told that nothing was
made. -/
theorem link_left_behind : ¬ ∀ (faults : Faults) (a : Arrival) (h : Host),
    a.request.mutates = true → LeavesTree faults a h := by
  intro hall
  have heq := hall [] (.alone (.link ⟨"1".toList, ⟨1, 1⟩, "/l".toList, "/b".toList⟩))
    (.start danglingLink) rfl _ _ rfl ⟨-1⟩ rfl (by decide)
  have hb : true = false := congrArg (fun fs : FS => (fs.lresolve "/DFS/b".toList).isOk) heq
  cases hb

end DFS
