import NetworkFileSystem.Client.Answers

/-!
# Operations that go by path (`tweakfs.c`)

An operation that names files by their paths makes one call, and what it returns and hands to its
caller is read off the reply (**`operation_answered`**).  Only the first `bb_getattr` makes another
call before, which initialises the root (**`operation_prepared`**).
-/

namespace DFS

open Effects Posix Prog

namespace Client

/-! ## What is sent and returned -/

/-- The request of an operation that names files by their paths; none for the operations that open
files or go through a handle, and for `bb_chown`, which sends nothing. -/
def Fuse.request (m : Mount) (info : Identity) : Fuse → Option Request
  | .getattr path => some (.getattr { ip := m.ip, path := path })
  | .readlink path size => some (.readlink (readlinkArg m path size))
  | .mknod path mode dev => some (.mknod {
      ip := m.ip, serverInfo := info, path := path, mode := mode, dev := toInt dev.toNat })
  | .mkdir path mode => some (.mkdir { ip := m.ip, serverInfo := info, path := path, mode := mode })
  | .unlink path => some (.unlink { ip := m.ip, serverInfo := info, path := path })
  | .rmdir path => some (.rmdir { ip := m.ip, serverInfo := info, path := path })
  | .symlink path new =>
    some (.symlink { ip := m.ip, serverInfo := info, path := path, link := new })
  | .rename path newpath =>
    some (.rename { ip := m.ip, serverInfo := info, path := path, newpath := newpath })
  | .link path newpath =>
    some (.link { ip := m.ip, serverInfo := info, path := path, newpath := newpath })
  | .chmod path mode => some (.chmod { ip := m.ip, serverInfo := info, path := path, mode := mode })
  | .truncate path newsize => some (.truncate {
      ip := m.ip, serverInfo := info, path := path, newsize := toInt newsize.toInt })
  | .utime path actime modtime => some (.utime {
      ip := m.ip, serverInfo := info, path := path, actime := actime, modtime := modtime })
  | .statfs path => some (.statfs { path := path })
  | .access path mask => some (.access { ip := m.ip, path := path, mask := mask })
  | _ => none

/-- The request with which the first `bb_getattr` has the root initialised. -/
def Mount.initRequest (m : Mount) (info : Identity) : Request :=
  .initRootdir { serverInfo := info, ip := m.ip, rootdir := m.rootdir }

/-- What the operation returns for a status. -/
def Fuse.value : Fuse → Int → Int
  | .link _ _, status | .statfs _, status => if status < 0 then -1 else 0
  | .readlink _ _, status => if status = -1 then -1 else 0
  | .getattr _, status => if status < 0 then status else 0
  | _, status => status

/-- The operation that has the root initialised when it is the first. -/
def Fuse.prepares : Fuse → Bool
  | .getattr _ => true
  | _ => false

/-- What the operation does to the memory of its caller. -/
def Fuse.Hands (reply : Reply) (c c' : Caller) : Fuse → Prop
  | .getattr _ => ∀ ret, reply = .getattr ret → 0 ≤ ret.ret → c' = { c with stat := statOf ret }
  | .readlink _ size => ∀ ret, reply = .readlink ret → ret.ret ≠ -1 →
      c' = (c.strncpy ret.buffer size).terminate ret.len
  | .statfs _ => ∀ ret, reply = .statfs ret → 0 ≤ ret.ret → c' = { c with statv := ret.vfs }
  | _ => c' = c

section

variable {σ α β : Type} {w : Network σ} {s t : Station σ} {host : HostName} {d : Int} {v : Int}
  {m : Mount} {unset : Unset}

/-! ## One call -/

/-- One call that is answered, and the station after it. -/
structure OneCall (w : Network σ) (host : HostName) (r : Request) (s t : Station σ)
    (reply : Reply) : Prop where
  answer : w.answer host r s.world = some reply
  world_eq : t.world = (w.call host r s.world).2
  initialized_eq : t.initialized = s.initialized
  logged : ∃ l, t.log = s.log ++ l

/-- The one reply is of the kind that the procedure returns. -/
theorem OneCall.answers {r : Request} {reply : Reply} (h : OneCall w host r s t reply) :
    reply.answers r = true := (Option.filter_eq_some_iff.mp h.answer).2

/-- The later exchanges of an operation are exchanges of the whole. -/
theorem newExchanges_later {u : Station σ} (h : ∃ l, u.log = s.log ++ l)
    (h' : ∃ l, t.log = u.log ++ l) : newExchanges u t ⊆ newExchanges s t := by
  obtain ⟨l, hl⟩ := h
  obtain ⟨l', hl'⟩ := h'
  intro x hx
  rw [newExchanges, hl', List.drop_left] at hx
  rw [newExchanges, hl', hl, List.append_assoc, List.drop_left]
  exact List.mem_append_right _ hx

/-- What comes after a call that is answered. -/
theorem viaStub_answered {r : Identity → Request} {decode : Reply → Option α} {ret : α}
    {k : Clnt → α → Operation β} {b : β} (hc : w.chosen s = some (host, d))
    (hrun : (viaStub r decode ret k).run w.machine s = .ok (b, t))
    (hans : ∀ x ∈ newExchanges s t, x.reply ≠ none) : ∃ reply clnt u,
      OneCall w host (r (getIdentity d)) s u reply ∧ u.caller = s.caller ∧
      (k clnt ((decode reply).getD ret)).run w.machine u = .ok (b, t) := by
  let clnt : Clnt := ⟨s.made, host⟩
  let u := w.called clnt (r (getIdentity d)) (s.connected host)
  have hlater : (k clnt (((w.answer host (r (getIdentity d)) s.world).bind decode).getD ret)).run
      w.machine u = .ok (b, t) := by
    rw [viaStub, connected_run hc, stub_run] at hrun
    exact hrun
  have hlog : u.log =
      s.log ++ [⟨host, r (getIdentity d), w.answer host (r (getIdentity d)) s.world, s.caller⟩] :=
    rfl
  obtain ⟨l, hl⟩ := log_grows hlater
  have hmem : ⟨host, r (getIdentity d), w.answer host (r (getIdentity d)) s.world, s.caller⟩ ∈
      newExchanges s t := by
    rw [newExchanges, hl, hlog, List.append_assoc, List.drop_left]
    exact List.mem_cons_self
  obtain ⟨reply, hreply⟩ := Option.ne_none_iff_exists'.mp (hans _ hmem)
  refine ⟨reply, clnt, u, ⟨hreply, rfl, rfl, _, hlog⟩, rfl, ?_⟩
  rw [show w.answer host (r (getIdentity d)) s.world = some reply from hreply] at hlater
  exact hlater

/-- An operation with one call, none unanswered: it goes on with what is decoded from the reply. -/
theorem callOnce_answered {r : Identity → Request} {decode : Reply → Option α} {ret : α}
    {k : α → Operation β} {b : β} (hc : w.chosen s = some (host, d))
    (hrun : (callOnce r decode ret >>= k).run w.machine s = .ok (b, t))
    (hans : ∀ x ∈ newExchanges s t, x.reply ≠ none) : ∃ reply u,
      OneCall w host (r (getIdentity d)) s u reply ∧ u.caller = s.caller ∧
      (k ((decode reply).getD ret)).run w.machine u = .ok (b, t) := by
  rw [callOnce_bind] at hrun
  obtain ⟨reply, clnt, u, hcall, hcaller, hk⟩ := viaStub_answered hc hrun hans
  exact ⟨reply, u.dropped clnt, ⟨hcall.answer, hcall.world_eq, hcall.initialized_eq, hcall.logged⟩,
    hcaller, hk⟩

/-! ## The operations that return a status -/

/-- An operation that returns the status of its one call. -/
theorem statusOf_answered {r : Identity → Request} (hc : w.chosen s = some (host, d))
    (hplain : Plain (r (getIdentity d)))
    (hrun : (statusOf unset r).run w.machine s = .ok (v, t))
    (hans : ∀ x ∈ newExchanges s t, x.reply ≠ none) : ∃ reply,
      OneCall w host (r (getIdentity d)) s t reply ∧ v = reply.ret ∧ t.caller = s.caller := by
  obtain ⟨reply, u, hcall, hcaller, hk⟩ := callOnce_answered hc hrun hans
  obtain ⟨ret, rfl⟩ := plain_reply hplain hcall.answers
  obtain ⟨rfl, rfl⟩ := Prod.mk.inj (Except.ok.inj hk)
  exact ⟨_, hcall, rfl, hcaller⟩

/-- An operation that makes `-1` of every failure of its one call. -/
theorem statusOrMinusOne_answered {r : Identity → Request} (hc : w.chosen s = some (host, d))
    (hplain : Plain (r (getIdentity d)))
    (hrun : (statusOrMinusOne unset r).run w.machine s = .ok (v, t))
    (hans : ∀ x ∈ newExchanges s t, x.reply ≠ none) : ∃ reply,
      OneCall w host (r (getIdentity d)) s t reply ∧ v = (if reply.ret < 0 then -1 else 0) ∧
        t.caller = s.caller := by
  obtain ⟨reply, u, hcall, hcaller, hk⟩ := callOnce_answered hc hrun hans
  obtain ⟨ret, rfl⟩ := plain_reply hplain hcall.answers
  change (if ret.ret < 0 then pure (-1) else pure 0 : Operation Int).run w.machine u = _ at hk
  have hvalue : v = (if ret.ret < 0 then -1 else 0) ∧ t = u := by
    split at hk
    · next hneg =>
      cases hk
      exact ⟨(if_pos hneg).symm, rfl⟩
    · next hpos =>
      cases hk
      exact ⟨(if_neg hpos).symm, rfl⟩
  obtain ⟨hv, rfl⟩ := hvalue
  exact ⟨_, hcall, hv, hcaller⟩

/-! ## Initialising the root -/

/-- After the first `bb_getattr` nothing is initialized. -/
theorem initializeOnce_set {k : Unit → Operation β} (hinit : s.initialized = true) :
    (initializeOnce m unset >>= k).run w.machine s = (k ()).run w.machine s := by
  rw [initializeOnce, bind_assoc, run_bind, run_net]
  show ((if s.initialized then pure () else _ : Operation Unit) >>= k).run w.machine s = _
  rw [if_pos hinit, pure_bind]

/-- The first `bb_getattr` sends `init_rootdir`, and leaves the process when it fails. -/
theorem initializeOnce_unset {k : Unit → Operation β} (hinit : s.initialized = false) :
    (initializeOnce m unset >>= k).run w.machine s =
      (callOnce m.initRequest Reply.status? unset.init >>= fun ret =>
        (if ret.ret < 0 then net (.exit 1) >>= fun e => pure e.elim else pure () :
          Operation Unit) >>= fun _ => net .setInitialized >>= k).run w.machine s := by
  rw [initializeOnce, bind_assoc, run_bind, run_net]
  show ((if s.initialized then pure () else initRootdir m unset >>= fun _ => net .setInitialized :
    Operation Unit) >>= k).run w.machine s = _
  rw [if_neg (by rw [hinit]; exact Bool.false_ne_true), initRootdir, bind_assoc, bind_assoc]
  rfl

/-! ## The operations that look something up -/

/-- `bb_getattr` of an initialized client is one call; it stores the attributes when that succeeds.
-/
theorem getattr_answered {path : CStr} (hc : w.chosen s = some (host, d))
    (hinit : s.initialized = true)
    (hrun : (bbGetattr m unset path).run w.machine s = .ok (v, t))
    (hans : ∀ x ∈ newExchanges s t, x.reply ≠ none) : ∃ reply,
      OneCall w host (.getattr { ip := m.ip, path := path }) s t reply ∧
        v = (Fuse.getattr path).value reply.ret ∧
        (Fuse.getattr path).Hands reply s.caller t.caller := by
  rw [bbGetattr, initializeOnce_set hinit] at hrun
  obtain ⟨reply, u, hcall, hcaller, hk⟩ := callOnce_answered
    (r := fun _ => .getattr { ip := m.ip, path := path }) hc hrun hans
  have hanswers := hcall.answers
  cases reply <;> cases hanswers
  next ret =>
  change (if ret.ret < 0 then pure ret.ret
    else net (.setStat (statOf ret)) >>= fun _ => pure 0 : Operation Int).run w.machine u = _ at hk
  refine ⟨.getattr ret, ?_⟩
  by_cases hneg : ret.ret < 0
  · rw [if_pos hneg] at hk
    obtain ⟨rfl, rfl⟩ := Prod.mk.inj (Except.ok.inj hk)
    refine ⟨hcall, (if_pos hneg).symm, fun ret' hret' hpos => ?_⟩
    cases hret'
    omega
  · rw [if_neg hneg] at hk
    obtain ⟨rfl, rfl⟩ := Prod.mk.inj (Except.ok.inj hk)
    refine ⟨⟨hcall.answer, hcall.world_eq, hcall.initialized_eq, hcall.logged⟩, (if_neg hneg).symm,
      fun ret' hret' _ => ?_⟩
    cases hret'
    show { u.caller with stat := statOf ret } = { s.caller with stat := statOf ret }
    rw [hcaller]

/-- `bb_readlink` is one call, and puts the target into the caller's buffer. -/
theorem readlink_answered {path : CStr} {size : UInt64} (hc : w.chosen s = some (host, d))
    (hrun : (bbReadlink m unset path size).run w.machine s = .ok (v, t))
    (hans : ∀ x ∈ newExchanges s t, x.reply ≠ none) : ∃ reply,
      OneCall w host (.readlink (readlinkArg m path size)) s t reply ∧
        v = (Fuse.readlink path size).value reply.ret ∧
        (Fuse.readlink path size).Hands reply s.caller t.caller := by
  obtain ⟨reply, u, hcall, hcaller, hk⟩ := callOnce_answered
    (r := fun _ => .readlink (readlinkArg m path size)) hc hrun hans
  have hanswers := hcall.answers
  cases reply <;> cases hanswers
  next ret =>
  change (net (.strncpy ret.buffer size) >>= fun _ => if ret.ret = -1 then pure ret.ret
    else net (.terminate ret.len) >>= fun _ => pure 0 : Operation Int).run w.machine u = _ at hk
  rw [run_bind, run_net] at hk
  change (if ret.ret = -1 then pure ret.ret
    else net (.terminate ret.len) >>= fun _ => pure 0 : Operation Int).run w.machine
      { u with caller := u.caller.strncpy ret.buffer size } = _ at hk
  refine ⟨.readlink ret, ?_⟩
  by_cases hone : ret.ret = -1
  · rw [if_pos hone] at hk
    obtain ⟨rfl, rfl⟩ := Prod.mk.inj (Except.ok.inj hk)
    refine ⟨⟨hcall.answer, hcall.world_eq, hcall.initialized_eq, hcall.logged⟩, ?_,
      fun ret' hret' hne => ?_⟩
    · exact hone.trans (if_pos hone).symm
    · cases hret'
      exact absurd hone hne
  · rw [if_neg hone] at hk
    obtain ⟨rfl, rfl⟩ := Prod.mk.inj (Except.ok.inj hk)
    refine ⟨⟨hcall.answer, hcall.world_eq, hcall.initialized_eq, hcall.logged⟩, (if_neg hone).symm,
      fun ret' hret' _ => ?_⟩
    cases hret'
    show (u.caller.strncpy ret.buffer size).terminate ret.len = _
    rw [hcaller]

/-- `bb_statfs` is one call; it stores the numbers when that succeeds. -/
theorem statfs_answered {path : CStr} (hc : w.chosen s = some (host, d))
    (hrun : (bbStatfs m unset path).run w.machine s = .ok (v, t))
    (hans : ∀ x ∈ newExchanges s t, x.reply ≠ none) : ∃ reply,
      OneCall w host (.statfs { path := path }) s t reply ∧
        v = (Fuse.statfs path).value reply.ret ∧
        (Fuse.statfs path).Hands reply s.caller t.caller := by
  have hvia : bbStatfs m unset path = viaStub (fun _ => .statfs { path := path })
      Reply.statfs? unset.statfs fun clnt ret =>
        if ret.ret < 0 then net (.clntDestroy clnt) >>= fun _ => pure (-1)
        else net (.setStatv ret.vfs) >>= fun _ => net (.clntDestroy clnt) >>= fun _ => pure 0 := rfl
  rw [hvia] at hrun
  obtain ⟨reply, clnt, u, hcall, hcaller, hk⟩ := viaStub_answered hc hrun hans
  have hanswers := hcall.answers
  cases reply <;> cases hanswers
  next ret =>
  change (if ret.ret < 0 then net (.clntDestroy clnt) >>= fun _ => pure (-1)
    else net (.setStatv ret.vfs) >>= fun _ => net (.clntDestroy clnt) >>= fun _ => pure 0 :
      Operation Int).run w.machine u = _ at hk
  refine ⟨.statfs ret, ?_⟩
  by_cases hneg : ret.ret < 0
  · rw [if_pos hneg] at hk
    obtain ⟨rfl, rfl⟩ := Prod.mk.inj (Except.ok.inj hk)
    refine ⟨⟨hcall.answer, hcall.world_eq, hcall.initialized_eq, hcall.logged⟩, (if_pos hneg).symm,
      fun ret' hret' hpos => ?_⟩
    cases hret'
    omega
  · rw [if_neg hneg] at hk
    obtain ⟨rfl, rfl⟩ := Prod.mk.inj (Except.ok.inj hk)
    refine ⟨⟨hcall.answer, hcall.world_eq, hcall.initialized_eq, hcall.logged⟩, (if_neg hneg).symm,
      fun ret' hret' _ => ?_⟩
    cases hret'
    show { u.caller with statv := ret.vfs } = { s.caller with statv := ret.vfs }
    rw [hcaller]

/-! ## All operations by path -/

/-- **An operation by path makes one call**, and the reply decides everything else. -/
theorem operation_answered {rounds : ℕ} {op : Fuse} {r : Request}
    (hr : op.request m (getIdentity d) = some r) (hc : w.chosen s = some (host, d))
    (hinit : op.prepares = true → s.initialized = true)
    (hrun : (operation rounds m unset op).run w.machine s = .ok (v, t))
    (hans : ∀ x ∈ newExchanges s t, x.reply ≠ none) : ∃ reply, OneCall w host r s t reply ∧
      v = op.value reply.ret ∧ op.Hands reply s.caller t.caller := by
  have hstatus : ∀ r' : Identity → Request, r' (getIdentity d) = r → Plain r →
      (statusOf unset r').run w.machine s = .ok (v, t) →
      ∃ reply, OneCall w host r s t reply ∧ v = reply.ret ∧ t.caller = s.caller := by
    rintro r' rfl hplain hrun
    exact statusOf_answered hc hplain hrun hans
  cases op <;> simp only [Fuse.request, Option.some.injEq, reduceCtorEq] at hr <;> subst hr
  case getattr path => exact getattr_answered hc (hinit rfl) hrun hans
  case readlink path size => exact readlink_answered hc hrun hans
  case statfs path => exact statfs_answered (m := m) hc hrun hans
  case link path newpath =>
    exact statusOrMinusOne_answered
      (r := fun info => .link { ip := m.ip, serverInfo := info, path := path, newpath := newpath })
      hc rfl hrun hans
  all_goals exact hstatus _ rfl rfl hrun

/-- The first `bb_getattr` has the root initialised, and goes on like any other. -/
theorem operation_prepared {rounds : ℕ} {op : Fuse} (hop : op.prepares = true)
    (hinit : s.initialized = false) (hc : w.chosen s = some (host, d))
    (hrun : (operation rounds m unset op).run w.machine s = .ok (v, t))
    (hans : ∀ x ∈ newExchanges s t, x.reply ≠ none) : ∃ reply u,
      w.answer host (m.initRequest (getIdentity d)) s.world = some reply ∧
      u.world = (w.call host (m.initRequest (getIdentity d)) s.world).2 ∧
      u.initialized = true ∧ u.caller = s.caller ∧
      (operation rounds m unset op).run w.machine u = .ok (v, t) ∧
      ∀ x ∈ newExchanges u t, x.reply ≠ none := by
  cases op with
  | getattr path =>
      change (bbGetattr m unset path).run w.machine s = _ at hrun
      rw [bbGetattr, initializeOnce_unset hinit] at hrun
      obtain ⟨reply, u, hcall, hcaller, hrest⟩ := callOnce_answered hc hrun hans
      by_cases hneg : ((reply.status?).getD unset.init).ret < 0
      · rw [if_pos hneg] at hrest
        cases hrest
      · rw [if_neg hneg] at hrest
        refine ⟨reply, { u with initialized := true }, hcall.answer, hcall.world_eq, rfl, hcaller,
          ?_, ?_⟩
        · show (bbGetattr m unset path).run w.machine _ = _
          rw [bbGetattr, initializeOnce_set rfl]
          exact hrest
        · exact fun x hx => hans x (newExchanges_later hcall.logged (log_grows hrest) hx)
  | _ => cases hop

end

end Client

end DFS
