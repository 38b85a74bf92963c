import NetworkFileSystem.Client.Offsets
import NetworkFileSystem.Service.Halfway
import NetworkFileSystem.Service.Transfers

/-!
# How an error number travels (`fuse_rpc.x`, `fuse_rpc_server.c`, `tweakfs.c`)

The naming pattern of `fuse_rpc.x` says that a result carries `-errno`.  Here a client talks to one
server whose system calls all have outcomes of their own, and every call of the RPC library
succeeds.  The last exchange of an operation decides what it returns.

**`travels_iff`** says when the error number of the decisive call comes out at the other end, when
a refusal does, and that success always does: an error number arrives if it is `1`, which is what
the plain `-1` happens to mean, or if both sides pass it on, which is so for `bb_getattr` and
`bb_truncate` only.
-/

namespace DFS

open Effects Posix Prog
open Words (toNat_ofInt32 toNat_ofInt64)

namespace Client

/-- The network with one server, under the name of one of the hosts.  What the server meets beside
the request may depend on everything that has happened. -/
def oneServer (here : HostName) (around : Observed → Relay) (filler : List CStr → CStr → Int) :
    Network Observed where
  up host _ := host = here
  call _ r w :=
    match (compute6 (around w).stale r).run (trying (around w).peer) w with
    | .ok (reply, w') => (some reply, w')
    | .error _ => (none, w)
  filler := filler

/-! ## Conventions -/

/-- The requests whose status the client passes on when it is negative. -/
def passesStatus : Request → Bool
  | .getattr _ | .mknod _ | .mkdir _ | .unlink _ | .rmdir _ | .symlink _ | .rename _ | .chmod _
  | .truncate _ | .utime _ | .access _ => true
  | _ => false

/-- Whether the error number `e` of the decisive call arrives, after the trials `l`. -/
def Carries : Request → List Trial → ℕ → Prop
  | .getattr _, _, _ | .truncate _, _, _ => True
  | .read _, l, e | .write _, l, e => e = 1 ∧ lastError l = 1
  | _, _, e => e = 1

/-- The decisive call of the request was made and failed with `e`. -/
def FailedWith (r : Request) (l : List Trial) (e : Errno) : Prop :=
  ∃ x ∈ l, r.decisive x.call = true ∧ x.failed = some e

/-- **Errors travel**: from the decisive call through the status `ret` of the reply to the value
`v` of the operation. -/
structure Travels (r : Request) (refused filled : Prop) (l : List Trial) (ret v : Int) : Prop where
  failure : ∀ e, 0 < e → FailedWith r l e → ret = -e ∧ v = -e
  refusal : refused → ret = -EACCES ∧ v = -EACCES
  success : ¬ refused → ¬ Hurt l → filled → 0 ≤ ret ∧ 0 ≤ v

/-- What an operation returns by the status of its last reply. -/
def Returned (filled : Prop) (ret v : Int) : Request → Prop
  | .getattr _ => v = if ret < 0 then ret else 0
  | .mknod _ | .mkdir _ | .unlink _ | .rmdir _ | .symlink _ | .rename _ | .chmod _ | .truncate _
  | .utime _ | .access _ => v = ret
  | .link _ | .openFile _ | .release _ | .releasedir _ | .statfs _ => v = if ret < 0 then -1 else 0
  | .opendir _ => v = if ret ≠ 0 then -1 else 0
  | .readdir _ => (ret ≠ 0 → v = -1) ∧ (ret = 0 → filled → v = 0)
  | .readlink _ => v = if ret = -1 then -1 else 0
  | .read _ | .write _ => (ret < 0 → v = -1) ∧ (0 ≤ ret → 0 ≤ v)
  | .initRootdir _ | .chown _ => False

/-- Calls before the deciding one that did no harm do not change how the request failed. -/
theorem failedWith_append {r : Request} {l₀ l : List Trial} {e : Errno}
    (h : Unhurt r.decisive l₀) : FailedWith r (l₀ ++ l) e ↔ FailedWith r l e := by
  constructor
  · rintro ⟨x, hx, hd, hf⟩
    rcases List.mem_append.mp hx with hx | hx
    · rw [h x hx hd] at hf
      cases hf
    · exact ⟨x, hx, hd, hf⟩
  · rintro ⟨x, hx, hd, hf⟩
    exact ⟨x, List.mem_append_right _ hx, hd, hf⟩

/-- Calls before one that failed do not change which error the request carries. -/
theorem carries_append {r : Request} {l₀ l : List Trial} {e : Errno} (h : Hurt l) :
    Carries r (l₀ ++ l) e ↔ Carries r l e := by
  cases r <;> simp only [Carries, lastError_hurt h]

/-- The decisive call has failed: what arrives. -/
theorem carries_iff {r : Request} {l : List Trial} {e : ℕ} {filled : Prop} {v : Int} (he : 0 < e)
    (hs : Struck r.decisive e l) (hv : Returned filled (r.report l e) v r) :
    r.report l e = -(e : Int) ∧ v = -(e : Int) ↔ Carries r l e := by
  obtain ⟨-, x, -, hd, -⟩ := hs
  generalize hlast : lastError l = n
  cases r <;>
    simp only [Request.report, Returned, Request.decisive, Bool.false_eq_true, Carries, hlast,
      iff_true, true_and] at hv hd ⊢
  all_goals omega

/-- What it takes for the errors of a request to arrive. -/
structure Delivers (r : Request) (refused : Prop) (l : List Trial) : Prop where
  failure : ∀ e, 0 < e → FailedWith r l e → Carries r l e
  refusal : refused → passesStatus r = true

/-- A refusal by the server reaches the caller as `-EACCES` exactly where the operation passes the
status on. -/
theorem refusal_iff {r : Request} {filled : Prop} {v : Int} (hv : Returned filled (-EACCES) v r) :
    v = -EACCES ↔ passesStatus r = true := by
  cases r <;> simp_all [Returned, passesStatus]

/-- A status that is no failure is none for the caller either. -/
theorem success_nonneg {r : Request} {filled : Prop} {ret v : Int}
    (hv : Returned filled ret v r) (hret : 0 ≤ ret) (hexact : r.exact = true → ret ≤ 0)
    (hfilled : filled) : 0 ≤ v := by
  cases r <;> simp only [Returned] at hv
  case opendir | readdir =>
    have hzero : ret = 0 := Int.le_antisymm (hexact rfl) hret
    simp_all
  case read | write => exact hv.2 hret
  all_goals omega

/-- Travelling is delivering, for a request with its course. -/
theorem travels_iff_delivers {r : Request} {refused filled : Prop} {l₀ l : List Trial}
    {ret v : Int} (hv : Returned filled ret v r) (hrep : Reported r refused ret l)
    (h₀ : Unhurt r.decisive l₀) (hexact : r.exact = true → ret ≤ 0) :
    Travels r refused filled (l₀ ++ l) ret v ↔ Delivers r refused (l₀ ++ l) := by
  by_cases href : refused
  · obtain ⟨rfl, hidle⟩ := hrep.1 href
    have hnone : ∀ e, ¬ FailedWith r (l₀ ++ l) e := by
      intro e hf
      obtain ⟨x, hx, hd, -⟩ := (failedWith_append h₀).mp hf
      rw [hidle x hx] at hd
      cases hd
    constructor
    · intro h
      exact ⟨fun e _ hf => absurd hf (hnone e), fun _ => (refusal_iff hv).mp (h.refusal href).2⟩
    · intro h
      exact ⟨fun e _ hf => absurd hf (hnone e),
        fun _ => ⟨rfl, (refusal_iff hv).mpr (h.refusal href)⟩, fun hno => absurd href hno⟩
  · rcases hrep.2 href with ⟨hun, hret⟩ | ⟨e, hs, rfl⟩
    · have hnone : ∀ e, ¬ FailedWith r (l₀ ++ l) e := by
        intro e hf
        obtain ⟨x, hx, hd, hfail⟩ := (failedWith_append h₀).mp hf
        rw [hun x hx hd] at hfail
        cases hfail
      refine iff_of_true ⟨fun e _ hf => absurd hf (hnone e), fun h => absurd h href, ?_⟩
        ⟨fun e _ hf => absurd hf (hnone e), fun h => absurd h href⟩
      intro _ hgood hfilled
      have hpos : 0 ≤ ret := hret.resolve_right fun hh => hgood hh.right
      exact ⟨hpos, success_nonneg hv hpos hexact hfilled⟩
    · have hone : ∀ e', FailedWith r (l₀ ++ l) e' ↔ e' = e := by
        intro e'
        rw [failedWith_append h₀]
        constructor
        · rintro ⟨x, hx, hd, hf⟩
          exact Option.some.inj (hf.symm.trans (hs.1 x hx hd))
        · rintro rfl
          exact hs.2
      have hhurt : Hurt l := hs.hurt
      constructor
      · intro h
        refine ⟨fun e' he hf => ?_, fun hr => absurd hr href⟩
        obtain rfl := (hone e').mp hf
        exact (carries_append hhurt).mpr ((carries_iff he hs hv).mp (h.failure _ he hf))
      · intro h
        refine ⟨fun e' he hf => ?_, fun hr => absurd hr href,
          fun _ hgood => absurd hhurt.right hgood⟩
        obtain rfl := (hone e').mp hf
        exact (carries_iff he hs hv).mpr ((carries_append hhurt).mp (h.failure _ he hf))

/-! ## One server -/

section

variable {here : HostName} {around : Observed → Relay} {filler : List CStr → CStr → Int}
  {s t : Station Observed} {α β : Type} {v : Int} {x : Exchange}

/-- `filler` takes every name. -/
def Fills (filler : List CStr → CStr → Int) : Prop := ∀ names name, filler names name = 0

/-- The exchange on which the value `v` of an operation depends, as the server saw it: it met the
state `w` after trials among which no decisive one had failed, and it left the state of `t`. -/
inductive Settled (around : Observed → Relay) (filled : Prop) (s t : Station Observed) (v : Int)
    (x : Exchange) : Prop
  | intro {w : Observed} {l₀ : List Trial} {reply : Reply} (hreply : x.reply = some reply)
      (hserved : (compute6 (around w).stale x.request).run (trying (around w).peer) w =
        .ok (reply, t.world))
      (hgrown : w.2 = s.world.2 ++ l₀) (hunhurt : Unhurt x.request.decisive l₀)
      (hreturned : Returned filled reply.ret v x.request)
      (hchecked : w = s.world ∨ preamble x.request = pure true)

/-- The server can always be reached. -/
theorem oneServer_chosen (s : Station Observed) :
    ∃ isDegraded, (oneServer here around filler).chosen s = some (here, isDegraded) := by
  cases here with
  | host1 => exact ⟨_, rfl⟩
  | host2 => exact ⟨_, rfl⟩

/-- An answer that arrives is what the server has computed. -/
theorem oneServer_answer {host : HostName} {r : Request} {w : Observed}
    (h : (oneServer here around filler).answer host r w ≠ none) : ∃ reply,
      (oneServer here around filler).answer host r w = some reply ∧ reply.answers r = true ∧
      (compute6 (around w).stale r).run (trying (around w).peer) w =
        .ok (reply, ((oneServer here around filler).call host r w).2) := by
  obtain ⟨reply, hreply⟩ := Option.ne_none_iff_exists'.mp h
  obtain ⟨hcall, hfits⟩ := Option.filter_eq_some_iff.mp hreply
  refine ⟨reply, hreply, hfits, ?_⟩
  simp only [oneServer] at hcall ⊢
  cases hrun : (compute6 (around w).stale r).run (trying (around w).peer) w with
  | error e =>
      rw [hrun] at hcall
      cases hcall
  | ok a =>
      rw [hrun] at hcall
      cases hcall
      rfl

/-- A local step leaves the servers alone. -/
theorem exec_world {w : Network Observed} {c : Net β} {b : β} (h : w.exec c s = .ok (b, t))
    (hc : Local c) : t.world = s.world := by
  cases c with
  | clntCreate host =>
      simp only [Network.exec] at h
      split at h
      · cases h
        rfl
      · cases h
        rfl
  | clntCall clnt r => exact hc.elim
  | exit status => cases h
  | more => cases h
  | fill name =>
      rw [← (Prod.mk.inj (Except.ok.inj h)).2]
      split <;> rfl
  | _ => rw [← (Prod.mk.inj (Except.ok.inj h)).2]

/-- What calls no stub leaves the server alone. -/
theorem world_local {w : Network Observed} {p : Operation α} (hp : p.Calls Local) {a : α}
    (h : p.run w.machine s = .ok (a, t)) : t.world = s.world :=
  hp.run_rel (R := fun s t : Station Observed => t.world = s.world) (fun _ => rfl)
    (fun _ _ _ h h' => h'.trans h) (fun _ hc _ _ _ hstep => exec_world hstep hc) h

/-- The exchanges that a run adds. -/
theorem newExchanges_eq {l : List Exchange} (h : t.log = s.log ++ l) : newExchanges s t = l := by
  rw [newExchanges, h, List.drop_left]

/-- One exchange, and what the operation makes of the reply. -/
inductive OneExchange (around : Observed → Relay) (r : Identity → Request)
    (decode : Reply → Option α) (s t : Station Observed) (k : Reply → Prop) : Prop
  | intro {x : Exchange} {reply : Reply} {isDegraded : Int} (hnew : newExchanges s t = [x])
      (hrequest : x.request = r (getIdentity isDegraded)) (hreply : x.reply = some reply)
      (hfits : reply.answers x.request = true)
      (hserved : (compute6 (around s.world).stale x.request).run (trying (around s.world).peer)
        s.world = .ok (reply, t.world)) (hrest : k reply)

/-- An operation whose steps around the call are local exchanges one request and one reply. -/
theorem viaStub_exchange {r : Identity → Request} {decode : Reply → Option α} {ret : α}
    {k : Clnt → α → Operation β} {b : β} (hk : ∀ clnt a, (k clnt a).Calls Local)
    (hrun : (viaStub r decode ret k).run (oneServer here around filler).machine s = .ok (b, t))
    (hans : ∀ x ∈ newExchanges s t, x.reply ≠ none) :
    OneExchange around r decode s t fun reply => ∃ clnt u,
      (k clnt ((decode reply).getD ret)).run (oneServer here around filler).machine u =
        .ok (b, t) := by
  let net : Network Observed := oneServer here around filler
  obtain ⟨isDegraded, hc⟩ : ∃ isDegraded, net.chosen s = some (here, isDegraded) :=
    oneServer_chosen s
  let clnt : Clnt := ⟨s.made, here⟩
  let req := r (getIdentity isDegraded)
  have hfin : (k clnt (((net.answer here req s.world).bind decode).getD ret)).run net.machine
      (net.called clnt req (s.connected here)) = .ok (b, t) := by
    rw [viaStub, connected_run hc] at hrun
    exact hrun
  have hnew : newExchanges s t = [⟨here, req, net.answer here req s.world, s.caller⟩] :=
    newExchanges_eq (log_local (hk _ _) hfin)
  have hworld : t.world = (net.call here req s.world).2 := world_local (hk _ _) hfin
  obtain ⟨reply, hreply, hfits, hserved⟩ :=
    oneServer_answer (hans _ (by rw [hnew]; exact List.mem_singleton_self _))
  rw [hreply] at hfin
  rw [← hworld] at hserved
  exact .intro hnew rfl hreply hfits hserved ⟨_, _, hfin⟩

/-- The last of the exchanges that a run adds. -/
def LastExchange (s t : Station Observed) (x : Exchange) : Prop :=
  (newExchanges s t).getLast? = some x

/-- The last exchange, whose request satisfies `P`, settles the value. -/
def Decided (around : Observed → Relay) (filled : Prop) (P : Request → Prop)
    (s t : Station Observed) (v : Int) : Prop :=
  ∃ x, LastExchange s t x ∧ P x.request ∧ Settled around filled s t v x

/-- Nothing is said of the request. -/
abbrev AnyRequest : Request → Prop := fun _ => True

/-- An operation that is one exchange. -/
theorem decided_viaStub {r : Identity → Request} {decode : Reply → Option α} {ret : α}
    {k : Clnt → α → Operation Int} {filled : Prop} (hk : ∀ clnt a, (k clnt a).Calls Local)
    (hreturned : ∀ info reply clnt u, reply.answers (r info) = true →
      (k clnt ((decode reply).getD ret)).run (oneServer here around filler).machine u =
        .ok (v, t) → Returned filled reply.ret v (r info))
    {P : Request → Prop} (hP : ∀ info, P (r info))
    (hrun : (viaStub r decode ret k).run (oneServer here around filler).machine s = .ok (v, t))
    (hans : ∀ x ∈ newExchanges s t, x.reply ≠ none) : Decided around filled P s t v := by
  cases viaStub_exchange hk hrun hans with
  | @intro x reply isDegraded hnew hrequest hreply hfits hserved hrest =>
      obtain ⟨clnt, u, hu⟩ := hrest
      refine ⟨x, by rw [LastExchange, hnew, List.getLast?_singleton],
        by rw [hrequest]; exact hP _, ?_⟩
      refine .intro hreply hserved (List.append_nil _).symm (fun _ hx => nomatch hx) ?_ (.inl rfl)
      rw [hrequest] at hfits ⊢
      exact hreturned _ _ _ _ hfits hu

/-- An operation with one call is decided by it. -/
theorem decided_once {r : Identity → Request} {decode : Reply → Option α} {ret : α}
    {k : α → Operation Int} {filled : Prop} (hk : ∀ a, (k a).Calls Local)
    (hreturned : ∀ info reply u, reply.answers (r info) = true →
      (k ((decode reply).getD ret)).run (oneServer here around filler).machine u = .ok (v, t) →
      Returned filled reply.ret v (r info)) {P : Request → Prop} (hP : ∀ info, P (r info))
    (hrun : (callOnce r decode ret >>= k).run (oneServer here around filler).machine s =
      .ok (v, t)) (hans : ∀ x ∈ newExchanges s t, x.reply ≠ none) :
    Decided around filled P s t v := by
  rw [callOnce_bind] at hrun
  refine decided_viaStub (fun _ a => calls_bind (by simp [Local]) fun _ => hk a) ?_ hP
    hrun hans
  intro info reply clnt u hfits hu
  exact hreturned info reply (u.dropped clnt) hfits hu

/-! ### Statuses -/

/-- The operations that return the status are decided by their one call. -/
theorem decided_statusOf {unset : Unset} {r : Identity → Request} {filled : Prop}
    (hrun : (statusOf unset r).run (oneServer here around filler).machine s = .ok (v, t))
    (hans : ∀ x ∈ newExchanges s t, x.reply ≠ none) (hplain : ∀ info, Plain (r info))
    (hret : ∀ info ret, Returned filled ret ret (r info)) :
    Decided around filled AnyRequest s t v := by
  refine decided_once (fun _ => calls_pure _) ?_ (fun _ => trivial) hrun hans
  intro info reply u hfits hu
  obtain ⟨a, rfl⟩ := plain_reply (hplain info) hfits
  cases hu
  exact hret info a.ret

/-- So are those that make `-1` of a failure. -/
theorem decided_statusOrMinusOne {unset : Unset} {r : Identity → Request} {filled : Prop}
    (hrun : (statusOrMinusOne unset r).run (oneServer here around filler).machine s = .ok (v, t))
    (hans : ∀ x ∈ newExchanges s t, x.reply ≠ none) (hplain : ∀ info, Plain (r info))
    (hret : ∀ info ret, Returned filled ret (if ret < 0 then -1 else 0) (r info)) :
    Decided around filled AnyRequest s t v := by
  refine decided_once (fun a => ?_) ?_ (fun _ => trivial) hrun hans
  · split <;> exact calls_pure _
  · intro info reply u hfits hu
    obtain ⟨a, rfl⟩ := plain_reply (hplain info) hfits
    have hv : v = if a.ret < 0 then -1 else 0 := by
      change (if a.ret < 0 then pure (-1) else pure 0 : Operation Int).run _ u = _ at hu
      split at hu
      · next hneg =>
        cases hu
        exact (if_pos hneg).symm
      · next hneg =>
        cases hu
        exact (if_neg hneg).symm
    rw [hv]
    exact hret info a.ret

/-! ### Results with data -/

/-- `bb_open` is decided by its one call. -/
theorem decided_open {m : Mount} {unset : Unset} {path : CStr} {fi : FileInfo} {filled : Prop}
    (hrun : (bbOpen m unset path fi).run (oneServer here around filler).machine s = .ok (v, t))
    (hans : ∀ x ∈ newExchanges s t, x.reply ≠ none) :
    Decided around filled AnyRequest s t v := by
  refine decided_once (fun a => ?_) ?_ (fun _ => trivial) hrun hans
  · split
    · exact calls_pure _
    · exact calls_bind (by simp [Local]) fun _ => calls_pure _
  · intro info reply u hfits hu
    cases reply <;> cases hfits
    next ret =>
    by_cases hneg : ret.ret < 0
    · rw [Reply.openFile?, Option.getD_some, if_pos hneg] at hu
      cases hu
      exact (if_pos hneg).symm
    · rw [Reply.openFile?, Option.getD_some, if_neg hneg] at hu
      cases hu
      exact (if_neg hneg).symm

/-- `bb_opendir` is decided by its one call. -/
theorem decided_opendir {m : Mount} {unset : Unset} {path : CStr} {fi : FileInfo} {filled : Prop}
    (hrun : (bbOpendir m unset path fi).run (oneServer here around filler).machine s = .ok (v, t))
    (hans : ∀ x ∈ newExchanges s t, x.reply ≠ none) :
    Decided around filled AnyRequest s t v := by
  refine decided_once (fun a => ?_) ?_ (fun _ => trivial) hrun hans
  · split
    · exact calls_pure _
    · exact calls_bind (by simp [Local]) fun _ => calls_pure _
  · intro info reply u hfits hu
    cases reply <;> cases hfits
    next ret =>
    by_cases hne : ret.ret ≠ 0
    · rw [Reply.opendir?, Option.getD_some, if_pos hne] at hu
      cases hu
      exact (if_pos hne).symm
    · rw [Reply.opendir?, Option.getD_some, if_neg hne] at hu
      cases hu
      exact (if_neg hne).symm

/-- `bb_readlink` is decided by its one call. -/
theorem decided_readlink {m : Mount} {unset : Unset} {path : CStr} {size : UInt64} {filled : Prop}
    (hrun : (bbReadlink m unset path size).run (oneServer here around filler).machine s =
      .ok (v, t)) (hans : ∀ x ∈ newExchanges s t, x.reply ≠ none) :
    Decided around filled AnyRequest s t v := by
  refine decided_once (fun a => ?_) ?_ (fun _ => trivial) hrun hans
  · refine calls_bind (by simp [Local]) fun _ => ?_
    split
    · exact calls_pure _
    · exact calls_bind (by simp [Local]) fun _ => calls_pure _
  · intro info reply u hfits hu
    cases reply <;> cases hfits
    next ret =>
    rw [Reply.readlink?, Option.getD_some, run_bind, run_net] at hu
    dsimp only [Network.exec, Except.bind] at hu
    by_cases hone : ret.ret = -1
    · rw [if_pos hone] at hu
      cases hu
      exact hone.trans (if_pos hone).symm
    · rw [if_neg hone] at hu
      cases hu
      exact (if_neg hone).symm

/-- Entries for all of which there is room. -/
theorem fillEntries_fills (hfill : Fills filler) (n : ℕ) {entries : List Char}
    {s t : Station Observed}
    (h : (fillEntries n entries).run (oneServer here around filler).machine s = .ok (v, t)) :
    v = 0 := by
  induction n generalizing entries s with
  | zero =>
      cases h
      rfl
  | succ n ih =>
      rw [fillEntries, run_bind, run_net] at h
      have hzero := hfill s.caller.names (entries.takeWhile (· ≠ '\x00'))
      change (if filler _ _ ≠ 0 then pure (-ENOMEM) else fillEntries n _ : Operation Int).run _ _ =
        _ at h
      rw [if_neg (fun hne => hne hzero)] at h
      exact ih h

/-- `bb_readdir` is decided by its one call, if `filler` takes every name. -/
theorem decided_readdir {m : Mount} {unset : Unset} {path : CStr} {fi : FileInfo}
    (hrun : (bbReaddir m unset path fi).run (oneServer here around filler).machine s = .ok (v, t))
    (hans : ∀ x ∈ newExchanges s t, x.reply ≠ none) :
    Decided around (Fills filler) AnyRequest s t v := by
  refine decided_once (fun a => ?_) ?_ (fun _ => trivial) hrun hans
  · split
    · exact calls_pure _
    · exact fillEntries_local _ _
  · intro info reply u hfits hu
    cases reply <;> cases hfits
    next ret =>
    by_cases hne : ret.ret ≠ 0
    · rw [Reply.readdir?, Option.getD_some, if_pos hne] at hu
      cases hu
      exact ⟨fun _ => rfl, fun hzero => absurd hzero hne⟩
    · rw [Reply.readdir?, Option.getD_some, if_neg hne] at hu
      exact ⟨fun h => absurd h hne, fun _ hfill => fillEntries_fills hfill _ hu⟩

/-! ### After other exchanges -/

/-- The exchanges of two runs in a row. -/
theorem newExchanges_append {u : Station Observed} (h : ∃ l, u.log = s.log ++ l)
    (h' : ∃ l, t.log = u.log ++ l) : newExchanges s t = newExchanges s u ++ newExchanges u t := by
  obtain ⟨l, hl⟩ := h
  obtain ⟨l', hl'⟩ := h'
  rw [newExchanges_eq hl, newExchanges_eq hl', newExchanges_eq (l := l ++ l')]
  rw [hl', hl, List.append_assoc]

/-- What is decided stays so after exchanges in which no decisive call has failed. -/
theorem Decided.after {filled : Prop} {P Q : Request → Prop} {u : Station Observed}
    (h : Decided around filled P u t v) (hlog : ∃ l, u.log = s.log ++ l)
    (hlog' : ∃ l, t.log = u.log ++ l)
    (hP : ∀ r, P r → Since (Unhurt r.decisive) s.world u.world ∧ preamble r = pure true ∧ Q r) :
    Decided around filled Q s t v := by
  obtain ⟨x, hx, hPx, hsettled⟩ := h
  obtain ⟨hreply, hserved, hgrown, hunhurt, hreturned, -⟩ := hsettled
  obtain ⟨⟨l, hl, hun⟩, hpre, hQ⟩ := hP x.request hPx
  refine ⟨x, ?_, hQ, .intro hreply hserved ?_ (hun.append hunhurt) hreturned (.inr hpre)⟩
  · have hne : newExchanges u t ≠ [] := by
      intro hnil
      rw [LastExchange, hnil] at hx
      cases hx
    rw [LastExchange, newExchanges_append hlog hlog', List.getLast?_append_of_ne_nil _ hne]
    exact hx
  · rw [hgrown, hl, List.append_assoc]

theorem calls_exitUnless {P : {γ : Type} → Sys γ → Bool} {c : Sys Int} {p : Server α}
    (hc : P c = true) (hexit : P (.exit 1) = true) (hp : p.Calls (Call.Is P)) :
    (do if (← sys c) ≠ 0 then let _ ← sys (.exit 1)
        p : Server α).Calls (Call.Is P) := by
  refine calls_bind (calls_sys hc) fun v => ?_
  split
  · exact calls_bind (calls_sys hexit) fun _ => hp
  · exact hp

/-- Initialising the root looks up no attributes. -/
theorem idle_initRootdir (stale : Stale) (argp : InitArg) {peer : Peer} {s t : Observed}
    {reply : Reply}
    (h : (compute6 stale (.initRootdir argp)).run (trying peer) s = .ok (reply, t)) :
    Since (Idle fun n => n = .lstat) s t := by
  have hchmod : (do if (← sys (.chmod dfsRoot 0o777)) ≠ 0 then let _ ← sys (.exit 1)
                    return ⟨0⟩ : Server InitRet).Calls
      (Call.Is fun c => !decide (c.name = .lstat)) := calls_exitUnless rfl rfl (calls_pure _)
  have hcalls : (compute6 stale (.initRootdir argp)).Calls
      (Call.Is fun c => !decide (c.name = .lstat)) := by
    refine calls_map (calls_bind (calls_transmit _ _) fun _ =>
      calls_bind (calls_sys rfl) fun v => ?_)
    split
    · exact calls_exitUnless rfl rfl hchmod
    · exact hchmod
  exact (wp_idle (D := fun n => n = .lstat) hcalls).of_run h

/-- The initialization makes no `lstat` on the server. -/
theorem idle_initializeOnce {m : Mount} {unset : Unset}
    (hrun : (initializeOnce m unset).run (oneServer here around filler).machine s = .ok ((), t))
    (hans : ∀ x ∈ newExchanges s t, x.reply ≠ none) :
    Since (Idle fun n => n = .lstat) s.world t.world := by
  rw [initializeOnce, run_bind, run_net] at hrun
  change (if s.initialized then pure () else initRootdir m unset >>= fun _ => net .setInitialized :
    Operation Unit).run _ s = _ at hrun
  by_cases hinit : s.initialized
  · rw [if_pos hinit] at hrun
    cases hrun
    exact since_refl _
  · rw [if_neg hinit, initRootdir, bind_assoc] at hrun
    have hlocal : ∀ ret : StatusRet, ((do
        if ret.ret < 0 then return (← net (.exit 1)).elim else return () : Operation Unit) >>=
          fun _ => net .setInitialized).Calls Local := by
      intro ret
      refine calls_bind ?_ fun _ => (calls_net _).mpr trivial
      split
      · exact calls_bind ((calls_net _).mpr trivial) fun e => e.elim
      · exact calls_pure _
    rw [callOnce_bind] at hrun
    cases viaStub_exchange (fun _ a => calls_bind (by simp [Local]) fun _ => hlocal a)
      hrun hans with
    | intro hnew hrequest hreply hfits hserved hrest =>
        rw [hrequest] at hserved
        exact idle_initRootdir _ _ hserved

/-- `bb_getattr` is decided by its last call, whether it had to initialize or not. -/
theorem decided_getattr {m : Mount} {unset : Unset} {path : CStr} {filled : Prop}
    (hrun : (bbGetattr m unset path).run (oneServer here around filler).machine s = .ok (v, t))
    (hans : ∀ x ∈ newExchanges s t, x.reply ≠ none) :
    Decided around filled AnyRequest s t v := by
  rw [bbGetattr, run_bind] at hrun
  cases hinit : (initializeOnce m unset).run (oneServer here around filler).machine s with
  | error e =>
      rw [hinit] at hrun
      cases hrun
  | ok r =>
      obtain ⟨⟨⟩, u⟩ := r
      rw [hinit] at hrun
      have hnew := newExchanges_append (log_grows hinit) (log_grows hrun)
      have hidle := idle_initializeOnce hinit fun y hy => hans y (by
        rw [hnew]
        exact List.mem_append_left _ hy)
      have hdecided : Decided around filled (fun r => ∃ arg, r = .getattr arg) u t v := by
        refine decided_once (fun ret => ?_) ?_ (fun _ => ⟨_, rfl⟩) hrun fun y hy => hans y (by
          rw [hnew]
          exact List.mem_append_right _ hy)
        · split
          · exact calls_pure _
          · exact calls_bind ((calls_net _).mpr trivial) fun _ => calls_pure _
        · intro info reply w hfits hw
          cases reply <;> cases hfits
          next ret =>
          by_cases hneg : ret.ret < 0
          · rw [Reply.getattr?, Option.getD_some, if_pos hneg] at hw
            cases hw
            exact (if_pos hneg).symm
          · rw [Reply.getattr?, Option.getD_some, if_neg hneg] at hw
            cases hw
            exact (if_neg hneg).symm
      refine hdecided.after (log_grows hinit) (log_grows hrun) ?_
      rintro r ⟨arg, rfl⟩
      exact ⟨hidle.imp fun _ => Idle.unhurt, rfl, trivial⟩

/-- `bb_statfs` is decided by its one call. -/
theorem decided_statfs {m : Mount} {unset : Unset} {path : CStr} {filled : Prop}
    (hrun : (bbStatfs m unset path).run (oneServer here around filler).machine s = .ok (v, t))
    (hans : ∀ x ∈ newExchanges s t, x.reply ≠ none) : Decided around filled AnyRequest s t v := by
  have hvia : bbStatfs m unset path = viaStub (fun _ => .statfs { path := bbFullpath path })
      Reply.statfs? unset.statfs fun clnt ret =>
        if ret.ret < 0 then finish clnt (-1)
        else net (.setStatv ret.vfs) >>= fun _ => finish clnt 0 := rfl
  rw [hvia] at hrun
  refine decided_viaStub (fun clnt ret => ?_) ?_ (fun _ => trivial) hrun hans
  · split
    · exact finish_local _ _
    · exact calls_bind ((calls_net _).mpr trivial) fun _ => finish_local _ _
  · intro info reply clnt u hfits hu
    cases reply <;> cases hfits
    next ret =>
    by_cases hneg : ret.ret < 0
    · rw [Reply.statfs?, Option.getD_some, if_pos hneg] at hu
      cases hu
      exact (if_pos hneg).symm
    · rw [Reply.statfs?, Option.getD_some, if_neg hneg] at hu
      cases hu
      exact (if_neg hneg).symm

/-! ### Rounds -/

variable {clnt : Clnt} {r : Request} {size : UInt64} {filled : Prop} {P : Request → Prop}

/-- A round whose reply has arrived. -/
theorem round_answered {p : Operation Int}
    (hrun : p.run (oneServer here around filler).machine
      ((oneServer here around filler).called clnt r s) = .ok (v, t))
    (hans : ∀ x ∈ newExchanges s t, x.reply ≠ none) :
    newExchanges s t =
      ⟨clnt.host, r, (oneServer here around filler).answer clnt.host r s.world, s.caller⟩ ::
        newExchanges ((oneServer here around filler).called clnt r s) t ∧
    ∃ reply, (oneServer here around filler).answer clnt.host r s.world = some reply ∧
      (compute6 (around s.world).stale r).run (trying (around s.world).peer) s.world =
        .ok (reply, ((oneServer here around filler).called clnt r s).world) := by
  have hnew := newExchanges_append (s := s) ⟨_, Network.called_log _⟩ (log_grows hrun)
  rw [newExchanges_eq (Network.called_log _), List.singleton_append] at hnew
  obtain ⟨reply, hreply, -, hserved⟩ := oneServer_answer (hans _ (by
    rw [hnew]
    exact List.mem_cons_self))
  exact ⟨hnew, reply, hreply, hserved⟩

/-- The last round. -/
theorem decided_round {reply : Reply}
    (hlog : t.log = ((oneServer here around filler).called clnt r s).log)
    (hworld : t.world = ((oneServer here around filler).called clnt r s).world)
    (hreply : (oneServer here around filler).answer clnt.host r s.world = some reply)
    (hserved : (compute6 (around s.world).stale r).run (trying (around s.world).peer) s.world =
      .ok (reply, ((oneServer here around filler).called clnt r s).world))
    (hP : P r) (hreturned : Returned filled reply.ret v r) : Decided around filled P s t v := by
  refine ⟨⟨clnt.host, r, (oneServer here around filler).answer clnt.host r s.world, s.caller⟩, ?_,
    hP, .intro hreply ?_ (List.append_nil _).symm
    (fun _ hx => nomatch hx) hreturned (.inl rfl)⟩
  · rw [LastExchange, newExchanges_eq (hlog.trans (Network.called_log _)),
      List.getLast?_singleton]
  · rw [hworld]
    exact hserved

/-- What comes of the rounds of a loop: none is made, or the last one decides. -/
def Rounds (around : Observed → Relay) (filled : Prop) (P : Request → Prop) (totalLen : Int)
    (s t : Station Observed) (v : Int) : Prop :=
  t.log = s.log ∧ t.world = s.world ∧ v = totalLen ∨ Decided around filled P s t v

/-- The request of the next round asks for no more than what is left. -/
theorem nextRead_size {totalLen len : Int} {arg : ReadArg} (hsize : size.toNat < 2 ^ 31)
    (h : 0 ≤ totalLen + len) (hlen : totalLen + len ≤ size.toNat) :
    totalLen + len + (nextRead size totalLen arg len).size.toNat ≤ size.toNat := by
  have htotal : toInt (totalLen + len) = totalLen + len := toInt_of_lt h (by omega)
  have hof : (UInt64.ofInt (totalLen + len)).toNat = (totalLen + len).toNat := by
    rw [toNat_ofInt64]
    omega
  have hle : UInt64.ofInt (totalLen + len) ≤ size := by
    rw [UInt64.le_iff_toNat_le]
    omega
  have hleft : ((size - UInt64.ofInt (totalLen + len)).toNat : Int) =
      size.toNat - (totalLen + len) := by
    rw [UInt64.toNat_sub_of_le _ _ hle]
    omega
  unfold nextRead
  dsimp only
  rw [htotal, hleft, toInt_of_lt (by omega) (by omega), toNat_ofInt32]
  split <;> omega

/-- The rounds of a read. -/
theorem rounds_read (hsize : size.toNat < 2 ^ 31) (n : ℕ) {totalLen : Int} {arg : ReadArg}
    {prev : ReadRet} (hpos : 0 ≤ totalLen) (hroom : totalLen + arg.size.toNat ≤ size.toNat)
    (hrun : (readRounds clnt size n totalLen arg prev).run (oneServer here around filler).machine
      s = .ok (v, t)) (hans : ∀ x ∈ newExchanges s t, x.reply ≠ none) :
    Rounds around filled (fun r => ∃ arg, r = .read arg) totalLen s t v := by
  induction n generalizing totalLen arg prev s with
  | zero => cases hrun
  | succ n ih =>
      by_cases hlt : UInt64.ofInt totalLen < size
      · rw [readRounds_succ hlt, stub_run] at hrun
        obtain ⟨hnew, reply, hreply, hserved⟩ := round_answered hrun hans
        obtain ⟨ret, rfl, -⟩ := answer_read hreply
        rw [hreply] at hrun
        change (readReply clnt size n totalLen arg ret).run _ _ = _ at hrun
        rw [readReply_run] at hrun
        refine .inr ?_
        by_cases hret : ret.ret < 0
        · rw [if_pos hret] at hrun
          cases hrun
          exact decided_round rfl rfl hreply hserved ⟨_, rfl⟩
            ⟨fun _ => rfl, fun h => absurd hret (Int.not_lt.mpr h)⟩
        rw [if_neg hret] at hrun
        by_cases hlen : ret.len = 0
        · rw [if_pos hlen] at hrun
          cases hrun
          exact decided_round rfl rfl hreply hserved ⟨_, rfl⟩
            ⟨fun h => absurd h hret, fun _ => hpos⟩
        rw [if_neg hlen] at hrun
        obtain ⟨ret', hret', hsame⟩ := (run_map_eq_ok _).mp hserved
        cases hsame
        obtain ⟨⟨hlen₀, hlen₁⟩, hunhurt⟩ :=
          (sound_read arg _).of_run hret' (Int.not_lt.mp hret)
        have htotal : toInt (totalLen + ret.len) = totalLen + ret.len :=
          toInt_of_lt (by omega) (by omega)
        rw [htotal] at hrun
        rcases ih (by omega) (nextRead_size hsize (by omega) (by omega)) hrun (fun x hx => hans x
          (by rw [hnew]; exact List.mem_cons_of_mem _ hx)) with ⟨hlog, hworld, hv⟩ | hdecided
        · exact decided_round hlog hworld hreply hserved ⟨_, rfl⟩
            ⟨fun h => absurd h hret, fun _ => by omega⟩
        · refine hdecided.after ⟨_, Network.called_log _⟩ (log_grows hrun) ?_
          rintro r ⟨arg', rfl⟩
          exact ⟨hunhurt, rfl, arg', rfl⟩
      · rw [readRounds_done hlt] at hrun
        cases hrun
        exact .inl ⟨rfl, rfl, rfl⟩

/-- The rounds of a write; there is always one. -/
theorem rounds_write (hsize : size.toNat < 2 ^ 31) {offset : Int64} (n : ℕ) {totalLen : Int}
    {arg : WriteArg} {prev : WriteRet}
    (hrun : (writeRounds clnt size offset n totalLen arg prev).run
      (oneServer here around filler).machine s = .ok (v, t))
    (hans : ∀ x ∈ newExchanges s t, x.reply ≠ none) :
    Decided around filled (fun r => ∃ arg, r = .write arg) s t v := by
  induction n generalizing totalLen arg prev s with
  | zero => cases hrun
  | succ n ih =>
      rw [writeRounds_succ, stub_run] at hrun
      obtain ⟨hnew, reply, hreply, hserved⟩ := round_answered hrun hans
      obtain ⟨ret, rfl, -⟩ := answer_write hreply
      rw [hreply] at hrun
      change (writeReply clnt size offset n totalLen arg ret).run _ _ = _ at hrun
      rw [writeReply_run] at hrun
      by_cases hret : ret.ret < 0
      · rw [if_pos hret] at hrun
        cases hrun
        exact decided_round rfl rfl hreply hserved ⟨_, rfl⟩
          ⟨fun _ => rfl, fun h => absurd hret (Int.not_lt.mpr h)⟩
      rw [if_neg hret] at hrun
      by_cases hdone : UInt64.ofInt (toInt (totalLen + ret.len)) = size
      · rw [if_pos hdone] at hrun
        cases hrun
        refine decided_round rfl rfl hreply hserved ⟨_, rfl⟩ ⟨fun h => absurd h hret, fun _ => ?_⟩
        have hlo : -2 ^ 31 ≤ toInt (totalLen + ret.len) := Int32.le_toInt _
        have hmod := toNat_ofInt64 (toInt (totalLen + ret.len))
        rw [hdone] at hmod
        omega
      rw [if_neg hdone] at hrun
      obtain ⟨ret', hret', hsame⟩ := (run_map_eq_ok _).mp hserved
      cases hsame
      obtain ⟨-, hunhurt⟩ := (sound_write arg _).of_run hret' (Int.not_lt.mp hret)
      refine (ih hrun (fun x hx => hans x (by rw [hnew]; exact List.mem_cons_of_mem _ hx))).after
        ⟨_, Network.called_log _⟩ (log_grows hrun) ?_
      rintro r ⟨arg', rfl⟩
      exact ⟨hunhurt, rfl, arg', rfl⟩

/-! ### Operations -/

/-- What FUSE asks for fits the `int` that it gets back. -/
def Fuse.fitsInt : Fuse → Prop
  | .read _ size _ _ | .write _ size _ _ => size.toNat < 2 ^ 31
  | _ => True

/-- The first round asks for no more than the caller. -/
theorem firstRead_size (m : Mount) (size : UInt64) (offset : Int64) (fi : FileInfo) :
    (0 : Int) + (firstRead m size offset fi).size.toNat ≤ size.toNat := by
  rw [firstRead_size_eq]
  omega

/-- Connecting decides nothing. -/
theorem Decided.connected {host : HostName}
    (h : Decided around filled P (s.connected host) t v) :
    Decided around filled AnyRequest s t v := by
  obtain ⟨x, hx, -, hsettled⟩ := h
  obtain ⟨hreply, hserved, hgrown, hunhurt, hreturned, hchecked⟩ := hsettled
  exact ⟨x, hx, trivial, .intro hreply hserved hgrown hunhurt hreturned hchecked⟩

/-- The last exchange decides what an operation returns. -/
theorem operation_decided {n : ℕ} {m : Mount} {unset : Unset} {op : Fuse} (hop : op.fitsInt)
    (hrun : (operation n m unset op).run (oneServer here around filler).machine s = .ok (v, t))
    (hans : ∀ x ∈ newExchanges s t, x.reply ≠ none) (hsent : newExchanges s t ≠ []) :
    Decided around (Fills filler) AnyRequest s t v := by
  have hnone : t.log ≠ s.log := by
    intro hlog
    exact hsent (newExchanges_eq (hlog.trans (List.append_nil _).symm))
  obtain ⟨isDegraded, hc⟩ : ∃ isDegraded,
      (oneServer here around filler).chosen s = some (here, isDegraded) := oneServer_chosen s
  cases op with
  | getattr path => exact decided_getattr hrun hans
  | readlink path size => exact decided_readlink hrun hans
  | link path newpath =>
      exact decided_statusOrMinusOne hrun hans (fun _ => rfl) fun _ _ => rfl
  | chown path uid gid =>
      cases hrun
      exact absurd rfl hnone
  | openFile path fi => exact decided_open hrun hans
  | read path size offset fi =>
      change (bbRead n m unset path size offset fi).run _ s = _ at hrun
      rw [bbRead_run hc] at hrun
      refine Decided.connected ((rounds_read hop n (Int.le_refl 0) (firstRead_size m size offset fi)
        hrun hans).resolve_left fun h => hnone h.1)
  | write path size offset fi =>
      change (bbWrite n m unset path size offset fi).run _ s = _ at hrun
      rw [bbWrite_run hc] at hrun
      exact (rounds_write hop n hrun hans).connected
  | statfs path =>
      change (bbStatfs m unset path).run _ s = _ at hrun
      exact decided_statfs hrun hans
  | release path fi =>
      exact decided_statusOrMinusOne hrun hans (fun _ => rfl) fun _ _ => rfl
  | opendir path fi =>
      change (bbOpendir m unset path fi).run _ s = _ at hrun
      exact decided_opendir hrun hans
  | readdir path fi =>
      change (bbReaddir m unset path fi).run _ s = _ at hrun
      exact decided_readdir hrun hans
  | releasedir path fi =>
      exact decided_statusOrMinusOne hrun hans (fun _ => rfl) fun _ _ => rfl
  | mknod path mode dev => exact decided_statusOf hrun hans (fun _ => rfl) fun _ _ => rfl
  | mkdir path mode => exact decided_statusOf hrun hans (fun _ => rfl) fun _ _ => rfl
  | unlink path => exact decided_statusOf hrun hans (fun _ => rfl) fun _ _ => rfl
  | rmdir path => exact decided_statusOf hrun hans (fun _ => rfl) fun _ _ => rfl
  | symlink path link => exact decided_statusOf hrun hans (fun _ => rfl) fun _ _ => rfl
  | rename path newpath => exact decided_statusOf hrun hans (fun _ => rfl) fun _ _ => rfl
  | chmod path mode => exact decided_statusOf hrun hans (fun _ => rfl) fun _ _ => rfl
  | truncate path newsize => exact decided_statusOf hrun hans (fun _ => rfl) fun _ _ => rfl
  | utime path actime modtime => exact decided_statusOf hrun hans (fun _ => rfl) fun _ _ => rfl
  | access path mask => exact decided_statusOf hrun hans (fun _ => rfl) fun _ _ => rfl

/-- The server's trials since the station `s`. -/
def trialsSince (s t : Station Observed) : List Trial := t.world.2.drop s.world.2.length

/-- The errors of the exchange `x`, by which the value of an operation was decided, travel. -/
def ErrorsTravel (around : Observed → Relay) (filler : List CStr → CStr → Int)
    (s t : Station Observed) (v : Int) (x : Exchange) : Prop :=
  ∃ reply, x.reply = some reply ∧
    Travels x.request (Denies (around s.world).peer x.request s.world) (Fills filler)
      (trialsSince s t) reply.ret v

/-- **When errors travel.**  The last exchange of an operation carries the error number of the
decisive call, a refusal and success to the client exactly when it delivers them. -/
theorem travels_iff (here : HostName) (n : ℕ) (m : Mount) (unset : Unset) (op : Fuse)
    (hop : op.fitsInt)
    (hrun : (operation n m unset op).run (oneServer here around filler).machine s = .ok (v, t))
    (hans : ∀ x ∈ newExchanges s t, x.reply ≠ none)
    (hlast : (newExchanges s t).getLast? = some x) : ErrorsTravel around filler s t v x ↔
      Delivers x.request (Denies (around s.world).peer x.request s.world) (trialsSince s t) := by
  have hsent : newExchanges s t ≠ [] := by
    intro hnil
    rw [hnil] at hlast
    cases hlast
  obtain ⟨y, hy, -, hsettled⟩ := operation_decided hop hrun hans hsent
  obtain rfl : y = x := Option.some.inj (hy.symm.trans hlast)
  obtain @⟨w, l₀, reply, hreply, hserved, hgrown, hunhurt, hreturned, hchecked⟩ := hsettled
  have hdenies : Denies (around w).peer y.request w ↔
      Denies (around s.world).peer y.request s.world := by
    rcases hchecked with rfl | hpre
    · rfl
    · simp only [Denies, hpre]
      exact iff_of_false (by rintro ⟨u, hu⟩; cases hu) (by rintro ⟨u, hu⟩; cases hu)
  obtain ⟨l, hl, hrep⟩ := serve_reported _ _ hserved
  have htrials : trialsSince s t = l₀ ++ l := by
    rw [trialsSince, hl, hgrown, List.append_assoc, List.drop_left]
  have hiff := travels_iff_delivers hreturned hrep hunhurt fun hexact =>
    serve_exact _ hexact hserved
  rw [hdenies, ← htrials] at hiff
  rw [← hiff]
  constructor
  · rintro ⟨reply', hreply', h⟩
    obtain rfl : reply = reply' := Option.some.inj (hreply.symm.trans hreply')
    exact h
  · intro h
    exact ⟨reply, hreply, h⟩

end

/-- A client of one server on the host `h`. -/
def Station.observing (h : Host) : Station Observed := ⟨((h, []), []), .blank, true, [], 0, []⟩

/-- What a server meets that has no other server. -/
def lonely : Observed → Relay := fun _ => ⟨.zero, .absent⟩

/-- A mkdir over a dangling link, whose error number does not arrive. -/
theorem travels_iff_mkdir : ∃ t x,
    (operation 0 ⟨"1".toList, []⟩ .zero (.mkdir "/l".toList 0o755)).run
      (oneServer .host1 lonely fun _ _ => 0).machine (.observing (.start danglingLink)) =
        .ok (-1, t) ∧
    (ErrorsTravel lonely (fun _ _ => 0) (.observing (.start danglingLink)) t (-1) x ↔
      Delivers x.request (Denies .absent x.request ((.start danglingLink, []), []))
        (trialsSince (.observing (.start danglingLink)) t)) :=
  ⟨_, _, rfl, travels_iff .host1 0 ⟨"1".toList, []⟩ .zero (.mkdir "/l".toList 0o755) trivial rfl
    (List.forall_mem_singleton.mpr (by nofun)) rfl⟩

/-- A directory cannot be made because its name exists; neither the reply nor the operation says
`-EEXIST`. -/
theorem mkdir_error_lost : ¬ ∀ (here : HostName) (around : Observed → Relay)
    (filler : List CStr → CStr → Int) (n : ℕ) (m : Mount) (unset : Unset) (op : Fuse),
    op.fitsInt → ∀ (s t : Station Observed) (v : Int) (x : Exchange),
    (operation n m unset op).run (oneServer here around filler).machine s = .ok (v, t) →
    (∀ x ∈ newExchanges s t, x.reply ≠ none) → (newExchanges s t).getLast? = some x →
    ErrorsTravel around filler s t v x := by
  intro h
  obtain ⟨reply, hreply, htravels⟩ := h .host1 lonely (fun _ _ => 0) 0 ⟨"1".toList, []⟩ .zero
    (.mkdir "/l".toList 0o755) trivial (.observing (.start danglingLink)) _ (-1) _ rfl
    (List.forall_mem_singleton.mpr (by nofun)) rfl
  have hfailed := htravels.failure EEXIST (by decide)
    ⟨⟨.mkdir, danglingLink, some EEXIST⟩, List.mem_of_getElem? (i := 2) rfl, rfl, rfl⟩
  exact absurd hfailed.2 (by decide)

end Client

end DFS
