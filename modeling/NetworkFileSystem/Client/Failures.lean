import NetworkFileSystem.Client.Exchanges

/-!
# What a client does when a call fails (`tweakfs.c`)

A stub that does not return `RPC_SUCCESS` leaves the reply structure as it is.  Every operation
prints a message and then goes on with that structure: what it returns is decided by memory that
nothing has initialised, or, in the later rounds of a loop, by the previous reply.

**`reports_iff`** says, for each operation, for which contents of that memory a lost reply is
reported as a failure over every network.
-/

namespace DFS

open Effects Posix Prog
open Words (toNat_ofInt32 toNat_ofInt64)

namespace Client

/-- The networks whose servers transfer no more bytes than they were asked for. -/
structure Network.Sound {σ : Type} (w : Network σ) : Prop where
  read : ∀ host arg s ret, (w.call host (.read arg) s).1 = some (.read ret) → 0 ≤ ret.ret →
    0 ≤ ret.len ∧ ret.len ≤ arg.size.toNat
  write : ∀ host arg s ret, (w.call host (.write arg) s).1 = some (.write ret) → 0 ≤ ret.ret →
    0 ≤ ret.len ∧ ret.len ≤ arg.size.toNat

/-- When a run from this station loses a reply, the operation returns a negative value, and what
its caller passed in is as it was when the call was made. -/
def ReportsAt {σ : Type} (w : Network σ) (s : Station σ) (p : ℕ → Operation Int) : Prop :=
  (∃ n, (p n).Issues w.machine (Loses w) s) →
    ∃ n v t, (p n).run w.machine s = .ok (v, t) ∧ v < 0 ∧
      ∀ x ∈ t.log.drop s.log.length, x.lost → t.caller = x.before

/-- **A failed call is reported**, over every network. -/
def Reports (p : ℕ → Operation Int) : Prop :=
  ∀ {σ : Type} (w : Network σ), w.Sound → ∀ s : Station σ, ReportsAt w s p

/-- When a lost reply is reported: by the memory that the reply should have gone to. -/
def Guarded (unset : Unset) : Fuse → Prop
  | .getattr _ => unset.getattr.ret < 0
  | .readlink _ size => unset.readlink.ret = -1 ∧ size = 0
  | .openFile _ _ => unset.openFile.ret < 0
  | .read _ size _ _ => size = 0 ∨ size = 1 ∧ unset.read.ret < 0
  | .write _ size _ _ => size = 0 ∧ unset.write.ret < 0
  | .statfs _ => unset.statfs.ret < 0
  | .opendir _ _ => unset.opendir.ret ≠ 0
  | .readdir _ _ => unset.readdir.ret ≠ 0
  | .chown _ _ _ => True
  | _ => unset.status.ret < 0

variable {σ α : Type} {w : Network σ} {s t : Station σ} {r : Identity → Request}
  {decode : Reply → Option α} {ret : α}

/-! ## A network that loses one reply -/

/-- A network that loses the reply of call number `k`.  Before it every read transfers one byte;
after it, and in every write, nothing is transferred. -/
def flaky (k : ℕ) : Network ℕ where
  up _ _ := true
  call _ r n :=
    (if n = k then none else match r with
      | .read arg => some (.read ⟨[], if n < k then min 1 arg.size.toNat else 0, 0⟩)
      | .write _ => some (.write ⟨0, 0⟩)
      | _ => none, n + 1)
  filler _ _ := 0

/-- The answers before the failure are of the right kind. -/
theorem flaky_sound (k : ℕ) : (flaky k).Sound where
  read host arg n ret h _ := by
    by_cases hn : n = k
    · simp [flaky, hn] at h
    · simp only [flaky, hn, if_false, Option.some.injEq, Reply.read.injEq] at h
      subst h
      dsimp only
      split <;> omega
  write host arg n ret h _ := by
    by_cases hn : n = k
    · simp [flaky, hn] at h
    · simp only [flaky, hn, if_false, Option.some.injEq, Reply.write.injEq] at h
      subst h
      exact ⟨Int.le_refl 0, Int.natCast_nonneg _⟩

/-- A mounted client that has sent nothing yet but what the first operation sends. -/
def Station.mounted (c : Caller) : Station ℕ := ⟨0, c, true, [], 0, []⟩

/-- A mounted client finds the primary. -/
theorem mounted_chosen (k : ℕ) (c : Caller) :
    (flaky k).chosen (.mounted c) = some (.host1, IS_NOT_DEGRADED) := rfl

/-- The exchange that was added to a log. -/
theorem mem_new {l : List Exchange} {x y : Exchange} (h : y ∈ (l ++ [x]).drop l.length) :
    y = x := by
  rw [List.drop_left] at h
  exact List.mem_singleton.mp h

/-! ## Operations that call one procedure -/

/-- What `callOnce` does over a network that loses the first reply. -/
theorem callOnce_flaky (hr : (r (getIdentity IS_NOT_DEGRADED)).isInit = false) (c : Caller) :
    (callOnce r decode ret).Issues (flaky 0).machine (Loses (flaky 0)) (.mounted c) ∧
    ∃ x t, (callOnce r decode ret).run (flaky 0).machine (.mounted c) = .ok (ret, t) ∧
      t.log = [x] ∧ x.lost ∧ x.before = c ∧ t.caller = c := by
  cases callOnce_run (w := flaky 0) r decode ret (.mounted c) with
  | exits hchosen => cases hchosen
  | @calls x t isDegraded hchosen hrun hlost hreq hbefore hreply hlog hcaller =>
      have hd : isDegraded = IS_NOT_DEGRADED :=
        (congrArg Prod.snd (Option.some.inj hchosen)).symm
      subst hd
      have hnone : x.reply = none := hreply
      have hx : x.lost := ⟨by rw [hreq]; exact hr, hnone⟩
      rw [hnone] at hrun
      exact ⟨hlost.mpr hx, x, t, hrun, hlog, hx, hbefore, hcaller⟩

/-- A lost reply is reported when the rest of the operation refuses what is in memory. -/
theorem reports_once {k : α → Operation Int} (hlocal : ∀ a, (k a).Calls Local)
    (hk : ∀ {σ : Type} (w : Network σ) (s : Station σ),
      ∃ v, (k ret).run w.machine s = .ok (v, s) ∧ v < 0) :
    Reports fun _ => callOnce r decode ret >>= k := by
  intro σ w _ s hiss
  obtain ⟨n, hiss⟩ := hiss
  rw [issues_bind] at hiss
  have hcall : (callOnce r decode ret).Issues w.machine (Loses w) s := by
    refine hiss.resolve_right ?_
    rintro ⟨a, t, -, h⟩
    exact not_issues_loses (hlocal a) h
  cases callOnce_run (w := w) r decode ret s with
  | exits _ _ hlost => exact absurd hcall hlost
  | @calls x t isDegraded _ hrun hlost _ hbefore _ hlog hcaller =>
      have hx := hlost.mp hcall
      obtain ⟨v, hv, hneg⟩ := hk w t
      refine ⟨0, v, t, ?_, hneg, ?_⟩
      · rw [hx.2] at hrun
        rw [run_bind, hrun]
        exact hv
      · intro y hy _
        rw [hlog] at hy
        rw [mem_new hy, hbefore, hcaller]

/-- What must hold of the rest of an operation that reports a lost reply. -/
theorem of_reports_once {k : α → Operation Int} {c : Caller}
    (h : ReportsAt (flaky 0) (.mounted c) fun _ => callOnce r decode ret >>= k)
    (hr : (r (getIdentity IS_NOT_DEGRADED)).isInit = false) :
    ∃ (x : Exchange) (t t' : Station ℕ) (v : Int), t.caller = c ∧ t.log = [x] ∧
      (k ret).run (flaky 0).machine t = .ok (v, t') ∧ v < 0 ∧
      (x ∈ t'.log → t'.caller = c) := by
  obtain ⟨hiss, x, t, hrun, hlog, hx, hbefore, hcaller⟩ :=
    @callOnce_flaky _ r decode ret hr c
  obtain ⟨n, v, t', hrun', hneg, hkept⟩ := h ⟨0, issues_bind.mpr (.inl hiss)⟩
  rw [run_bind, hrun] at hrun'
  refine ⟨x, t, t', v, hcaller, hlog, hrun', hneg, fun hmem => ?_⟩
  rw [hkept x hmem hx, hbefore]

/-- The operations that return the status they find. -/
theorem reports_statusOf {unset : Unset} (hr : (r (getIdentity IS_NOT_DEGRADED)).isInit = false) :
    (Reports fun _ => statusOf unset r) ↔ unset.status.ret < 0 := by
  constructor
  · intro h
    obtain ⟨x, t, t', v, -, -, hrun, hneg, -⟩ :=
      of_reports_once (h (flaky 0) (flaky_sound 0) (.mounted .blank)) hr
    cases hrun
    exact hneg
  · intro h
    exact reports_once (fun a => calls_pure _) fun w s => ⟨_, rfl, h⟩

/-- The rest of an operation that hands a reply out unless it is bad. -/
def handOut (bad : α → Prop) [DecidablePred bad] (v : α → Int) (rest : α → Operation Int)
    (a : α) : Operation Int :=
  if bad a then return v a else rest a

section HandOut

variable (bad : α → Prop) [DecidablePred bad] (v : α → Int) (rest : α → Operation Int)

/-- Handing out a result sends nothing. -/
theorem handOut_local (hlocal : ∀ a, (rest a).Calls Local) (a : α) :
    (handOut bad v rest a).Calls Local := by
  unfold handOut
  split
  · exact calls_pure _
  · exact hlocal a

/-- What is handed out after a lost reply is not reported. -/
theorem bad_of_reports (h : ReportsAt (flaky 0) (.mounted .blank)
      fun _ => callOnce r decode ret >>= handOut bad v rest)
    (hr : (r (getIdentity IS_NOT_DEGRADED)).isInit = false)
    (hrest : ∀ s : Station ℕ, ∃ t, (rest ret).run (flaky 0).machine s = .ok (0, t)) :
    bad ret := by
  obtain ⟨x, t, t', v', -, -, hrun, hneg, -⟩ := of_reports_once h hr
  by_contra hbad
  rw [handOut, if_neg hbad] at hrun
  obtain ⟨t₀, h₀⟩ := hrest t
  rw [h₀] at hrun
  cases hrun
  exact absurd hneg (by decide)

/-- What is bad is reported. -/
theorem reports_of_bad (hv : ∀ a, bad a → v a < 0) (hlocal : ∀ a, (rest a).Calls Local)
    (hbad : bad ret) : Reports fun _ => callOnce r decode ret >>= handOut bad v rest := by
  refine reports_once (handOut_local bad v rest hlocal) fun w s => ⟨v ret, ?_, hv ret hbad⟩
  rw [handOut, if_pos hbad]
  rfl

/-- An operation that hands out what is in memory unless it is bad reports exactly when it is. -/
theorem reports_handOut (hr : (r (getIdentity IS_NOT_DEGRADED)).isInit = false)
    (hv : ∀ a, bad a → v a < 0) (hlocal : ∀ a, (rest a).Calls Local)
    (hrest : ∀ s : Station ℕ, ∃ t, (rest ret).run (flaky 0).machine s = .ok (0, t)) :
    (Reports fun _ => callOnce r decode ret >>= handOut bad v rest) ↔ bad ret :=
  ⟨fun h => bad_of_reports bad v rest (h (flaky 0) (flaky_sound 0) (.mounted .blank)) hr hrest,
    reports_of_bad bad v rest hv hlocal⟩

end HandOut

/-- The operations that return `-1` for a negative status. -/
theorem reports_statusOrMinusOne {unset : Unset}
    (hr : (r (getIdentity IS_NOT_DEGRADED)).isInit = false) :
    (Reports fun _ => statusOrMinusOne unset r) ↔ unset.status.ret < 0 :=
  reports_handOut (fun a : StatusRet => a.ret < 0) (fun _ => -1)
    (fun _ => pure 0) hr (fun _ _ => by decide) (fun _ => calls_pure _)
    fun s => ⟨s, rfl⟩

/-- `bb_open` reports a lost reply exactly when the result it presets is a failure. -/
theorem reports_open (m : Mount) (unset : Unset) (path : CStr) (fi : FileInfo) :
    (Reports fun _ => bbOpen m unset path fi) ↔ unset.openFile.ret < 0 :=
  reports_handOut (fun a : OpenRet => a.ret < 0) (fun _ => -1)
    (fun a => do net (.setHandle (UInt64.ofInt a.fd)); return 0) rfl
    (fun _ _ => by decide) (fun a => calls_bind (by simp [Local]) fun _ => calls_pure _)
    fun s => ⟨_, rfl⟩

/-- `bb_opendir` reports a lost reply exactly when the result it presets is not 0. -/
theorem reports_opendir (m : Mount) (unset : Unset) (path : CStr) (fi : FileInfo) :
    (Reports fun _ => bbOpendir m unset path fi) ↔ unset.opendir.ret ≠ 0 :=
  reports_handOut (fun a : OpendirRet => a.ret ≠ 0) (fun _ => -1)
    (fun a => do net (.setHandle (UInt64.ofInt a.fd)); return 0) rfl
    (fun _ _ => by decide) (fun a => calls_bind (by simp [Local]) fun _ => calls_pure _)
    fun s => ⟨_, rfl⟩

/-! ## Listing a directory -/

/-- Handing names to `filler` sends nothing. -/
theorem fillEntries_local (n : ℕ) (entries : List Char) : (fillEntries n entries).Calls Local := by
  induction n generalizing entries with
  | zero => exact calls_pure _
  | succ n ih =>
      refine calls_bind (by simp [Local]) fun answer => ?_
      split
      · exact calls_pure _
      · exact ih _

/-- A filler that takes every name. -/
theorem fillEntries_flaky (n : ℕ) (entries : List Char) (s : Station ℕ) :
    ∃ t, (fillEntries n entries).run (flaky 0).machine s = .ok (0, t) := by
  induction n generalizing entries s with
  | zero => exact ⟨s, rfl⟩
  | succ n ih => exact ih _ _

/-- `bb_readdir` reports a lost reply exactly when the result it presets is not 0. -/
theorem reports_readdir (m : Mount) (unset : Unset) (path : CStr) (fi : FileInfo) :
    (Reports fun _ => bbReaddir m unset path fi) ↔ unset.readdir.ret ≠ 0 :=
  reports_handOut (fun a : ReaddirRet => a.ret ≠ 0) (fun _ => -1)
    (fun a => fillEntries a.count.toNat a.entries) rfl (fun _ _ => by decide)
    (fun a => fillEntries_local _ _) fun s => fillEntries_flaky _ _ s

/-! ## Reading a link -/

/-- Nothing is copied into a buffer of no bytes. -/
theorem strncpy_zero (c : Caller) (src : List Char) : c.strncpy src 0 = c := by
  unfold Caller.strncpy
  have hlink : (fun k : Int => if 0 ≤ k ∧ k < ((0 : UInt64).toNat : Int) then
      (src.takeWhile (· ≠ '\x00')).getD k.toNat '\x00' else c.link k) = c.link := by
    funext k
    refine if_neg ?_
    rintro ⟨h0, hk⟩
    exact absurd hk (Int.not_lt.mpr h0)
  rw [hlink]

/-- `bb_readlink` reports a lost reply only with a preset `-1` and a buffer of no bytes. -/
theorem reports_readlink (m : Mount) (unset : Unset) (path : CStr) (size : UInt64) :
    (Reports fun _ => bbReadlink m unset path size) ↔ unset.readlink.ret = -1 ∧ size = 0 := by
  constructor
  · intro h
    -- The first byte of the buffer is one that is not copied there.
    let first := (unset.readlink.buffer.takeWhile (· ≠ '\x00')).getD 0 '\x00'
    let c : Caller := { Caller.blank with link := fun _ => if first = 'a' then 'b' else 'a' }
    obtain ⟨x, t, t', v, hc, hlog, hrun, hneg, hkept⟩ :=
      of_reports_once (h (flaky 0) (flaky_sound 0) (.mounted c)) rfl
    have hret : unset.readlink.ret = -1 := by
      by_contra hne
      simp only [run_bind, run_net, Network.exec, Except.bind, if_neg hne] at hrun
      cases hrun
      exact absurd hneg (by decide)
    refine ⟨hret, ?_⟩
    simp only [run_bind, run_net, Network.exec, Except.bind, if_pos hret] at hrun
    cases hrun
    have hmem : x ∈ t.log := by
      rw [hlog]
      exact List.mem_singleton_self x
    have hsame := congrFun (congrArg Caller.link (hkept hmem)) 0
    by_contra hsize
    have hpos : (0 : Int) ≤ 0 ∧ (0 : Int) < size.toNat := by
      have hne : size.toNat ≠ 0 := fun h0 => hsize (UInt64.toNat_inj.mp h0)
      omega
    have hfirst : first = if first = 'a' then 'b' else 'a' := (if_pos hpos).symm.trans hsame
    split at hfirst
    · next hb => exact absurd (hb.symm.trans hfirst) (by decide)
    · next hb => exact hb hfirst
  · rintro ⟨hret, rfl⟩
    refine reports_once (fun a => calls_bind (by simp [Local]) fun _ => ?_)
      fun w s => ⟨-1, ?_, by decide⟩
    · split
      · exact calls_pure _
      · exact calls_bind (by simp [Local]) fun _ => calls_pure _
    · simp only [run_bind, run_net, Network.exec, Except.bind, strncpy_zero, hret]
      rfl

/-! ## Attributes -/

/-- A part of an operation that loses no reply of the operation's own does not matter. -/
theorem reports_after {p : Operation Unit} {q : ℕ → Operation Int}
    (hp : ∀ {σ : Type} (w : Network σ) (s : Station σ), ¬ p.Issues w.machine (Loses w) s ∧
      ∀ t, p.run w.machine s = .ok ((), t) → ∃ l, t.log = s.log ++ l ∧ ∀ x ∈ l, ¬ x.lost)
    (hq : Reports q) : Reports fun n => p >>= fun _ => q n := by
  intro σ w hw s hiss
  obtain ⟨n, hiss⟩ := hiss
  obtain ⟨hno, hlog⟩ := hp w s
  obtain ⟨⟨⟩, t, hrun, hiss⟩ := (issues_bind.mp hiss).resolve_left hno
  obtain ⟨l, hl, hkept⟩ := hlog t hrun
  obtain ⟨n', v, t', hrun', hneg, hlost⟩ := hq w hw t ⟨n, hiss⟩
  refine ⟨n', v, t', ?_, hneg, fun x hx hxl => ?_⟩
  · rw [run_bind, hrun]
    exact hrun'
  · obtain ⟨l', hl'⟩ := log_grows hrun'
    rw [hl', hl, List.append_assoc, List.drop_left] at hx
    rcases List.mem_append.mp hx with hx | hx
    · exact absurd hxl (hkept x hx)
    · refine hlost x ?_ hxl
      rw [hl', List.drop_left]
      exact hx

/-- What calls no stub but that of `init_rootdir_6`. -/
def Prepares : {γ : Type} → Net γ → Prop
  | _, .clntCall _ r => r.isInit = true
  | _, _ => True

/-- Local steps prepare. -/
theorem prepares_of_local {β : Type} {c : Net β} (hc : Local c) : Prepares c := by
  cases c <;> trivial

/-- The exchange that prepares the root directory is not one of the operation. -/
theorem initializeOnce_prepares (m : Mount) (unset : Unset) :
    (initializeOnce m unset).Calls Prepares := by
  refine calls_bind (by simp [Prepares]) fun b => ?_
  split
  · exact calls_pure _
  · refine calls_bind ?_ fun _ => by simp [Prepares]
    refine calls_bind ?_ fun ret => ?_
    · refine calls_bind (connectServer_local.mono fun _ h => prepares_of_local h) fun conn => ?_
      refine calls_bind ?_ fun _ => calls_bind (by simp [Prepares]) fun _ => calls_pure _
      exact calls_bind ((calls_net _).mpr rfl) fun _ => calls_pure _
    · split
      · exact calls_bind (by simp [Prepares]) fun e => e.elim
      · exact calls_pure _

/-- What prepares loses no reply that matters. -/
theorem prepares_lost {p : Operation Unit} (hp : p.Calls Prepares) (w : Network σ)
    (s : Station σ) : ¬ p.Issues w.machine (Loses w) s ∧
    ∀ t, p.run w.machine s = .ok ((), t) → ∃ l, t.log = s.log ++ l ∧ ∀ x ∈ l, ¬ x.lost := by
  constructor
  · refine not_issues_iff.mpr (hp.each fun c s hc hl => ?_)
    cases c with
    | clntCall clnt r => exact Bool.noConfusion (hl.1.symm.trans hc)
    | _ => exact hl
  · intro t hrun
    refine hp.run_rel (R := fun s t : Station σ => ∃ l, t.log = s.log ++ l ∧ ∀ x ∈ l, ¬ x.lost)
      (fun s => ⟨[], (List.append_nil _).symm, fun x hx => absurd hx List.not_mem_nil⟩) ?_ ?_ hrun
    · rintro s₁ s₂ s₃ ⟨l, hl, hx⟩ ⟨l', hl', hx'⟩
      refine ⟨l ++ l', by rw [hl', hl, List.append_assoc], fun x hmem => ?_⟩
      exact (List.mem_append.mp hmem).elim (hx x) (hx' x)
    · intro γ c hc s b t hstep
      cases c with
      | clntCall clnt r =>
          cases hstep
          refine ⟨[_], rfl, fun x hx hl => ?_⟩
          rw [List.mem_singleton.mp hx] at hl
          exact Bool.noConfusion (hl.1.symm.trans hc)
      | _ =>
          rw [step_machine] at hstep
          exact ⟨[], (exec_log hstep trivial).trans (List.append_nil _).symm,
            fun x hx => absurd hx List.not_mem_nil⟩

/-- `bb_getattr` reports a lost reply exactly when the result it presets is a failure. -/
theorem reports_getattr (m : Mount) (unset : Unset) (path : CStr) :
    (Reports fun _ => bbGetattr m unset path) ↔ unset.getattr.ret < 0 := by
  let rest : GetattrRet → Operation Int := fun a => do net (.setStat (statOf a)); return 0
  let own : Operation Int := callOnce
    (fun _ => .getattr { ip := m.ip, path := bbFullpath path }) Reply.getattr? unset.getattr >>=
    handOut (fun a => a.ret < 0) (fun a => a.ret) rest
  constructor
  · intro h
    -- A client that has been prepared goes straight to its own exchange.
    have hown : ReportsAt (flaky 0) (.mounted .blank) fun _ => own := by
      rintro ⟨n, hiss⟩
      exact h (flaky 0) (flaky_sound 0) (.mounted .blank) ⟨n, .inr ⟨_, rfl, hiss⟩⟩
    exact bad_of_reports (fun a : GetattrRet => a.ret < 0) (fun a => a.ret) rest hown rfl
      fun s => ⟨_, rfl⟩
  · intro hbad
    refine reports_after (prepares_lost (initializeOnce_prepares m unset)) ?_
    exact reports_of_bad (fun a : GetattrRet => a.ret < 0) (fun a => a.ret) rest (fun _ h => h)
      (fun a => calls_bind (by simp [Local]) fun _ => calls_pure _) hbad

/-- `bb_statfs` reports a lost reply exactly when the result it presets is a failure. -/
theorem reports_statfs (m : Mount) (unset : Unset) (path : CStr) :
    (Reports fun _ => bbStatfs m unset path) ↔ unset.statfs.ret < 0 := by
  constructor
  · intro h
    obtain ⟨n, v, t, hrun, hneg, -⟩ := h (flaky 0) (flaky_sound 0) (.mounted .blank)
      ⟨0, .inr ⟨_, rfl, .inl ⟨rfl, rfl⟩⟩⟩
    by_contra hret
    have hzero : (bbStatfs m unset path).run (flaky 0).machine (.mounted .blank) =
        (do
          if unset.statfs.ret < 0 then
            net (.clntDestroy ⟨0, .host1⟩)
            return -1
          else
            net (.setStatv unset.statfs.vfs)
            net (.clntDestroy ⟨0, .host1⟩)
            return 0 : Operation Int).run (flaky 0).machine _ := rfl
    rw [hzero, if_neg hret] at hrun
    cases hrun
    exact absurd hneg (by decide)
  · rintro hret σ w - s ⟨n, hiss⟩
    obtain ⟨host, isDegraded, hc, hiss⟩ := connected_issues.mp hiss
    rcases (stub_issues _ _ _).mp hiss with ⟨-, hnone⟩ | hiss
    · refine ⟨0, -1, ((w.called ⟨s.made, host⟩ (.statfs { path := path })
        (s.connected host)).dropped ⟨s.made, host⟩), ?_, by decide, fun x hx _ => ?_⟩
      · show (bbStatfs m unset path).run w.machine s = _
        rw [bbStatfs, connected_run hc]
        dsimp only
        rw [stub_run, hnone, Option.bind_none, Option.getD_none, if_pos hret]
        rfl
      · rw [mem_new hx]
        rfl
    · refine absurd hiss (not_issues_loses ?_)
      split
      · exact calls_bind (by simp [Local]) fun _ => calls_pure _
      · refine calls_bind (by simp [Local]) fun _ => ?_
        exact calls_bind (by simp [Local]) fun _ => calls_pure _

/-! ## Reading -/

variable {clnt : Clnt} {size : UInt64} {totalLen : Int} {arg : ReadArg} {prev : ReadRet}

/-- When everything has been transferred, nothing is sent. -/
theorem readRounds_idle (n : ℕ) (h : ¬ UInt64.ofInt totalLen < size) :
    (readRounds clnt size n totalLen arg prev).Calls Local := by
  cases n with
  | zero => exact calls_bind (by simp [Local]) fun e => e.elim
  | succ n =>
      rw [readRounds_done h]
      exact finish_local _ _

/-- After the reply to a read of one byte nothing is sent. -/
theorem readReply_idle {ret : ReadRet} (h : 0 ≤ ret.ret → 0 ≤ ret.len ∧ ret.len ≤ 1) (n : ℕ) :
    (readReply clnt 1 n 0 arg ret).Calls Local := by
  unfold readReply
  split
  · exact finish_local _ _
  · next hret =>
    split
    · exact finish_local _ _
    · next hlen =>
      obtain ⟨h0, h1⟩ := h (Int.not_lt.mp hret)
      have hone : ret.len = 1 := by omega
      refine calls_bind (by simp [Local]) fun _ => readRounds_idle n ?_
      rw [hone]
      decide

/-- A read of one byte makes one exchange. -/
theorem reports_readRounds (hw : w.Sound) (hprev : prev.ret < 0) (harg : arg.size = 1)
    (n : ℕ) (h : (readRounds clnt 1 n 0 arg prev).Issues w.machine (Loses w) s) :
    (readRounds clnt 1 n 0 arg prev).run w.machine s =
      .ok (-1, (w.called clnt (.read arg) s).dropped clnt) := by
  cases n with
  | zero => exact absurd h (not_issues_loses (calls_bind (by simp [Local]) fun e => e.elim))
  | succ n =>
      rw [readRounds_succ (by decide)] at h ⊢
      rw [stub_run]
      cases hr : w.answer clnt.host (.read arg) s.world with
      | none =>
          rw [Option.bind_none, Option.getD_none, readReply, if_pos hprev]
          rfl
      | some reply =>
          exfalso
          rcases (stub_issues _ _ _).mp h with ⟨-, hnone⟩ | h
          · cases hr.symm.trans hnone
          obtain ⟨ret, rfl, hcall⟩ := answer_read hr
          rw [hr] at h
          refine not_issues_loses (readReply_idle (fun hret => ?_) n) h
          have hlen := hw.read _ _ _ _ hcall hret
          rw [harg] at hlen
          exact hlen

/-- When the reply is lost and only the memory is left, a read ends with what it finds there. -/
theorem readRounds_settles {k : ℕ} {s t : Station ℕ} (hs : k < s.world) (n : ℕ) {v : Int}
    (h : (readRounds clnt size n totalLen arg prev).run (flaky k).machine s = .ok (v, t)) :
    v = totalLen ∧ t.caller = s.caller := by
  cases n with
  | zero => cases h
  | succ n =>
      by_cases hlt : UInt64.ofInt totalLen < size
      · have hreply : (flaky k).answer clnt.host (.read arg) s.world =
            some (.read ⟨[], 0, 0⟩) := by
          have hne : s.world ≠ k := by omega
          have hle : ¬ s.world < k := by omega
          simp [Network.answer, flaky, hne, hle, Reply.answers]
        rw [readRounds_succ hlt, stub_run, hreply] at h
        cases h
        exact ⟨rfl, rfl⟩
      · rw [readRounds_done hlt] at h
        cases h
        exact ⟨rfl, rfl⟩

/-- What is read after the first reply is lost comes from memory. -/
theorem read_first_lost {m : Mount} {unset : Unset} {path : CStr} {offset : Int64} {fi : FileInfo}
    (hsize : size ≠ 0) (h : Reports fun n => bbRead n m unset path size offset fi) :
    unset.read.ret < 0 := by
  have hpos : UInt64.ofInt 0 < size := UInt64.pos_iff_ne_zero.mpr hsize
  by_contra hret
  -- The first byte of the buffer is not the one that is copied there.
  let byte := (Opaque.ofBytes unset.read.buffer).bytes.getD 0 0
  let c : Caller := { Caller.blank with data := fun _ => byte + 1 }
  have hiss : (bbRead 1 m unset path size offset fi).Issues (flaky 0).machine (Loses (flaky 0))
      (.mounted c) := by
    refine bbRead_issues.mpr ⟨.host1, IS_NOT_DEGRADED, rfl, ?_⟩
    rw [readRounds_succ hpos]
    exact (stub_issues _ _ _).mpr (.inl ⟨rfl, rfl⟩)
  obtain ⟨n, v, t, hrun, hneg, hkept⟩ := h (flaky 0) (flaky_sound 0) (.mounted c) ⟨1, hiss⟩
  replace hrun := (bbRead_run (mounted_chosen _ _)).symm.trans hrun
  cases n with
  | zero => cases hrun
  | succ n =>
      rw [readRounds_succ hpos, stub_run] at hrun
      change (readReply _ size n 0 _ unset.read).run (flaky 0).machine _ = _ at hrun
      rw [readReply_run, if_neg hret] at hrun
      split at hrun
      · cases hrun
        exact absurd hneg (by decide)
      · obtain ⟨l, hl⟩ := log_grows hrun
        obtain ⟨-, hcaller⟩ := readRounds_settles Nat.one_pos n hrun
        have hmem : (⟨.host1, .read (firstRead m size offset fi), none, c⟩ : Exchange) ∈ t.log := by
          rw [hl]
          exact List.mem_append_left _ (List.mem_singleton_self _)
        have hsame := hcaller.symm.trans (hkept _ hmem ⟨rfl, rfl⟩)
        have hbyte : byte = byte + 1 := congrFun (congrArg Caller.data hsame) 0
        exact absurd hbyte (by simp)

/-- The first round of a read over a network that loses the second reply. -/
theorem flaky_first_read (m : Mount) (offset : Int64) (fi : FileInfo) (hsize : size ≠ 0) :
    (flaky 1).answer HostName.host1 (.read (firstRead m size offset fi)) 0 =
      some (.read ⟨[], 1, 0⟩) := by
  have hasked : (1 : Int) ≤ (firstRead m size offset fi).size.toNat := by
    have hne : size.toNat ≠ 0 := fun h => hsize (UInt64.toNat_inj.mp h)
    unfold firstRead
    dsimp only
    split
    · next hle =>
      have hle' : size.toNat ≤ 4096 := UInt64.le_iff_toNat_le.mp hle
      rw [UInt64.toNat_toUInt32, Nat.mod_eq_of_lt (by omega)]
      omega
    · decide
  have hmin : min 1 ((firstRead m size offset fi).size.toNat : Int) = 1 := by omega
  simp [Network.answer, flaky, Reply.answers, hmin]

/-- The second round takes what the first round left. -/
theorem read_second_lost {m : Mount} {unset : Unset} {path : CStr} {offset : Int64}
    {fi : FileInfo} (hsize : 1 < size) :
    ¬ Reports fun n => bbRead n m unset path size offset fi := by
  intro h
  have h0 : UInt64.ofInt 0 < size := UInt64.lt_trans (by decide) hsize
  have hone := flaky_first_read m offset fi (UInt64.pos_iff_ne_zero.mp h0)
  have hiss : (bbRead 2 m unset path size offset fi).Issues (flaky 1).machine (Loses (flaky 1))
      (.mounted .blank) := by
    refine bbRead_issues.mpr ⟨.host1, IS_NOT_DEGRADED, rfl, ?_⟩
    rw [readRounds_succ h0]
    refine (stub_issues _ _ _).mpr (.inr ?_)
    change (readReply _ size 1 0 _ ((Option.bind ((flaky 1).answer HostName.host1 _ 0) _).getD
      _)).Issues _ _ _
    rw [hone]
    refine .inr ⟨_, rfl, ?_⟩
    change (readRounds _ size 1 (toInt (0 + 1)) _ _).Issues _ _ _
    rw [readRounds_succ hsize]
    exact (stub_issues _ _ _).mpr (.inl ⟨rfl, rfl⟩)
  obtain ⟨n, v, t, hrun, hneg, -⟩ := h (flaky 1) (flaky_sound 1) (.mounted .blank) ⟨2, hiss⟩
  replace hrun := (bbRead_run (mounted_chosen _ _)).symm.trans hrun
  cases n with
  | zero => cases hrun
  | succ n =>
      rw [readRounds_succ h0, stub_run] at hrun
      change (readReply _ size n 0 _ ((Option.bind ((flaky 1).answer HostName.host1 _ 0) _).getD
        _)).run (flaky 1).machine _ = _ at hrun
      rw [hone] at hrun
      change (readRounds _ size n (toInt (0 + 1)) _ ⟨[], 1, 0⟩).run (flaky 1).machine _ = _ at hrun
      cases n with
      | zero => cases hrun
      | succ n =>
          rw [readRounds_succ hsize, stub_run] at hrun
          change (readRounds _ size n (toInt (1 + 1)) _ ⟨[], 1, 0⟩).run (flaky 1).machine _ = _
            at hrun
          obtain ⟨rfl, -⟩ := readRounds_settles Nat.one_lt_two n hrun
          exact absurd hneg (by decide)

/-- `bb_read` reports a lost reply only where there is at most one round to lose. -/
theorem reports_read (m : Mount) (unset : Unset) (path : CStr) (size : UInt64) (offset : Int64)
    (fi : FileInfo) : (Reports fun n => bbRead n m unset path size offset fi) ↔
      size = 0 ∨ size = 1 ∧ unset.read.ret < 0 := by
  constructor
  · intro h
    by_cases h0 : size = 0
    · exact .inl h0
    · refine .inr ⟨?_, read_first_lost h0 h⟩
      by_contra h1
      refine read_second_lost ?_ h
      rw [← UInt64.toNat_inj] at h0 h1
      rw [UInt64.lt_iff_toNat_lt]
      have hz : (0 : UInt64).toNat = 0 := rfl
      have ho : (1 : UInt64).toNat = 1 := rfl
      omega
  · rintro (rfl | ⟨rfl, hret⟩)
    · rintro σ w - s ⟨n, hiss⟩
      obtain ⟨host, isDegraded, -, hiss⟩ := bbRead_issues.mp hiss
      exact absurd hiss (not_issues_loses (readRounds_idle n (by decide)))
    · rintro σ w hw s ⟨n, hiss⟩
      obtain ⟨host, isDegraded, hc, hiss⟩ := bbRead_issues.mp hiss
      refine ⟨n, -1, _, (bbRead_run hc).trans (reports_readRounds hw hret rfl n hiss), by decide,
        fun x hx _ => ?_⟩
      rw [mem_new hx]
      rfl

/-! ## Writing -/

section Writing

variable {m : Mount} {unset : Unset} {path : CStr} {offset : Int64} {fi : FileInfo}
  {wprev : WriteRet} {warg : WriteArg}

/-- A sum that the loop takes for zero is not negative. -/
theorem not_neg_of_ofInt_eq_zero {n : Int} (h : UInt64.ofInt (toInt n) = 0) : ¬ toInt n < 0 := by
  intro hneg
  have hlo : -2 ^ 31 ≤ toInt n := Int32.le_toInt _
  have hmod := toNat_ofInt64 (toInt n)
  rw [h] at hmod
  have h0 : (0 : UInt64).toNat = 0 := rfl
  omega

/-- What a loop of `bb_write` finds in memory when no round transfers anything. -/
theorem flaky_write_reply {k n : ℕ} (h : wprev = ⟨0, 0⟩ ∨ k < n) (host : HostName) :
    (((flaky k).answer host (.write warg) n).bind Reply.write?).getD wprev = ⟨0, 0⟩ := by
  by_cases hk : n = k
  · have hprev : wprev = ⟨0, 0⟩ := h.resolve_right (by omega)
    simp [Network.answer, flaky, hk, hprev]
  · simp only [Network.answer, flaky, hk, if_false]
    rfl

/-- While nothing is transferred, the loop of `bb_write` goes on. -/
theorem writeRounds_stuck {k : ℕ} (n : ℕ) {totalLen : Int} {warg : WriteArg} {wprev : WriteRet}
    {s : Station ℕ} (hprev : wprev = ⟨0, 0⟩ ∨ k < s.world) (hint : toInt totalLen = totalLen)
    (hsize : UInt64.ofInt totalLen ≠ size) {v : Int} {t : Station ℕ} :
    (writeRounds clnt size offset n totalLen warg wprev).run (flaky k).machine s ≠
      .ok (v, t) := by
  induction n generalizing totalLen warg wprev s with
  | zero => exact fun h => by cases h
  | succ n ih =>
      have hsum : toInt (totalLen + 0) = totalLen := by rw [Int.add_zero, hint]
      rw [writeRounds_succ, stub_run, flaky_write_reply hprev, writeReply_run,
        if_neg (by decide)]
      dsimp only
      rw [hsum, if_neg hsize]
      exact ih (.inl rfl) hint hsize

/-- A write of some bytes may go on for ever after a reply is lost. -/
theorem write_second_lost (hsize : size ≠ 0) :
    ¬ Reports fun n => bbWrite n m unset path size offset fi := by
  intro h
  have h0 : UInt64.ofInt (toInt (0 + (⟨0, 0⟩ : WriteRet).len)) ≠ size := fun h => hsize h.symm
  have hiss : (bbWrite 2 m unset path size offset fi).Issues (flaky 1).machine (Loses (flaky 1))
      (.mounted .blank) := by
    refine bbWrite_issues.mpr ⟨.host1, IS_NOT_DEGRADED, rfl, ?_⟩
    rw [writeRounds_succ]
    refine (stub_issues _ _ _).mpr (.inr ?_)
    change (writeReply _ size offset 1 0 _ ⟨0, 0⟩).Issues _ _ _
    rw [writeReply, if_neg (by decide), if_neg h0]
    refine .inr ⟨_, rfl, ?_⟩
    exact (stub_issues _ _ _).mpr (.inl ⟨rfl, rfl⟩)
  obtain ⟨n, v, t, hrun, -⟩ := h (flaky 1) (flaky_sound 1) (.mounted .blank) ⟨2, hiss⟩
  replace hrun := (bbWrite_run (mounted_chosen _ _)).symm.trans hrun
  cases n with
  | zero => cases hrun
  | succ n =>
      rw [writeRounds_succ, stub_run] at hrun
      change (writeReply _ size offset n 0 _ ⟨0, 0⟩).run _ _ = _ at hrun
      rw [writeReply_run, if_neg (by decide), if_neg h0] at hrun
      exact writeRounds_stuck n (.inl rfl) rfl h0 hrun

/-- A write of no bytes that loses its reply goes on with what is in memory. -/
theorem write_first_lost (h : Reports fun n => bbWrite n m unset path 0 offset fi) :
    unset.write.ret < 0 := by
  by_contra hret
  have hiss : (bbWrite 1 m unset path 0 offset fi).Issues (flaky 0).machine (Loses (flaky 0))
      (.mounted .blank) :=
    bbWrite_issues.mpr ⟨.host1, IS_NOT_DEGRADED, rfl, (stub_issues _ _ _).mpr (.inl ⟨rfl, rfl⟩)⟩
  obtain ⟨n, v, t, hrun, hneg, -⟩ := h (flaky 0) (flaky_sound 0) (.mounted .blank) ⟨1, hiss⟩
  replace hrun := (bbWrite_run (mounted_chosen _ _)).symm.trans hrun
  have hint : toInt (toInt (0 + unset.write.len)) = toInt (0 + unset.write.len) :=
    congrArg Int32.toInt (Int32.ofInt_toInt _)
  cases n with
  | zero => cases hrun
  | succ n =>
      rw [writeRounds_succ, stub_run] at hrun
      change (writeReply _ 0 offset n 0 _ unset.write).run _ _ = _ at hrun
      rw [writeReply_run, if_neg hret] at hrun
      split at hrun
      · next hzero =>
        cases hrun
        exact absurd hneg (not_neg_of_ofInt_eq_zero hzero)
      · next hne => exact writeRounds_stuck n (.inr Nat.one_pos) hint hne hrun

/-- After the reply to a write of no bytes nothing is sent. -/
theorem writeReply_idle {ret : WriteRet} (h : 0 ≤ ret.ret → ret.len = 0) (n : ℕ) :
    (writeReply clnt 0 offset n 0 warg ret).Calls Local := by
  unfold writeReply
  split
  · exact finish_local _ _
  · next hret =>
    rw [h (Int.not_lt.mp hret), if_pos (by decide)]
    exact calls_pure _

/-- `bb_write` reports a lost reply only where there is one round and the preset result is a
failure. -/
theorem reports_write (m : Mount) (unset : Unset) (path : CStr) (size : UInt64) (offset : Int64)
    (fi : FileInfo) : (Reports fun n => bbWrite n m unset path size offset fi) ↔
      size = 0 ∧ unset.write.ret < 0 := by
  constructor
  · intro h
    have h0 : size = 0 := by
      by_contra h0
      exact write_second_lost h0 h
    subst h0
    exact ⟨rfl, write_first_lost h⟩
  · rintro ⟨rfl, hret⟩ σ w hw s ⟨n, hiss⟩
    obtain ⟨host, isDegraded, hc, hiss⟩ := bbWrite_issues.mp hiss
    cases n with
    | zero => exact absurd hiss (not_issues_loses (calls_bind (by simp [Local]) fun e => e.elim))
    | succ n =>
        rw [writeRounds_succ] at hiss
        let clnt : Clnt := ⟨s.made, host⟩
        let arg := firstWrite m path 0 offset fi isDegraded (s.caller.load 0)
        cases hr : w.answer host (.write arg) s.world with
        | none =>
            have hrun : (bbWrite (n + 1) m unset path 0 offset fi).run w.machine s =
                .ok (-1, (w.called clnt (.write arg) (s.connected host)).dropped clnt) := by
              rw [bbWrite_run hc, writeRounds_succ, stub_run]
              change (writeReply _ 0 offset n 0 _ ((Option.bind (w.answer host (.write arg) s.world)
                _).getD _)).run _ _ = _
              rw [hr, Option.bind_none, Option.getD_none, writeReply_run, if_pos hret]
            refine ⟨n + 1, -1, _, hrun, by decide, fun x hx _ => ?_⟩
            rw [mem_new hx]
            rfl
        | some reply =>
            exfalso
            obtain ⟨ret, rfl, hcall⟩ := answer_write hr
            rcases (stub_issues _ _ _).mp hiss with ⟨-, hnone⟩ | hiss
            · cases hr.symm.trans hnone
            · change (writeReply _ 0 offset n 0 _ ((Option.bind (w.answer host (.write arg)
                s.world) _).getD _)).Issues _ _ _ at hiss
              rw [hr] at hiss
              refine not_issues_loses (writeReply_idle (fun hret => ?_) n) hiss
              have hlen := hw.write _ _ _ _ hcall hret
              exact Int.le_antisymm hlen.2 hlen.1

end Writing

/-! ## All operations -/

/-- **When a failed call is reported.**  Over every network, an operation that loses a reply
returns a negative value and leaves its caller's memory alone exactly when the memory that the
reply should have gone to happens to say so. -/
theorem reports_iff (m : Mount) (unset : Unset) (op : Fuse) :
    (Reports fun n => operation n m unset op) ↔ Guarded unset op := by
  cases op with
  | getattr path => exact reports_getattr m unset path
  | readlink path size => exact reports_readlink m unset path size
  | mknod path mode dev => exact reports_statusOf rfl
  | mkdir path mode => exact reports_statusOf rfl
  | unlink path => exact reports_statusOf rfl
  | rmdir path => exact reports_statusOf rfl
  | symlink path link => exact reports_statusOf rfl
  | rename path newpath => exact reports_statusOf rfl
  | link path newpath => exact reports_statusOrMinusOne rfl
  | chmod path mode => exact reports_statusOf rfl
  | chown path uid gid =>
      refine iff_of_true (fun w _ s hiss => ?_) trivial
      obtain ⟨n, hiss⟩ := hiss
      exact hiss.elim
  | truncate path newsize => exact reports_statusOf rfl
  | utime path actime modtime => exact reports_statusOf rfl
  | openFile path fi => exact reports_open m unset path fi
  | read path size offset fi => exact reports_read m unset path size offset fi
  | write path size offset fi => exact reports_write m unset path size offset fi
  | statfs path => exact reports_statfs m unset path
  | release path fi => exact reports_statusOrMinusOne rfl
  | opendir path fi => exact reports_opendir m unset path fi
  | readdir path fi => exact reports_readdir m unset path fi
  | releasedir path fi => exact reports_statusOrMinusOne rfl
  | access path mask => exact reports_statusOf rfl

/-- A directory is reported as made when the call that should have made it was lost. -/
theorem lost_mkdir_succeeds : ¬ ∀ (m : Mount) (unset : Unset) (op : Fuse),
    Reports fun n => operation n m unset op := by
  intro h
  have hiss : (bbMkdir ⟨[], []⟩ .zero ['/', 'd'] 0o755).Issues (flaky 0).machine (Loses (flaky 0))
      (.mounted .blank) := .inr ⟨_, rfl, .inl ⟨rfl, rfl⟩⟩
  obtain ⟨n, v, t, hrun, hneg, -⟩ := h ⟨[], []⟩ .zero (.mkdir ['/', 'd'] 0o755) (flaky 0)
    (flaky_sound 0) (.mounted .blank) ⟨0, hiss⟩
  cases hrun
  exact absurd hneg (by decide)

end Client

end DFS
