import NetworkFileSystem.Client.Errors
import NetworkFileSystem.Posix.Outstanding
import NetworkFileSystem.Service.Refinement

/-!
# Making and reading a symbolic link (`bb_symlink`, `bb_readlink`)

A client talks to one server.  After it has made a link without a disturbance, reading the link
yields its target, cut to the buffer, unless the size of the buffer is one that the `int` of the
system call misrepresents (**`links_iff`**).

When the server cannot read a link, the reply carries the error number and a length that nobody
has set.  The client looks for the status `-1` only, and at any other writes a NUL at that length.
-/

namespace DFS

open Effects Posix Prog

/-! ## The link on the server -/

section

variable {fs : FS} {arg : SymlinkArg}

/-- An outcome without an error has passed its checks. -/
theorem check_passed {b : Bool} {rest : Outcome} (h : 0 ≤ (check fs b (-EACCES) rest).ret) :
    check fs b (-EACCES) rest = rest := by
  unfold check at h ⊢
  split at h
  · next hb => exact if_pos hb
  · exact absurd h (show ¬ (0 : Int) ≤ -EACCES by decide)

/-- The calls of an outcome without an error have succeeded. -/
theorem attempt_passed {r : Except Errno FS} {rest : FS → Outcome}
    (h : 0 ≤ (attempt fs r rest).ret) : ∃ fs', r = .ok fs' ∧ attempt fs r rest = rest fs' := by
  cases r with
  | ok fs' => exact ⟨fs', rfl, rfl⟩
  | error e => exact absurd h (show ¬ (0 : Int) ≤ -1 by decide)

/-- A link that was made holds its target. -/
theorem symlinkOp_reads (h : 0 ≤ (symlinkOp fs arg).ret) : ∃ i,
    (symlinkOp fs arg).fs.lresolve (translateAbspath arg.link) = .ok i ∧
    (symlinkOp fs arg).fs.linkTarget i = some arg.path ∧ getname arg.path = .ok () := by
  have hop : symlinkOp fs arg = _ := check_passed h
  rw [hop] at h ⊢
  obtain ⟨fs₁, hmade, hrest⟩ := attempt_passed h
  rw [hrest] at h ⊢
  obtain ⟨fs₂, howner, hlast⟩ := attempt_passed h
  rw [hlast]
  obtain ⟨hname, d, x, parent, hv, hd, rfl⟩ := FS.symlink_eq_ok.mp hmade
  obtain ⟨i, hi, rfl⟩ := FS.lchown_eq_ok.mp howner
  obtain rfl : fs.next = i := Except.ok.inj ((FS.lresolve_created hv).symm.trans hi)
  -- Giving the link to its owner changes neither names nor targets.
  have hsame := @FS.sameNames_modify (fs.created d x id (parent.born (.symlink arg.path) 0o777))
    fs.next (Inode.setOwner (atoi arg.ip).toUInt32 (atoi arg.ip).toUInt32) fun n _ => .inl rfl
  refine ⟨fs.next, (hsame.lresolve_eq _).trans hi, (hsame.link_eq _).trans ?_, hname⟩
  exact FS.linkTarget_eq_some.mpr ⟨_, FS.created_node (Option.isSome_of_eq_some hd), rfl⟩

/-- What the handler answers, by what its call yields. -/
def readlinkResult (result : ReadlinkRet) (e : Errno) : Option CStr → ReadlinkRet
  | none => { result with ret := -(e : Int) }
  | some target => {
      buffer := (target ++ List.replicate maxSize '\x00').take maxSize
      len := target.length
      ret := 0 }

/-- The size that the system call gets for one of the message. -/
def callSize (size : UInt32) : Int := size.toInt32.toInt

/-- `errno` can always be read. -/
theorem attempt_errno (fault : Option Fault) (os : OS) :
    OS.attempt fault .errno os = .ok (os.errno, os) := by
  unfold OS.attempt
  split <;> rfl

/-- `readlink` returns whatever the disturbance. -/
theorem attempt_readlink (fault : Option Fault) (p : CStr) (n : Int) (os : OS) :
    ∃ r, OS.attempt fault (.readlink p n) os = .ok r := by
  unfold OS.attempt
  split <;> exact ⟨_, rfl⟩

/-- One call, and the error number when it has failed. -/
theorem readlink_served {argp : ReadlinkArg} {peer : Peer} {w : Observed} {b : Option CStr}
    {os' : OS} (stale : Stale) (hb : OS.attempt w.1.2.head?.join
      (.readlink (translateAbspath argp.path) (callSize argp.size)) w.1.1.os = .ok (b, os')) :
    ∃ w' l, (compute6 stale (.readlink argp)).run (trying peer) w =
        .ok (.readlink (readlinkResult stale.readlink os'.errno b), w') ∧
      w'.2 = w.2 ++ ⟨.readlink, treeOf w, if b.isNone then some os'.errno else none⟩ :: l ∧
      ∀ x ∈ l, x.call ≠ .readlink := by
  have hwp : (bbReadlink6Svc argp stale.readlink).wp (trying peer) (fun r w' =>
      r = readlinkResult stale.readlink os'.errno b ∧ ∃ l,
        w'.2 = w.2 ++ ⟨.readlink, treeOf w, if b.isNone then some os'.errno else none⟩ :: l ∧
        ∀ x ∈ l, x.call ≠ .readlink) (fun _ => False) w := by
    have hb' : OS.attempt w.1.2.head?.join
      (.readlink (translateAbspath argp.path) argp.size.toInt32.toInt) w.1.1.os = .ok (b, os') := hb
    unfold bbReadlink6Svc negErrno
    dsimp only
    rw [wp_bind, wp_try, hb']
    cases b with
    | some target => exact ⟨rfl, [], rfl, fun _ hx => nomatch hx⟩
    | none =>
        dsimp only
        rw [wp_bind, wp_bind, wp_try, attempt_errno]
        refine ⟨rfl, [_], List.append_assoc _ _ _, ?_⟩
        intro x hx
        rw [List.mem_singleton.mp hx]
        exact SysName.noConfusion
  obtain ⟨r, w', hrun, rfl, l, hl⟩ := hwp.returns
  exact ⟨w', l, (run_map_eq_ok _).mpr ⟨_, hrun, rfl⟩, hl⟩

end

namespace Client

/-! ## The buffer of the caller -/

/-- The calls on a buffer of `size` characters that write inside it. -/
def Net.Inside (size : UInt64) : {β : Type} → Net β → Prop
  | _, .strncpy _ n => n ≤ size
  | _, .terminate pos => 0 ≤ pos ∧ pos < size.toNat
  | _, _ => True

/-- The buffer holds the string `s` and a NUL behind it. -/
structure Caller.HoldsString (c : Caller) (s : CStr) : Prop where
  chars : ∀ k (hk : k < s.length), c.link k = s[k]
  nul : c.link s.length = '\x00'

section

variable {σ α : Type} {w : Network σ} {s t u : Station σ} {m : Mount} {unset : Unset} {path : CStr}
  {size : UInt64} {host : HostName} {isDegraded : Int} {ret : ReadlinkRet}

/-- The station after one procedure was called. -/
abbrev afterCall (w : Network σ) (host : HostName) (r : Request) (s : Station σ) : Station σ :=
  (w.called ⟨s.made, host⟩ r (s.connected host)).dropped ⟨s.made, host⟩

/-- An operation with one call returns once a host is chosen. -/
theorem callOnce_returns {r : Identity → Request} (decode : Reply → Option α) (ret : α)
    (hc : w.chosen s = some (host, isDegraded)) : (callOnce r decode ret).run w.machine s =
      .ok (((w.answer host (r (getIdentity isDegraded)) s.world).bind decode).getD ret,
        afterCall w host (r (getIdentity isDegraded)) s) := connected_run hc

/-- A call touches no buffer of the caller. -/
theorem callOnce_inside (r : Identity → Request) (decode : Reply → Option α) (ret : α) :
    (callOnce r decode ret).Calls (Net.Inside size) := by
  have hnet : ∀ {β : Type} {c : Net β}, c.Inside size → (net c).Calls (Net.Inside size) :=
    fun hc => (calls_net _).mpr hc
  unfold callOnce connectServer stub
  refine calls_bind (calls_bind (hnet trivial) fun clnt => ?_) fun c => ?_
  · cases clnt with
    | some clnt => exact calls_pure _
    | none =>
        refine calls_bind (hnet trivial) fun clnt => ?_
        cases clnt with
        | some clnt => exact calls_pure _
        | none => exact calls_bind (hnet trivial) fun e => e.elim
  · exact calls_bind (calls_bind (hnet trivial) fun _ => calls_pure _) fun _ =>
      calls_bind (hnet trivial) fun _ => calls_pure _

/-- The request of `bb_readlink`. -/
abbrev readlinkArg (m : Mount) (path : CStr) (size : UInt64) : ReadlinkArg where
  ip := m.ip
  path := path
  size := (size - 1).toUInt32

/-- **Reading a link** ends with one look at the status: at any but `-1` the length of the reply is
where the NUL goes. -/
theorem bbReadlink_run (unset : Unset) (hc : w.chosen s = some (host, isDegraded))
    (hans : w.answer host (.readlink (readlinkArg m path size)) s.world = some (.readlink ret)) :
    ∃ u, (bbReadlink m unset path size).run w.machine s =
        .ok (if ret.ret = -1 then -1 else 0, u) ∧
      u.caller = (if ret.ret = -1 then s.caller.strncpy ret.buffer size
        else (s.caller.strncpy ret.buffer size).terminate ret.len) ∧
      u.world = (w.call host (.readlink (readlinkArg m path size)) s.world).2 ∧
      ((bbReadlink m unset path size).Each w.machine (fun c _ => c.Inside size) s ↔
        ret.ret = -1 ∨ 0 ≤ ret.len ∧ ret.len < size.toNat) := by
  have hcall := callOnce_returns (r := fun _ => .readlink (readlinkArg m path size))
    Reply.readlink? unset.readlink hc
  rw [hans] at hcall
  have hrun := hcall
  change (callOnce _ _ _).run _ _ = .ok (ret, _) at hrun
  have hcopy : ∀ {v : Station σ}, (net (.strncpy ret.buffer size)).Each w.machine
      (fun c _ => c.Inside size) v := fun {v} => (each_perform _).mpr (UInt64.le_refl size)
  unfold bbReadlink bbFullpath
  dsimp only
  rw [run_bind, hrun, each_bind_of_run (Calls.each (callOnce_inside _ _ _) fun _ _ h => h) hrun,
    each_bind_of_run hcopy rfl]
  by_cases hone : ret.ret = -1
  · rw [if_pos hone, if_pos hone, if_pos hone]
    refine ⟨{ afterCall w host (.readlink (readlinkArg m path size)) s with
      caller := s.caller.strncpy ret.buffer size }, ?_, rfl, rfl, iff_of_true trivial (.inl hone)⟩
    simp only [Except.bind, run_bind, run_net, Network.exec, hone]
    rfl
  · rw [if_neg hone, if_neg hone, if_neg hone, or_iff_right hone]
    refine ⟨{ afterCall w host (.readlink (readlinkArg m path size)) s with
      caller := (s.caller.strncpy ret.buffer size).terminate ret.len }, ?_, rfl, rfl, ?_⟩
    · simp only [Except.bind, run_bind, run_net, Network.exec, if_neg hone]
      rfl
    · rw [each_bind, and_iff_left fun _ _ _ => each_pure _]
      exact each_perform _

end

/-! ## One server -/

section

variable {here : HostName} {around : Observed → Relay} {filler : List CStr → CStr → Int}
  {s t u : Station Observed} {m : Mount} {unset : Unset} {path target link : CStr} {size : UInt64}
  {v : Int} {e : Errno} {b : Option CStr} {os' : OS}

/-- The server's `readlink` failed with `e` in the run from `s` to `t`. -/
def ReadlinkFails (e : Errno) (s t : Station Observed) : Prop :=
  ∃ l, t.world.2 = s.world.2 ++ l ∧ ∃ x ∈ l, x.call = .readlink ∧ x.failed = some e

/-- What a client makes of the outcome of the server's call. -/
theorem bbReadlink_served (here : HostName) (around : Observed → Relay)
    (filler : List CStr → CStr → Int) (m : Mount) (unset : Unset)
    (hb : OS.attempt s.world.1.2.head?.join (.readlink
      (translateAbspath path) (callSize (size - 1).toUInt32)) s.world.1.1.os = .ok (b, os')) :
    ∃ ret u, ret = readlinkResult (around s.world).stale.readlink os'.errno b ∧
      (bbReadlink m unset path size).run (oneServer here around filler).machine s =
        .ok (if ret.ret = -1 then -1 else 0, u) ∧
      u.caller = (if ret.ret = -1 then s.caller.strncpy ret.buffer size
        else (s.caller.strncpy ret.buffer size).terminate ret.len) ∧
      (∃ l, u.world.2 = s.world.2 ++
        ⟨.readlink, treeOf s.world, if b.isNone then some os'.errno else none⟩ :: l ∧
        ∀ x ∈ l, x.call ≠ .readlink) ∧
      ((bbReadlink m unset path size).Each (oneServer here around filler).machine
        (fun c _ => c.Inside size) s ↔ ret.ret = -1 ∨ 0 ≤ ret.len ∧ ret.len < size.toNat) := by
  obtain ⟨isDegraded, hc⟩ : ∃ isDegraded, (oneServer here around filler).chosen s =
    some (here, isDegraded) := oneServer_chosen s
  obtain ⟨w', l, hserved, hnotes, hl⟩ := @readlink_served (readlinkArg m path size)
    (around s.world).peer _ _ _ (around s.world).stale hb
  have hcall : (oneServer here around filler).call here (.readlink (readlinkArg m path size))
      s.world = (some (.readlink (readlinkResult (around s.world).stale.readlink os'.errno b)),
        w') := by
    simp only [oneServer, hserved]
  have hans : (oneServer here around filler).answer here (.readlink (readlinkArg m path size))
      s.world = some (.readlink (readlinkResult (around s.world).stale.readlink os'.errno b)) := by
    rw [Network.answer, hcall]
    rfl
  obtain ⟨u, hrun, hcaller, hworld, hinside⟩ := bbReadlink_run unset hc hans
  refine ⟨_, u, rfl, hrun, hcaller, ⟨l, ?_, hl⟩, hinside⟩
  rw [hworld, hcall]
  exact hnotes

/-- **A link that cannot be read.**  The operation says so, and stays inside the buffer, exactly
when the error number is the one that the status `-1` stands for. -/
theorem readlink_fails_iff
    (hrun : (bbReadlink m unset path size).run (oneServer here around filler).machine s =
      .ok (v, t)) (hfail : ReadlinkFails e s t) :
    (v < 0 ∧ (bbReadlink m unset path size).Each (oneServer here around filler).machine
      (fun c _ => c.Inside size) s) ↔ e = 1 := by
  obtain ⟨⟨b, os'⟩, hb⟩ := attempt_readlink s.world.1.2.head?.join (translateAbspath path)
    (callSize (size - 1).toUInt32) s.world.1.1.os
  obtain ⟨ret, u, hret, hrun', -, ⟨l, hnotes, hl⟩, hinside⟩ := bbReadlink_served here
    around filler m unset hb
  obtain ⟨rfl, rfl⟩ := Prod.mk.inj (Except.ok.inj (hrun.symm.trans hrun'))
  -- The only call of that name is the one that is noted first.
  obtain ⟨l', hl', x, hx, hname, hfailed⟩ := hfail
  rw [hnotes] at hl'
  obtain rfl := List.append_cancel_left hl'
  have hret' : ret.ret = -(e : Int) := by
    rcases List.mem_cons.mp hx with rfl | hx
    · cases b with
      | some target => cases hfailed
      | none =>
          rw [hret, ← Option.some.inj hfailed]
          rfl
    · exact absurd hname (hl x hx)
  rw [hinside, hret']
  constructor
  · rintro ⟨hneg, -⟩
    split at hneg
    · next hone => exact Int.ofNat.inj (Int.neg_inj.mp hone)
    · exact absurd hneg (by decide)
  · rintro rfl
    exact ⟨by decide, .inl rfl⟩

/-! ### After the link was made -/

/-- What a client has made without a disturbance is there. -/
theorem bbSymlink_made (hquiet : s.world.1.2 = [])
    (hrun : (bbSymlink m unset target link).run (oneServer here around filler).machine s =
      .ok (v, u)) (hans : ∀ x ∈ newExchanges s u, x.reply ≠ none) (hv : 0 ≤ v) :
    u.world.1.2 = [] ∧ ∃ i, (treeOf u.world).lresolve (translateAbspath link) = .ok i ∧
      (treeOf u.world).linkTarget i = some target ∧ getname target = .ok () := by
  unfold bbSymlink statusOf at hrun
  rw [callOnce_bind] at hrun
  cases viaStub_exchange (fun _ _ => calls_bind (by simp [Local]) fun _ => calls_pure _)
    hrun hans with
  | @intro x reply isDegraded hnew hrequest hreply hfits hserved hrest =>
      obtain ⟨clnt, t, ht⟩ := hrest
      have hplain : Plain x.request := by
        rw [hrequest]
        rfl
      obtain ⟨a, rfl⟩ := plain_reply hplain hfits
      obtain rfl : a.ret = v := congrArg Prod.fst (Except.ok.inj ht)
      have hworld : s.world = ((s.world.1.1, []), s.world.2) := by rw [← hquiet]
      rw [hworld, hrequest] at hserved
      obtain ⟨hserver, hnone⟩ := run_of_trying_nil hserved
      obtain ⟨hret, htree, -⟩ := compute6_treeOp (o := symlinkOp (treeOf s.world) _) rfl hserver
      rw [show a.ret = _ from hret] at hv
      obtain ⟨i, hi, hlink, hname⟩ := symlinkOp_reads hv
      refine ⟨hnone, i, ?_, ?_, hname⟩
      · rw [treeOf, htree]
        exact hi
      · rw [treeOf, htree]
        exact hlink

/-- The operation returns `0` and leaves the target, cut to the buffer, inside it. -/
def ReadsBack (net : Network Observed) (s : Station Observed) (m : Mount) (unset : Unset)
    (link : CStr) (size : UInt64) (target : CStr) : Prop :=
  ∃ t, (bbReadlink m unset link size).run net.machine s = .ok (0, t) ∧
    t.caller.HoldsString (target.take (size.toNat - 1)) ∧
    (bbReadlink m unset link size).Each net.machine (fun c _ => c.Inside size) s

/-- A copy of a padded string, ended where the string ends. -/
theorem holds_copied {c : Caller} {k : CStr} (hnul : '\x00' ∉ k) (hk : k.length < maxSize)
    (hsize : k.length < size.toNat) :
    ((c.strncpy ((k ++ List.replicate maxSize '\x00').take maxSize) size).terminate
      k.length).HoldsString k := by
  have hstr : ((k ++ List.replicate maxSize '\x00').take maxSize).takeWhile (· ≠ '\x00') = k := by
    obtain ⟨n, hn⟩ : ∃ n, maxSize = k.length + (n + 1) := ⟨maxSize - k.length - 1, by omega⟩
    have hall : ∀ c ∈ k, decide (c ≠ '\x00') = true := by
      intro c hc
      simp only [decide_eq_true_eq]
      rintro rfl
      exact hnul hc
    rw [List.take_append, List.take_of_length_le (Nat.le_of_lt hk),
      List.takeWhile_append_of_pos hall, List.take_replicate, Nat.min_eq_left (Nat.sub_le _ _),
      show maxSize - k.length = n + 1 by omega]
    simp [List.replicate_succ]
  constructor
  · intro j hj
    have hne : ¬ (j : Int) = k.length := by omega
    have hin : 0 ≤ (j : Int) ∧ (j : Int) < size.toNat := by omega
    show (if (j : Int) = k.length then '\x00' else
      if 0 ≤ (j : Int) ∧ (j : Int) < size.toNat then _ else c.link j) = k[j]
    rw [if_neg hne, if_pos hin, hstr]
    simp [hj]
  · exact if_pos rfl

/-- Strings in the same place are the same, when neither holds a NUL. -/
theorem HoldsString.unique {c : Caller} {k k' : CStr} (h : c.HoldsString k)
    (h' : c.HoldsString k') (hnul : '\x00' ∉ k) (hnul' : '\x00' ∉ k') : k = k' := by
  have hlen : ∀ {k k' : CStr}, c.HoldsString k → c.HoldsString k' → '\x00' ∉ k →
      ¬ k'.length < k.length := by
    intro k k' hk hk' hnul hlt
    have hchar := hk.chars _ hlt
    rw [hk'.nul] at hchar
    exact hnul (hchar ▸ List.getElem_mem hlt)
  have heq : k.length = k'.length :=
    Nat.le_antisymm (Nat.le_of_not_lt (hlen h h' hnul)) (Nat.le_of_not_lt (hlen h' h hnul'))
  refine List.ext_getElem heq fun j hj hj' => ?_
  rw [← h.chars j hj, ← h'.chars j hj']

/-- What the system call gets, by the size of the buffer. -/
theorem callSize_eq (hsize : 2 ≤ size.toNat) : callSize (size - 1).toUInt32 =
    if (size.toNat - 1) % 2 ^ 32 < 2 ^ 31 then (((size.toNat - 1) % 2 ^ 32 : ℕ) : Int)
    else (((size.toNat - 1) % 2 ^ 32 : ℕ) : Int) - 2 ^ 32 := by
  have hone : (size - 1).toNat = size.toNat - 1 :=
    UInt64.toNat_sub_of_le _ _ (UInt64.le_iff_toNat_le.mpr (Nat.le_of_succ_le hsize))
  have hword : ((size - 1).toUInt32).toNat = (size.toNat - 1) % 2 ^ 32 := by
    rw [← hone]
    exact UInt64.toNat_toUInt32 _
  show Words.int _ = _
  rw [Words.int_eq, hword]

/-- The outcome of an undisturbed call on a link that is there. -/
theorem readlink_there {i : Ino} (hquiet : s.world.1.2 = [])
    (hi : (treeOf s.world).lresolve (translateAbspath link) = .ok i)
    (hlink : (treeOf s.world).linkTarget i = some target) (n : Int) :
    OS.attempt s.world.1.2.head?.join (.readlink (translateAbspath link) n) s.world.1.1.os =
      .ok (if 0 < n then (some (target.take n.toNat), s.world.1.1.os)
        else (none, s.world.1.1.os.fail EINVAL)) := by
  rw [hquiet]
  change Except.ok (OS.tryGet _ (OS.readlink _ _ n)) = _
  unfold OS.readlink
  by_cases hn : 0 < n
  · rw [if_pos hn, need, if_pos hn, ok_bind, hi, ok_bind, hlink]
    rfl
  · rw [if_neg hn, need, if_neg hn]
    rfl

/-- When the call yields the string `k`, this is what the client finds in its buffer. -/
theorem readsBack_iff_of_read {k : CStr} (hb : OS.attempt s.world.1.2.head?.join (.readlink
      (translateAbspath link) (callSize (size - 1).toUInt32)) s.world.1.1.os = .ok (some k, os'))
    (hk : '\x00' ∉ k) (hlen : k.length < maxSize) (hshort : k.length < size.toNat)
    (hnul : '\x00' ∉ target) :
    ReadsBack (oneServer here around filler) s m unset link size target ↔
      k = target.take (size.toNat - 1) := by
  obtain ⟨ret, u, rfl, hrun, hcaller, -, hinside⟩ := bbReadlink_served here
    around filler m unset hb
  have hu : u.caller.HoldsString k := by
    rw [hcaller]
    exact holds_copied hk hlen hshort
  constructor
  · rintro ⟨t, ht, hstr, -⟩
    obtain rfl := congrArg Prod.snd (Except.ok.inj (hrun.symm.trans ht))
    exact HoldsString.unique hu hstr hk fun hmem => hnul (List.mem_of_mem_take hmem)
  · intro heq
    refine ⟨u, hrun, heq ▸ hu, hinside.mpr (.inr ⟨Int.natCast_nonneg _, ?_⟩)⟩
    exact Int.ofNat_lt.mpr hshort

/-- When the call is refused, the client writes wherever the memory of the server says. -/
theorem not_readsBack_of_refused (hb : OS.attempt s.world.1.2.head?.join (.readlink
      (translateAbspath link) (callSize (size - 1).toUInt32)) s.world.1.1.os =
      .ok (none, s.world.1.1.os.fail EINVAL)) :
    ¬ ∀ around, ReadsBack (oneServer here around filler) s m unset link size target := by
  intro hall
  let around : Observed → Relay := fun _ => ⟨{ Stale.zero with readlink := ⟨[], -1, 0⟩ }, .absent⟩
  obtain ⟨ret, u, rfl, -, -, -, hinside⟩ := bbReadlink_served here
    around filler m unset hb
  obtain ⟨-, -, -, hin⟩ := hall around
  rcases hinside.mp hin with hone | ⟨hstart, -⟩
  · exact absurd hone (show ¬ -((EINVAL : ℕ) : Int) = -1 by decide)
  · exact absurd hstart (show ¬ (0 : Int) ≤ -1 by decide)

/-- **A link that is there** is read back into every buffer up to a size of `2 ^ 31`, and into a
larger one if the size that the system call gets has room for the target. -/
theorem reads_back_iff {i : Ino} (hquiet : s.world.1.2 = [])
    (hi : (treeOf s.world).lresolve (translateAbspath link) = .ok i)
    (hlink : (treeOf s.world).linkTarget i = some target) (hname : getname target = .ok ())
    (hnul : '\x00' ∉ target) (hsize : 2 ≤ size.toNat) :
    (∀ around, ReadsBack (oneServer here around filler) s m unset link size target) ↔
      size.toNat ≤ 2 ^ 31 ∨ (target.length : Int) ≤ callSize (size - 1).toUInt32 := by
  obtain ⟨hne, hlen⟩ := FS.getname_eq_ok.mp hname
  have hpos : 0 < target.length := List.length_pos_iff.mpr hne
  have hcall := callSize_eq hsize
  have hthere := readlink_there hquiet hi hlink (callSize (size - 1).toUInt32)
  have hbound : callSize (size - 1).toUInt32 ≤ (size.toNat - 1 : ℕ) := by
    rw [hcall]
    split <;> omega
  have hsmall : size.toNat ≤ 2 ^ 31 → callSize (size - 1).toUInt32 = (size.toNat - 1 : ℕ) := by
    intro hle
    rw [hcall]
    split <;> omega
  by_cases hn : 0 < callSize (size - 1).toUInt32
  · rw [if_pos hn] at hthere
    have hshort : (target.take (callSize (size - 1).toUInt32).toNat).length < size.toNat := by
      rw [List.length_take]
      omega
    have hreads : ∀ around, ReadsBack (oneServer here around filler) s m unset link size target ↔
        target.take (callSize (size - 1).toUInt32).toNat = target.take (size.toNat - 1) := by
      intro around
      refine readsBack_iff_of_read hthere (fun hmem => hnul (List.mem_of_mem_take hmem)) ?_ hshort
        hnul
      exact lt_of_le_of_lt (List.length_take_le' _ _) hlen
    constructor
    · intro hall
      have heq := (hreads fun _ => ⟨.zero, .absent⟩).mp (hall _)
      have hlens := congrArg List.length heq
      rw [List.length_take, List.length_take] at hlens
      omega
    · intro hroom around
      rw [hreads]
      rcases hroom with hle | hroom
      · rw [hsmall hle, Int.toNat_natCast]
      · rw [List.take_of_length_le (by omega), List.take_of_length_le (by omega)]
  · rw [if_neg hn] at hthere
    exact iff_of_false (not_readsBack_of_refused hthere) (by omega)

/-- **Symbolic links.**  After the client has made a link, it reads the target back, whatever the
memory of the server holds, exactly for the sizes up to `2 ^ 31` and those of which the system call
gets enough.  When the server cannot read a link, the operation says so and stays inside its buffer
exactly for the error number that the status `-1` stands for. -/
theorem links_iff (hquiet : s.world.1.2 = [])
    (hsymlink : (bbSymlink m unset target link).run (oneServer here around filler).machine s =
      .ok (v, u)) (hans : ∀ x ∈ newExchanges s u, x.reply ≠ none) (hv : 0 ≤ v)
    (hnul : '\x00' ∉ target) (hsize : 2 ≤ size.toNat) :
    ((∀ around, ReadsBack (oneServer here around filler) u m unset link size target) ↔
      size.toNat ≤ 2 ^ 31 ∨ (target.length : Int) ≤ callSize (size - 1).toUInt32) ∧
    ∀ (around : Observed → Relay) (path : CStr) (size : UInt64) (s t : Station Observed) (v : Int)
      (e : Errno), (bbReadlink m unset path size).run (oneServer here around filler).machine s =
        .ok (v, t) → ReadlinkFails e s t →
      ((v < 0 ∧ (bbReadlink m unset path size).Each (oneServer here around filler).machine
        (fun c _ => c.Inside size) s) ↔ e = 1) := by
  obtain ⟨hnone, i, hi, hlink, hname⟩ := bbSymlink_made hquiet hsymlink hans hv
  refine ⟨reads_back_iff hnone hi hlink hname hnul hsize, ?_⟩
  intro around path size s t v e hrun hfail
  exact readlink_fails_iff hrun hfail

end

/-- A relative target, read back into the buffer that FUSE passes. -/
theorem links_iff_made : ∃ u,
    (bbSymlink ⟨"1".toList, []⟩ .zero "f/../g".toList "/k".toList).run
      (oneServer .host1 lonely fun _ _ => 0).machine (.observing (.start danglingLink)) =
        .ok (0, u) ∧
    ∀ around, ReadsBack (oneServer .host1 around fun _ _ => 0) u ⟨"1".toList, []⟩ .zero
      "/k".toList 4097 "f/../g".toList := by
  have hrun : ∃ u, (bbSymlink ⟨"1".toList, []⟩ .zero "f/../g".toList "/k".toList).run
      (oneServer .host1 lonely fun _ _ => 0).machine (.observing (.start danglingLink)) =
        .ok (0, u) ∧ ∀ x ∈ newExchanges (.observing (.start danglingLink)) u, x.reply ≠ none :=
    ⟨_, rfl, List.forall_mem_singleton.mpr (by nofun)⟩
  obtain ⟨u, hu, hans⟩ := hrun
  have hsize : 2 ≤ (4097 : UInt64).toNat := by decide
  exact ⟨u, hu, (links_iff rfl hu hans (by decide) (by decide) hsize).1.mpr
    (.inl (by decide))⟩

/-- What a server meets whose memory holds `-1` where the length of a link goes. -/
def littered : Observed → Relay :=
  fun _ => ⟨{ Stale.zero with readlink := ⟨[], -1, 0⟩ }, .absent⟩

/-- There is no such link: the operation reports success and writes in front of its buffer. -/
theorem readlink_missing : ∃ t,
    (bbReadlink ⟨"1".toList, []⟩ .zero "/x".toList 4097).run
      (oneServer .host1 littered fun _ _ => 0).machine (.observing (.start danglingLink)) =
        .ok (0, t) ∧
    ReadlinkFails ENOENT (.observing (.start danglingLink)) t ∧
    ¬ (bbReadlink ⟨"1".toList, []⟩ .zero "/x".toList 4097).Each
      (oneServer .host1 littered fun _ _ => 0).machine (fun c _ => c.Inside 4097)
      (.observing (.start danglingLink)) := by
  have hcall : OS.attempt none (.readlink (translateAbspath "/x".toList)
      (callSize ((4097 : UInt64) - 1).toUInt32)) (OS.start danglingLink) =
      .ok (none, (OS.start danglingLink).fail ENOENT) := rfl
  refine ⟨_, rfl, ⟨_, rfl, ⟨.readlink, danglingLink, some ENOENT⟩,
    List.mem_of_getElem? (i := 0) rfl, rfl, rfl⟩, ?_⟩
  obtain ⟨ret, u, rfl, -, -, -, hinside⟩ := bbReadlink_served .host1 littered
    (fun _ _ => 0) ⟨"1".toList, []⟩ .zero (s := .observing (.start danglingLink)) hcall
  rw [hinside]
  decide

end Client

end DFS
