import NetworkFileSystem.Client.Operations
import NetworkFileSystem.Effects.Issues
import NetworkFileSystem.Formats.Words

/-!
# How an operation talks to a server

What a client does between connecting and dropping the handle, as facts about runs over an
arbitrary network: `connectServer` finds one of the hosts or leaves the process, a stub adds one
exchange to the log and nothing to the memory of the caller, and an operation that calls one
procedure makes one exchange (**`callOnce_run`**).
-/

namespace DFS

open Effects Posix Prog

namespace Client

variable {σ α β : Type} {w : Network σ} {s t : Station σ} {clnt : Clnt} {r : Request}

/-! ## Single calls -/

@[simp] theorem run_net (c : Net β) : (net c).run w.machine s = w.exec c s := run_perform _ c s

@[simp] theorem step_machine (c : Net β) : w.machine.step c s = w.exec c s := rfl

@[simp] theorem calls_net {A : {γ : Type} → Net γ → Prop} (c : Net β) :
    (net c).Calls A ↔ A c := calls_perform c

namespace Network

variable (w)

/-- The station after a stub has returned. -/
def called (clnt : Clnt) (r : Request) (s : Station σ) : Station σ :=
  { s with
    world := (w.call clnt.host r s.world).2
    log := s.log ++ [⟨clnt.host, r, w.answer clnt.host r s.world, s.caller⟩] }

@[simp] theorem called_caller : (w.called clnt r s).caller = s.caller := rfl

@[simp] theorem called_log : (w.called clnt r s).log =
    s.log ++ [⟨clnt.host, r, w.answer clnt.host r s.world, s.caller⟩] := rfl

end Network

/-- The station after a handle was made for a host. -/
def Station.connected (s : Station σ) (host : HostName) : Station σ :=
  { s with live := ⟨s.made, host⟩ :: s.live, made := s.made + 1 }

/-- The station after a handle was destroyed. -/
def Station.dropped (s : Station σ) (clnt : Clnt) : Station σ :=
  { s with live := s.live.erase clnt }

@[simp] theorem connected_caller (host : HostName) : (s.connected host).caller = s.caller := rfl

@[simp] theorem connected_log (host : HostName) : (s.connected host).log = s.log := rfl

@[simp] theorem connected_world (host : HostName) : (s.connected host).world = s.world := rfl

@[simp] theorem dropped_caller : (s.dropped clnt).caller = s.caller := rfl

@[simp] theorem dropped_log : (s.dropped clnt).log = s.log := rfl

/-! ## Connecting -/

/-- The host that an operation talks to: the primary when it can be reached. -/
def Network.chosen (w : Network σ) (s : Station σ) : Option (HostName × Int) :=
  if w.up .host1 s.world then some (.host1, IS_NOT_DEGRADED)
  else if w.up .host2 s.world then some (.host2, IS_DEGRADED)
  else none

/-- `CONNECT_SERVER` makes a handle of the host that is chosen, or leaves the process. -/
theorem connectServer_run : connectServer.run w.machine s = match w.chosen s with
    | some (host, isDegraded) => .ok ((⟨s.made, host⟩, isDegraded), s.connected host)
    | none => .error .exit := by
  unfold connectServer Network.chosen
  rw [run_bind, run_net]
  by_cases h1 : w.up .host1 s.world
  · simp [Network.exec, h1, Except.bind, Station.connected]
  · by_cases h2 : w.up .host2 s.world
    · simp [Network.exec, h1, h2, Except.bind, Station.connected, run_bind]
    · simp [Network.exec, h1, h2, Except.bind, run_bind]
      rfl

/-- What is not the call of a stub. -/
def Local : {γ : Type} → Net γ → Prop
  | _, .clntCall _ _ => False
  | _, _ => True

/-- A call of a stub that gets no reply, on which the result of an operation depends. -/
def Loses (w : Network σ) : {γ : Type} → Net γ → Station σ → Prop
  | _, .clntCall clnt r, s => r.isInit = false ∧ w.answer clnt.host r s.world = none
  | _, _, _ => False

/-- A local step loses no reply. -/
theorem not_loses {c : Net β} (hc : Local c) (s : Station σ) : ¬ Loses w c s := by
  cases c <;> simp_all [Local, Loses]

/-- What calls no stub loses no reply. -/
theorem not_issues_loses {p : Operation α} (hp : p.Calls Local) :
    ¬ p.Issues w.machine (Loses w) s :=
  not_issues_iff.mpr (hp.each fun _ s hc => not_loses hc s)

/-- What calls no stub leaves the log alone. -/
theorem exec_log {c : Net β} {b : β} (h : w.exec c s = .ok (b, t)) (hc : Local c) :
    t.log = s.log := by
  cases c with
  | clntCreate host =>
      simp only [Network.exec] at h
      split at h
      · cases h
        rfl
      · cases h
        rfl
  | clntCall clnt r => exact hc.elim
  | exit status => cases h
  | more => cases h
  | fill name =>
      rw [← (Prod.mk.inj (Except.ok.inj h)).2]
      split <;> rfl
  | _ => rw [← (Prod.mk.inj (Except.ok.inj h)).2]

/-- A program of local steps exchanges nothing. -/
theorem log_local {p : Operation α} (hp : p.Calls Local) {a : α}
    (h : p.run w.machine s = .ok (a, t)) : t.log = s.log :=
  hp.run_rel (R := fun s t : Station σ => t.log = s.log) (fun _ => rfl)
    (fun _ _ _ h h' => h'.trans h) (fun _ hc _ _ _ hstep => exec_log hstep hc) h

/-- The log only grows. -/
theorem log_grows {p : Operation α} {a : α} (h : p.run w.machine s = .ok (a, t)) :
    ∃ l, t.log = s.log ++ l := by
  refine (calls_true p).run_rel (R := fun s t : Station σ => ∃ l, t.log = s.log ++ l)
    (fun s => ⟨[], (List.append_nil _).symm⟩) ?_ ?_ h
  · rintro s₁ s₂ s₃ ⟨l, hl⟩ ⟨l', hl'⟩
    exact ⟨l ++ l', by rw [hl', hl, List.append_assoc]⟩
  · intro γ c _ s b t hstep
    cases c with
    | clntCall clnt r =>
        cases hstep
        exact ⟨[_], rfl⟩
    | _ =>
        rw [step_machine] at hstep
        exact ⟨[], (exec_log hstep trivial).trans (List.append_nil _).symm⟩

/-- `CONNECT_SERVER` exchanges nothing. -/
theorem connectServer_local : connectServer.Calls Local := by
  refine calls_bind (by simp [Local]) fun clnt => ?_
  cases clnt with
  | some clnt => exact calls_pure _
  | none =>
      refine calls_bind (by simp [Local]) fun clnt => ?_
      cases clnt with
      | some clnt => exact calls_pure _
      | none => exact calls_bind (by simp [Local]) fun e => e.elim

/-- What an operation does after connecting. -/
theorem connected_run {k : Clnt × Int → Operation β} {host : HostName} {isDegraded : Int}
    (hc : w.chosen s = some (host, isDegraded)) :
    (connectServer >>= k).run w.machine s =
      (k (⟨s.made, host⟩, isDegraded)).run w.machine (s.connected host) := by
  rw [run_bind, connectServer_run, hc]
  rfl

/-- What is lost after `CONNECT_SERVER` is lost by what follows it. -/
theorem connected_issues {k : Clnt × Int → Operation β} :
    (connectServer >>= k).Issues w.machine (Loses w) s ↔ ∃ host isDegraded,
      w.chosen s = some (host, isDegraded) ∧
      (k (⟨s.made, host⟩, isDegraded)).Issues w.machine (Loses w) (s.connected host) := by
  rw [issues_bind, or_iff_right (not_issues_loses connectServer_local), connectServer_run]
  cases hc : w.chosen s with
  | none => simp
  | some c =>
      constructor
      · rintro ⟨a, t, hrun, hk⟩
        cases hrun
        exact ⟨c.1, c.2, rfl, hk⟩
      · rintro ⟨host, isDegraded, h, hk⟩
        cases h
        exact ⟨_, _, rfl, hk⟩

/-! ## One exchange -/

/-- A call goes on with what is decoded from the answer, or with the preset value when there is
none. -/
theorem stub_run (decode : Reply → Option α) (ret : α) (k : α → Operation β) :
    (stub clnt r decode ret >>= k).run w.machine s =
      (k (((w.answer clnt.host r s.world).bind decode).getD ret)).run w.machine
        (w.called clnt r s) := rfl

/-- A call loses its reply when there is no answer, the one of the initialization excepted. -/
theorem stub_issues (decode : Reply → Option α) (ret : α) (k : α → Operation β) :
    (stub clnt r decode ret >>= k).Issues w.machine (Loses w) s ↔
      (r.isInit = false ∧ w.answer clnt.host r s.world = none) ∨
      (k (((w.answer clnt.host r s.world).bind decode).getD ret)).Issues w.machine (Loses w)
        (w.called clnt r s) := by
  constructor
  · rintro (h | ⟨t, ht, h⟩)
    · exact .inl h
    · cases ht
      exact .inr h
  · rintro (h | h)
    · exact .inl h
    · exact .inr ⟨_, rfl, h⟩

/-- The requests that are answered with a status only. -/
def Plain (r : Request) : Prop := Reply.answers (.status ⟨0⟩) r = true

/-- A plain request is answered with a status alone. -/
theorem plain_reply {r : Request} (hr : Plain r) {reply : Reply} (h : reply.answers r = true) :
    ∃ a, reply = .status a := by
  cases reply with
  | status a => exact ⟨a, rfl⟩
  | _ => cases r <;> simp_all [Plain, Reply.answers]

/-- An operation that connects, calls one procedure and goes on. -/
abbrev viaStub (r : Identity → Request) (decode : Reply → Option α) (ret : α)
    (k : Clnt → α → Operation β) : Operation β :=
  connectServer >>= fun c => stub c.1 (r (getIdentity c.2)) decode ret >>= k c.1

/-- `callOnce` is a stub, a `clnt_destroy` and the rest. -/
theorem callOnce_bind (r : Identity → Request) (decode : Reply → Option α) (ret : α)
    (k : α → Operation β) : callOnce r decode ret >>= k =
      viaStub r decode ret fun clnt a => net (.clntDestroy clnt) >>= fun _ => k a := by
  rw [callOnce, bind_assoc]
  rfl

/-- An exchange that got no reply, on which the result of the operation depends. -/
def Exchange.lost (x : Exchange) : Prop := x.request.isInit = false ∧ x.reply = none

/-- What comes of calling one procedure: no host can be reached, or there is one exchange. -/
inductive Once (w : Network σ) (r : Identity → Request) (decode : Reply → Option α) (ret : α)
    (s : Station σ) (p : Operation α) : Prop
  | exits (hchosen : w.chosen s = none) (hrun : p.run w.machine s = .error .exit)
      (hlost : ¬ p.Issues w.machine (Loses w) s)
  | calls {x : Exchange} {t : Station σ} {isDegraded : Int}
      (hchosen : w.chosen s = some (x.host, isDegraded))
      (hrun : p.run w.machine s = .ok ((x.reply.bind decode).getD ret, t))
      (hlost : p.Issues w.machine (Loses w) s ↔ x.lost)
      (hreq : x.request = r (getIdentity isDegraded)) (hbefore : x.before = s.caller)
      (hreply : x.reply = w.answer x.host x.request s.world)
      (hlog : t.log = s.log ++ [x]) (hcaller : t.caller = s.caller)

/-- An operation that calls one procedure makes one exchange. -/
theorem callOnce_run (r : Identity → Request) (decode : Reply → Option α) (ret : α)
    (s : Station σ) : Once w r decode ret s (callOnce r decode ret) := by
  cases hc : w.chosen s with
  | none =>
      refine .exits hc ?_ ?_
      · unfold callOnce
        rw [run_bind, connectServer_run, hc]
        rfl
      · unfold callOnce
        rw [connected_issues]
        rintro ⟨host, isDegraded, h, -⟩
        cases hc.symm.trans h
  | some c =>
      obtain ⟨host, isDegraded⟩ := c
      let req := r (getIdentity isDegraded)
      refine .calls (x := ⟨host, req, w.answer host req s.world, s.caller⟩)
        (t := (w.called ⟨s.made, host⟩ req (s.connected host)).dropped ⟨s.made, host⟩) hc
        (connected_run hc) ?_ rfl rfl rfl rfl rfl
      unfold callOnce
      rw [connected_issues]
      constructor
      · rintro ⟨_, _, h, hk⟩
        cases hc.symm.trans h
        rcases (stub_issues _ _ _).mp hk with hk | hk
        · exact hk
        · exact absurd hk
            (not_issues_loses (calls_bind (by simp [Local]) fun _ => calls_pure _))
      · intro hx
        exact ⟨host, isDegraded, hc, .inl hx⟩

/-! ## The rounds of a loop -/

/-- Drop the handle and return. -/
def finish (clnt : Clnt) (v : Int) : Operation Int := do
  net (.clntDestroy clnt)
  return v

/-- The way out of a loop: the handle is destroyed and the value returned. -/
theorem finish_run (v : Int) : (finish clnt v).run w.machine s = .ok (v, s.dropped clnt) := rfl

/-- The way out of a loop exchanges nothing. -/
theorem finish_local (clnt : Clnt) (v : Int) : (finish clnt v).Calls Local :=
  calls_bind (by simp [Local]) fun _ => calls_pure _

/-- The request of the first round of `bb_read`. -/
def firstRead (m : Mount) (size : UInt64) (offset : Int64) (fi : FileInfo) : ReadArg where
  ip := m.ip
  fd := fi.fd
  size := if size ≤ UInt64.ofNat maxSize then size.toUInt32 else UInt32.ofNat maxSize
  offset := UInt32.ofInt offset.toInt

/-- It asks for no more than a message holds. -/
theorem firstRead_size_eq (m : Mount) (size : UInt64) (offset : Int64) (fi : FileInfo) :
    (firstRead m size offset fi).size.toNat = min size.toNat maxSize := by
  have hmax : (UInt64.ofNat maxSize).toNat = maxSize := rfl
  have hmax' : (UInt32.ofNat maxSize).toNat = maxSize := rfl
  unfold firstRead
  dsimp only
  split
  · next hle =>
    rw [UInt64.le_iff_toNat_le, hmax] at hle
    rw [UInt64.toNat_toUInt32, Nat.mod_eq_of_lt (by have h : maxSize < 2 ^ 32 := by decide
                                                    omega)]
    omega
  · next hgt =>
    rw [UInt64.le_iff_toNat_le, hmax] at hgt
    rw [hmax']
    omega

section

variable {rounds : ℕ} {m : Mount} {unset : Unset} {path : CStr} {size : UInt64} {offset : Int64}
  {fi : FileInfo}

/-- `bb_read` is its loop, with a handle of the host that is chosen. -/
theorem bbRead_run {host : HostName} {isDegraded : Int}
    (hc : w.chosen s = some (host, isDegraded)) :
    (bbRead rounds m unset path size offset fi).run w.machine s =
      (readRounds ⟨s.made, host⟩ size rounds 0 (firstRead m size offset fi) unset.read).run
        w.machine (s.connected host) := connected_run hc

/-- What `bb_read` loses is lost by its loop. -/
theorem bbRead_issues :
    (bbRead rounds m unset path size offset fi).Issues w.machine (Loses w) s ↔
      ∃ host isDegraded, w.chosen s = some (host, isDegraded) ∧
        (readRounds ⟨s.made, host⟩ size rounds 0 (firstRead m size offset fi) unset.read).Issues
          w.machine (Loses w) (s.connected host) := connected_issues

end

/-- The request of the next round of `bb_read`, after a round that transferred `len` bytes. -/
def nextRead (size : UInt64) (totalLen : Int) (arg : ReadArg) (len : Int) : ReadArg :=
  let leftSize := toInt (size - UInt64.ofInt (toInt (totalLen + len))).toNat
  { arg with
    offset := arg.offset + UInt32.ofInt len
    size := UInt32.ofInt (if leftSize ≤ maxSize then leftSize else maxSize) }

/-- What `bb_read` does with the reply of a round. -/
def readReply (clnt : Clnt) (size : UInt64) (n : ℕ) (totalLen : Int) (arg : ReadArg)
    (ret : ReadRet) : Operation Int :=
  if ret.ret < 0 then finish clnt (-1)
  else if ret.len = 0 then finish clnt totalLen
  else do
    net (.store totalLen (Opaque.ofBytes ret.buffer))
    readRounds clnt size n (toInt (totalLen + ret.len)) (nextRead size totalLen arg ret.len) ret

/-- One more round of reading, as long as `total_len` is below the size. -/
theorem readRounds_succ {size : UInt64} {totalLen : Int} (h : UInt64.ofInt totalLen < size)
    (n : ℕ) (arg : ReadArg) (ret : ReadRet) : readRounds clnt size (n + 1) totalLen arg ret =
      stub clnt (.read arg) Reply.read? ret >>= readReply clnt size n totalLen arg := by
  rw [readRounds, if_pos h]
  rfl

/-- The loop of `bb_read` ends when `total_len` has reached the size. -/
theorem readRounds_done {size : UInt64} {totalLen : Int} (h : ¬ UInt64.ofInt totalLen < size)
    (n : ℕ) (arg : ReadArg) (ret : ReadRet) :
    readRounds clnt size (n + 1) totalLen arg ret = finish clnt totalLen := by
  rw [readRounds, if_neg h]
  rfl

/-- The station after bytes were put into the data buffer. -/
def Station.stored (s : Station σ) (pos : Int) (bytes : List UInt8) : Station σ :=
  { s with caller := s.caller.store pos (Opaque.ofBytes bytes) }

@[simp] theorem stored_log (pos : Int) (bytes : List UInt8) : (s.stored pos bytes).log = s.log :=
  rfl

@[simp] theorem stored_world (pos : Int) (bytes : List UInt8) :
    (s.stored pos bytes).world = s.world := rfl

/-- What can come of a reply in `bb_read`. -/
theorem readReply_run {size : UInt64} {n : ℕ} {totalLen : Int} {arg : ReadArg} {ret : ReadRet} :
    (readReply clnt size n totalLen arg ret).run w.machine s =
      if ret.ret < 0 then .ok (-1, s.dropped clnt)
      else if ret.len = 0 then .ok (totalLen, s.dropped clnt)
      else (readRounds clnt size n (toInt (totalLen + ret.len))
        (nextRead size totalLen arg ret.len) ret).run w.machine (s.stored totalLen ret.buffer) := by
  unfold readReply
  by_cases hret : ret.ret < 0
  · rw [if_pos hret, if_pos hret, finish_run]
  · rw [if_neg hret, if_neg hret]
    by_cases hlen : ret.len = 0
    · rw [if_pos hlen, if_pos hlen, finish_run]
    · rw [if_neg hlen, if_neg hlen]
      rfl

/-- The request of the first round of `bb_write`. -/
def firstWrite (m : Mount) (path : CStr) (size : UInt64) (offset : Int64) (fi : FileInfo)
    (isDegraded : Int) (buffer : Opaque) : WriteArg where
  ip := m.ip
  serverInfo := getIdentity isDegraded
  fd := fi.fd
  path := bbFullpath path
  size := size.toUInt32
  offset := UInt32.ofInt offset.toInt
  buffer := buffer

section

variable {rounds : ℕ} {m : Mount} {unset : Unset} {path : CStr} {size : UInt64} {offset : Int64}
  {fi : FileInfo}

/-- `bb_write` is its loop, with a handle of the host that is chosen and the first block loaded. -/
theorem bbWrite_run {host : HostName} {isDegraded : Int}
    (hc : w.chosen s = some (host, isDegraded)) :
    (bbWrite rounds m unset path size offset fi).run w.machine s =
      (writeRounds ⟨s.made, host⟩ size offset rounds 0
        (firstWrite m path size offset fi isDegraded (s.caller.load 0)) unset.write).run
        w.machine (s.connected host) := connected_run hc

/-- What `bb_write` loses is lost by its loop. -/
theorem bbWrite_issues :
    (bbWrite rounds m unset path size offset fi).Issues w.machine (Loses w) s ↔
      ∃ host isDegraded, w.chosen s = some (host, isDegraded) ∧
        (writeRounds ⟨s.made, host⟩ size offset rounds 0
          (firstWrite m path size offset fi isDegraded (s.caller.load 0)) unset.write).Issues
          w.machine (Loses w) (s.connected host) := by
  refine connected_issues.trans ?_
  refine exists_congr fun host => exists_congr fun isDegraded => and_congr_right fun _ => ?_
  constructor
  · rintro (h | ⟨r, hr, h⟩)
    · exact h.elim
    · rw [← Except.ok.inj hr] at h
      exact h
  · intro h
    exact .inr ⟨_, rfl, h⟩

end

/-- The request of the next round of `bb_write`, after a round that transferred `len` bytes. -/
def nextWrite (size : UInt64) (offset : Int64) (arg : WriteArg) (len : Int) (buffer : Opaque) :
    WriteArg :=
  { arg with
    size := (size - UInt64.ofInt len).toUInt32
    offset := UInt32.ofInt (offset.toInt + len)
    buffer := buffer }

/-- What `bb_write` does with the reply of a round. -/
def writeReply (clnt : Clnt) (size : UInt64) (offset : Int64) (n : ℕ) (totalLen : Int)
    (arg : WriteArg) (ret : WriteRet) : Operation Int :=
  if ret.ret < 0 then finish clnt (-1)
  else if UInt64.ofInt (toInt (totalLen + ret.len)) = size then
    return toInt (totalLen + ret.len)
  else do
    let buffer ← net (.load (toInt (totalLen + ret.len)))
    writeRounds clnt size offset n (toInt (totalLen + ret.len))
      (nextWrite size offset arg ret.len buffer) ret

/-- What can come of a reply in `bb_write`. -/
theorem writeReply_run {size : UInt64} {offset : Int64} {n : ℕ} {totalLen : Int} {arg : WriteArg}
    {ret : WriteRet} : (writeReply clnt size offset n totalLen arg ret).run w.machine s =
      if ret.ret < 0 then .ok (-1, s.dropped clnt)
      else if UInt64.ofInt (toInt (totalLen + ret.len)) = size then
        .ok (toInt (totalLen + ret.len), s)
      else (writeRounds clnt size offset n (toInt (totalLen + ret.len)) (nextWrite size offset arg
        ret.len (s.caller.load (toInt (totalLen + ret.len)))) ret).run w.machine s := by
  unfold writeReply
  by_cases hret : ret.ret < 0
  · rw [if_pos hret, if_pos hret, finish_run]
  · rw [if_neg hret, if_neg hret]
    by_cases hlen : UInt64.ofInt (toInt (totalLen + ret.len)) = size
    · rw [if_pos hlen, if_pos hlen, run_pure]
    · rw [if_neg hlen, if_neg hlen]
      rfl

/-- One more round of writing. -/
theorem writeRounds_succ (size : UInt64) (offset : Int64) (totalLen : Int) (n : ℕ)
    (arg : WriteArg) (ret : WriteRet) : writeRounds clnt size offset (n + 1) totalLen arg ret =
      stub clnt (.write arg) Reply.write? ret >>= writeReply clnt size offset n totalLen arg :=
  rfl

/-- An answer to a read message is a read result. -/
theorem answer_read {host : HostName} {arg : ReadArg} {world : σ} {reply : Reply}
    (h : w.answer host (.read arg) world = some reply) :
    ∃ ret, reply = .read ret ∧ (w.call host (.read arg) world).1 = some (.read ret) := by
  obtain ⟨hcall, hfits⟩ := Option.filter_eq_some_iff.mp h
  cases reply with
  | read ret => exact ⟨ret, rfl, hcall⟩
  | _ => cases hfits

/-- An answer to a write message is a write result. -/
theorem answer_write {host : HostName} {arg : WriteArg} {world : σ} {reply : Reply}
    (h : w.answer host (.write arg) world = some reply) :
    ∃ ret, reply = .write ret ∧ (w.call host (.write arg) world).1 = some (.write ret) := by
  obtain ⟨hcall, hfits⟩ := Option.filter_eq_some_iff.mp h
  cases reply with
  | write ret => exact ⟨ret, rfl, hcall⟩
  | _ => cases hfits

end Client

end DFS
