import NetworkFileSystem.Client.Failures
import NetworkFileSystem.Service.Positions

/-!
# Where a read, a write or a truncation lands (`tweakfs.c`)

An `off_t` becomes an `unsigned int` in the messages of `bb_read` and `bb_write` and an `int` in
that of `bb_truncate`.  `bb_read` advances the 32-bit offset by what each round transferred;
`bb_write` starts from its own offset again and adds the last round only.

**`arrives_iff`** says in which rounds the position that the server passes on is the right one.
-/

namespace DFS

open Effects Posix Prog
open Words (toNat_ofInt32 toNat_ofInt64)

namespace Client

/-- The bytes that an exchange transferred. -/
def Exchange.len (x : Exchange) : Int :=
  match x.reply with
  | some (.read res) => res.len
  | some (.write res) => res.len
  | _ => 0

/-- The bytes that the rounds so far have transferred. -/
def transferred (xs : List Exchange) : Int := (xs.map Exchange.len).sum

@[simp] theorem transferred_nil : transferred [] = 0 := rfl

@[simp] theorem transferred_concat (xs : List Exchange) (x : Exchange) :
    transferred (xs ++ [x]) = transferred xs + x.len := by
  simp [transferred]

/-- The operations that carry a position or a length. -/
def Fuse.positioned : Fuse → Bool
  | .read _ _ _ _ | .write _ _ _ _ | .truncate _ _ => true
  | _ => false

/-- The position or length that the caller asks for. -/
def Fuse.start : Fuse → Int
  | .read _ _ offset _ => offset.toInt
  | .write _ _ offset _ => offset.toInt
  | .truncate _ newsize => newsize.toInt
  | _ => 0

/-- The position or length for the next round, after the rounds `xs`. -/
def expected (op : Fuse) (xs : List Exchange) : Int := op.start + transferred xs

/-- The reply structure of `bb_read` after some rounds, and what they have added to the offset.  A
round whose reply is lost counts as the round before. -/
def readTally (prev : ReadRet) (xs : List Exchange) : ReadRet × Int :=
  xs.foldl (fun t x =>
    let ret := (x.reply.bind Reply.read?).getD t.1
    (ret, t.2 + ret.len)) (prev, 0)

/-- The reply structure of `bb_write` after some rounds, and what the last one has added to the
offset. -/
def writeTally (prev : WriteRet) (xs : List Exchange) : WriteRet × Int :=
  xs.foldl (fun t x =>
    let ret := (x.reply.bind Reply.write?).getD t.1
    (ret, ret.len)) (prev, 0)

/-- The tally of the reads after one more exchange. -/
theorem readTally_concat (prev : ReadRet) (xs : List Exchange) (x : Exchange) :
    readTally prev (xs ++ [x]) =
      ((x.reply.bind Reply.read?).getD (readTally prev xs).1, (readTally prev xs).2 +
        ((x.reply.bind Reply.read?).getD (readTally prev xs).1).len) :=
  List.foldl_concat _ _ _ _

/-- The tally of the writes after one more exchange. -/
theorem writeTally_concat (prev : WriteRet) (xs : List Exchange) (x : Exchange) :
    writeTally prev (xs ++ [x]) =
      ((x.reply.bind Reply.write?).getD (writeTally prev xs).1,
        ((x.reply.bind Reply.write?).getD (writeTally prev xs).1).len) :=
  List.foldl_concat _ _ _ _

/-- What the client adds to the offset for the next round, after the rounds `xs`. -/
def advance (unset : Unset) (op : Fuse) (xs : List Exchange) : Int :=
  match op with
  | .read _ _ _ _ => (readTally unset.read xs).2
  | .write _ _ _ _ => (writeTally unset.write xs).2
  | _ => 0

/-- When the next round gets the position right, after the rounds `xs`: the position fits an
`unsigned int`, and the client has added what was transferred, up to multiples of `2 ^ 32`.  A
length fits an `int`. -/
def InRange (unset : Unset) (op : Fuse) (xs : List Exchange) : Prop :=
  match op with
  | .truncate _ newsize => newsize.toInt < 2 ^ 31
  | _ => expected op xs < 2 ^ 32 ∧ (advance unset op xs - transferred xs) % 2 ^ 32 = 0

variable {σ α β : Type} {w : Network σ} {s u : Station σ}

/-- A condition on the calls of stubs. -/
def OnCall (P : Clnt → Request → Station σ → Prop) : {γ : Type} → Net γ → Station σ → Prop
  | _, .clntCall clnt r, u => P clnt r u
  | _, _, _ => True

/-- The exchanges of an operation that has started at the station `s`. -/
def newExchanges (s u : Station σ) : List Exchange := u.log.drop s.log.length

/-- The call is answered with an error. -/
def Refuses (w : Network σ) (clnt : Clnt) (r : Request) (u : Station σ) : Prop :=
  ∃ reply, w.answer clnt.host r u.world = some reply ∧ reply.ret < 0

/-- **The position arrives**: the server passes on the position that is due, or the operation
returns an error and the file is not touched. -/
def InPlace (w : Network σ) (p : Operation Int) (s : Station σ) (op : Fuse) (clnt : Clnt)
    (r : Request) (u : Station σ) : Prop :=
  PassesOn r (expected op (newExchanges s u)) ∨
  ∃ reply, w.answer clnt.host r u.world = some reply ∧ Refused r reply ∧
    ∃ v t, p.run w.machine s = .ok (v, t) ∧ v < 0

/-! ## What the loops send -/

/-- A program that sends nothing sends nothing that is wrong. -/
theorem each_of_local {P : Clnt → Request → Station σ → Prop} {p : Operation α}
    (hp : p.Calls Local) : p.Each w.machine (OnCall P) s :=
  hp.each fun c _ hc => by cases c <;> trivial

/-- Connecting sends nothing. -/
theorem connected_each {P : Clnt → Request → Station σ → Prop} {k : Clnt × Int → Operation β}
    {host : HostName} {isDegraded : Int} (hc : w.chosen s = some (host, isDegraded)) :
    (connectServer >>= k).Each w.machine (OnCall P) s ↔
      (k (⟨s.made, host⟩, isDegraded)).Each w.machine (OnCall P) (s.connected host) := by
  refine each_bind_of_run (each_of_local connectServer_local) ?_
  rw [connectServer_run, hc]

/-- A call sends its request, and then comes the rest. -/
theorem stub_each {P : Clnt → Request → Station σ → Prop} {clnt : Clnt} {r : Request}
    {decode : Reply → Option α} {ret : α} {k : α → Operation β} :
    (stub clnt r decode ret >>= k).Each w.machine (OnCall P) s ↔ P clnt r s ∧
      (k (((w.answer clnt.host r s.world).bind decode).getD ret)).Each w.machine (OnCall P)
        (w.called clnt r s) := by
  constructor
  · intro h
    exact ⟨h.1, h.2 _ rfl⟩
  · rintro ⟨h, hk⟩
    refine ⟨h, fun r hr => ?_⟩
    cases hr
    exact hk

/-- One more call is one more exchange. -/
theorem newExchanges_called {clnt : Clnt} {r : Request} (h : s.log.length ≤ u.log.length) :
    newExchanges s (w.called clnt r u) =
      newExchanges s u ++ [⟨clnt.host, r, w.answer clnt.host r u.world, u.caller⟩] := by
  unfold newExchanges
  rw [Network.called_log, List.drop_append_of_le_length h]

/-- A round that the loop goes on from has transferred no negative number of bytes. -/
theorem len_nonneg_read (hw : w.Sound) {clnt : Clnt} {arg : ReadArg} {prev : ReadRet}
    (hret : ¬ (((w.answer clnt.host (.read arg) s.world).bind Reply.read?).getD prev).ret < 0) :
    0 ≤ Exchange.len ⟨clnt.host, .read arg, w.answer clnt.host (.read arg) s.world, s.caller⟩ := by
  cases hr : w.answer clnt.host (.read arg) s.world with
  | none => exact Int.le_refl 0
  | some reply =>
      obtain ⟨res, rfl, hcall⟩ := answer_read hr
      rw [hr] at hret
      exact (hw.read _ _ _ _ hcall (Int.not_lt.mp hret)).1

/-- A write result that is no failure has transferred a length. -/
theorem len_nonneg_write (hw : w.Sound) {clnt : Clnt} {arg : WriteArg} {prev : WriteRet}
    (hret : ¬ (((w.answer clnt.host (.write arg) s.world).bind Reply.write?).getD prev).ret < 0) :
    0 ≤ Exchange.len
      ⟨clnt.host, .write arg, w.answer clnt.host (.write arg) s.world, s.caller⟩ := by
  cases hr : w.answer clnt.host (.write arg) s.world with
  | none => exact Int.le_refl 0
  | some reply =>
      obtain ⟨res, rfl, hcall⟩ := answer_write hr
      rw [hr] at hret
      exact (hw.write _ _ _ _ hcall (Int.not_lt.mp hret)).1

/-- What a round of `bb_read` sends. -/
def Sends (w : Network σ) (p : Operation Int) (s : Station σ) (prev : ReadRet) (offset : Int)
    (clnt : Clnt) (r : Request) (u : Station σ) : Prop :=
  (∃ arg, r = .read arg ∧
    arg.offset = UInt32.ofInt (offset + (readTally prev (newExchanges s u)).2)) ∧
  0 ≤ transferred (newExchanges s u) ∧
  (Refuses w clnt r u → ∃ t, p.run w.machine s = .ok (-1, t))

/-- **What the rounds of `bb_read` send**, by the exchanges so far. -/
theorem readRounds_sends (hw : w.Sound) {s₀ : Station σ} {p : Operation Int} {offset : Int}
    {clnt : Clnt} {size : UInt64} (n : ℕ) {totalLen : Int} {arg : ReadArg} {first prev : ReadRet}
    (hlen : s₀.log.length ≤ s.log.length)
    (hrun : p.run w.machine s₀ = (readRounds clnt size n totalLen arg prev).run w.machine s)
    (harg : arg.offset = UInt32.ofInt (offset + (readTally first (newExchanges s₀ s)).2))
    (hprev : (readTally first (newExchanges s₀ s)).1 = prev)
    (hpos : 0 ≤ transferred (newExchanges s₀ s)) :
    (readRounds clnt size n totalLen arg prev).Each w.machine
      (OnCall (Sends w p s₀ first offset)) s := by
  induction n generalizing totalLen arg prev s with
  | zero => exact each_of_local (calls_bind (by simp [Local]) fun e => e.elim)
  | succ n ih =>
      by_cases hlt : UInt64.ofInt totalLen < size
      · rw [readRounds_succ hlt] at hrun ⊢
        rw [stub_run] at hrun
        let ret := ((w.answer clnt.host (.read arg) s.world).bind Reply.read?).getD prev
        let u := w.called clnt (.read arg) s
        have hnew : newExchanges s₀ u = newExchanges s₀ s ++
          [⟨clnt.host, .read arg, w.answer clnt.host (.read arg) s.world, s.caller⟩] :=
          newExchanges_called hlen
        have htally : readTally first (newExchanges s₀ u) =
            (ret, (readTally first (newExchanges s₀ s)).2 + ret.len) := by
          rw [hnew, readTally_concat, hprev]
        change _ = (readReply clnt size n totalLen arg ret).run w.machine u at hrun
        rw [readReply_run] at hrun
        refine stub_each.mpr ⟨⟨⟨arg, rfl, harg⟩, hpos, ?_⟩, ?_⟩
        · rintro ⟨reply, hreply, hneg⟩
          obtain ⟨res, rfl, -⟩ := answer_read hreply
          have hres : ret = res := by simp only [ret, hreply]; rfl
          rw [if_pos (show ret.ret < 0 from hres ▸ hneg)] at hrun
          exact ⟨_, hrun⟩
        · change (readReply clnt size n totalLen arg ret).Each _ _ u
          unfold readReply
          by_cases hret : ret.ret < 0
          · rw [if_pos hret]
            exact each_of_local (finish_local _ _)
          rw [if_neg hret] at hrun ⊢
          by_cases hlen0 : ret.len = 0
          · rw [if_pos hlen0]
            exact each_of_local (finish_local _ _)
          rw [if_neg hlen0] at hrun ⊢
          refine ⟨trivial, fun r hstep => ?_⟩
          cases hstep
          refine ih (s := u.stored totalLen ret.buffer) ?_ hrun ?_ ?_ ?_
          · simp only [stored_log, u, Network.called_log, List.length_append]
            omega
          · change (nextRead size totalLen arg ret.len).offset =
              UInt32.ofInt (offset + (readTally first (newExchanges s₀ u)).2)
            rw [htally, ← Int.add_assoc, UInt32.ofInt_add, ← harg]
            rfl
          · exact congrArg Prod.fst htally
          · change 0 ≤ transferred (newExchanges s₀ u)
            rw [hnew, transferred_concat]
            exact Int.add_nonneg hpos (len_nonneg_read hw hret)
      · rw [readRounds_done hlt]
        exact each_of_local (finish_local _ _)

/-- What a round of `bb_write` sends: its offset counts the last round only. -/
def SendsLast (w : Network σ) (p : Operation Int) (s : Station σ) (prev : WriteRet) (offset : Int)
    (clnt : Clnt) (r : Request) (u : Station σ) : Prop :=
  (∃ arg, r = .write arg ∧
    arg.offset = UInt32.ofInt (offset + (writeTally prev (newExchanges s u)).2)) ∧
  0 ≤ transferred (newExchanges s u) ∧
  (Refuses w clnt r u → ∃ t, p.run w.machine s = .ok (-1, t))

/-- **What the rounds of `bb_write` send**, by the exchanges so far. -/
theorem writeRounds_sends (hw : w.Sound) {s₀ : Station σ} {p : Operation Int} {offset : Int64}
    {clnt : Clnt} {size : UInt64} (n : ℕ) {totalLen : Int} {arg : WriteArg} {first prev : WriteRet}
    (hlen : s₀.log.length ≤ s.log.length)
    (hrun : p.run w.machine s₀ =
      (writeRounds clnt size offset n totalLen arg prev).run w.machine s)
    (harg : arg.offset =
      UInt32.ofInt (offset.toInt + (writeTally first (newExchanges s₀ s)).2))
    (hprev : (writeTally first (newExchanges s₀ s)).1 = prev)
    (hpos : 0 ≤ transferred (newExchanges s₀ s)) :
    (writeRounds clnt size offset n totalLen arg prev).Each w.machine
      (OnCall (SendsLast w p s₀ first offset.toInt)) s := by
  induction n generalizing totalLen arg prev s with
  | zero => exact each_of_local (calls_bind (by simp [Local]) fun e => e.elim)
  | succ n ih =>
      rw [writeRounds_succ] at hrun ⊢
      rw [stub_run] at hrun
      let ret := ((w.answer clnt.host (.write arg) s.world).bind Reply.write?).getD prev
      let u := w.called clnt (.write arg) s
      have hnew : newExchanges s₀ u = newExchanges s₀ s ++
        [⟨clnt.host, .write arg, w.answer clnt.host (.write arg) s.world, s.caller⟩] :=
        newExchanges_called hlen
      have htally : writeTally first (newExchanges s₀ u) = (ret, ret.len) := by
        rw [hnew, writeTally_concat, hprev]
      change _ = (writeReply clnt size offset n totalLen arg ret).run w.machine u at hrun
      rw [writeReply_run] at hrun
      refine stub_each.mpr ⟨⟨⟨arg, rfl, harg⟩, hpos, ?_⟩, ?_⟩
      · rintro ⟨reply, hreply, hneg⟩
        obtain ⟨res, rfl, -⟩ := answer_write hreply
        have hres : ret = res := by simp only [ret, hreply]; rfl
        rw [if_pos (show ret.ret < 0 from hres ▸ hneg)] at hrun
        exact ⟨_, hrun⟩
      · change (writeReply clnt size offset n totalLen arg ret).Each _ _ u
        unfold writeReply
        by_cases hret : ret.ret < 0
        · rw [if_pos hret]
          exact each_of_local (finish_local _ _)
        rw [if_neg hret] at hrun ⊢
        by_cases hdone : UInt64.ofInt (toInt (totalLen + ret.len)) = size
        · rw [if_pos hdone]
          exact each_pure _
        rw [if_neg hdone] at hrun ⊢
        refine ⟨trivial, fun r hstep => ?_⟩
        rw [← Except.ok.inj hstep]
        refine ih (s := u) ?_ hrun ?_ ?_ ?_
        · simp only [u, Network.called_log, List.length_append]
          omega
        · rw [htally]
          rfl
        · exact congrArg Prod.fst htally
        · rw [hnew, transferred_concat]
          exact Int.add_nonneg hpos (len_nonneg_write hw hret)

/-! ## Which positions arrive -/

/-- A sum of 32 bits is the position that is due. -/
theorem toNat_ofInt32_eq_iff {start moved due : Int} (h : 0 ≤ start + due) :
    start + due = ((UInt32.ofInt (start + moved)).toNat : Int) ↔
      start + due < 2 ^ 32 ∧ (moved - due) % 2 ^ 32 = 0 := by
  rw [toNat_ofInt32]
  omega

/-- A length that an `int` holds stays what it is. -/
theorem toInt_eq_iff {n : Int} (h : 0 ≤ n) : n + 0 = toInt n ↔ n < 2 ^ 31 := by
  have hsize : (Int32.size : Int) = 2 ^ 32 := rfl
  rw [toInt, Int32.toInt_ofInt, Int.bmod_def, hsize]
  omega

/-- A number that an `int` holds. -/
theorem toInt_of_lt {n : Int} (h : 0 ≤ n) (hlt : n < 2 ^ 31) : toInt n = n := by
  have hn := (toInt_eq_iff h).mpr hlt
  omega

/-- When an exchange fits: the position is in range, or the server refuses. -/
def Fits (w : Network σ) (unset : Unset) (s : Station σ) (op : Fuse) (clnt : Clnt) (r : Request)
    (u : Station σ) : Prop :=
  InRange unset op (newExchanges s u) ∨ Refuses w clnt r u

/-- A request stands for the place that the caller means exactly when the numbers fit and the
operation passes on what it should. -/
theorem inPlace_iff {p : Operation Int} {unset : Unset} {op : Fuse} {clnt : Clnt} {r : Request}
    (hr : r.positioned = true)
    (hpass : PassesOn r (expected op (newExchanges s u)) ↔ InRange unset op (newExchanges s u))
    (hrun : Refuses w clnt r u → ∃ v t, p.run w.machine s = .ok (v, t) ∧ v < 0) :
    InPlace w p s op clnt r u ↔ Fits w unset s op clnt r u := by
  unfold InPlace Fits
  rw [hpass]
  refine or_congr_right ?_
  constructor
  · rintro ⟨reply, hreply, href, -⟩
    exact ⟨reply, hreply, href.1⟩
  · rintro ⟨reply, hreply, hneg⟩
    exact ⟨reply, hreply, (refused_iff hr reply).mpr hneg, hrun ⟨reply, hreply, hneg⟩⟩

/-- Two conditions on the requests that agree on all that are sent. -/
theorem each_congr {p : Operation α} {P Q R : Clnt → Request → Station σ → Prop}
    (hp : p.Each w.machine (OnCall P) s) (h : ∀ clnt r u, P clnt r u → (Q clnt r u ↔ R clnt r u)) :
    p.Each w.machine (OnCall Q) s ↔ p.Each w.machine (OnCall R) s := by
  refine Each.congr hp fun c u hc => ?_
  cases c with
  | clntCall clnt r => exact h clnt r u hc
  | _ => exact Iff.rfl

/-- A client that reaches no host sends nothing. -/
theorem unconnected_each {P : Clnt → Request → Station σ → Prop} {k : Clnt × Int → Operation β}
    (hc : w.chosen s = none) : (connectServer >>= k).Each w.machine (OnCall P) s := by
  refine each_bind.mpr ⟨each_of_local connectServer_local, fun c t hrun => ?_⟩
  rw [connectServer_run, hc] at hrun
  cases hrun

/-- After connecting there is no exchange yet. -/
theorem newExchanges_start (host : HostName) : newExchanges s (s.connected host) = [] :=
  List.drop_length

section

variable {m : Mount} {unset : Unset} {path : CStr} {size : UInt64} {offset : Int64}
  {fi : FileInfo} {n : ℕ}

/-- What `bb_read` sends, from its first round on. -/
theorem bbRead_sends (hw : w.Sound) : (bbRead n m unset path size offset fi).Each w.machine
    (OnCall (Sends w (bbRead n m unset path size offset fi) s unset.read offset.toInt)) s := by
  cases hc : w.chosen s with
  | none => exact unconnected_each hc
  | some c =>
      obtain ⟨host, isDegraded⟩ := c
      have hnew := newExchanges_start (s := s) host
      refine (connected_each hc).mpr
        (readRounds_sends hw n (Nat.le_refl _) (bbRead_run hc) ?_ ?_ ?_)
      · rw [hnew]
        exact congrArg UInt32.ofInt (Int.add_zero _).symm
      · rw [hnew]
        rfl
      · rw [hnew]
        exact Int.le_refl 0

/-- What `bb_write` sends, from its first round on. -/
theorem bbWrite_sends (hw : w.Sound) : (bbWrite n m unset path size offset fi).Each w.machine
    (OnCall (SendsLast w (bbWrite n m unset path size offset fi) s unset.write offset.toInt))
    s := by
  cases hc : w.chosen s with
  | none => exact unconnected_each hc
  | some c =>
      obtain ⟨host, isDegraded⟩ := c
      have hnew := newExchanges_start (s := s) host
      have hrounds : (writeRounds ⟨s.made, host⟩ size offset n 0 (firstWrite m path size offset fi
          isDegraded (s.caller.load 0)) unset.write).Each w.machine
          (OnCall (SendsLast w (bbWrite n m unset path size offset fi) s unset.write offset.toInt))
          (s.connected host) := by
        refine writeRounds_sends hw n (Nat.le_refl _) (bbWrite_run hc) ?_ ?_ ?_
        · rw [hnew]
          exact congrArg UInt32.ofInt (Int.add_zero _).symm
        · rw [hnew]
          rfl
        · rw [hnew]
          exact Int.le_refl 0
      refine (connected_each hc).mpr ⟨trivial, fun r hr => ?_⟩
      rw [← Except.ok.inj hr]
      exact hrounds

/-- What `bb_truncate` sends. -/
def SendsSize (w : Network σ) (p : Operation Int) (s : Station σ) (newsize : Int) (clnt : Clnt)
    (r : Request) (u : Station σ) : Prop :=
  (∃ arg, r = .truncate arg ∧ arg.newsize = toInt newsize) ∧ newExchanges s u = [] ∧
  (Refuses w clnt r u → ∃ v t, p.run w.machine s = .ok (v, t) ∧ v < 0)

/-- What `bb_truncate` sends. -/
theorem bbTruncate_sends {newsize : Int64} : (bbTruncate m unset path newsize).Each w.machine
    (OnCall (SendsSize w (bbTruncate m unset path newsize) s newsize.toInt)) s := by
  refine each_bind.mpr ⟨?_, fun _ _ _ => trivial⟩
  cases hc : w.chosen s with
  | none => exact unconnected_each hc
  | some c =>
      obtain ⟨host, isDegraded⟩ := c
      let req : Request := .truncate {
        ip := m.ip, serverInfo := getIdentity isDegraded, path := path,
        newsize := toInt newsize.toInt }
      have hrun : (bbTruncate m unset path newsize).run w.machine s =
          .ok ((((w.answer host req s.world).bind Reply.status?).getD unset.status).ret,
            (w.called ⟨s.made, host⟩ req (s.connected host)).dropped ⟨s.made, host⟩) := by
        unfold bbTruncate statusOf callOnce
        rw [run_bind, connected_run hc]
        rfl
      refine (connected_each hc).mpr (stub_each.mpr ⟨⟨⟨_, rfl, rfl⟩, newExchanges_start host, ?_⟩,
        each_of_local (calls_bind (by simp [Local]) fun _ => calls_pure _)⟩)
      rintro ⟨reply, hreply, hneg⟩
      replace hreply : w.answer host req s.world = some reply := hreply
      -- The reply is a status, which is what the operation returns.
      have hfits := (Option.filter_eq_some_iff.mp hreply).2
      rw [hreply] at hrun
      cases reply with
      | status ret => exact ⟨_, _, hrun, hneg⟩
      | _ => cases hfits

end

/-- **Which positions arrive.**  The position or length that the server passes on in a round is
the one that is due (or the operation fails and the file is not touched) in every round exactly
when every round fits: what is due fits the 32 bits of the message and the client has added to its
offset what was transferred (or the server refuses). -/
theorem arrives_iff {op : Fuse} (hop : op.positioned = true) (hpos : 0 ≤ op.start) (hw : w.Sound)
    (n : ℕ) (m : Mount) (unset : Unset) (s : Station σ) :
    (operation n m unset op).Each w.machine
      (OnCall (InPlace w (operation n m unset op) s op)) s ↔
    (operation n m unset op).Each w.machine (OnCall (Fits w unset s op)) s := by
  cases op with
  | read path size offset fi =>
      have hsends : (bbRead n m unset path size offset fi).Each w.machine (OnCall (Sends w
          (bbRead n m unset path size offset fi) s unset.read offset.toInt)) s := bbRead_sends hw
      refine each_congr hsends fun clnt r u hs => ?_
      obtain ⟨⟨arg, rfl, harg⟩, hsum, hrun⟩ := hs
      refine inPlace_iff rfl ?_ fun href => ?_
      · rw [passes_read, harg]
        exact toNat_ofInt32_eq_iff (Int.add_nonneg hpos hsum)
      · obtain ⟨t, ht⟩ := hrun href
        exact ⟨-1, t, ht, by decide⟩
  | write path size offset fi =>
      have hsends : (bbWrite n m unset path size offset fi).Each w.machine (OnCall (SendsLast w
          (bbWrite n m unset path size offset fi) s unset.write offset.toInt)) s :=
        bbWrite_sends hw
      refine each_congr hsends fun clnt r u hs => ?_
      obtain ⟨⟨arg, rfl, harg⟩, hsum, hrun⟩ := hs
      refine inPlace_iff rfl ?_ fun href => ?_
      · rw [passes_write, harg]
        exact toNat_ofInt32_eq_iff (Int.add_nonneg hpos hsum)
      · obtain ⟨t, ht⟩ := hrun href
        exact ⟨-1, t, ht, by decide⟩
  | truncate path newsize =>
      refine each_congr bbTruncate_sends fun clnt r u hs => ?_
      obtain ⟨⟨arg, rfl, harg⟩, hnew, hrun⟩ := hs
      refine inPlace_iff rfl ?_ hrun
      rw [passes_truncate, harg, hnew]
      exact toInt_eq_iff hpos
  | _ => cases hop

/-- A network that answers every request with success. -/
def obliging : Network Unit where
  up _ _ := true
  call _ r s := (some (match r with
    | .read _ => .read ⟨[], 0, 0⟩
    | .write _ => .write ⟨0, 0⟩
    | _ => .status ⟨0⟩), s)
  filler _ _ := 0

/-- The server that agrees to everything answers with results of the right kind. -/
theorem obliging_sound : obliging.Sound where
  read host arg s ret h _ := by
    cases h
    exact ⟨Int.le_refl 0, Int.natCast_nonneg _⟩
  write host arg s ret h _ := by
    cases h
    exact ⟨Int.le_refl 0, Int.natCast_nonneg _⟩

/-- A client of that network. -/
def obliged : Station Unit := ⟨(), .blank, true, [], 0, []⟩

/-- Reading one byte at position 5. -/
theorem arrives_iff_read :
    (operation 1 ⟨[], []⟩ .zero (.read [] 1 5 ⟨0, 0⟩)).Each obliging.machine
      (OnCall (InPlace obliging (operation 1 ⟨[], []⟩ .zero (.read [] 1 5 ⟨0, 0⟩)) obliged
        (.read [] 1 5 ⟨0, 0⟩))) obliged ↔
    (operation 1 ⟨[], []⟩ .zero (.read [] 1 5 ⟨0, 0⟩)).Each obliging.machine
      (OnCall (Fits obliging .zero obliged (.read [] 1 5 ⟨0, 0⟩))) obliged :=
  arrives_iff rfl (by decide) obliging_sound 1 _ _ _

/-- Truncating to four gigabytes empties the file. -/
theorem truncate_wraps : ¬ ∀ {σ : Type} (w : Network σ) (s : Station σ) (op : Fuse) (n : ℕ)
    (m : Mount) (unset : Unset), op.positioned = true → 0 ≤ op.start → w.Sound →
    (operation n m unset op).Each w.machine
      (OnCall (InPlace w (operation n m unset op) s op)) s := by
  intro h
  have hplace := h obliging obliged (.truncate ['/', 'f'] (2 ^ 32)) 0 ⟨[], []⟩ .zero rfl
    (by decide) obliging_sound
  rcases (hplace.2 _ rfl).1 with hpass | ⟨reply, hreply, href, -⟩
  · exact absurd ((passes_truncate _ _).mp hpass) (by decide)
  · cases hreply
    exact absurd href.1 (by decide)

end Client

end DFS
