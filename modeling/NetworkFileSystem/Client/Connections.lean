import NetworkFileSystem.Client.Offsets
import NetworkFileSystem.Effects.Run

/-!
# Client handles of the RPC library (`tweakfs.c`)

An operation that connects should destroy its handle once, on whichever way it leaves, and not use
it afterwards.  Every operation does so but one: `bb_write` leaves its loop by `break` when all
bytes are written, and returns without destroying the handle.

**`connections_balanced_iff`** says so over every sequence of operations.
-/

namespace DFS

open Effects Posix Prog

namespace Client

/-- What neither makes nor takes a client handle. -/
def Handleless : {γ : Type} → Net γ → Prop
  | _, .clntCreate _ => False
  | _, .clntCall _ _ => False
  | _, .clntDestroy _ => False
  | _, _ => True

/-- A handle that is made is a new one; one that is used or destroyed is live. -/
def Orderly {σ : Type} : {γ : Type} → Net γ → Station σ → Prop
  | _, .clntCreate host, s => (⟨s.made, host⟩ : Clnt) ∉ s.live
  | _, .clntCall clnt _, s => clnt ∈ s.live
  | _, .clntDestroy clnt, s => clnt ∈ s.live
  | _, _, _ => True

/-- The live handles have been made, so the next one will be new. -/
def Station.Numbered {σ : Type} (s : Station σ) : Prop := ∀ clnt ∈ s.live, clnt.id < s.made

/-- The program keeps order, and leaves these handles when it returns. -/
structure Leaving {σ : Type} (w : Network σ) (left : List Clnt) {α : Type} (p : Operation α)
    (s : Station σ) : Prop where
  orderly : p.Each w.machine Orderly s
  live_eq : ∀ a t, p.run w.machine s = .ok (a, t) → t.live = left ∧ s.made ≤ t.made

section

variable {σ α β : Type} {w : Network σ} {s t : Station σ} {left : List Clnt} {clnt : Clnt}

/-! ## Rules -/

/-- Handles keep their numbers when none is added and the counter does not fall. -/
theorem Station.Numbered.of_made_le (h : s.Numbered) (hl : t.live = s.live)
    (hm : s.made ≤ t.made) : t.Numbered := by
  intro clnt hc
  rw [hl] at hc
  exact Nat.lt_of_lt_of_le (h clnt hc) hm

/-- Returning destroys nothing. -/
theorem leaving_pure (a : α) : Leaving w s.live (pure a : Operation α) s where
  orderly := each_pure a
  live_eq := by
    intro a' t h
    obtain ⟨-, rfl⟩ := Prod.mk.inj (Except.ok.inj h)
    exact ⟨rfl, Nat.le_refl _⟩

/-- A step without a handle makes none and destroys none. -/
theorem exec_handleless {c : Net β} {b : β} (h : w.exec c s = .ok (b, t)) (hc : Handleless c) :
    t.live = s.live ∧ t.made = s.made := by
  cases c with
  | clntCreate host => exact hc.elim
  | clntCall clnt r => exact hc.elim
  | clntDestroy clnt => exact hc.elim
  | exit status => cases h
  | more => cases h
  | fill name =>
      rw [← (Prod.mk.inj (Except.ok.inj h)).2]
      split <;> exact ⟨rfl, rfl⟩
  | _ =>
      rw [← (Prod.mk.inj (Except.ok.inj h)).2]
      exact ⟨rfl, rfl⟩

/-- Nor does a whole program of such steps. -/
theorem leaving_handleless {p : Operation α} (hp : p.Calls Handleless) :
    Leaving w s.live p s where
  orderly := hp.each fun c _ hc => by cases c <;> first | exact hc.elim | trivial
  live_eq a t h := by
    have hsame : t.live = s.live ∧ t.made = s.made :=
      hp.run_rel (R := fun s t : Station σ => t.live = s.live ∧ t.made = s.made)
        (fun _ => ⟨rfl, rfl⟩) (fun _ _ _ h h' => ⟨h'.1.trans h.1, h'.2.trans h.2⟩)
        (fun _ hc _ _ _ hstep => exec_handleless hstep hc) h
    exact ⟨hsame.1, Nat.le_of_eq hsame.2.symm⟩

/-- One program after the other: the second starts from the handles that the first leaves. -/
theorem Leaving.bind {mid : List Clnt} {p : Operation α} {f : α → Operation β}
    (hp : Leaving w mid p s)
    (hf : ∀ a t, t.live = mid → s.made ≤ t.made → Leaving w left (f a) t) :
    Leaving w left (p >>= f) s where
  orderly := by
    refine each_bind.mpr ⟨hp.orderly, fun a t h => ?_⟩
    obtain ⟨hl, hm⟩ := hp.live_eq a t h
    exact (hf a t hl hm).orderly
  live_eq b u h := by
    rw [run_bind] at h
    cases hr : p.run w.machine s with
    | error e =>
        rw [hr] at h
        cases h
    | ok r =>
        rw [hr] at h
        obtain ⟨hl, hm⟩ := hp.live_eq r.1 r.2 hr
        obtain ⟨hl', hm'⟩ := (hf r.1 r.2 hl hm).live_eq b u h
        exact ⟨hl', Nat.le_trans hm hm'⟩

/-- What follows does not touch handles. -/
theorem Leaving.andThen {p : Operation α} {f : α → Operation β} (hp : Leaving w left p s)
    (hf : ∀ a, (f a).Calls Handleless) : Leaving w left (p >>= f) s :=
  hp.bind fun a _ hl _ => hl ▸ leaving_handleless (hf a)

/-- A call needs its handle to be live and leaves it so. -/
theorem leaving_stub {r : Request} {decode : Reply → Option α} {ret : α} (hc : clnt ∈ s.live) :
    Leaving w s.live (stub clnt r decode ret) s where
  orderly := ⟨hc, fun _ _ => trivial⟩
  live_eq a t h := by
    obtain ⟨-, rfl⟩ := Prod.mk.inj (Except.ok.inj h)
    exact ⟨rfl, Nat.le_refl _⟩

/-- `clnt_destroy` of the newest handle leaves the others. -/
theorem leaving_destroy (hl : s.live = clnt :: left) :
    Leaving w left (net (.clntDestroy clnt)) s where
  orderly := (each_perform _).mpr (show clnt ∈ s.live by simp [hl])
  live_eq a t h := by
    rw [run_net] at h
    obtain ⟨-, rfl⟩ := Prod.mk.inj (Except.ok.inj h)
    exact ⟨by simp [hl], Nat.le_refl _⟩

/-- The way out of a loop destroys the handle that the operation made. -/
theorem leaving_finish (v : Int) (hl : s.live = clnt :: left) :
    Leaving w left (finish clnt v) s :=
  (leaving_destroy hl).andThen fun _ => calls_pure _

/-- `CONNECT_SERVER` uses no handle that is not live. -/
theorem connectServer_orderly (hs : s.Numbered) :
    connectServer.Each w.machine Orderly s := by
  have hnew : ∀ host, (⟨s.made, host⟩ : Clnt) ∉ s.live := by
    intro host hmem
    exact Nat.lt_irrefl _ (hs _ hmem)
  unfold connectServer
  refine each_bind.mpr ⟨(each_perform _).mpr (hnew _), fun a t h => ?_⟩
  cases a with
  | some clnt => trivial
  | none =>
      -- No handle was made.
      obtain rfl : t = s := by
        rw [run_net] at h
        simp only [Network.exec] at h
        split at h
        · cases h
        · exact (Prod.mk.inj (Except.ok.inj h)).2.symm
      refine each_bind.mpr ⟨(each_perform _).mpr (hnew _), fun a t' _ => ?_⟩
      cases a with
      | some clnt => trivial
      | none => exact each_bind.mpr ⟨(each_perform _).mpr trivial, fun e => e.elim⟩

/-- What comes after connecting starts with a new handle, or the process is left. -/
theorem connected_of_run {k : Clnt × Int → Operation β} {b : β}
    (h : (connectServer >>= k).run w.machine s = .ok (b, t)) : ∃ host isDegraded,
      (k (⟨s.made, host⟩, isDegraded)).run w.machine (s.connected host) = .ok (b, t) := by
  cases hc : w.chosen s with
  | none =>
      rw [run_bind, connectServer_run, hc] at h
      cases h
  | some host => exact ⟨host.1, host.2, (connected_run hc).symm.trans h⟩

/-- What follows `CONNECT_SERVER` is orderly when it is so with the fresh handle, on either host. -/
theorem orderly_connect {k : Clnt × Int → Operation β} (hs : s.Numbered)
    (hk : ∀ host isDegraded, (k (⟨s.made, host⟩, isDegraded)).Each w.machine Orderly
      (s.connected host)) : (connectServer >>= k).Each w.machine Orderly s := by
  refine each_bind.mpr ⟨connectServer_orderly hs, fun c t h => ?_⟩
  rw [connectServer_run] at h
  cases hc : w.chosen s with
  | none =>
      rw [hc] at h
      cases h
  | some host =>
      rw [hc] at h
      obtain ⟨rfl, rfl⟩ := Prod.mk.inj (Except.ok.inj h)
      exact hk host.1 host.2

/-- What follows `CONNECT_SERVER` leaves what it leaves with one handle more, on either host. -/
theorem leaving_connect {k : Clnt × Int → Operation β} (hs : s.Numbered)
    (hk : ∀ host isDegraded, Leaving w left (k (⟨s.made, host⟩, isDegraded)) (s.connected host)) :
    Leaving w left (connectServer >>= k) s where
  orderly := orderly_connect hs fun host isDegraded => (hk host isDegraded).orderly
  live_eq b u h := by
    obtain ⟨host, isDegraded, hrun⟩ := connected_of_run h
    obtain ⟨hl, hm⟩ := (hk host isDegraded).live_eq b u hrun
    exact ⟨hl, Nat.le_trans (Nat.le_succ _) hm⟩

/-- Connect, call, destroy: as many handles as before. -/
theorem leaving_callOnce {r : Identity → Request} {decode : Reply → Option α} {ret : α}
    (hs : s.Numbered) : Leaving w s.live (callOnce r decode ret) s :=
  leaving_connect hs fun _ _ => (leaving_stub (List.mem_cons_self ..)).bind fun _ _ hl _ =>
    (leaving_destroy hl).andThen fun _ => calls_pure _

/-! ## The loops -/

/-- **The loop of `bb_read`** destroys the handle on each of its ways out. -/
theorem readRounds_leaving {size : UInt64} (n : ℕ) {totalLen : Int} {arg : ReadArg}
    {ret : ReadRet} (hl : s.live = clnt :: left) :
    Leaving w left (readRounds clnt size n totalLen arg ret) s := by
  induction n generalizing totalLen arg ret s with
  | zero =>
      refine ⟨each_bind.mpr ⟨(each_perform _).mpr trivial, fun e => e.elim⟩, fun a t h => ?_⟩
      rw [readRounds, run_bind, run_net] at h
      cases h
  | succ n ih =>
      by_cases hlt : UInt64.ofInt totalLen < size
      · rw [readRounds_succ hlt]
        refine (leaving_stub (by simp [hl])).bind fun ret t ht _ => ?_
        rw [hl] at ht
        unfold readReply
        split
        · exact leaving_finish _ ht
        · split
          · exact leaving_finish _ ht
          · have hstore : (net (.store totalLen (Opaque.ofBytes ret.buffer))).Calls Handleless :=
              (calls_net _).mpr trivial
            exact (leaving_handleless hstore).bind fun _ u hu _ => ih (hu.trans ht)
      · rw [readRounds_done hlt]
        exact leaving_finish _ hl

/-- Whether the last reply of `bb_write` was an error, after the exchanges of an operation that
has started at the station `s`. -/
def WriteRefused (unset : Unset) (s t : Station σ) : Prop :=
  (writeTally unset.write (newExchanges s t)).1.ret < 0

/-- The loop of `bb_write` uses its own handle only. -/
theorem writeRounds_orderly {size : UInt64} {offset : Int64} (n : ℕ) {totalLen : Int}
    {arg : WriteArg} {ret : WriteRet} (hl : clnt ∈ s.live) :
    (writeRounds clnt size offset n totalLen arg ret).Each w.machine Orderly s := by
  induction n generalizing totalLen arg ret s with
  | zero => exact each_bind.mpr ⟨(each_perform _).mpr trivial, fun e => e.elim⟩
  | succ n ih =>
      rw [writeRounds_succ]
      have hstub : Leaving w s.live (stub clnt (.write arg) Reply.write? ret) s := leaving_stub hl
      refine each_bind.mpr ⟨hstub.orderly, fun ret t ht => ?_⟩
      have hlive : clnt ∈ t.live := by
        rw [(hstub.live_eq _ _ ht).1]
        exact hl
      unfold writeReply
      split
      · exact each_bind.mpr ⟨(each_perform _).mpr hlive, fun _ _ _ => trivial⟩
      · split
        · exact each_pure _
        · refine each_bind.mpr ⟨(each_perform _).mpr trivial, fun buffer u hu => ?_⟩
          rw [run_net] at hu
          obtain ⟨-, rfl⟩ := Prod.mk.inj (Except.ok.inj hu)
          exact ih hlive

/-- The loop of `bb_write` destroys the handle only when the last reply was an error. -/
theorem writeRounds_live {s₀ : Station σ} {size : UInt64} {offset : Int64} (n : ℕ)
    {totalLen v : Int} {arg : WriteArg} {unset : Unset} {prev : WriteRet}
    (hlen : s₀.log.length ≤ s.log.length)
    (hprev : (writeTally unset.write (newExchanges s₀ s)).1 = prev) (hl : s.live = clnt :: left)
    (h : (writeRounds clnt size offset n totalLen arg prev).run w.machine s = .ok (v, t)) :
    (WriteRefused unset s₀ t → t.live = left) ∧
    (¬ WriteRefused unset s₀ t → t.live = clnt :: left) := by
  induction n generalizing totalLen arg prev s with
  | zero =>
      rw [writeRounds, run_bind, run_net] at h
      cases h
  | succ n ih =>
      rw [writeRounds_succ, stub_run] at h
      let ret := ((w.answer clnt.host (.write arg) s.world).bind Reply.write?).getD prev
      let u := w.called clnt (.write arg) s
      change (writeReply clnt size offset n totalLen arg ret).run w.machine u = _ at h
      have htally : writeTally unset.write (newExchanges s₀ u) = (ret, ret.len) := by
        rw [newExchanges_called hlen, writeTally_concat, hprev]
      have hul : u.live = clnt :: left := hl
      rw [writeReply_run] at h
      split at h
      · next hret =>
        obtain ⟨-, rfl⟩ := Prod.mk.inj (Except.ok.inj h)
        have href : WriteRefused unset s₀ (u.dropped clnt) := by
          show (writeTally unset.write (newExchanges s₀ u)).1.ret < 0
          rw [htally]
          exact hret
        exact ⟨fun _ => by simp [Station.dropped, hul], fun hno => absurd href hno⟩
      · next hret =>
        split at h
        · obtain ⟨-, rfl⟩ := Prod.mk.inj (Except.ok.inj h)
          have href : ¬ WriteRefused unset s₀ u := by
            unfold WriteRefused
            rw [htally]
            exact hret
          exact ⟨fun hyes => absurd hyes href, fun _ => hul⟩
        · refine ih (s := u) ?_ (congrArg Prod.fst htally) hul h
          simp only [u, Network.called_log, List.length_append]
          omega

/-! ## The operations -/

section

variable {m : Mount} {unset : Unset}

/-- The operations that return the status leave no handle. -/
theorem statusOf_leaving (hs : s.Numbered) (r : Identity → Request) :
    Leaving w s.live (statusOf unset r) s :=
  (leaving_callOnce hs).andThen fun _ => calls_pure _

/-- The operations that return `-1` or 0 leave no handle. -/
theorem statusOrMinusOne_leaving (hs : s.Numbered) (r : Identity → Request) :
    Leaving w s.live (statusOrMinusOne unset r) s :=
  (leaving_callOnce hs).andThen fun _ => by split <;> exact calls_pure _

/-- Handing names to `filler` needs no handle. -/
theorem handleless_fill (n : ℕ) (entries : List Char) :
    (fillEntries n entries).Calls Handleless := by
  induction n generalizing entries with
  | zero => exact calls_pure _
  | succ n ih =>
      refine calls_bind ((calls_net _).mpr trivial) fun v => ?_
      split
      · exact calls_pure _
      · exact ih _

/-- `bb_getattr` leaves no handle, with the initialization before it or without. -/
theorem getattr_leaving (hs : s.Numbered) (path : CStr) :
    Leaving w s.live (bbGetattr m unset path) s := by
  have hinit : Leaving w s.live (initializeOnce m unset) s := by
    refine (leaving_handleless ((calls_net .initialized).mpr trivial)).bind fun done t hl hm => ?_
    split
    · exact hl ▸ leaving_pure _
    · refine Leaving.andThen (p := initRootdir m unset) ?_ fun _ => (calls_net _).mpr trivial
      rw [← hl]
      refine (leaving_callOnce (hs.of_made_le hl hm)).andThen fun ret => ?_
      split
      · exact calls_bind ((calls_net _).mpr trivial) fun e => e.elim
      · exact calls_pure _
  refine hinit.bind fun _ t hl hm => ?_
  rw [← hl]
  refine (leaving_callOnce (hs.of_made_le hl hm)).andThen fun ret => ?_
  split
  · exact calls_pure _
  · exact calls_bind ((calls_net _).mpr trivial) fun _ => calls_pure _

/-- `bb_readlink` leaves no handle. -/
theorem readlink_leaving (hs : s.Numbered) (path : CStr) (size : UInt64) :
    Leaving w s.live (bbReadlink m unset path size) s := by
  refine (leaving_callOnce hs).andThen fun ret => ?_
  refine calls_bind ((calls_net _).mpr trivial) fun _ => ?_
  split
  · exact calls_pure _
  · exact calls_bind ((calls_net _).mpr trivial) fun _ => calls_pure _

/-- `bb_statfs` leaves no handle. -/
theorem statfs_leaving (hs : s.Numbered) (path : CStr) :
    Leaving w s.live (bbStatfs m unset path) s := by
  refine leaving_connect hs fun host _ => (leaving_stub (List.mem_cons_self ..)).bind
    fun ret t hl _ => ?_
  split
  · exact leaving_finish _ hl
  · have hset : (net (.setStatv ret.vfs)).Calls Handleless := (calls_net _).mpr trivial
    exact (leaving_handleless hset).bind fun _ u hu _ => leaving_finish _ (hu.trans hl)

/-- An operation that is handed out a number, or fails. -/
theorem handle_leaving {ret : α} {r : Identity → Request} {decode : Reply → Option α}
    (hs : s.Numbered) {bad : α → Prop} [DecidablePred bad] {fd : α → Int} :
    Leaving w s.live (do
      let ret ← callOnce r decode ret
      if bad ret then return -1
      else
        net (.setHandle (UInt64.ofInt (fd ret)))
        return 0 : Operation Int) s := by
  refine (leaving_callOnce hs).andThen fun ret => ?_
  split
  · exact calls_pure _
  · exact calls_bind ((calls_net _).mpr trivial) fun _ => calls_pure _

/-- **Every operation but `bb_write`** destroys what it has made. -/
theorem operation_leaving {op : Fuse} (hs : s.Numbered) (n : ℕ)
    (hop : ∀ path size offset fi, op ≠ .write path size offset fi) :
    Leaving w s.live (operation n m unset op) s := by
  cases op with
  | getattr path => exact getattr_leaving hs path
  | readlink path size => exact readlink_leaving hs path size
  | chown path uid gid => exact leaving_pure _
  | openFile path fi => exact handle_leaving hs
  | opendir path fi => exact handle_leaving hs
  | read path size offset fi =>
      exact leaving_connect hs fun host _ => readRounds_leaving n rfl
  | write path size offset fi => exact absurd rfl (hop path size offset fi)
  | statfs path => exact statfs_leaving (m := m) hs path
  | readdir path fi =>
      refine (leaving_callOnce hs).andThen fun ret => ?_
      split
      · exact calls_pure _
      · exact handleless_fill _ _
  | link path newpath => exact statusOrMinusOne_leaving hs _
  | release path fi => exact statusOrMinusOne_leaving hs _
  | releasedir path fi => exact statusOrMinusOne_leaving hs _
  | _ => exact statusOf_leaving hs _

end

/-! ## Sequences of operations -/

/-- An operation that is asked for, with the rounds that its loop may take, the memory that it
finds, and what has become of the servers in the meantime. -/
structure Invocation (σ : Type) where
  op : Fuse
  rounds : ℕ
  unset : Unset
  caller : Caller
  meanwhile : σ → σ

/-- The station that an operation starts at. -/
def Station.arrive (s : Station σ) (i : Invocation σ) : Station σ :=
  { s with world := i.meanwhile s.world, caller := i.caller }

/-- One operation of a mounted client. -/
def invoke (w : Network σ) (m : Mount) (i : Invocation σ) (s : Station σ) :
    Except Stop (Int × Station σ) :=
  (operation i.rounds m i.unset i.op).run w.machine (s.arrive i)

/-- The operation uses no handle that is not live, and leaves as many as there were. -/
structure Balanced (w : Network σ) (m : Mount) (e : Event (Invocation σ) Int (Station σ)) :
    Prop where
  orderly : (operation e.input.rounds m e.input.unset e.input.op).Each w.machine Orderly
    (e.pre.arrive e.input)
  live_eq : e.post.live = e.pre.live

/-- If the operation is a `bb_write`, the last reply it got is an error. -/
def EndsWithError (e : Event (Invocation σ) Int (Station σ)) : Prop :=
  ∀ path size offset fi, e.input.op = .write path size offset fi →
    WriteRefused e.input.unset e.pre e.post

variable {m : Mount}

/-- Every step keeps the handles numbered below the counter. -/
theorem exec_numbered {c : Net β} {b : β} (h : w.exec c s = .ok (b, t)) (hs : s.Numbered) :
    t.Numbered := by
  cases c with
  | clntCreate host =>
      simp only [Network.exec] at h
      split at h
      · obtain ⟨-, rfl⟩ := Prod.mk.inj (Except.ok.inj h)
        intro clnt hc
        rcases List.mem_cons.mp hc with rfl | hc
        · exact Nat.lt_succ_self _
        · exact Nat.lt_succ_of_lt (hs clnt hc)
      · obtain ⟨-, rfl⟩ := Prod.mk.inj (Except.ok.inj h)
        exact hs
  | clntCall clnt r =>
      obtain ⟨-, rfl⟩ := Prod.mk.inj (Except.ok.inj h)
      exact hs
  | clntDestroy clnt =>
      obtain ⟨-, rfl⟩ := Prod.mk.inj (Except.ok.inj h)
      intro clnt' hc
      exact hs clnt' (List.mem_of_mem_erase hc)
  | _ =>
      obtain ⟨hl, hm⟩ := exec_handleless h trivial
      exact hs.of_made_le hl (Nat.le_of_eq hm.symm)

/-- Handles that are made later are other ones. -/
theorem run_numbered {p : Operation α} {a : α} (h : p.run w.machine s = .ok (a, t))
    (hs : s.Numbered) : t.Numbered :=
  (calls_true p).run_rel (R := fun s t : Station σ => s.Numbered → t.Numbered) (fun _ h => h)
    (fun _ _ _ h h' hs => h' (h hs)) (fun _ _ _ _ _ hstep => exec_numbered hstep) h hs

/-- **One operation.** -/
theorem balanced_iff {e : Event (Invocation σ) Int (Station σ)} (hs : e.pre.Numbered)
    (hr : invoke w m e.input e.pre = .ok (e.output, e.post)) :
    Balanced w m e ↔ EndsWithError e := by
  obtain ⟨s, ⟨op, rounds, unset, caller, meanwhile⟩, v, t⟩ := e
  let u : Station σ := s.arrive ⟨op, rounds, unset, caller, meanwhile⟩
  have hu : u.Numbered := hs
  by_cases hop : ∃ path size offset fi, op = .write path size offset fi
  · obtain ⟨path, size, offset, fi, rfl⟩ := hop
    change (bbWrite rounds m unset path size offset fi).run w.machine u = .ok (v, t) at hr
    have horder : (bbWrite rounds m unset path size offset fi).Each w.machine Orderly u :=
      orderly_connect hu fun host _ => each_bind.mpr ⟨(each_perform _).mpr trivial, fun _ t ht => by
        rw [run_net] at ht
        obtain ⟨-, rfl⟩ := Prod.mk.inj (Except.ok.inj ht)
        exact writeRounds_orderly rounds (List.mem_cons_self ..)⟩
    obtain ⟨host, isDegraded, hrun⟩ := connected_of_run hr
    change (writeRounds ⟨u.made, host⟩ size offset rounds 0
      (firstWrite m path size offset fi isDegraded (u.caller.load 0)) unset.write).run w.machine
      (u.connected host) = .ok (v, t) at hrun
    have hnew : (writeTally unset.write (newExchanges u (u.connected host))).1 = unset.write := by
      rw [newExchanges_start]
      rfl
    have hl : (u.connected host).live = ⟨u.made, host⟩ :: s.live := rfl
    have hlen : u.log.length ≤ (u.connected host).log.length := Nat.le_refl _
    obtain ⟨href, hdone⟩ := writeRounds_live rounds hlen hnew hl hrun
    constructor
    · intro hb path' size' offset' fi' hop
      by_contra hno
      have hlive := hdone hno
      rw [hb.live_eq] at hlive
      exact absurd (congrArg List.length hlive) (by simp)
    · intro he
      exact ⟨horder, href (he path size offset fi rfl)⟩
  · have hleaving : Leaving w u.live (operation rounds m unset op) u :=
      operation_leaving hu rounds fun path size offset fi h => hop ⟨path, size, offset, fi, h⟩
    refine iff_of_true ⟨hleaving.orderly, (hleaving.live_eq _ _ hr).1⟩ ?_
    intro path size offset fi h
    exact absurd ⟨path, size, offset, fi, h⟩ hop

/-- **Client handles over a sequence of operations**: all operations destroy what they have made
exactly when every `bb_write` among them ends with an error. -/
theorem connections_balanced_iff {tr : List (Event (Invocation σ) Int (Station σ))}
    (h : Runs (invoke w m) s tr t) (hs : s.Numbered) :
    (∀ e ∈ tr, Balanced w m e) ↔ ∀ e ∈ tr, EndsWithError e := by
  have hiff := h.along_iff (J := fun _ s => s.Numbered) (P := fun _ e => Balanced w m e)
    (C := fun _ e => EndsWithError e) hs fun past e hpre hr =>
      ⟨balanced_iff hpre hr, fun _ => run_numbered hr hpre⟩
  simpa only [Runs.along_mem] using hiff

end

/-- An operation of that client, in a loop of one round at most. -/
def invocation (op : Fuse) : Invocation Unit := ⟨op, 1, .zero, .blank, id⟩

/-- An unlink with a server that answers: no handle is left. -/
theorem connections_balanced_unlink : ∃ v t,
    invoke obliging ⟨[], []⟩ (invocation (.unlink [])) obliged = .ok (v, t) ∧
    t.live = [] := by
  refine ⟨0, _, rfl, ?_⟩
  have hall := (connections_balanced_iff (w := obliging) (m := ⟨[], []⟩)
    (Runs.single (i := invocation (.unlink [])) (s := obliged) (o := 0) rfl)
    (fun _ h => nomatch h)).mpr (by
      intro e he path size offset fi hop
      rw [List.mem_singleton.mp he] at hop
      cases hop)
  exact (hall _ (List.mem_singleton.mpr rfl)).live_eq

/-- A write that succeeds keeps its handle. -/
theorem write_leaks : ¬ ∀ {σ : Type} (w : Network σ) (m : Mount) (s t : Station σ)
    (tr : List (Event (Invocation σ) Int (Station σ))), Runs (invoke w m) s tr t → s.Numbered →
    ∀ e ∈ tr, Balanced w m e := by
  intro hall
  have hwrite : invoke obliging ⟨[], []⟩ (invocation (.write [] 0 0 ⟨0, 0⟩)) obliged =
    .ok (0, _) := rfl
  have hrun := Runs.single hwrite
  have hlive := (hall obliging _ _ _ _ hrun (fun _ h => nomatch h) _
    (List.mem_singleton.mpr rfl)).live_eq
  exact absurd (congrArg List.length hlive) (by decide)

end Client

end DFS
