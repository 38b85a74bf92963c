import NetworkFileSystem.Client.Rounds

/-!
# Writing a file in rounds (`bb_write`)

The next round of `bb_write` starts behind the bytes of the last round only: its offset and its
size count that round and not the ones before.  So two rounds put the buffer where it belongs and
more do not; and one message carries no more than `MAX_SIZE` bytes of it.

**`write_whole_iff`** says which lengths and short counts come out right.
-/

namespace DFS

open Effects Posix Prog
open Words (toNat_ofInt32 toNat_ofInt64)

namespace Client

/-- The request of a round of `bb_write` after `total` bytes, of which the last round has moved
`last`, and the state it finds. -/
structure Writing (fd : Int) (i : Ino) (d : List UInt8) (size offset : ℕ)
    (s₀ : Station (Host × ℕ)) (total last : ℕ) (arg : WriteArg) (s : Station (Host × ℕ)) :
    Prop where
  fd_eq : arg.fd = fd
  master : arg.serverInfo.isMaster = 1
  offset_eq : arg.offset.toNat = offset + last
  size_eq : arg.size.toNat = size - last
  buffer_eq : arg.buffer = s.caller.load total
  opens : WritesTo fd i d s.world.1.os
  last_le : last ≤ size
  moved : transferred (newExchanges s₀ s) = total
  logged : s₀.log.length ≤ s.log.length

/-- The sum of the bytes moved stays a value of an `int`. -/
def Summable (s₀ : Station (Host × ℕ)) (_clnt : Clnt) (_r : Request) (u : Station (Host × ℕ)) :
    Prop :=
  transferred (newExchanges s₀ u) < 2 ^ 31

/-- Others leave the open file alone. -/
def Course.Leaves (c : Course) (fd : Int) (i : Ino) : Prop :=
  ∀ k h d, WritesTo fd i d h.os → WritesTo fd i d (c.meanwhile k h).os

variable {c : Course} {clnt : Clnt} {s s₀ t : Station (Host × ℕ)} {fd : Int} {i : Ino}
  {d : List UInt8} {size : UInt64} {off : Int64} {total last n : ℕ} {arg : WriteArg}
  {prev : WriteRet}

/-- What the server moves in the round. -/
def Course.moves (c : Course) (arg : WriteArg) (s : Station (Host × ℕ)) : List UInt8 :=
  portion (c.meanwhile s.world.2 s.world.1).os arg (c.limit s.world.2)

/-- A round moves no more than it is asked for, and no more than the schedule allows. -/
theorem length_moves (c : Course) (arg : WriteArg) (s : Station (Host × ℕ)) :
    (c.moves arg s).length ≤ arg.size.toNat ∧ (c.moves arg s).length ≤ c.limit s.world.2 := by
  unfold Course.moves portion
  have hlen := List.length_take_le (min (min arg.size.toNat (c.limit s.world.2)) maxRwCount)
    (arg.buffer.bytes ++ (c.meanwhile s.world.2 s.world.1).os.beyond)
  omega

/-- **One round** of `bb_write`. -/
theorem writing_round (hoff : 0 ≤ off.toInt) (hfit : off.toInt + size.toNat < 2 ^ 31)
    (hleaves : c.Leaves fd i)
    (hw : Writing fd i d size.toNat off.toInt.toNat s₀ total last arg s)
    {b : List UInt8} (hb : b = c.moves arg s) {u : Station (Host × ℕ)}
    (hu : u = c.network.called clnt (.write arg) s) :
    c.network.answer clnt.host (.write arg) s.world = some (.write ⟨b.length, 0⟩) ∧
    content u.world.1.os.fs i = some (splice d (off.toInt.toNat + last) b) ∧
    Writing fd i (splice d (off.toInt.toNat + last) b) size.toNat off.toInt.toNat s₀
      (total + b.length) b.length
      (nextWrite size off arg b.length (s.caller.load (total + b.length : ℕ))) u ∧
    u.world.1.os = ((c.meanwhile s.world.2 s.world.1).os.rewritten i
      (splice d (off.toInt.toNat + last) b)).released fd := by
  have hopen := hleaves s.world.2 s.world.1 d hw.opens
  rw [← hw.fd_eq] at hopen
  have hrole : ¬ arg.byPath := by
    intro h
    have hmaster := h.1
    rw [hw.master] at hmaster
    cases hmaster
  obtain ⟨hans, sent, hworld⟩ := @course_write c s.world clnt.host d i false arg hrole hopen
  have hlen := (length_moves c arg s).1
  rw [← hb, hw.size_eq] at hlen
  replace hans : c.network.answer clnt.host (.write arg) s.world = some (.write ⟨b.length, 0⟩) := by
    rw [hans, hb]
    rfl
  replace hworld : (c.network.call clnt.host (.write arg) s.world).2 =
      (⟨((c.meanwhile s.world.2 s.world.1).os.rewritten i (splice d (off.toInt.toNat + last)
        b)).released arg.fd, sent⟩, s.world.2 + 1) := by
    rw [hworld, hb, ← hw.offset_eq]
    rfl
  have hafter : WritesTo fd i (splice d (off.toInt.toNat + last) b) u.world.1.os := by
    rw [show u.world = _ from (congrArg Station.world hu).trans hworld, ← hw.fd_eq]
    exact WritesAs.released (hopen.rewritten _) _
  have hlast := hw.last_le
  refine ⟨hans, hafter.content_eq, ⟨hw.fd_eq, hw.master, ?_, ?_, ?_, hafter, by omega, ?_, ?_⟩, ?_⟩
  · show (UInt32.ofInt (off.toInt + b.length)).toNat = _
    rw [toNat_ofInt32]
    omega
  · show (size - UInt64.ofInt b.length).toUInt32.toNat = _
    have hnat : (UInt64.ofInt (b.length : Int)).toNat = b.length := by
      rw [toNat_ofInt64]
      omega
    rw [UInt64.toNat_toUInt32, UInt64.toNat_sub_of_le _ _
      (by rw [UInt64.le_iff_toNat_le, hnat]; omega), hnat]
    omega
  · rw [hu]
    rfl
  · rw [hu, newExchanges_called hw.logged, transferred_concat, hw.moved, hans]
    rfl
  · rw [hu, Network.called_log, List.length_append]
    exact Nat.le_add_right_of_le hw.logged
  · rw [show u.world = _ from (congrArg Station.world hu).trans hworld, hw.fd_eq]

/-- The sum is the length that was asked for. -/
theorem ofInt_toInt_eq_iff (hsize : size.toNat < 2 ^ 31) (hn : n < 2 ^ 32) :
    UInt64.ofInt (toInt n) = size ↔ n = size.toNat := by
  have hbig : (Int32.size : Int) = 2 ^ 32 := rfl
  have htoInt : toInt n = if n < 2 ^ 31 then (n : Int) else n - 2 ^ 32 := by
    rw [toInt, Int32.toInt_ofInt, Int.bmod_def, hbig]
    split <;> split <;> omega
  rw [← UInt64.toNat_inj, toNat_ofInt64, htoInt]
  split <;> omega

/-- What the loop does after a round. -/
def restOf (clnt : Clnt) (size : UInt64) (off : Int64) (n total : ℕ) (arg : WriteArg) (len : ℕ)
    (mem : Caller) : Operation Int :=
  writeRounds clnt size off n (toInt (total + len : ℕ))
    (nextWrite size off arg len (mem.load (toInt (total + len : ℕ)))) ⟨len, 0⟩

/-- A round ends the loop exactly when the sum is the length that was asked for. -/
theorem round_run {b : List UInt8} (hsize : size.toNat < 2 ^ 31) (hsum : total + b.length < 2 ^ 32)
    (hans : c.network.answer clnt.host (.write arg) s.world = some (.write ⟨b.length, 0⟩)) :
    (writeRounds clnt size off (n + 1) total arg prev).run c.network.machine s =
      if total + b.length = size.toNat then
        .ok ((size.toNat : Int), c.network.called clnt (.write arg) s)
      else (restOf clnt size off n total arg b.length s.caller).run c.network.machine
        (c.network.called clnt (.write arg) s) := by
  have hret : ¬ (⟨b.length, 0⟩ : WriteRet).ret < 0 := Int.lt_irrefl 0
  have hdone := ofInt_toInt_eq_iff hsize hsum
  rw [Int.natCast_add] at hdone
  rw [writeRounds_succ, stub_run, hans]
  show (writeReply clnt size off n total arg ⟨b.length, 0⟩).run _ _ = _
  rw [writeReply_run, if_neg hret]
  by_cases heq : total + b.length = size.toNat
  · have hval : toInt ((total : Int) + b.length) = size.toNat := by
      rw [toInt_of_lt (by omega) (by omega)]
      omega
    rw [if_pos heq, if_pos (hdone.mpr heq), ← hval]
  · rw [if_neg heq, if_neg (fun h => heq (hdone.mp h)), restOf, Int.natCast_add]
    rfl

/-- What one round of `bb_write` sends, and the rounds that come after it. -/
theorem round_each {b : List UInt8} {P : Clnt → Request → Station (Host × ℕ) → Prop}
    (hsize : size.toNat < 2 ^ 31) (hsum : total + b.length < 2 ^ 32)
    (hans : c.network.answer clnt.host (.write arg) s.world = some (.write ⟨b.length, 0⟩)) :
    (writeRounds clnt size off (n + 1) total arg prev).Each c.network.machine (OnCall P) s ↔
      P clnt (.write arg) s ∧ (total + b.length ≠ size.toNat →
        (restOf clnt size off n total arg b.length s.caller).Each c.network.machine (OnCall P)
          (c.network.called clnt (.write arg) s)) := by
  have hret : ¬ (⟨b.length, 0⟩ : WriteRet).ret < 0 := Int.lt_irrefl 0
  have hdone := ofInt_toInt_eq_iff hsize hsum
  rw [Int.natCast_add] at hdone
  rw [writeRounds_succ, stub_each, hans]
  refine and_congr_right fun _ => ?_
  show (writeReply clnt size off n total arg ⟨b.length, 0⟩).Each _ _ _ ↔ _
  unfold writeReply
  rw [if_neg hret]
  by_cases heq : total + b.length = size.toNat
  · rw [if_pos (hdone.mpr heq)]
    exact iff_of_true (each_pure _) fun h => absurd heq h
  · rw [if_neg (fun h => heq (hdone.mp h)), restOf, Int.natCast_add]
    have hload : (net (.load (toInt ((total : Int) + b.length)))).run c.network.machine
        (c.network.called clnt (.write arg) s) = .ok (s.caller.load _, _) := run_net _
    refine (each_bind_of_run ((each_perform _).mpr trivial) hload).trans ?_
    exact ⟨fun h _ => h, fun h => h heq⟩

/-- The rest of the loop, as long as `total_len` is an `int`. -/
theorem restOf_eq {n len : ℕ} {mem : Caller} (h : total + len < 2 ^ 31) :
    restOf clnt size off n total arg len mem =
      writeRounds clnt size off n (total + len : ℕ)
        (nextWrite size off arg len (mem.load (total + len : ℕ))) ⟨len, 0⟩ := by
  rw [restOf, toInt_of_lt (by omega) (by omega)]

/-- A round moves something. -/
theorem moves_pos (hw : Writing fd i d size.toNat off.toInt.toNat s₀ total last arg s)
    (hlast : last < size.toNat) (hlimit : ∀ k, 1 ≤ c.limit k) : 1 ≤ (c.moves arg s).length := by
  have hk := hlimit s.world.2
  have hbuffer := arg.buffer.length_eq
  have hsize : maxSize = 4096 := rfl
  have hcount : maxRwCount = 0x7ffff000 := rfl
  unfold Course.moves portion
  rw [List.length_take, List.length_append, hw.size_eq]
  omega

/-- What a round moves when it stays within the message. -/
theorem moves_eq (hw : Writing fd i d size.toNat off.toInt.toNat s₀ total last arg s)
    {k : ℕ} (hk : min (size.toNat - last) (c.limit s.world.2) = k) (hle : k ≤ maxSize) :
    c.moves arg s = s.caller.bytes total k := by
  have hsize : maxSize = 4096 := rfl
  have hcount : maxRwCount = 0x7ffff000 := rfl
  have hbuffer := arg.buffer.length_eq
  unfold Course.moves portion
  rw [hw.size_eq, hk, Nat.min_eq_left (by omega), List.take_append_of_le_length (by omega),
    hw.buffer_eq, bytes_load, bytes_take _ _ hle]

/-- **More than two rounds leave the file too short**: once two rounds have not been enough, the
bytes of each further one are counted and put somewhere before the end. -/
theorem later_rounds_short (hoff : 0 ≤ off.toInt) (hfit : off.toInt + size.toNat < 2 ^ 31)
    (hlimit : ∀ k, 1 ≤ c.limit k) (hleaves : c.Leaves fd i)
    (hw : Writing fd i d size.toNat off.toInt.toNat s₀ total last arg s)
    (hd : d.length ≤ off.toInt.toNat + total) (hpos : 0 < last) (hlt : last < total)
    (hlast : last < size.toNat) {v : Int}
    (hrun : (writeRounds clnt size off n total arg prev).run c.network.machine s = .ok (v, t))
    (heach : (writeRounds clnt size off n total arg prev).Each c.network.machine
      (OnCall (Summable s₀)) s) :
    ∃ d', content t.world.1.os.fs i = some d' ∧ d'.length < off.toInt.toNat + size.toNat := by
  induction n generalizing d total last arg prev s with
  | zero => cases hrun
  | succ n ih =>
      have hmoved := hw.moved
      let b := c.moves arg s
      let u := c.network.called clnt (.write arg) s
      obtain ⟨hans, hcontent, hnext, -⟩ := @writing_round c clnt s s₀ fd i d size off total last arg
        hoff hfit hleaves hw b rfl u rfl
      have hb : 1 ≤ b.length := moves_pos hw hlast hlimit
      have hle : b.length ≤ size.toNat - last := hw.size_eq ▸ (length_moves c arg s).1
      have hne : b ≠ [] := List.ne_nil_of_length_pos hb
      have hsum : (total : Int) < 2 ^ 31 := by
        rw [writeRounds_succ, stub_each] at heach
        rw [← hmoved]
        exact heach.1
      rw [round_run (by omega) (by omega) hans] at hrun
      rw [round_each (by omega) (by omega) hans] at heach
      have hlength := length_splice d (off.toInt.toNat + last) hne
      by_cases hdone : total + b.length = size.toNat
      · rw [if_pos hdone] at hrun
        obtain ⟨-, rfl⟩ := Prod.mk.inj (Except.ok.inj hrun)
        exact ⟨_, hcontent, by omega⟩
      · rw [if_neg hdone] at hrun
        have hrest := heach.2 hdone
        have hsmall : total + b.length < 2 ^ 31 := by
          cases n with
          | zero => cases hrun
          | succ n =>
              rw [restOf, writeRounds_succ, stub_each] at hrest
              have hmoved' := hnext.moved
              have hcall := hrest.1
              unfold Summable at hcall
              rw [hmoved'] at hcall
              omega
        rw [restOf_eq hsmall] at hrun hrest
        exact ih hnext (by omega) (by omega) (by omega) (by omega) hrun hrest

/-! ## The operation -/

/-- `bb_write` has put the buffer where it belongs and says so. -/
structure Replaced (c : Course) (s : Station (Host × ℕ)) (p : Operation Int) (i : Ino)
    (d : List UInt8) (size offset : ℕ) : Prop where
  returns : ∃ t, p.run c.network.machine s = .ok ((size : Int), t) ∧
    content t.world.1.os.fs i = some (splice d offset (s.caller.bytes 0 size))
  summable : p.Each c.network.machine (OnCall (Summable s)) s

/-- Every buffer of this length comes to its place in every file, in a finite number of rounds
whose sum no `int` is too small for. -/
def ReplacesAlways (limit : ℕ → ℕ) (size : UInt64) (off : Int64) : Prop :=
  ∀ (c : Course) (s : Station (Host × ℕ)) (m : Mount) (unset : Unset) (path : CStr) (fi : FileInfo)
    (i : Ino) (d : List UInt8), c.limit = limit → s.world.2 = 0 → c.Leaves fi.fd i →
    WritesTo fi.fd i d s.world.1.os → ∃ rounds,
      Replaced c s (bbWrite rounds m unset path size off fi) i d size.toNat off.toInt.toNat

/-- One round is enough and fits a message, or two are and do. -/
def AtMostTwo (limit : ℕ → ℕ) (size : ℕ) : Prop :=
  (size ≤ limit 0 ∧ size ≤ maxSize) ∨
  (limit 0 < size ∧ limit 0 ≤ maxSize ∧ size - limit 0 ≤ limit 1 ∧ size - limit 0 ≤ maxSize)

section

variable {m : Mount} {unset : Unset} {path : CStr} {fi : FileInfo}

/-- How `bb_write` starts. -/
theorem bbWrite_start (hoff : 0 ≤ off.toInt) (hfit : off.toInt + size.toNat < 2 ^ 31)
    (hopen : WritesTo fi.fd i d s.world.1.os) : ∃ clnt arg u,
      Writing fi.fd i d size.toNat off.toInt.toNat s 0 0 arg u ∧ u.world = s.world ∧
      u.caller = s.caller ∧ ∀ n, (bbWrite n m unset path size off fi).run c.network.machine s =
        (writeRounds clnt size off n (0 : ℕ) arg unset.write).run c.network.machine u ∧
      ((bbWrite n m unset path size off fi).Each c.network.machine (OnCall (Summable s)) s ↔
        (writeRounds clnt size off n (0 : ℕ) arg unset.write).Each c.network.machine
          (OnCall (Summable s)) u) := by
  obtain ⟨isDegraded, hc⟩ := @course_chosen c s
  refine ⟨⟨s.made, c.here⟩, firstWrite m path size off fi isDegraded (s.caller.load 0),
    s.connected c.here, ⟨rfl, rfl, ?_, ?_, rfl, hopen, Nat.zero_le _, ?_, Nat.le_refl _⟩, rfl, rfl,
    fun n => ⟨bbWrite_run hc, ?_⟩⟩
  · show (UInt32.ofInt off.toInt).toNat = _
    rw [toNat_ofInt32]
    omega
  · show size.toUInt32.toNat = _
    rw [UInt64.toNat_toUInt32]
    omega
  · rw [newExchanges_start]
    rfl
  · have hload : (net (.load 0)).run c.network.machine (s.connected c.here) =
      .ok (s.caller.load 0, s.connected c.here) := run_net _
    exact (connected_each hc).trans (each_bind_of_run ((each_perform _).mpr trivial) hload)

end

/-- A round that moves what is missing is the last one. -/
theorem last_round (hoff : 0 ≤ off.toInt) (hfit : off.toInt + size.toNat < 2 ^ 31)
    (hleaves : c.Leaves fd i)
    (hw : Writing fd i d size.toNat off.toInt.toNat s₀ total last arg s)
    (hlast : last = total) (hle : size.toNat - total ≤ c.limit s.world.2)
    (hfits : size.toNat - total ≤ maxSize) : ∃ t,
    (writeRounds clnt size off (n + 1) total arg prev).run c.network.machine s =
      .ok ((size.toNat : Int), t) ∧
    content t.world.1.os.fs i = some (splice d (off.toInt.toNat + total)
      (s.caller.bytes total (size.toNat - total))) ∧
    (writeRounds clnt size off (n + 1) total arg prev).Each c.network.machine
      (OnCall (Summable s₀)) s := by
  subst hlast
  have hmoves := moves_eq hw (Nat.min_eq_left hle) hfits
  obtain ⟨hans, hcontent, -⟩ := @writing_round c clnt s s₀ fd i d size off last last arg hoff hfit
    hleaves hw _ hmoves.symm _ rfl
  have hlen := length_bytes s.caller last (size.toNat - last)
  have hlastle := hw.last_le
  have hdone : last + (s.caller.bytes last (size.toNat - last)).length = size.toNat := by omega
  have hsum : last + (s.caller.bytes last (size.toNat - last)).length < 2 ^ 32 := by omega
  refine ⟨c.network.called clnt (.write arg) s, ?_, hcontent, ?_⟩
  · rw [round_run (by omega) hsum hans, if_pos hdone]
  · rw [round_each (by omega) hsum hans]
    refine ⟨?_, fun h => absurd hdone h⟩
    unfold Summable
    rw [hw.moved]
    omega

/-- A round after which another one follows. -/
theorem next_round (hoff : 0 ≤ off.toInt) (hfit : off.toInt + size.toNat < 2 ^ 31)
    (hleaves : c.Leaves fd i)
    (hw : Writing fd i d size.toNat off.toInt.toNat s₀ total last arg s) {b : List UInt8}
    (hb : b = c.moves arg s) (hne : total + b.length ≠ size.toNat)
    (hsum : total + b.length < 2 ^ 31) : ∃ arg' prev' u,
    Writing fd i (splice d (off.toInt.toNat + last) b) size.toNat off.toInt.toNat s₀
      (total + b.length) b.length arg' u ∧ u.caller = s.caller ∧ u.world.2 = s.world.2 + 1 ∧
    u.world.1.os.beyond = (c.meanwhile s.world.2 s.world.1).os.beyond ∧
    (writeRounds clnt size off (n + 1) total arg prev).run c.network.machine s =
      (writeRounds clnt size off n (total + b.length : ℕ) arg' prev').run c.network.machine u ∧
    ((writeRounds clnt size off (n + 1) total arg prev).Each c.network.machine
        (OnCall (Summable s₀)) s ↔
      (writeRounds clnt size off n (total + b.length : ℕ) arg' prev').Each c.network.machine
        (OnCall (Summable s₀)) u) := by
  obtain ⟨hans, -, hnext, hos⟩ := @writing_round c clnt s s₀ fd i d size off total last arg hoff
    hfit hleaves hw b hb _ rfl
  have hbeyond : (c.network.called clnt (.write arg) s).world.1.os.beyond =
      (c.meanwhile s.world.2 s.world.1).os.beyond := by
    rw [hos]
    rfl
  refine ⟨_, ⟨b.length, 0⟩, c.network.called clnt (.write arg) s, hnext, rfl, course_next _,
    hbeyond, ?_, ?_⟩
  · rw [round_run (by omega) (by omega) hans, if_neg hne, restOf_eq hsum]
  · rw [round_each (by omega) (by omega) hans, restOf_eq hsum]
    have hmoved : Summable s₀ clnt (.write arg) s := by
      unfold Summable
      rw [hw.moved]
      omega
    exact ⟨fun h => h.2 hne, fun h => ⟨hmoved, fun _ => h⟩⟩

/-- Two rounds at most put the buffer where it belongs. -/
theorem replaces_of_atMostTwo {limit : ℕ → ℕ} (hoff : 0 ≤ off.toInt)
    (hfit : off.toInt + size.toNat < 2 ^ 31) (htwo : AtMostTwo limit size.toNat) :
    ReplacesAlways limit size off := by
  intro c s m unset path fi i d hlimit hstart hleaves hopen
  subst hlimit
  obtain ⟨clnt, arg, u, hw, hworld, hcaller, hrun⟩ :=
    @bbWrite_start c s i d size off m unset path fi hoff hfit hopen
  refine ⟨2, ?_⟩
  obtain ⟨hrun, heach⟩ := hrun 2
  have hround : u.world.2 = 0 := by rw [hworld, hstart]
  rcases htwo with ⟨hle, hmax⟩ | ⟨hlt, hfirst, hle, hmax⟩
  · -- All in one round.
    obtain ⟨t, ht, hcontent, hsum⟩ :=
      @last_round c clnt u s fi.fd i d size off 0 0 1 arg unset.write hoff hfit hleaves hw rfl
        (by rw [hround]; exact hle) hmax
    rw [Nat.add_zero, Nat.sub_zero, hcaller] at hcontent
    exact ⟨⟨t, hrun.trans ht, hcontent⟩, heach.mpr hsum⟩
  · -- All but the rest in the first round.
    have hmoves : c.moves arg u = s.caller.bytes 0 (c.limit 0) := by
      rw [← hcaller]
      exact moves_eq hw (by rw [hround]; omega) hfirst
    have hlen : (s.caller.bytes 0 (c.limit 0)).length = c.limit 0 := length_bytes _ _ _
    obtain ⟨arg', prev', v, hw', hcaller', hworld', -, hrun', heach'⟩ :=
      @next_round c clnt u s fi.fd i d size off 0 0 1 arg unset.write hoff hfit hleaves hw _
        hmoves.symm (by rw [hlen]; omega) (by rw [hlen]; omega)
    rw [Nat.zero_add, hlen] at hw' hrun' heach'
    rw [hround, Nat.zero_add] at hworld'
    obtain ⟨t, ht, hcontent, hsum⟩ := @last_round c clnt v s fi.fd i _ size off _ _ 0 arg' prev'
      hoff hfit hleaves hw' rfl (by rw [hworld']; exact hle) hmax
    refine ⟨⟨t, (hrun.trans hrun').trans ht, ?_⟩, heach.mpr (heach'.mpr hsum)⟩
    have hjoin := splice_splice d off.toInt.toNat (s.caller.bytes 0 (c.limit 0))
      (s.caller.bytes (c.limit 0) (size.toNat - c.limit 0))
    have hall := bytes_append s.caller 0 (c.limit 0) (size.toNat - c.limit 0)
    rw [Nat.add_sub_cancel' (Nat.le_of_lt hlt), Int.zero_add] at hall
    rw [hlen] at hjoin
    rw [hcontent, hcaller', hcaller, Nat.add_zero, hjoin, hall]

/-! ## Why no more -/

/-- A client whose buffer holds zeros, at a server with an empty file and with ones behind its
message buffer. -/
def zeroWriter : Station (Host × ℕ) := atServer (serving [] (List.replicate (2 ^ 31) 1)) fun _ => 0

/-- Zeros come from the message only. -/
theorem zeros_in_message {limit : ℕ → ℕ} (hfit : size.toNat < 2 ^ 31)
    (hw : Writing fd i d size.toNat off.toInt.toNat s₀ total last arg s)
    (hbeyond : s.world.1.os.beyond = List.replicate (2 ^ 31) 1) :
    ((Course.quiet limit).moves arg s).length =
      min (min (size.toNat - last) (limit s.world.2)) maxRwCount ∧
    ((∀ x ∈ (Course.quiet limit).moves arg s, x = 0) →
      ((Course.quiet limit).moves arg s).length ≤ maxSize) := by
  have hmoves : (Course.quiet limit).moves arg s =
      (arg.buffer.bytes ++ List.replicate (2 ^ 31) 1).take
        (min (min (size.toNat - last) (limit s.world.2)) maxRwCount) := by
    show portion s.world.1.os arg (limit s.world.2) = _
    rw [portion, hbeyond, hw.size_eq]
  have hbuffer := arg.buffer.length_eq
  have hlen : ((Course.quiet limit).moves arg s).length =
      min (min (size.toNat - last) (limit s.world.2)) maxRwCount := by
    rw [hmoves, List.length_take, List.length_append, List.length_replicate]
    omega
  refine ⟨hlen, fun hzero => ?_⟩
  by_contra hlong
  have hone : ((Course.quiet limit).moves arg s)[maxSize]? = some 1 := by
    rw [hmoves, List.getElem?_take_of_lt (by omega), List.getElem?_append_right (by omega), hbuffer,
      Nat.sub_self, List.getElem?_replicate]
    rfl
  have h10 : (1 : UInt8) = 0 := hzero 1 (List.mem_of_getElem? hone)
  exact absurd h10 (by decide)

/-- What the file holds when a round has ended the loop. -/
theorem content_of_done (hoff : 0 ≤ off.toInt) (hfit : off.toInt + size.toNat < 2 ^ 31)
    (hleaves : c.Leaves fd i)
    (hw : Writing fd i d size.toNat off.toInt.toNat s₀ total last arg s) {b : List UInt8}
    (hb : b = c.moves arg s) (hdone : total + b.length = size.toNat) {v : Int}
    (hrun : (writeRounds clnt size off (n + 1) total arg prev).run c.network.machine s =
      .ok (v, t)) : content t.world.1.os.fs i = some (splice d (off.toInt.toNat + last) b) := by
  obtain ⟨hans, hcontent, -⟩ := @writing_round c clnt s s₀ fd i d size off total last arg hoff hfit
    hleaves hw b hb _ rfl
  rw [round_run (by omega) (by omega) hans, if_pos hdone] at hrun
  rw [← (Prod.mk.inj (Except.ok.inj hrun)).2]
  exact hcontent

/-- What always comes right is done after two rounds. -/
theorem atMostTwo_of_replaces {limit : ℕ → ℕ} (hoff : 0 ≤ off.toInt)
    (hfit : off.toInt + size.toNat < 2 ^ 31) (hlimit : ∀ k, 1 ≤ limit k)
    (h : ReplacesAlways limit size off) : AtMostTwo limit size.toNat := by
  have hmax : maxSize = 4096 := rfl
  have hcount : maxRwCount = 0x7ffff000 := rfl
  by_cases hempty : size.toNat = 0
  · exact .inl ⟨by omega, by omega⟩
  obtain ⟨rounds, ⟨t, hrun, hcontent⟩, hsum⟩ := h (.quiet limit) zeroWriter ⟨[], []⟩ .zero [] ⟨0, 1⟩
    2 [] rfl rfl (fun _ _ _ hw => hw) (serving_writes [] _)
  have hzeros : ∀ x ∈ zeroWriter.caller.bytes 0 size.toNat, x = 0 := by
    intro x hx
    obtain ⟨k, -, rfl⟩ := List.mem_map.mp hx
    rfl
  obtain ⟨clnt, arg, u, hw, hworld, hcaller, hstart⟩ :=
    @bbWrite_start (.quiet limit) zeroWriter 2 [] size off ⟨[], []⟩ .zero [] ⟨0, 1⟩ hoff hfit
      (serving_writes [] _)
  obtain ⟨hstartRun, hstartEach⟩ := hstart rounds
  rw [hstartRun] at hrun
  rw [hstartEach] at hsum
  cases rounds with
  | zero => cases hrun
  | succ n =>
      have hround : u.world.2 = 0 := by rw [hworld]; rfl
      let b := (Course.quiet limit).moves arg u
      obtain ⟨hlen, hin⟩ :=
        @zeros_in_message u zeroWriter 1 2 [] size off 0 0 arg limit (by omega) hw
          (by rw [hworld]; rfl)
      change b.length = _ at hlen
      rw [hround, Nat.sub_zero] at hlen
      have hleaves : (Course.quiet limit).Leaves 1 2 := fun _ _ _ hw => hw
      have hlimit₀ := hlimit 0
      have hlimit₁ := hlimit 1
      by_cases hdone : 0 + b.length = size.toNat
      · -- One round.
        have hafter := content_of_done hoff hfit hleaves hw rfl hdone hrun
        have hb : zeroWriter.caller.bytes 0 size.toNat = b :=
          splice_empty_inj (Option.some.inj (hcontent.symm.trans hafter))
        have hshort := hin fun x hx => hzeros x (by rw [hb]; exact hx)
        change b.length ≤ maxSize at hshort
        exact .inl ⟨by omega, by omega⟩
      · obtain ⟨arg', prev', v, hw', -, hround', hbeyond', hrun', heach'⟩ :=
          @next_round _ clnt u zeroWriter 1 2 [] size off 0 0 n arg _ hoff hfit hleaves hw b rfl
            hdone (by omega)
        rw [hrun'] at hrun
        rw [heach'] at hsum
        rw [Nat.zero_add] at hw' hrun hsum
        cases n with
        | zero => cases hrun
        | succ n =>
            let b' := (Course.quiet limit).moves arg' v
            obtain ⟨hlen', hin'⟩ := @zeros_in_message v zeroWriter 1 2 _ size off _ _ arg' limit
              (by omega) hw' (by rw [hbeyond', hworld]; rfl)
            change b'.length = _ at hlen'
            rw [hround', hround, Nat.zero_add] at hlen'
            have hjoin := splice_splice [] off.toInt.toNat b b'
            by_cases hdone' : b.length + b'.length = size.toNat
            · -- Two rounds.
              have hafter := content_of_done hoff hfit hleaves hw' rfl hdone' hrun
              rw [Nat.add_zero, hjoin] at hafter
              have hb : zeroWriter.caller.bytes 0 size.toNat = b ++ b' :=
                splice_empty_inj (Option.some.inj (hcontent.symm.trans hafter))
              have hshort := hin fun x hx => hzeros x (by rw [hb]; exact List.mem_append_left _ hx)
              have hshort' := hin' fun x hx =>
                hzeros x (by rw [hb]; exact List.mem_append_right _ hx)
              change b.length ≤ maxSize at hshort
              change b'.length ≤ maxSize at hshort'
              exact .inr ⟨by omega, by omega, by omega, by omega⟩
            · -- More rounds.
              obtain ⟨arg'', prev'', w, hw'', -, -, -, hrun'', heach''⟩ :=
                @next_round _ clnt v zeroWriter 1 2 _ size off _ _ n arg' prev' hoff hfit hleaves
                  hw' b' rfl hdone' (by omega)
              rw [hrun''] at hrun
              rw [heach''] at hsum
              rw [Nat.add_zero, hjoin] at hw''
              have hb : b ++ b' ≠ [] := List.append_ne_nil_of_left_ne_nil
                (List.ne_nil_of_length_pos (by omega)) b'
              have hlength := length_splice [] off.toInt.toNat hb
              rw [List.length_append, List.length_nil] at hlength
              obtain ⟨d', hd', hshort⟩ := later_rounds_short hoff hfit hlimit hleaves hw''
                (by omega) (by omega) (by omega) (by omega) hrun hsum
              have hall := length_splice [] off.toInt.toNat (List.ne_nil_of_length_pos
                (show 0 < (zeroWriter.caller.bytes 0 size.toNat).length by
                  rw [length_bytes]; omega))
              rw [Option.some.inj (hd'.symm.trans hcontent), hall, length_bytes] at hshort
              omega

/-- **Writing end to end.**  With these short counts every buffer of this length comes to its place
in every file exactly when the first round moves all of it, or the first two do, and what each of
them moves fits a message. -/
theorem write_whole_iff {limit : ℕ → ℕ} (hoff : 0 ≤ off.toInt)
    (hfit : off.toInt + size.toNat < 2 ^ 31) (hlimit : ∀ k, 1 ≤ limit k) :
    ReplacesAlways limit size off ↔ AtMostTwo limit size.toNat :=
  ⟨atMostTwo_of_replaces hoff hfit hlimit, replaces_of_atMostTwo hoff hfit⟩

/-- Two bytes, one at a time. -/
theorem write_whole_iff_two : ReplacesAlways (fun _ => 1) 2 0 :=
  (write_whole_iff (by decide) (by decide) fun _ => Nat.le_refl 1).mpr (by unfold AtMostTwo; decide)

/-- Three bytes, one at a time: the third one ends up in the place of the second. -/
theorem write_misplaces : ¬ ∀ (limit : ℕ → ℕ) (size : UInt64) (off : Int64), 0 ≤ off.toInt →
    off.toInt + size.toNat < 2 ^ 31 → (∀ k, 1 ≤ limit k) → ReplacesAlways limit size off := by
  intro hall
  have htwo := atMostTwo_of_replaces (by decide) (by decide) (fun _ => Nat.le_refl 1)
    (hall (fun _ => 1) 3 0 (by decide) (by decide) fun _ => Nat.le_refl 1)
  revert htwo
  unfold AtMostTwo
  decide

example : (((bbWrite 3 ⟨[], []⟩ .zero [] 3 0 ⟨0, 1⟩).run (Course.quiet fun _ => 1).network.machine
    (atServer (serving [] []) fun k => if k = 0 then 97 else if k = 1 then 98 else 99)).toOption.map
      fun r => (r.1, content r.2.world.1.os.fs 2)) = some (3, some [97, 99]) := by
  decide +kernel

end Client

end DFS
