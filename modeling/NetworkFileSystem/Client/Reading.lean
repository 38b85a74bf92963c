import NetworkFileSystem.Client.Rounds

/-!
# Reading a file in rounds (`bb_read`)

Every round copies a whole message buffer behind the bytes that are there already, so that each one
covers what the round before has put beyond its own count.  `readRounds_gathers` says what the
loop collects, for any content in each round.

**`read_whole`**: from a file that does not change it collects the bytes that were asked for.
-/

namespace DFS

open Effects Posix Prog Sequences
open Words (toNat_ofInt32 toNat_ofInt64)

namespace Client

/-- How much the `k`-th round of `bb_read` moves at most, after `total` bytes. -/
def Course.most (c : Course) (size k total : ℕ) : ℕ :=
  min (min (min (size - total) maxSize) (c.limit k)) maxRwCount

/-- What holds before each round, so that the `k`-th round reads from the content `contents k`. -/
def Course.Offers (c : Course) (fd : Int) (i : Ino) (contents : ℕ → List UInt8)
    (ready : ℕ → OS → Prop) : Prop :=
  ∀ k h, ready k h.os → ReadsFrom fd i (contents k) (c.meanwhile k h).os ∧
    ready (k + 1) ((c.meanwhile k h).os.released fd)

/-- The request of a round of `bb_read` after `total` bytes, and the state it finds. -/
structure Reading (fd : Int) (ready : ℕ → OS → Prop) (size offset : ℕ)
    (s₀ : Station (Host × ℕ)) (total : ℕ) (arg : ReadArg) (s : Station (Host × ℕ)) : Prop where
  fd_eq : arg.fd = fd
  offset_eq : arg.offset.toNat = offset + total
  size_eq : arg.size.toNat = min (size - total) maxSize
  opens : ready s.world.2 s.world.1.os
  total_le : total ≤ size
  moved : transferred (newExchanges s₀ s) = total
  logged : s₀.log.length ≤ s.log.length

/-- A round asks for no more than a message holds, nor for more than is missing. -/
def Bounded (s₀ : Station (Host × ℕ)) (size : ℕ) (_clnt : Clnt) (r : Request)
    (u : Station (Host × ℕ)) : Prop :=
  ∃ arg, r = .read arg ∧ arg.size.toNat ≤ maxSize ∧
    (arg.size.toNat : Int) ≤ size - transferred (newExchanges s₀ u)

variable {c : Course} {clnt : Clnt} {s s₀ : Station (Host × ℕ)} {fd : Int} {i : Ino}
  {contents : ℕ → List UInt8} {ready : ℕ → OS → Prop} {size : UInt64} {offset total n : ℕ}
  {arg : ReadArg} {prev : ReadRet} {d : List UInt8}

/-- Rounds that can move a byte each feed the read. -/
theorem most_feeds (hlimit : ∀ k, 1 ≤ c.limit k) (size : ℕ) : Feeds (c.most size) size := by
  intro k total hlt
  have hk := hlimit k
  have hsize : maxSize = 4096 := rfl
  have hcount : maxRwCount = 0x7ffff000 := rfl
  unfold Course.most
  omega

/-- The comparison of `bb_read`, as long as `total_len` is an `int`. -/
theorem ofInt64_lt_iff (h : total < 2 ^ 31) : UInt64.ofInt total < size ↔ total < size.toNat := by
  rw [UInt64.lt_iff_toNat_lt, toNat_ofInt64]
  omega

/-- The request for the next round. -/
theorem nextRead_eq {len : ℕ} (hsize : size.toNat < 2 ^ 31) (hfit : offset + size.toNat < 2 ^ 32)
    (hoffset : arg.offset.toNat = offset + total) (hle : total + len ≤ size.toNat) :
    (nextRead size total arg len).fd = arg.fd ∧
    (nextRead size total arg len).offset.toNat = offset + (total + len) ∧
    (nextRead size total arg len).size.toNat = min (size.toNat - (total + len)) maxSize := by
  have htotal : toInt ((total : Int) + len) = ((total + len : ℕ) : Int) := by
    rw [← Int.natCast_add]
    exact toInt_of_lt (by omega) (by omega)
  have hleft : (size - UInt64.ofInt ((total + len : ℕ) : Int)).toNat =
      size.toNat - (total + len) := by
    have hnat : (UInt64.ofInt ((total + len : ℕ) : Int)).toNat = total + len := by
      rw [toNat_ofInt64]
      omega
    rw [UInt64.toNat_sub_of_le _ _ (by rw [UInt64.le_iff_toNat_le, hnat]; exact hle), hnat]
  refine ⟨rfl, ?_, ?_⟩
  · show (arg.offset + UInt32.ofInt len).toNat = _
    rw [UInt32.toNat_add, hoffset, toNat_ofInt32]
    omega
  · unfold nextRead
    simp only [htotal, hleft]
    rw [toInt_of_lt (by omega) (by omega), toNat_ofInt32]
    split <;> omega

/-- **One round** of `bb_read`. -/
theorem reading_round (hsize : size.toNat < 2 ^ 31) (hfit : offset + size.toNat < 2 ^ 32)
    (hoffers : c.Offers fd i contents ready)
    (hr : Reading fd ready size.toNat offset s₀ total arg s) {p : List UInt8}
    (hp : p = slice (contents s.world.2) (offset + total)
      (c.most size.toNat s.world.2 total)) :
    c.network.answer clnt.host (.read arg) s.world =
      some (.read ⟨(Opaque.ofBytes p).bytes, p.length, 0⟩) ∧
    Reading fd ready size.toNat offset s₀ (total + p.length) (nextRead size total arg p.length)
      ((c.network.called clnt (.read arg) s).stored total (Opaque.ofBytes p).bytes) ∧
    ((c.network.called clnt (.read arg) s).stored total (Opaque.ofBytes p).bytes).caller.bytes 0
      (total + p.length) = s.caller.bytes 0 total ++ p := by
  obtain ⟨hopen, hready⟩ := hoffers s.world.2 s.world.1 hr.opens
  rw [← hr.fd_eq] at hopen hready
  have hpiece : piece (contents s.world.2) arg.offset.toNat arg.size.toNat
      (c.limit s.world.2) = p := by
    rw [hp, hr.offset_eq, hr.size_eq]
    rfl
  have hmost : c.most size.toNat s.world.2 total ≤ min (size.toNat - total) maxSize := by
    unfold Course.most
    omega
  have hlen : p.length ≤ min (size.toNat - total) maxSize := by
    rw [hp, length_slice]
    omega
  have htotal := hr.total_le
  obtain ⟨hans, hworld⟩ := @course_read c s.world clnt.host _ i arg hopen
  rw [hpiece] at hans
  let u := c.network.called clnt (.read arg) s
  have hu : u.world = (c.network.call clnt.host (.read arg) s.world).2 := rfl
  obtain ⟨hnextFd, hnextOffset, hnextSize⟩ := nextRead_eq hsize hfit hr.offset_eq
    (show total + p.length ≤ size.toNat by omega)
  refine ⟨hans, ⟨?_, hnextOffset, hnextSize, ?_, by omega, ?_, ?_⟩, ?_⟩
  · rw [hnextFd, hr.fd_eq]
  · show ready u.world.2 u.world.1.os
    rw [hu, hworld]
    exact hready
  · show transferred (newExchanges s₀ u) = _
    rw [newExchanges_called hr.logged, transferred_concat, hr.moved, hans]
    rfl
  · show s₀.log.length ≤ (s.log ++ [_]).length
    rw [List.length_append]
    exact Nat.le_add_right_of_le hr.logged
  · show (s.caller.store total (Opaque.ofBytes (Opaque.ofBytes p).bytes)).bytes 0 _ = _
    rw [bytes_append, bytes_store_before, Int.zero_add,
      bytes_store_there _ _ _ (show p.length ≤ maxSize by omega), ofBytes_self (Opaque.length_eq _)]
    congr 1
    show (p.take maxSize ++ List.replicate (maxSize - p.length) 0).take p.length = p
    rw [List.take_of_length_le (show p.length ≤ maxSize by omega), List.take_left]

/-- **What the loop collects.** -/
theorem readRounds_gathers (hlimit : ∀ k, 1 ≤ c.limit k) (hsize : size.toNat < 2 ^ 31)
    (hfit : offset + size.toNat < 2 ^ 32)
    (hoffers : c.Offers fd i contents ready)
    (hr : Reading fd ready size.toNat offset s₀ total arg s) (hn : size.toNat - total < n)
    {r : List UInt8} (hgather : r = gather contents (c.most size.toNat)
      size.toNat offset n s.world.2 total) :
    (∃ t, (readRounds clnt size n total arg prev).run c.network.machine s =
        .ok (((total + r.length : ℕ) : Int), t) ∧
      t.caller.bytes 0 (total + r.length) = s.caller.bytes 0 total ++ r) ∧
    (readRounds clnt size n total arg prev).Each c.network.machine
      (OnCall (Bounded s₀ size.toNat)) s := by
  induction n generalizing total arg prev s r with
  | zero => cases hn
  | succ n ih =>
      have htotal := hr.total_le
      by_cases hlt : total < size.toNat
      · have hcont : UInt64.ofInt total < size := (ofInt64_lt_iff (by omega)).mpr hlt
        let p := slice (contents s.world.2) (offset + total) (c.most size.toNat s.world.2 total)
        let ret : ReadRet := ⟨(Opaque.ofBytes p).bytes, p.length, 0⟩
        let u := c.network.called clnt (.read arg) s
        obtain ⟨hans, hnext, hbytes⟩ :=
          @reading_round c clnt _ _ _ _ _ _ _ _ _ arg hsize hfit hoffers hr p rfl
        have hfeed := most_feeds hlimit size.toNat s.world.2 total hlt
        have hplen : p.length ≤ size.toNat - total := by
          have hle := length_slice (contents s.world.2) (offset + total)
            (c.most size.toNat s.world.2 total)
          change p.length = _ at hle
          omega
        have hsum : toInt ((total : Int) + p.length) = ((total + p.length : ℕ) : Int) := by
          rw [← Int.natCast_add]
          exact toInt_of_lt (by omega) (by omega)
        have hround : (readRounds clnt size (n + 1) total arg prev).run c.network.machine s =
            (readReply clnt size n total arg ret).run c.network.machine u := by
          rw [readRounds_succ hcont, stub_run, hans]
          rfl
        have hbounded : Bounded s₀ size.toNat clnt (.read arg) s := by
          refine ⟨arg, rfl, ?_, ?_⟩
          · rw [hr.size_eq]
            exact Nat.min_le_right _ _
          · rw [hr.moved, hr.size_eq]
            omega
        have heach : (readRounds clnt size (n + 1) total arg prev).Each c.network.machine
            (OnCall (Bounded s₀ size.toNat)) s ↔ (readReply clnt size n total arg ret).Each
              c.network.machine (OnCall (Bounded s₀ size.toNat)) u := by
          rw [readRounds_succ hcont, stub_each, hans]
          exact and_iff_right hbounded
        rw [hround, heach, readReply_run]
        unfold readReply
        have hret : ¬ ret.ret < 0 := Int.lt_irrefl 0
        rw [if_neg hret, if_neg hret]
        rw [gather, if_pos hlt] at hgather
        by_cases hzero : p.length = 0
        · -- The end of the file.
          have hlen : ret.len = 0 := by
            show (p.length : Int) = 0
            omega
          obtain rfl : r = [] := hgather.trans (if_pos hzero)
          rw [if_pos hlen, if_pos hlen]
          refine ⟨⟨u.dropped clnt, rfl, ?_⟩, each_of_local (finish_local _ _)⟩
          rw [List.append_nil]
          rfl
        · have hlen : ¬ ret.len = 0 := by
            show ¬ (p.length : Int) = 0
            omega
          rw [if_neg hlen, if_neg hlen]
          let v := u.stored total ret.buffer
          let r' := gather contents (c.most size.toNat) size.toNat offset n
            (s.world.2 + 1) (total + p.length)
          have hr' : r = p ++ r' := hgather.trans (if_neg hzero)
          have hworld : v.world.2 = s.world.2 + 1 := course_next _
          obtain ⟨⟨t, hrun, ht⟩, hrest⟩ := @ih _ _ _ ret hnext (by omega) _
            (show r' = gather _ _ _ _ n v.world.2 _ by rw [hworld])
          have htotal' : total + r.length = total + p.length + r'.length := by
            rw [hr', List.length_append, Nat.add_assoc]
          rw [hsum, htotal', hr', ← List.append_assoc, ← hbytes]
          refine ⟨⟨t, hrun, ht⟩, ⟨trivial, fun q hq => ?_⟩⟩
          rw [← Except.ok.inj hq]
          exact hrest
      · obtain rfl : r = [] := hgather.trans (gather_done (Nat.le_of_not_lt hlt))
        rw [readRounds_done (fun h => hlt ((ofInt64_lt_iff (by omega)).mp h))]
        exact ⟨⟨s.dropped clnt, rfl, (List.append_nil _).symm⟩, each_of_local (finish_local _ _)⟩

/-! ## The operation -/

section

variable {m : Mount} {unset : Unset} {path : CStr} {off : Int64} {fi : FileInfo}

/-- What `bb_read` collects. -/
theorem bbRead_gathers (hlimit : ∀ k, 1 ≤ c.limit k) (hoff : 0 ≤ off.toInt)
    (hsize : size.toNat < 2 ^ 31) (hfit : off.toInt + size.toNat < 2 ^ 32)
    (hoffers : c.Offers fi.fd i contents ready) (hopen : ready s.world.2 s.world.1.os)
    (hn : size.toNat < n)
    {r : List UInt8} (hgather : r = gather contents (c.most size.toNat)
      size.toNat off.toInt.toNat n s.world.2 0) :
    (∃ t, (bbRead n m unset path size off fi).run c.network.machine s = .ok ((r.length : Int), t) ∧
      t.caller.bytes 0 r.length = r) ∧
    (bbRead n m unset path size off fi).Each c.network.machine
      (OnCall (Bounded s size.toNat)) s := by
  obtain ⟨isDegraded, hc⟩ := @course_chosen c s
  have hstart : Reading fi.fd ready size.toNat off.toInt.toNat s 0
      (firstRead m size off fi) (s.connected c.here) := by
    refine ⟨rfl, ?_, ?_, hopen, Nat.zero_le _, ?_, Nat.le_refl _⟩
    · show (UInt32.ofInt off.toInt).toNat = _
      rw [toNat_ofInt32]
      omega
    · exact firstRead_size_eq m size off fi
    · rw [newExchanges_start]
      rfl
  have hrounds := @readRounds_gathers c ⟨s.made, c.here⟩ (s.connected c.here) s fi.fd i contents
    ready size off.toInt.toNat 0 n _ unset.read hlimit hsize (by omega) hoffers hstart (by omega) r
    hgather
  rw [bbRead_run hc]
  obtain ⟨⟨t, hrun, ht⟩, heach⟩ := hrounds
  rw [Nat.zero_add] at hrun ht
  exact ⟨⟨t, hrun, ht⟩, (connected_each hc).mpr heach⟩

/-- **Reading end to end.**  From a file that keeps its content, `bb_read` returns all the bytes
that were asked for and are there, whatever each round moves. -/
theorem read_whole (hlimit : ∀ k, 1 ≤ c.limit k) (hoff : 0 ≤ off.toInt)
    (hfit : off.toInt + size.toNat < 2 ^ 31)
    (hmean : ∀ k h, ReadsFrom fi.fd i d h.os → ReadsFrom fi.fd i d (c.meanwhile k h).os)
    (hopen : ReadsFrom fi.fd i d s.world.1.os) (hn : size.toNat < n) :
    (∃ t, (bbRead n m unset path size off fi).run c.network.machine s =
        .ok (((min size.toNat (d.length - off.toInt.toNat) : ℕ) : Int), t) ∧
      t.caller.bytes 0 (min size.toNat (d.length - off.toInt.toNat)) =
        slice d off.toInt.toNat size.toNat) ∧
    (bbRead n m unset path size off fi).Each c.network.machine
      (OnCall (Bounded s size.toNat)) s := by
  have hgather := @gather_constant UInt8 (fun _ => d) (c.most size.toNat) size.toNat
    off.toInt.toNat s.world.2 0 n d (most_feeds hlimit _) (fun _ _ => rfl) hn
  rw [Nat.add_zero, Nat.sub_zero] at hgather
  rw [← length_slice]
  have hoffers : c.Offers fi.fd i (fun _ => d) fun _ => ReadsFrom fi.fd i d := by
    intro k h hopen
    exact ⟨hmean k h hopen, (hmean k h hopen).released _⟩
  exact bbRead_gathers hlimit hoff (by omega) (by omega) hoffers hopen hn hgather.symm

end

/-- Two bytes up to the end of the file, one at a time. -/
theorem read_whole_end : ∃ t, (bbRead 11 ⟨[], []⟩ .zero [] 10 1 ⟨0, 0⟩).run
      (Course.quiet fun _ => 1).network.machine (atServer (serving [1, 2, 3] []) fun _ => 0) =
    .ok (2, t) ∧ t.caller.bytes 0 2 = [2, 3] :=
  (@read_whole (.quiet fun _ => 1) (atServer (serving [1, 2, 3] []) fun _ => 0) 2 10 11 [1, 2, 3]
    ⟨[], []⟩ .zero [] 1 ⟨0, 0⟩ (fun _ => Nat.le_refl 1) (by decide) (by decide) (fun _ _ h => h)
    (serving_reads [1, 2, 3] []) (by decide)).1

end Client

end DFS
