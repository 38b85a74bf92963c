import NetworkFileSystem.Client.Offsets
import NetworkFileSystem.Service.Extents

/-!
# The blocks of `bb_read` and `bb_write` (`tweakfs.c`)

Every round copies a whole block of `MAX_SIZE` bytes between the message and the buffer of the
caller, from `total_len` on, whatever has been transferred.  Which rounds there are depends on the
counts that the server answers.

**`bbRead_inBounds_iff`** and **`bbWrite_inBounds_iff`** say for every size and every schedule of
counts when all blocks are inside the buffer; **`stores_fit_iff`** and **`loads_fit_iff`** say it by
the last block, for a server that follows the schedule.
-/

namespace DFS

open Effects Posix Prog
open Words (toNat_ofInt64)

namespace Client

variable {β : Type} {counts : ℕ → ℕ} {size : UInt64} {pos : Int}

/-! ## What a copy touches -/

/-- The byte `k` of the caller's buffer is copied from or to the byte `i` of the message buffer. -/
def Net.Copies : Net β → Int → ℕ → Prop
  | .store pos _, k, i => i < maxSize ∧ k = pos + i
  | .load pos, k, i => i < maxSize ∧ k = pos + i
  | _, _, _ => False

/-- Inside a caller's buffer of `size` bytes and inside the message buffer. -/
def Net.InBounds (size : UInt64) (c : Net β) : Prop :=
  ∀ k i, c.Copies k i → (0 ≤ k ∧ k < size.toNat) ∧ i < maxSize

/-- A block fits into the caller's buffer from `pos` on. -/
def BlockFits (size : UInt64) (pos : Int) : Prop := 0 ≤ pos ∧ pos + maxSize ≤ size.toNat

/-- A copy stays inside exactly when its block fits. -/
theorem block_inBounds {c : Net β}
    (hc : ∀ k i, c.Copies k i ↔ i < maxSize ∧ k = pos + (i : Int)) :
    c.InBounds size ↔ BlockFits size pos := by
  have hmax : maxSize = 4096 := rfl
  constructor
  · intro h
    have hfirst := (h pos 0 ((hc _ _).mpr ⟨by omega, by omega⟩)).1
    have hlast := (h (pos + 4095) 4095 ((hc _ _).mpr ⟨by omega, rfl⟩)).1
    exact ⟨hfirst.1, by omega⟩
  · rintro ⟨hpos, hfit⟩ k i hki
    obtain ⟨hi, rfl⟩ := (hc k i).mp hki
    exact ⟨⟨by omega, by omega⟩, hi⟩

/-- `memmove` of a block stays inside exactly when the block fits. -/
theorem store_inBounds {bytes : Opaque} :
    (Net.store pos bytes).InBounds size ↔ BlockFits size pos := block_inBounds fun _ _ => Iff.rfl

/-- `memcpy` of a block stays inside exactly when the block fits. -/
theorem load_inBounds : (Net.load pos).InBounds size ↔ BlockFits size pos :=
  block_inBounds fun _ _ => Iff.rfl

/-! ## The rounds of a schedule -/

/-- A server that follows a schedule: the `k`-th transfer is one of `counts k` bytes. -/
def paced (counts : ℕ → ℕ) : Network ℕ where
  up _ _ := true
  call _ r k := (match r with
    | .read _ => some (.read ⟨[], counts k, 0⟩)
    | .write _ => some (.write ⟨counts k, 0⟩)
    | _ => none, k + 1)
  filler _ _ := 0

/-- `total_len` after the first rounds. -/
def totalLen (counts : ℕ → ℕ) : ℕ → Int
  | 0 => 0
  | k + 1 => toInt (totalLen counts k + counts k)

/-- `bb_read` stores the block of the round `j`. -/
def Stores (counts : ℕ → ℕ) (size : UInt64) (j : ℕ) : Prop :=
  ∀ i ≤ j, UInt64.ofInt (totalLen counts i) < size ∧ counts i ≠ 0

/-- `bb_write` loads the block of the round `j`. -/
def Loads (counts : ℕ → ℕ) (size : UInt64) (j : ℕ) : Prop :=
  ∀ i ≤ j, 0 < i → UInt64.ofInt (totalLen counts i) ≠ size

/-- The way out of a loop copies nothing. -/
theorem inBounds_finish {σ : Type} {w : Network σ} {s : Station σ} (clnt : Clnt) (v : Int) :
    (finish clnt v).Each w.machine (fun c _ => c.InBounds size) s :=
  ⟨fun _ _ h => h.elim, fun _ _ => trivial⟩

/-- A call copies nothing either. -/
theorem inBounds_stub {σ α : Type} {w : Network σ} {s : Station σ} {clnt : Clnt} {r : Request}
    {decode : Reply → Option α} {ret : α} {k : α → Operation β} :
    (stub clnt r decode ret >>= k).Each w.machine (fun c _ => c.InBounds size) s ↔
      (k (((w.answer clnt.host r s.world).bind decode).getD ret)).Each w.machine
        (fun c _ => c.InBounds size) (w.called clnt r s) := by
  constructor
  · intro h
    exact h.2 _ rfl
  · intro h
    refine ⟨fun _ _ hc => hc.elim, fun r hr => ?_⟩
    cases hr
    exact h

/-- The block that is stored has to fit, and so have those after it. -/
theorem inBounds_store {σ : Type} {w : Network σ} {s : Station σ} {bytes : Opaque}
    {k : Unit → Operation β} :
    (net (.store pos bytes) >>= k).Each w.machine (fun c _ => c.InBounds size) s ↔
      BlockFits size pos ∧ (k ()).Each w.machine (fun c _ => c.InBounds size)
        { s with caller := s.caller.store pos bytes } := by
  rw [← @store_inBounds size pos bytes]
  constructor
  · intro h
    exact ⟨h.1, h.2 _ rfl⟩
  · rintro ⟨hfit, hk⟩
    refine ⟨hfit, fun r hr => ?_⟩
    cases hr
    exact hk

/-- The block that is loaded has to fit, and so have those after it. -/
theorem inBounds_load {σ : Type} {w : Network σ} {s : Station σ} {k : Opaque → Operation β} :
    (net (.load pos) >>= k).Each w.machine (fun c _ => c.InBounds size) s ↔
      BlockFits size pos ∧
        (k (s.caller.load pos)).Each w.machine (fun c _ => c.InBounds size) s := by
  rw [← @load_inBounds size pos]
  constructor
  · intro h
    exact ⟨h.1, h.2 (s.caller.load pos, s) rfl⟩
  · rintro ⟨hfit, hk⟩
    refine ⟨hfit, fun r hr => ?_⟩
    rw [← Except.ok.inj hr]
    exact hk

/-- What makes a handle, or stops. -/
def Net.Connects : Net β → Prop
  | .clntCreate _ | .exit _ => True
  | _ => False

/-- `CONNECT_SERVER` does nothing but connect. -/
theorem connectServer_connects : connectServer.Calls Net.Connects := by
  refine calls_bind (by simp [Net.Connects]) fun clnt => ?_
  cases clnt with
  | some clnt => exact calls_pure _
  | none =>
      refine calls_bind (by simp [Net.Connects]) fun clnt => ?_
      cases clnt with
      | some clnt => exact calls_pure _
      | none => exact calls_bind (by simp [Net.Connects]) fun e => e.elim

/-- Connecting copies nothing. -/
theorem inBounds_connected {σ : Type} {w : Network σ} {s : Station σ}
    {k : Clnt × Int → Operation β} (host : HostName) {isDegraded : Int}
    (hc : w.chosen s = some (host, isDegraded)) :
    (connectServer >>= k).Each w.machine (fun c _ => c.InBounds size) s ↔
      (k (⟨s.made, host⟩, isDegraded)).Each w.machine (fun c _ => c.InBounds size)
        (s.connected host) := by
  refine each_bind_of_run (connectServer_connects.each fun c _ hconn => ?_) ?_
  · cases c <;> first | exact hconn.elim | exact fun _ _ h => h.elim
  · rw [connectServer_run, hc]

/-- What is needed in every round from `k` on is needed in the round `k` and in those after it. -/
theorem rounds_split {P F : ℕ → Prop} {k : ℕ} (n : ℕ) (hk : P k) :
    (F k ∧ ∀ j, k + 1 ≤ j → j < k + 1 + n → (∀ i, k + 1 ≤ i → i ≤ j → P i) → F j) ↔
      ∀ j, k ≤ j → j < k + (n + 1) → (∀ i, k ≤ i → i ≤ j → P i) → F j := by
  constructor
  · rintro ⟨hF, hnext⟩ j hkj hj hP
    rcases Nat.eq_or_lt_of_le hkj with rfl | hlt
    · exact hF
    · exact hnext j hlt (by omega) fun i hi hij => hP i (by omega) hij
  · intro h
    refine ⟨h k (Nat.le_refl k) (by omega) fun i hi hik => ?_, fun j hj hjn hP => ?_⟩
    · rwa [Nat.le_antisymm hik hi]
    · refine h j (by omega) (by omega) fun i hi hij => ?_
      rcases Nat.eq_or_lt_of_le hi with rfl | hlt
      · exact hk
      · exact hP i hlt hij

/-- What the rounds of `bb_read` store from the round `k` on. -/
theorem readRounds_inBounds (n : ℕ) (arg : ReadArg) {k : ℕ} {clnt : Clnt} {prev : ReadRet}
    {s : Station ℕ} (hs : s.world = k) :
    (readRounds clnt size n (totalLen counts k) arg prev).Each (paced counts).machine
      (fun c _ => c.InBounds size) s ↔
    ∀ j, k ≤ j → j < k + n →
      (∀ i, k ≤ i → i ≤ j → UInt64.ofInt (totalLen counts i) < size ∧ counts i ≠ 0) →
      BlockFits size (totalLen counts j) := by
  induction n generalizing k arg prev s with
  | zero =>
      refine iff_of_true ?_ fun j hk hj => ?_
      · exact And.intro (fun _ _ h => h.elim) fun r _ => r.1.elim
      · omega
  | succ n ih =>
      by_cases hlt : UInt64.ofInt (totalLen counts k) < size
      · rw [readRounds_succ hlt, inBounds_stub]
        subst hs
        change (readReply clnt size n _ arg ⟨[], counts s.world, 0⟩).Each _ _ _ ↔ _
        unfold readReply
        rw [if_neg (Int.lt_irrefl 0)]
        by_cases hzero : counts s.world = 0
        · rw [if_pos (show ((counts s.world : ℕ) : Int) = 0 by omega)]
          refine iff_of_true (inBounds_finish _ _) fun j hk _ hall => ?_
          exact absurd hzero (hall s.world (Nat.le_refl _) hk).2
        · rw [if_neg (show ((counts s.world : ℕ) : Int) ≠ 0 by omega), inBounds_store]
          refine (and_congr_right fun _ => ih _ (k := s.world + 1) rfl).trans ?_
          exact rounds_split (F := fun j => BlockFits size (totalLen counts j)) n
            (And.intro hlt hzero)
      · rw [readRounds_done hlt]
        refine iff_of_true (inBounds_finish _ _) fun j hk _ hall => ?_
        exact absurd (hall k (Nat.le_refl k) hk).1 hlt

/-- What the rounds of `bb_write` load after the round `k` and those that follow. -/
theorem writeRounds_inBounds (n : ℕ) {k : ℕ} {clnt : Clnt} {offset : Int64} {arg : WriteArg}
    {prev : WriteRet} {s : Station ℕ} (hs : s.world = k) :
    (writeRounds clnt size offset n (totalLen counts k) arg prev).Each (paced counts).machine
      (fun c _ => c.InBounds size) s ↔
    ∀ j, k + 1 ≤ j → j < k + 1 + n →
      (∀ i, k + 1 ≤ i → i ≤ j → UInt64.ofInt (totalLen counts i) ≠ size) →
      BlockFits size (totalLen counts j) := by
  induction n generalizing k arg prev s with
  | zero =>
      refine iff_of_true ?_ fun j hk hj => ?_
      · exact And.intro (fun _ _ h => h.elim) fun r _ => r.1.elim
      · omega
  | succ n ih =>
      rw [writeRounds_succ, inBounds_stub]
      subst hs
      change (writeReply clnt size offset n _ arg ⟨counts s.world, 0⟩).Each _ _ _ ↔ _
      have hnext : toInt (totalLen counts s.world + counts s.world) =
          totalLen counts (s.world + 1) := rfl
      unfold writeReply
      dsimp only
      rw [if_neg (Int.lt_irrefl 0), hnext]
      by_cases hdone : UInt64.ofInt (totalLen counts (s.world + 1)) = size
      · rw [if_pos hdone]
        refine iff_of_true (each_pure _) fun j hk _ hall => ?_
        exact absurd hdone (hall (s.world + 1) (Nat.le_refl _) hk)
      · rw [if_neg hdone, inBounds_load]
        refine (and_congr_right fun _ => ih (k := s.world + 1) rfl).trans ?_
        exact rounds_split (P := fun i => UInt64.ofInt (totalLen counts i) ≠ size)
          (F := fun j => BlockFits size (totalLen counts j)) n hdone

section

variable (counts) (size) (m : Mount) (unset : Unset) (path : CStr) (offset : Int64) (fi : FileInfo)
  (s : Station ℕ)

/-- The station before the first transfer. -/
def Station.fresh : Station ℕ := { s with world := 0 }

/-- **When `bb_read` stays inside the buffers**: every block that it stores fits. -/
theorem bbRead_inBounds_iff :
    (∀ n, (bbRead n m unset path size offset fi).Each (paced counts).machine
      (fun c _ => c.InBounds size) s.fresh) ↔
    ∀ j, Stores counts size j → BlockFits size (totalLen counts j) := by
  have hrounds : ∀ n, (bbRead n m unset path size offset fi).Each (paced counts).machine
      (fun c _ => c.InBounds size) s.fresh ↔ _ := fun n =>
    (inBounds_connected .host1 rfl).trans
      (readRounds_inBounds n (firstRead m size offset fi) (k := 0) rfl)
  simp only [hrounds, Nat.zero_add]
  constructor
  · intro h j hj
    exact h (j + 1) j (Nat.zero_le j) (Nat.lt_succ_self j) fun i _ hi => hj i hi
  · intro h n j _ _ hj
    exact h j fun i hi => hj i (Nat.zero_le i) hi

/-- **When `bb_write` stays inside the buffers**: every block that it loads fits. -/
theorem bbWrite_inBounds_iff :
    (∀ n, (bbWrite n m unset path size offset fi).Each (paced counts).machine
      (fun c _ => c.InBounds size) s.fresh) ↔
    ∀ j, Loads counts size j → BlockFits size (totalLen counts j) := by
  have hrounds : ∀ n, (bbWrite n m unset path size offset fi).Each (paced counts).machine
      (fun c _ => c.InBounds size) s.fresh ↔ BlockFits size 0 ∧ _ := fun n =>
    (inBounds_connected .host1 rfl).trans
      (inBounds_load.trans (and_congr_right fun _ => writeRounds_inBounds (k := 0) n rfl))
  simp only [hrounds, Nat.zero_add]
  constructor
  · intro h j hj
    cases j with
    | zero => exact (h 0).1
    | succ j =>
        refine (h (j + 1)).2 (j + 1) (Nat.le_add_left 1 j) (by omega) fun i hi hij => ?_
        exact hj i hij hi
  · intro h n
    refine ⟨h 0 fun i hi hpos => absurd hi (by omega), fun j hj _ hall => h j fun i hi hpos => ?_⟩
    exact hall i hpos hi

end

/-! ## The last block -/

/-- The bytes that the first rounds transfer. -/
def moved (counts : ℕ → ℕ) (n : ℕ) : ℕ := ((List.range n).map counts).sum

@[simp] theorem moved_zero : moved counts 0 = 0 := rfl

theorem moved_succ (n : ℕ) : moved counts (n + 1) = moved counts n + counts n := by
  simp [moved, List.range_succ]

/-- What has been transferred only grows. -/
theorem moved_mono {i n : ℕ} (h : i ≤ n) : moved counts i ≤ moved counts n := by
  induction h with
  | refl => exact Nat.le_refl _
  | @step n _ ih =>
      rw [moved_succ]
      exact Nat.le_add_right_of_le ih

/-- As long as an `int` holds it, `total_len` is what has been transferred. -/
theorem totalLen_eq {n : ℕ} (h : moved counts n < 2 ^ 31) :
    totalLen counts n = moved counts n := by
  induction n with
  | zero => rfl
  | succ n ih =>
      rw [moved_succ] at h ⊢
      have hn : totalLen counts n = moved counts n := ih (by omega)
      rw [totalLen, hn]
      exact toInt_of_lt (by omega) (by omega)

/-- What an `int` makes of a sum of two. -/
theorem toInt_cases {n : Int} (h : 0 ≤ n) (hn : n < 2 ^ 32) :
    toInt n = n ∧ n < 2 ^ 31 ∨ toInt n = n - 2 ^ 32 ∧ 2 ^ 31 ≤ n := by
  have hsize : (Int32.size : Int) = 2 ^ 32 := rfl
  rw [toInt, Int32.toInt_ofInt, Int.bmod_def, hsize]
  omega

/-- The comparison of `bb_read`, as long as `total_len` is no negative `int`. -/
theorem ofInt_lt_iff {n : ℕ} (h : n < 2 ^ 31) : UInt64.ofInt n < size ↔ n < size.toNat := by
  rw [UInt64.lt_iff_toNat_lt, toNat_ofInt64]
  omega

/-- The comparison of `bb_write`, for an `int` of either sign. -/
theorem ofInt_eq_iff {n : Int} (h : -2 ^ 31 ≤ n) (hn : n < 2 ^ 31) (hsize : size.toNat < 2 ^ 31) :
    UInt64.ofInt n = size ↔ n = size.toNat := by
  rw [← UInt64.toNat_inj, toNat_ofInt64]
  omega

/-- If every round transfers something, the bytes up to any position are transferred. -/
theorem exists_last {last : ℕ} (hpos : 0 < last) (h : ∀ n, moved counts n < last → 1 ≤ counts n) :
    ∃ n, moved counts n < last ∧ last ≤ moved counts (n + 1) := by
  have hgrows : ∀ n, n ≤ moved counts n ∨ last ≤ moved counts n := by
    intro n
    induction n with
    | zero => exact .inl (Nat.zero_le _)
    | succ n ih =>
        rw [moved_succ]
        by_cases hn : moved counts n < last
        · have hone := h n hn
          exact .inl (by omega)
        · exact .inr (by omega)
  have hpass : ∀ n, last ≤ moved counts n →
      ∃ k, moved counts k < last ∧ last ≤ moved counts (k + 1) := by
    intro n
    induction n with
    | zero =>
        intro hn
        rw [moved_zero] at hn
        omega
    | succ n ih =>
        intro hn
        by_cases hlt : moved counts n < last
        · exact ⟨n, hlt, hn⟩
        · exact ih (Nat.le_of_not_lt hlt)
  exact hpass last ((hgrows last).elim id id)

/-- A schedule of reads: a round transfers something, and no more than it asks for. -/
def ReadsAsAsked (counts : ℕ → ℕ) (size : UInt64) : Prop :=
  ∀ n, moved counts n < size.toNat →
    1 ≤ counts n ∧ counts n ≤ min (size.toNat - moved counts n) maxSize

/-- A schedule of writes: a round transfers something, and no more than the whole buffer. -/
def WritesAsAsked (counts : ℕ → ℕ) (size : UInt64) : Prop :=
  ∀ n, moved counts n < size.toNat → 1 ≤ counts n ∧ counts n ≤ size.toNat

@[simp] theorem moved_const (c n : ℕ) : moved (fun _ => c) n = n * c := by
  simp [moved]

/-- Rounds of one length that add up to the size. -/
theorem readsAsAsked_const {c : ℕ} (hpos : 1 ≤ c) (hmax : c ≤ maxSize) (hdvd : c ∣ size.toNat) :
    ReadsAsAsked (fun _ => c) size := by
  intro n hn
  obtain ⟨rounds, hrounds⟩ := hdvd
  rw [moved_const, hrounds, Nat.mul_comm n] at hn
  have hleft : n + 1 ≤ rounds := Nat.lt_of_mul_lt_mul_left hn
  have hnext : c * n + c ≤ c * rounds := Nat.mul_le_mul_left c hleft
  refine ⟨hpos, Nat.le_min.mpr ⟨?_, hmax⟩⟩
  rw [moved_const, hrounds, Nat.mul_comm n]
  exact Nat.le_sub_of_add_le' hnext

/-- Rounds of one length. -/
theorem writesAsAsked_const {c : ℕ} (hpos : 1 ≤ c) (hsize : c ≤ size.toNat) :
    WritesAsAsked (fun _ => c) size := fun _ _ => ⟨hpos, hsize⟩

/-- **The last block of a read** is a full one. -/
theorem stores_fit_iff (hsize : size.toNat < 2 ^ 31) (hcounts : ReadsAsAsked counts size) :
    (∀ j, Stores counts size j → BlockFits size (totalLen counts j)) ↔
      size = 0 ∨ ∃ n, moved counts n + maxSize = size.toNat ∧ counts n = maxSize := by
  have hmax : maxSize = 4096 := rfl
  constructor
  · intro h
    rcases Nat.eq_zero_or_pos size.toNat with hzero | hpos
    · exact .inl (UInt64.toNat_inj.mp hzero)
    obtain ⟨n, hn, hlast⟩ := exists_last hpos fun n hn => (hcounts n hn).1
    have hcount := (hcounts n hn).2
    rw [moved_succ] at hlast
    have hstores : Stores counts size n := by
      intro i hi
      have hle : moved counts i ≤ moved counts n := moved_mono hi
      have hone := (hcounts i (by omega)).1
      refine ⟨?_, by omega⟩
      rw [totalLen_eq (by omega), ofInt_lt_iff (by omega)]
      omega
    have hfit := (h n hstores).2
    rw [totalLen_eq (by omega)] at hfit
    exact .inr ⟨n, by omega, by omega⟩
  · rintro (hzero | ⟨n, hn, hfull⟩) j hj
    · have hlt := (hj 0 (Nat.zero_le j)).1
      rw [hzero] at hlt
      exact absurd hlt (by simp)
    · have hend : moved counts (n + 1) = size.toNat := by rw [moved_succ, hfull, hn]
      have hjn : j ≤ n := by
        by_contra hgt
        have hlt := (hj (n + 1) (by omega)).1
        rw [totalLen_eq (by omega), ofInt_lt_iff (by omega)] at hlt
        omega
      have hle : moved counts j ≤ moved counts n := moved_mono hjn
      rw [totalLen_eq (by omega)]
      exact ⟨by omega, by omega⟩

/-- **The last block of a write** ends the buffer and is a full one or more. -/
theorem loads_fit_iff (hsize : size.toNat < 2 ^ 31) (hcounts : WritesAsAsked counts size) :
    (∀ j, Loads counts size j → BlockFits size (totalLen counts j)) ↔
      ∃ n, moved counts n + counts n = size.toNat ∧ maxSize ≤ counts n := by
  have hmax : maxSize = 4096 := rfl
  constructor
  · intro h
    have hfirst : (0 : Int) + maxSize ≤ size.toNat :=
      (h 0 fun i hi hpos => absurd hi (by omega)).2
    obtain ⟨n, hn, hlast⟩ := exists_last (by omega) fun n hn => (hcounts n hn).1
    have hcount := (hcounts n hn).2
    have hloads : Loads counts size n := by
      intro i hi _
      have hle : moved counts i ≤ moved counts n := moved_mono hi
      rw [totalLen_eq (by omega), ne_eq, ofInt_eq_iff (by omega) (by omega) hsize]
      omega
    have hfit := (h n hloads).2
    rw [totalLen_eq (by omega)] at hfit
    rw [moved_succ] at hlast
    have hend : moved counts n + counts n = size.toNat := by
      by_contra hne
      -- The sum passes the end, so the loop goes on.
      have hnext : totalLen counts (n + 1) = toInt (moved counts n + counts n) := by
        rw [totalLen, totalLen_eq (by omega)]
      have hwrap := toInt_cases (n := moved counts n + counts n) (by omega) (by omega)
      have hbad := h (n + 1) fun i hi hpos => by
        rcases Nat.eq_or_lt_of_le hi with rfl | hlt
        · rw [hnext, ne_eq, ofInt_eq_iff (by omega) (by omega) hsize]
          omega
        · exact hloads i (by omega) hpos
      rw [hnext] at hbad
      obtain ⟨hneg, hover⟩ := hbad
      omega
    exact ⟨n, hend, by omega⟩
  · rintro ⟨n, hn, hfull⟩ j hj
    rw [← moved_succ] at hn
    have hjn : j ≤ n := by
      by_contra hgt
      refine hj (n + 1) (by omega) (Nat.succ_pos n) ?_
      rw [totalLen_eq (by omega), ofInt_eq_iff (by omega) (by omega) hsize]
      omega
    have hle : moved counts j ≤ moved counts n := moved_mono hjn
    rw [moved_succ] at hn
    rw [totalLen_eq (by omega)]
    exact ⟨by omega, by omega⟩

/-! ## Both sides -/

/-- **When no buffer is overrun.**  A client that reads or writes `size` bytes needs every block of
a round to fit, which below two gigabytes is a matter of the last block; a server needs a `size` of
`MAX_SIZE` at most, or no more than that in the file, or a write that does not come about. -/
theorem buffers_iff (m : Mount) (unset : Unset) (path : CStr) (offset : Int64) (fi : FileInfo)
    (s : Station ℕ) (stale : Stale) (peer : Peer) (h : Host) :
    (∀ counts size, (∀ n, (bbRead n m unset path size offset fi).Each (paced counts).machine
        (fun c _ => c.InBounds size) s.fresh) ↔
      ∀ j, Stores counts size j → BlockFits size (totalLen counts j)) ∧
    (∀ counts size, size.toNat < 2 ^ 31 → ReadsAsAsked counts size →
      ((∀ n, (bbRead n m unset path size offset fi).Each (paced counts).machine
        (fun c _ => c.InBounds size) s.fresh) ↔
      size = 0 ∨ ∃ n, moved counts n + maxSize = size.toNat ∧ counts n = maxSize)) ∧
    (∀ counts size, (∀ n, (bbWrite n m unset path size offset fi).Each (paced counts).machine
        (fun c _ => c.InBounds size) s.fresh) ↔
      ∀ j, Loads counts size j → BlockFits size (totalLen counts j)) ∧
    (∀ counts size, size.toNat < 2 ^ 31 → WritesAsAsked counts size →
      ((∀ n, (bbWrite n m unset path size offset fi).Each (paced counts).machine
        (fun c _ => c.InBounds size) s.fresh) ↔
      ∃ n, moved counts n + counts n = size.toNat ∧ maxSize ≤ counts n)) ∧
    (∀ argp, (compute6 stale (.read argp)).Each (server peer) (fun c h => c.InMessage h) h ↔
      argp.size.toNat ≤ maxSize ∨ ∀ g d, Acts h.os (.read argp) argp.fd g →
        h.os.bodyOf g = some (.reg d) → d.length ≤ argp.offset.toNat + maxSize) ∧
    (∀ argp, (compute6 stale (.write argp)).Each (server peer) (fun c h => c.InMessage h) h ↔
      argp.size.toNat ≤ maxSize ∨
        ∀ fd os g, argp.Target h.os fd os → ¬ Acts os (.write argp) fd g) := by
  refine ⟨fun counts size => ?_, fun counts size hsize hcounts => ?_, fun counts size => ?_,
    fun counts size hsize hcounts => ?_, read_inMessage_iff stale, write_inMessage_iff stale⟩
  · exact bbRead_inBounds_iff counts size m unset path offset fi s
  · exact (bbRead_inBounds_iff counts size m unset path offset fi s).trans
      (stores_fit_iff hsize hcounts)
  · exact bbWrite_inBounds_iff counts size m unset path offset fi s
  · exact (bbWrite_inBounds_iff counts size m unset path offset fi s).trans
      (loads_fit_iff hsize hcounts)

/-- Two full rounds each way: a buffer of 8192 bytes is read and written inside its bounds. -/
theorem buffers_iff_two :
    (∀ n, (bbRead n ⟨[], []⟩ .zero [] 8192 0 ⟨0, 0⟩).Each (paced fun _ => 4096).machine
      (fun c _ => c.InBounds 8192) (Station.fresh ⟨0, .blank, true, [], 0, []⟩)) ∧
    (∀ n, (bbWrite n ⟨[], []⟩ .zero [] 8192 0 ⟨0, 0⟩).Each (paced fun _ => 4096).machine
      (fun c _ => c.InBounds 8192) (Station.fresh ⟨0, .blank, true, [], 0, []⟩)) := by
  have hboth := buffers_iff ⟨[], []⟩ .zero [] 0 ⟨0, 0⟩ ⟨0, .blank, true, [], 0, []⟩ .zero .absent
    (.start (.ofNodes []))
  have hreads := hboth.2.1 (fun _ => 4096) 8192 (by decide)
    (readsAsAsked_const (by decide) (by decide) ⟨2, by decide⟩)
  have hwrites := hboth.2.2.2.1 (fun _ => 4096) 8192 (by decide)
    (writesAsAsked_const (by decide) (by decide))
  have hend : moved (fun _ => 4096) 1 + 4096 = (8192 : UInt64).toNat := by simp
  exact ⟨hreads.mpr (.inr ⟨1, hend, rfl⟩), hwrites.mpr ⟨1, hend, Nat.le_refl _⟩⟩

/-- Reading 100 bytes at once stores 4096. -/
theorem read_overruns : ¬ ∀ (counts : ℕ → ℕ) (size : UInt64), ReadsAsAsked counts size →
    ∀ (n : ℕ) (m : Mount) (unset : Unset) (path : CStr) (offset : Int64) (fi : FileInfo)
      (s : Station ℕ), (bbRead n m unset path size offset fi).Each (paced counts).machine
        (fun c _ => c.InBounds size) s.fresh := by
  intro hall
  have hcounts : ReadsAsAsked (fun _ => 100) 100 :=
    readsAsAsked_const (by decide) (by decide) ⟨1, by decide⟩
  have hfits := (bbRead_inBounds_iff (fun _ => 100) 100 ⟨[], []⟩ .zero [] 0 ⟨0, 0⟩
    ⟨0, .blank, true, [], 0, []⟩).mp (fun n => hall _ 100 hcounts n _ _ _ _ _ _) 0 fun i hi => by
      rw [Nat.le_zero.mp hi]
      exact ⟨by decide, by decide⟩
  exact absurd hfits.2 (by decide)

end Client

end DFS
