import NetworkFileSystem.Client.Reading
import NetworkFileSystem.Client.Writing

/-!
# A read while another client writes (`bb_read`, `bb_write`)

Each request holds the lock of the file, a read of a client does not: another client's write may
come in before any of its rounds.

**`read_atomic_iff`** says when the read returns the old bytes or the new ones: the write came after
the last round, or it has left the bytes before it alone, or those after it.  The other client may
have opened the file with `O_APPEND`: then its bytes land at the end.
-/

namespace DFS

open Effects Posix Prog Sequences

namespace Client

/-- A `bb_write` of another client, with what its only round meets. -/
structure OtherWrite where
  course : Course
  mount : Mount
  unset : Unset
  path : CStr
  size : UInt64
  off : Int64
  fi : FileInfo
  caller : Caller
  append : Bool := false

/-- It is done in one round. -/
structure OtherWrite.Single (o : OtherWrite) : Prop where
  size_le : o.size.toNat ≤ maxSize
  moves : o.size.toNat ≤ o.course.limit 0
  alone : ∀ k h, o.course.meanwhile k h = h

/-- The file with what it is about to put there: at the place that its message names, or at the
end. -/
def OtherWrite.applied (o : OtherWrite) (d : List UInt8) : List UInt8 :=
  splice d (landing o.append d (UInt32.ofInt o.off.toInt).toNat) (o.caller.bytes 0 o.size.toNat)

/-- The server after it. -/
def OtherWrite.after (o : OtherWrite) (h : Host) : Host :=
  match (bbWrite 1 o.mount o.unset o.path o.size o.off o.fi).run o.course.network.machine
      ⟨(h, 0), o.caller, true, [], 0, []⟩ with
  | .ok (_, t) => t.world.1
  | .error _ => h

/-- The same course with the write of another client before the `k`-th round. -/
def Course.interrupted (c : Course) (k : ℕ) (o : OtherWrite) : Course :=
  { c with meanwhile := fun j h => if j = k then o.after h else h }

/-- The read returns the bytes as they were before the write, or as they are after it. -/
def ReadsAtomically (w : Network (Host × ℕ)) (s : Station (Host × ℕ)) (p : Operation Int)
    (old new : List UInt8) : Prop :=
  ∃ n t, p.run w.machine s = .ok ((n : ℕ), t) ∧
    (t.caller.bytes 0 n = old ∨ t.caller.bytes 0 n = new)

variable {o : OtherWrite} {c : Course} {s : Station (Host × ℕ)} {i : Ino} {d d' : List UInt8}
  {h : Host} {size : UInt64} {off : Int64} {fi : FileInfo} {m : Mount} {unset : Unset} {path : CStr}
  {n k : ℕ}

/-- **The write of the other client**: nothing but the content changes. -/
theorem after_eq (ho : o.Single) (hopen : WritesAs o.append o.fi.fd i d h.os) :
    (o.after h).os = (h.os.rewritten i (o.applied d)).released o.fi.fd := by
  have hmax : maxSize = 4096 := rfl
  have hcount : maxRwCount = 0x7ffff000 := rfl
  have hsize := ho.size_le
  have hmoves := ho.moves
  let s : Station (Host × ℕ) := ⟨(h, 0), o.caller, true, [], 0, []⟩
  obtain ⟨isDegraded, hc⟩ := @course_chosen o.course s
  let arg := firstWrite o.mount o.path o.size o.off o.fi isDegraded (o.caller.load 0)
  have hrole : ¬ arg.byPath := fun hrole => absurd (show (1 : Int) = 0 from hrole.1) (by decide)
  have hopen' : WritesAs o.append arg.fd i d (o.course.meanwhile 0 h).os := by
    rw [ho.alone]
    exact hopen
  have hportion : portion (o.course.meanwhile 0 h).os arg (o.course.limit 0) =
      o.caller.bytes 0 o.size.toNat := by
    have hnat : arg.size.toNat = o.size.toNat := by
      show o.size.toUInt32.toNat = _
      rw [UInt64.toNat_toUInt32]
      omega
    have hbuffer := arg.buffer.length_eq
    rw [portion, hnat, Nat.min_eq_left hmoves, Nat.min_eq_left (by omega),
      List.take_append_of_le_length (by omega)]
    exact (congrArg _ (bytes_load _ _)).trans (bytes_take _ _ hsize)
  obtain ⟨hans, sent, hworld⟩ :=
    @course_write o.course (h, 0) o.course.here d i o.append arg hrole hopen'
  simp only [hportion] at hans hworld
  have hrun : (bbWrite 1 o.mount o.unset o.path o.size o.off o.fi).run o.course.network.machine s =
      .ok ((o.size.toNat : Int), o.course.network.called ⟨0, o.course.here⟩ (.write arg)
        (s.connected o.course.here)) := by
    have hlen := length_bytes o.caller 0 o.size.toNat
    have hround := @round_run o.course ⟨0, o.course.here⟩ (s.connected o.course.here) o.size o.off 0
      0 arg o.unset.write (o.caller.bytes 0 o.size.toNat) (by omega) (by omega) hans
    rw [if_pos (by omega)] at hround
    exact (bbWrite_run hc).trans hround
  unfold OtherWrite.after
  rw [hrun]
  show ((o.course.network.call o.course.here (.write arg) (h, 0)).2.1).os = _
  rw [hworld, ho.alone]
  rfl

/-- The contents that the rounds read. -/
def contentsAround (k : ℕ) (d d' : List UInt8) (j : ℕ) : List UInt8 := if j < k then d else d'

/-- What holds before each round: both descriptors stand for the same file. -/
def readyAround (append : Bool) (fd other : Int) (i : Ino) (k : ℕ) (d d' : List UInt8) (j : ℕ)
    (os : OS) : Prop :=
  ReadsFrom fd i (if j ≤ k then d else d') os ∧ WritesAs append other i (if j ≤ k then d else d') os

/-- **The rounds of an interrupted read**: before the write each of them is offered the old content,
and after it the new one. -/
theorem interrupted_offers (ho : o.Single) (fd : Int) (k : ℕ) :
    (c.interrupted k o).Offers fd i (contentsAround k d (o.applied d))
      (readyAround o.append fd o.fi.fd i k d (o.applied d)) := by
  rintro j h ⟨hr, hw⟩
  by_cases hj : j = k
  · subst hj
    rw [if_pos (Nat.le_refl j)] at hr hw
    have hos : ((c.interrupted j o).meanwhile j h).os =
        (h.os.rewritten i (o.applied d)).released o.fi.fd := by
      rw [← after_eq ho hw]
      exact congrArg Host.os (if_pos rfl)
    have hr' : ReadsFrom fd i (o.applied d) ((c.interrupted j o).meanwhile j h).os := by
      rw [hos]
      exact ReadsFrom.released (hr.rewritten _) _
    have hw' : WritesAs o.append o.fi.fd i (o.applied d)
        ((c.interrupted j o).meanwhile j h).os := by
      rw [hos]
      exact WritesAs.released (hw.rewritten _) _
    refine ⟨?_, ?_⟩
    · rw [contentsAround, if_neg (Nat.lt_irrefl j)]
      exact hr'
    · rw [readyAround, if_neg (by omega)]
      exact ⟨hr'.released _, hw'.released _⟩
  · have hsame : (c.interrupted k o).meanwhile j h = h := if_neg hj
    have hlt : j < k ↔ j ≤ k := by omega
    have hnext : j + 1 ≤ k ↔ j ≤ k := by omega
    rw [hsame, contentsAround, readyAround]
    simp only [hlt, hnext]
    exact ⟨hr, hr.released _, hw.released _⟩

/-- What the interrupted read collects. -/
theorem interrupted_collects (ho : o.Single) (hlimit : ∀ k, 1 ≤ c.limit k) (hoff : 0 ≤ off.toInt)
    (hsize : size.toNat < 2 ^ 31) (hfit : off.toInt + size.toNat < 2 ^ 32) (hstart : s.world.2 = 0)
    (hr : ReadsFrom fi.fd i d s.world.1.os) (hw : WritesAs o.append o.fi.fd i d s.world.1.os)
    (hn : size.toNat < n) (k : ℕ) {r : List UInt8} (hcollected : r =
      if Ended (c.most size.toNat) size.toNat off.toInt.toNat d.length 0 k then
        slice d off.toInt.toNat size.toNat
      else
        slice d off.toInt.toNat
          (progress (c.most size.toNat) size.toNat off.toInt.toNat d.length k) ++
        slice (o.applied d)
          (off.toInt.toNat + progress (c.most size.toNat) size.toNat off.toInt.toNat d.length k)
          (size.toNat - progress (c.most size.toNat) size.toNat off.toInt.toNat d.length k)) :
    ∃ t, (bbRead n m unset path size off fi).run (c.interrupted k o).network.machine s =
      .ok ((r.length : ℕ), t) ∧ t.caller.bytes 0 r.length = r := by
  have hmost : (c.interrupted k o).most size.toNat = c.most size.toNat := rfl
  have hgather := @gather_switch UInt8 (contentsAround k d (o.applied d)) (c.most size.toNat)
    size.toNat off.toInt.toNat 0 n d (o.applied d) (most_feeds hlimit _) k (fun _ => rfl)
    (Nat.zero_le k) hn
  have hready : readyAround o.append fi.fd o.fi.fd i k d (o.applied d) s.world.2 s.world.1.os := by
    rw [hstart, readyAround, if_pos (Nat.zero_le k)]
    exact ⟨hr, hw⟩
  have hall := @bbRead_gathers (c.interrupted k o) s i _ _ size n m unset path off fi hlimit hoff
    hsize hfit (interrupted_offers ho fi.fd k) hready hn r
  rw [hstart, hmost] at hall
  refine (hall ?_).1
  rw [hcollected]
  exact hgather.symm

/-- The write comes after the last round of the read, or changes none of the bytes that were
asked for before it, or none of those after it. -/
def Undivided (most : ℕ → ℕ → ℕ) (size offset k : ℕ) (d d' : List UInt8) : Prop :=
  let total := progress most size offset d.length k
  Ended most size offset d.length 0 k ∨ slice d offset total = slice d' offset total ∨
    slice d (offset + total) (size - total) = slice d' (offset + total) (size - total)

/-- A write does not shorten the file. -/
theorem length_le_applied (o : OtherWrite) (d : List UInt8) : d.length ≤ (o.applied d).length := by
  unfold OtherWrite.applied
  by_cases hb : o.caller.bytes 0 o.size.toNat = []
  · rw [hb, splice_nil]
  · rw [length_splice _ _ hb]
    exact Nat.le_max_left _ _

/-- What a read returns is all there is to look at. -/
theorem readsAtomically_iff {w : Network (Host × ℕ)} {p : Operation Int} {t : Station (Host × ℕ)}
    {r old new : List UInt8} (hrun : p.run w.machine s = .ok ((r.length : ℕ), t))
    (ht : t.caller.bytes 0 r.length = r) : ReadsAtomically w s p old new ↔ r = old ∨ r = new := by
  constructor
  · rintro ⟨k, u, hu, h⟩
    obtain ⟨hk, rfl⟩ := Prod.mk.inj (Except.ok.inj (hrun.symm.trans hu))
    obtain rfl : r.length = k := by exact_mod_cast hk
    rwa [ht] at h
  · intro h
    exact ⟨r.length, t, hrun, by rwa [ht]⟩

/-- **Reads and writes of two clients.**  A read into which one write of another client comes
returns the bytes from before it or those from after it exactly when the write does not divide what
was asked for. -/
theorem read_atomic_iff (ho : o.Single) (hlimit : ∀ k, 1 ≤ c.limit k) (hoff : 0 ≤ off.toInt)
    (hsize : size.toNat < 2 ^ 31) (hfit : off.toInt + size.toNat < 2 ^ 32) (hstart : s.world.2 = 0)
    (hr : ReadsFrom fi.fd i d s.world.1.os) (hw : WritesAs o.append o.fi.fd i d s.world.1.os)
    (hn : size.toNat < n) (k : ℕ) :
    ReadsAtomically (c.interrupted k o).network s (bbRead n m unset path size off fi)
      (slice d off.toInt.toNat size.toNat) (slice (o.applied d) off.toInt.toNat size.toNat) ↔
    Undivided (c.most size.toNat) size.toNat off.toInt.toNat k d (o.applied d) := by
  obtain ⟨t, hrun, ht⟩ := @interrupted_collects o c s i d size off fi m unset path n ho hlimit hoff
    hsize hfit hstart hr hw hn k _ rfl
  rw [readsAtomically_iff hrun ht]
  have hle := @progress_le _ _ off.toInt.toNat (most_feeds hlimit size.toNat) d.length k
  have hlen := length_le_applied o d
  unfold Undivided
  generalize progress (c.most size.toNat) size.toNat off.toInt.toNat d.length k = total at hle ⊢
  by_cases he : Ended (c.most size.toNat) size.toNat off.toInt.toNat d.length 0 k
  · rw [if_pos he]
    exact iff_of_true (.inl rfl) (.inl he)
  · rw [if_neg he]
    have hold := slice_append d off.toInt.toNat total size.toNat (by omega)
    have hnew := slice_append (o.applied d) off.toInt.toNat total size.toNat (by omega)
    have hfirst := length_slice d off.toInt.toNat total
    have hfirst' := length_slice (o.applied d) off.toInt.toNat total
    rw [← hold, ← hnew, or_iff_right he, or_comm]
    refine or_congr ?_ ?_
    · constructor
      · intro h
        exact (List.append_inj h (by omega)).1
      · intro h
        rw [h]
    · constructor
      · intro h
        exact (List.append_inj h rfl).2.symm
      · intro h
        rw [h]

/-- Two bytes written over the start of the file. -/
def twoBytes : OtherWrite where
  course := .quiet fun _ => maxSize
  mount := ⟨[], []⟩
  unset := .zero
  path := []
  size := 2
  off := 0
  fi := ⟨0, 1⟩
  caller := { Caller.blank with data := fun _ => 66 }

/-- Two bytes are written in one round. -/
theorem twoBytes_single : twoBytes.Single :=
  ⟨by decide, by decide, fun _ _ => rfl⟩

theorem full_transfers (k : ℕ) : 1 ≤ (Course.quiet fun _ => maxSize).limit k :=
  show 1 ≤ maxSize by decide

/-- A reader of a file with one byte. -/
def oneByteReader : Station (Host × ℕ) := atServer (serving [65] []) fun _ => 0

/-- A write before the first round. -/
theorem read_atomic_first : ReadsAtomically
    ((Course.quiet fun _ => maxSize).interrupted 0 twoBytes).network oneByteReader
    (bbRead 11 ⟨[], []⟩ .zero [] 10 0 ⟨0, 0⟩) [65] [66, 66] :=
  (@read_atomic_iff twoBytes (.quiet fun _ => maxSize) oneByteReader 2 [65] 10 0 ⟨0, 0⟩ ⟨[], []⟩
    .zero [] 11 twoBytes_single full_transfers (by decide) (by decide) (by decide) rfl
    (serving_reads [65] []) (serving_writes [65] []) (by decide) 0).mpr (.inr (.inl rfl))

/-- A write between the byte of the file and the end of it: the read returns the old byte and the
second new one. -/
theorem read_divided : ¬ ∀ (o : OtherWrite) (c : Course) (s : Station (Host × ℕ)) (i : Ino)
    (d : List UInt8) (size : UInt64) (off : Int64) (fi : FileInfo) (m : Mount) (unset : Unset)
    (path : CStr) (n k : ℕ), o.Single → (∀ k, 1 ≤ c.limit k) → 0 ≤ off.toInt →
    size.toNat < 2 ^ 31 → off.toInt + size.toNat < 2 ^ 32 → s.world.2 = 0 →
    ReadsFrom fi.fd i d s.world.1.os → WritesAs o.append o.fi.fd i d s.world.1.os → size.toNat < n →
    ReadsAtomically (c.interrupted k o).network s (bbRead n m unset path size off fi)
      (slice d off.toInt.toNat size.toNat) (slice (o.applied d) off.toInt.toNat size.toNat) := by
  intro hall
  obtain ⟨t, hrun, ht⟩ := @interrupted_collects twoBytes (.quiet fun _ => maxSize) oneByteReader 2
    [65] 10 0 ⟨0, 0⟩ ⟨[], []⟩ .zero [] 11 twoBytes_single full_transfers (by decide) (by decide)
    (by decide) rfl (serving_reads [65] []) (serving_writes [65] []) (by decide) 1 _ rfl
  have hatomic := hall twoBytes (.quiet fun _ => maxSize) oneByteReader 2 [65] 10 0 ⟨0, 0⟩ ⟨[], []⟩
    .zero [] 11 1 twoBytes_single full_transfers (by decide) (by decide) (by decide) rfl
    (serving_reads [65] []) (serving_writes [65] []) (by decide)
  rw [readsAtomically_iff hrun ht] at hatomic
  revert hatomic
  decide

end Client

end DFS
