import NetworkFileSystem.Effects.Issues
import NetworkFileSystem.Service.Handles

/-!
# What `pread` and `pwrite` touch (`bb_read_6_svc`, `bb_write_6_svc`)

The `size` of a message is passed on as it is, beside a buffer of `MAX_SIZE` bytes.  A read is
inside the buffer when the file has no more than that from the offset on, a write when it does not
come about (**`read_inMessage_iff`**, **`write_inMessage_iff`**).
-/

namespace Posix

/-- How many bytes of its buffer a call touches, from the start on: what `pread` puts there and
what `pwrite` takes from there. -/
def Sys.extent {β : Type} : Sys β → OS → ℕ
  | .pread fd size offset, os =>
    match os.pread fd size offset with
    | .ok data => data.length
    | .error _ => 0
  | .pwrite fd buf size offset, os =>
    match os.pwrite fd ((buf ++ os.beyond).take (min size maxRwCount)) offset with
    | .ok _ => min size maxRwCount
    | .error _ => 0
  | _, _ => 0

/-- The calls that touch no buffer of bytes. -/
def Sys.bufferless {β : Type} : Sys β → Bool
  | .pread _ _ _ | .pwrite _ _ _ _ => false
  | _ => true

theorem extent_bufferless {β : Type} {c : Sys β} (hc : c.bufferless = true) (os : OS) :
    c.extent os = 0 := by
  cases c with
  | pread | pwrite => cases hc
  | _ => rfl

end Posix

namespace DFS

open Effects Posix Prog

variable {α β : Type} {peer : Peer} {h : Host}

/-- Inside the message buffer. -/
def Call.InMessage (c : Call β) (h : Host) : Prop :=
  match c with
  | .os c => c.extent h.os ≤ maxSize
  | .rpc _ => True

theorem inMessage_of_calls {p : Server α} (hp : p.Calls (Call.Is Sys.bufferless)) :
    p.Each (server peer) (fun c h => c.InMessage h) h :=
  hp.each fun c h hc => by
    cases c with
    | os c => exact (extent_bufferless hc h.os).le.trans (Nat.zero_le _)
    | rpc c => trivial

/-- When `pread` writes no more than the message buffer holds. -/
theorem extent_pread_le {fd : Int} {size offset : ℕ} {os : OS} :
    (Sys.pread fd size offset).extent os ≤ maxSize ↔ size ≤ maxSize ∨
      ∀ g d, os.fds.file fd = some g → g.readable = true → os.bodyOf g = some (.reg d) →
        d.length ≤ offset + maxSize := by
  have hmax : maxSize = 4096 := rfl
  have hrw : maxRwCount = 0x7ffff000 := rfl
  simp only [Sys.extent]
  constructor
  · intro hle
    refine or_iff_not_imp_left.mpr fun hsize g d hf hr hb => ?_
    obtain ⟨i, n, hi, hn, hreg⟩ := bodyOf_reg.mp hb
    rw [OS.pread_eq_ok.mpr ⟨g, i, n, d, hf, hr, hi, hn, hreg, rfl⟩] at hle
    simp only [List.length_take, List.length_drop] at hle
    omega
  · intro h
    cases hp : os.pread fd size offset with
    | error e => exact Nat.zero_le _
    | ok data =>
        obtain ⟨g, i, n, d, hf, hr, hi, hn, hreg, rfl⟩ := OS.pread_eq_ok.mp hp
        simp only [List.length_take, List.length_drop]
        rcases h with hsize | hd
        · omega
        · have hlen := hd g d hf hr (bodyOf_reg.mpr ⟨i, n, hi, hn, hreg⟩)
          omega

/-- When `pwrite` reads no more than the message buffer holds. -/
theorem extent_pwrite_le {fd : Int} {buf : List UInt8} {size offset : ℕ} {os : OS} :
    (Sys.pwrite fd buf size offset).extent os ≤ maxSize ↔ size ≤ maxSize ∨
      ∀ g d, os.fds.file fd = some g → g.writable = true → os.bodyOf g ≠ some (.reg d) := by
  have hmax : maxSize = 4096 := rfl
  have hrw : maxRwCount = 0x7ffff000 := rfl
  simp only [Sys.extent]
  constructor
  · intro hle
    refine or_iff_not_imp_left.mpr fun hsize g d hf hw hb => ?_
    obtain ⟨i, n, hi, hn, hreg⟩ := bodyOf_reg.mp hb
    rw [OS.pwrite_eq_ok.mpr ⟨g, i, n, d, hf, hw, hi, hn, hreg, rfl⟩] at hle
    dsimp only at hle
    omega
  · intro h
    cases hp : os.pwrite fd ((buf ++ os.beyond).take (min size maxRwCount)) offset with
    | error e => exact Nat.zero_le _
    | ok fs =>
        obtain ⟨g, i, n, d, hf, hw, hi, hn, hreg, -⟩ := OS.pwrite_eq_ok.mp hp
        dsimp only
        rcases h with hsize | hd
        · omega
        · exact absurd (bodyOf_reg.mpr ⟨i, n, hi, hn, hreg⟩) (hd g d hf hw)

/-- What a call touches does not depend on locks and positions. -/
theorem extent_same {c : Sys β} {os os' : OS} (hs : OS.Same os os') :
    c.extent os' = c.extent os := by
  cases c with
  | pread fd size offset => simp only [Sys.extent, hs.pread]
  | pwrite fd buf size offset => simp only [Sys.extent, hs.pwrite, hs.beyond_eq]
  | _ => rfl

/-- A transfer under a lock. -/
theorem locked_inMessage {r : Request} {op : LockOp} (hr : r.lockOp = some op) {fd : Int}
    {c : Sys β} {k : β → Server α} (hk : ∀ b, (k b).Calls (Call.Is Sys.bufferless)) :
    (do
      let _ ← sys (.flock fd op)
      let b ← sys c
      k b : Server α).Each (server peer) (fun c h => c.InMessage h) h ↔
    (¬ Stalls h.os fd r → c.extent h.os ≤ maxSize) := by
  rw [each_sys]
  constructor
  · rintro ⟨-, hall⟩ hns
    obtain ⟨⟨b, os'⟩, hlock⟩ := (flock_returns_iff op hr).mpr hns
    have hin : c.extent os' ≤ maxSize := (each_sys.mp (hall b os' hlock)).1
    rwa [extent_same (OS.Same.flock hlock)] at hin
  · intro hin
    refine ⟨Nat.zero_le _, fun b os' hlock => each_sys.mpr ⟨?_, fun _ _ _ => ?_⟩⟩
    · change c.extent os' ≤ maxSize
      rw [extent_same (OS.Same.flock hlock)]
      exact hin ((flock_returns_iff op hr).mp ⟨_, hlock⟩)
    · exact inMessage_of_calls (hk _)

/-- **When a read stays inside the message buffer.** -/
theorem read_inMessage_iff (stale : Stale) (argp : ReadArg) :
    (compute6 stale (.read argp)).Each (server peer) (fun c h => c.InMessage h) h ↔
      argp.size.toNat ≤ maxSize ∨ ∀ g d, Acts h.os (.read argp) argp.fd g →
        h.os.bodyOf g = some (.reg d) → d.length ≤ argp.offset.toNat + maxSize := by
  refine each_map.trans ((locked_inMessage (r := .read argp) rfl fun data => ?_).trans ?_)
  · refine calls_bind (calls_sys rfl) fun _ => ?_
    cases data with
    | none => exact calls_bind (calls_negErrno rfl) fun _ => calls_pure _
    | some data => exact calls_pure _
  · rw [extent_pread_le]
    constructor
    · intro hin
      refine or_iff_not_imp_left.mpr fun hsize g d hacts hb => ?_
      exact (hin hacts.granted).resolve_left hsize g d hacts.file hacts.usable.1 hb
    · rintro (hsize | hin) hns
      · exact .inl hsize
      · exact .inr fun g d hf hread hb => hin g d ⟨hf, ⟨hread, d, hb⟩, hns⟩ hb

/-- The descriptor that a write goes to, with the process that has it: the descriptor of the
request, or the one that is opened for the path. -/
def WriteArg.Target (argp : WriteArg) (os : OS) (fd : Int) (os' : OS) : Prop :=
  if argp.byPath then
    OS.exec (.openPath (translateAbspath argp.path) writeOpenFlags 0) os = .ok (fd, os')
  else fd = argp.fd ∧ os' = os

theorem lockedWrite_inMessage (argp : WriteArg) (fd : Int) {k : Int → Server α}
    (hk : ∀ v, (k v).Calls (Call.Is Sys.bufferless)) :
    (do
      let _ ← sys (.flock fd .ex)
      let v ← sys (.pwrite fd argp.buffer.bytes argp.size.toNat argp.offset.toNat)
      k v : Server α).Each (server peer) (fun c h => c.InMessage h) h ↔
    argp.size.toNat ≤ maxSize ∨ ∀ g, ¬ Acts h.os (.write argp) fd g := by
  refine (locked_inMessage (r := .write argp) rfl hk).trans ?_
  rw [extent_pwrite_le]
  constructor
  · intro hin
    refine or_iff_not_imp_left.mpr fun hsize g hacts => ?_
    obtain ⟨hw, d, hb⟩ := hacts.usable
    exact (hin hacts.granted).resolve_left hsize g d hacts.file hw hb
  · rintro (hsize | hin) hns
    · exact .inl hsize
    · exact .inr fun g d hf hw hb => hin g ⟨hf, ⟨hw, d, hb⟩, hns⟩

/-- **When a write stays inside the message buffer.** -/
theorem write_inMessage_iff (stale : Stale) (argp : WriteArg) :
    (compute6 stale (.write argp)).Each (server peer) (fun c h => c.InMessage h) h ↔
      argp.size.toNat ≤ maxSize ∨
        ∀ fd os g, argp.Target h.os fd os → ¬ Acts os (.write argp) fd g := by
  obtain ⟨sent, hrun⟩ := @run_transmit peer h argp.serverInfo
    fun info => .write { argp with serverInfo := info }
  refine each_map.trans ((each_bind_of_run (inMessage_of_calls (calls_transmit _ _)) hrun).trans ?_)
  have hrest : ∀ (fd v : Int) {p : Server WriteRet}, p.Calls (Call.Is Sys.bufferless) → (do
      let _ ← sys (.flock fd .un)
      if v = -1 then return { stale.write with ret := ← negErrno }
      else p : Server WriteRet).Calls (Call.Is Sys.bufferless) := by
    intro fd v p hp
    refine calls_bind (calls_sys rfl) fun _ => ?_
    split
    · exact calls_bind (calls_negErrno rfl) fun _ => calls_pure _
    · exact hp
  unfold WriteArg.Target
  by_cases hrole : argp.byPath
  · have hrole' : argp.serverInfo.isMaster = 0 ∧ argp.serverInfo.isDegraded = 0 := hrole
    simp only [if_pos hrole, if_pos hrole']
    refine (each_sys.trans (and_iff_right (Nat.zero_le _))).trans ?_
    refine (forall₃_congr fun fd os hopen => lockedWrite_inMessage argp fd fun v =>
      hrest fd v (calls_bind (calls_sys rfl) fun _ => calls_pure _)).trans ?_
    constructor
    · intro hall
      refine or_iff_not_imp_left.mpr fun hsize fd os g hopen => ?_
      exact (hall fd os hopen).resolve_left hsize g
    · intro hin fd os hopen
      exact hin.imp_right fun hno g => hno fd os g hopen
  · have hrole' : ¬ (argp.serverInfo.isMaster = 0 ∧ argp.serverInfo.isDegraded = 0) := hrole
    simp only [if_neg hrole, if_neg hrole', pure_bind]
    refine (lockedWrite_inMessage argp argp.fd fun v => hrest argp.fd v (calls_pure _)).trans ?_
    refine or_congr_right ⟨fun hno fd os g hopen => ?_, fun hno g => ?_⟩
    · obtain ⟨rfl, rfl⟩ := hopen
      exact hno g
    · exact hno argp.fd h.os g ⟨rfl, rfl⟩

end DFS
