import NetworkFileSystem.Service.Errors
import NetworkFileSystem.Service.Files

/-!
# What a read or a write transfers

Over every outcome of the calls, a reply without an error says that no more bytes were transferred
than were asked for, and then the decisive call has not failed (**`sound_read`**,
**`sound_write`**).
-/

namespace Posix

variable {fault : Option Fault} {os os' : OS} {fd : Int} {size offset : ℕ}

namespace OS

theorem exec_pread {b : Option (List UInt8)} (h : exec (.pread fd size offset) os = .ok (b, os')) :
    b = none ∧ 0 < os'.errno ∨ ∃ data, b = some data ∧ data.length ≤ size := by
  simp only [exec] at h
  cases hp : os.pread fd size offset with
  | ok data =>
      rw [hp] at h
      cases h
      obtain ⟨g, i, n, d, -, -, -, -, -, rfl⟩ := pread_eq_ok.mp hp
      exact .inr ⟨_, rfl, (List.length_take_le _ _).trans (min_le_left _ _)⟩
  | error e =>
      rw [hp] at h
      cases h
      exact .inl ⟨rfl, pread_error hp⟩

theorem attempt_pread {b : Option (List UInt8)}
    (h : attempt fault (.pread fd size offset) os = .ok (b, os')) :
    b = none ∧ 0 < os'.errno ∨ ∃ data, b = some data ∧ data.length ≤ size := by
  cases fault with
  | none => exact exec_pread (show exec (.pread fd size offset) os = _ from h)
  | some fault =>
      cases fault with
      | short n =>
          have hexec : exec (.pread fd (min size n) offset) os = .ok (b, os') := h
          refine (exec_pread hexec).imp_right ?_
          rintro ⟨data, hb, hlen⟩
          exact ⟨data, hb, hlen.trans (min_le_left _ _)⟩
      | fail e he =>
          cases h
          exact .inl ⟨rfl, he⟩

theorem exec_pwrite {buf : List UInt8} {v : Int}
    (h : exec (.pwrite fd buf size offset) os = .ok (v, os')) :
    v = -1 ∧ 0 < os'.errno ∨ 0 ≤ v ∧ v ≤ size := by
  simp only [exec] at h
  cases hp : os.pwrite fd ((buf ++ os.beyond).take (min size maxRwCount)) offset with
  | ok fs =>
      rw [hp] at h
      cases h
      have hlen := List.length_take_le (min size maxRwCount) (buf ++ os.beyond)
      exact .inr ⟨Int.natCast_nonneg _, by omega⟩
  | error e =>
      rw [hp] at h
      cases h
      refine .inl ⟨rfl, ?_⟩
      rcases pwrite_error hp with rfl | rfl
      · exact (by decide : 0 < EBADF)
      · exact (by decide : 0 < ESPIPE)

theorem attempt_pwrite {buf : List UInt8} {v : Int}
    (h : attempt fault (.pwrite fd buf size offset) os = .ok (v, os')) :
    v = -1 ∧ 0 < os'.errno ∨ 0 ≤ v ∧ v ≤ size := by
  cases fault with
  | none => exact exec_pwrite (show exec (.pwrite fd buf size offset) os = _ from h)
  | some fault =>
      cases fault with
      | short n =>
          have hexec : exec (.pwrite fd buf (min size n) offset) os = .ok (v, os') := h
          refine (exec_pwrite hexec).imp_right fun hv => ⟨hv.1, ?_⟩
          have hmin := min_le_left size n
          omega
      | fail e he =>
          cases h
          exact .inl ⟨rfl, he⟩

theorem attempt_flock {op : LockOp} {v : Int} (h : attempt fault (.flock fd op) os = .ok (v, os'))
    (hpos : 0 < os.errno) : 0 < os'.errno := by
  cases fault with
  | none => exact flock_errno h hpos
  | some fault =>
      cases fault with
      | short n => exact flock_errno h hpos
      | fail e he =>
          cases h
          exact he

end OS

end Posix

namespace DFS

open Effects Posix Prog

variable {peer : Peer} {s₀ s : Observed}

/-- A negative answer after a failed transfer. -/
theorem wp_negErrnoNext {Q : Int → Observed → Prop} (hpos : 0 < s.1.1.os.errno)
    (hQ : ∀ v t, v < 0 → Q v t) : negErrno.wp (trying peer) Q AnyHalt s := by
  refine wp_errno (D := fun _ => false) rfl fun t _ => hQ _ t ?_
  exact Int.neg_neg_of_pos (Int.natCast_pos.mpr hpos)

/-- Giving up a lock keeps the error number from being zero. -/
theorem wp_flockNext {fd : Int} {op : LockOp} {Q : Int → Observed → Prop}
    (hpos : 0 < s.1.1.os.errno) (hQ : ∀ v t, 0 < t.1.1.os.errno → Q v t) :
    (sys (.flock fd op)).wp (trying peer) Q AnyHalt s :=
  wp_try_any fun r hr => hQ r.1 _ (OS.attempt_flock hr hpos)

/-- A reply without an error: so many bytes at most, and no decisive call has failed. -/
def Sound (D : SysName → Bool) (size : UInt32) (ret len : Int) (s t : Observed) : Prop :=
  0 ≤ ret → (0 ≤ len ∧ len ≤ size.toNat) ∧ Since (Unhurt D) s t

theorem sound_read (argp : ReadArg) (result : ReadRet) : (bbRead6Svc argp result).wp (trying peer)
    (fun r t => Sound (Request.read argp).decisive argp.size r.ret r.len s t) AnyHalt s := by
  let D := (Request.read argp).decisive
  unfold bbRead6Svc
  dsimp only
  rw [wp_bind]
  refine wp_idleNext (D := D) (calls_sys rfl) (since_refl s) fun _ t ht => ?_
  rw [wp_bind]
  refine wp_try_any fun b hb => ?_
  obtain ⟨b, os'⟩ := b
  rw [wp_bind]
  rcases OS.attempt_pread hb with ⟨rfl, hpos⟩ | ⟨data, rfl, hlen⟩
  · refine wp_flockNext hpos fun _ u hu => ?_
    rw [wp_bind]
    refine wp_negErrnoNext hu fun v w hv hret => ?_
    exact absurd hret (Int.not_le.mpr hv)
  · have ht₀ : Since (Unhurt D) s (noting t (.pread argp.fd argp.size.toNat argp.offset.toNat)
        (some data, os')) := ht.append (since_noting (forall_trial.mpr fun _ => rfl))
          fun _ _ hl hl' => hl.unhurt.append hl'
    refine (wp_idle (D := D) (calls_sys rfl)).imp fun _ u hu _ => ?_
    refine ⟨⟨Int.natCast_nonneg _, ?_⟩, ht₀.append hu fun _ _ hl hl' => hl.append hl'.unhurt⟩
    exact Int.ofNat_le.mpr hlen

/-- What follows in a write once it is settled which descriptor is used. -/
theorem sound_transfer {argp : WriteArg} {fd : Int} {result : WriteRet}
    (hs : Since (Idle (Request.write argp).decisive) s₀ s) :
    (do
      let _ ← sys (.flock fd .ex)
      let writeRet ← sys (.pwrite fd argp.buffer.bytes argp.size.toNat argp.offset.toNat)
      let _ ← sys (.flock fd .un)
      if writeRet = -1 then return { result with ret := ← negErrno }
      else
        if argp.serverInfo.isMaster = 0 ∧ argp.serverInfo.isDegraded = 0 then
          let _ ← sys (.close fd)
        return { len := writeRet, ret := 0 } : Server WriteRet).wp (trying peer)
      (fun r t => Sound (Request.write argp).decisive argp.size r.ret r.len s₀ t) AnyHalt s := by
  let D := (Request.write argp).decisive
  rw [wp_bind]
  refine wp_idleNext (D := D) (calls_sys rfl) hs fun _ t ht => ?_
  rw [wp_bind]
  refine wp_try_any fun b hb => ?_
  obtain ⟨v, os'⟩ := b
  rw [wp_bind]
  rcases OS.attempt_pwrite hb with ⟨rfl, hpos⟩ | ⟨hv, hlen⟩
  · refine wp_flockNext hpos fun _ u hu => ?_
    rw [if_pos rfl, wp_bind]
    refine wp_negErrnoNext hu fun v w hv hret => ?_
    exact absurd hret (Int.not_le.mpr hv)
  · have hne : ¬ v = -1 := by omega
    have ht₀ : Since (Unhurt D) s₀ (noting t (.pwrite fd argp.buffer.bytes argp.size.toNat
        argp.offset.toNat) (v, os')) := ht.append (since_noting (forall_trial.mpr fun _ => by
          simp [Sys.trial, Sys.failed, hne])) fun _ _ hl hl' => hl.unhurt.append hl'
    refine (wp_idle (D := D) (calls_sys rfl)).imp fun _ u hu => ?_
    have hu₀ : Since (Unhurt D) s₀ u := ht₀.append hu fun _ _ hl hl' => hl.append hl'.unhurt
    rw [if_neg hne]
    split
    · rw [wp_bind]
      refine (wp_idle (D := D) (calls_sys rfl)).imp fun _ w hw _ => ?_
      exact ⟨⟨hv, hlen⟩, hu₀.append hw fun _ _ hl hl' => hl.append hl'.unhurt⟩
    · exact fun _ => ⟨⟨hv, hlen⟩, hu₀⟩

theorem sound_write (argp : WriteArg) (result : WriteRet) :
    (bbWrite6Svc argp result).wp (trying peer)
      (fun r t => Sound (Request.write argp).decisive argp.size r.ret r.len s t) AnyHalt s := by
  unfold bbWrite6Svc
  rw [wp_bind]
  refine wp_idleNext (D := (Request.write argp).decisive) (calls_transmit _ _) (since_refl s)
    fun _ t ht => ?_
  dsimp only
  by_cases hc : argp.serverInfo.isMaster = 0 ∧ argp.serverInfo.isDegraded = 0
  · rw [if_pos hc, wp_bind]
    exact wp_idleNext (calls_sys rfl) ht fun fd u hu => sound_transfer hu
  · rw [if_neg hc]
    exact sound_transfer ht

end DFS
