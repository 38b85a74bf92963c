import NetworkFileSystem.Effects.Issues
import NetworkFileSystem.Service.Files
import NetworkFileSystem.Service.Locking

/-!
# The positions that a server passes on

A read or a write passes the `offset` of its message to `pread` or `pwrite`, a truncation passes
its `newsize` to `truncate`; nothing that happens to the calls of the handler changes that
(**`passes_read`**, **`passes_write`**, **`passes_truncate`**).  A request of these kinds that is
answered with an error has left the tree alone (**`refused_of_neg`**).
-/

namespace DFS

open Effects Posix Prog

/-- The position in a file, or the length, that a call is given. -/
def Sys.position? {β : Type} : Sys β → Option Int
  | .pread _ _ offset => some offset
  | .pwrite _ _ _ offset => some offset
  | .truncate _ len => some len
  | _ => none

/-- A call that is given the position `n`, or none. -/
def Call.At (n : Int) {β : Type} : Call β → Prop
  | .os c => ∀ m, Sys.position? c = some m → m = n
  | .rpc _ => True

/-- Whatever state the server is in, and whatever happens to its calls, the position or length
that it passes on for the request is `n`. -/
def PassesOn (r : Request) (n : Int) : Prop :=
  ∀ (stale : Stale) (peer : Peer) (h : Host) (f : Faults),
    (compute6 stale r).Each (disturbed peer) (fun c _ => c.At n) (h, f)

/-- A request was answered with an error, and no server that answers so has changed its tree. -/
def Refused (r : Request) (reply : Reply) : Prop :=
  reply.ret < 0 ∧ ∀ d h h', d.arrival.request = r → answer d h = .ok (reply, h') →
    h'.os.fs = h.os.fs

section

variable {peer : Peer} {h : Host} {f : Faults} {n : Int} {β : Type}

/-! ## Positions -/

theorem calls_at_sys {c : Sys β} (hc : Sys.position? c = none) : (sys c).Calls (Call.At n) := by
  refine (calls_perform _).mpr fun m hm => ?_
  rw [hc] at hm
  cases hm

theorem calls_at_transmit (info : Identity) (slaveArg : Identity → Request) :
    (transmitToSecondaty info slaveArg).Calls (Call.At n) :=
  (calls_transmit (P := fun c => (Sys.position? c).isNone) info slaveArg).mono fun e he => by
    cases e with
    | os c =>
        intro m hm
        simp only [Call.Is] at he
        rw [hm] at he
        cases he
    | rpc c => trivial

theorem calls_at_negErrno : negErrno.Calls (Call.At n) :=
  calls_bind (calls_at_sys rfl) fun _ => calls_pure _

theorem passes_of_calls {r : Request} (hc : ∀ stale, (compute6 stale r).Calls (Call.At n)) :
    PassesOn r n := fun stale _ _ _ => (hc stale).each fun _ _ he => he

/-- Every call of the handler fails. -/
def allFail : Faults := List.replicate 4 (some (.fail EMFILE (by decide)))

/-- Nothing is sent on to a server that does not exist. -/
theorem transmit_absent (info : Identity) (slaveArg : Identity → Request) (s : Host × Faults) :
    (transmitToSecondaty info slaveArg).run (disturbed .absent) s = .ok ((), s) := by
  unfold transmitToSecondaty
  split <;> rfl

/-- What comes after the forwarding of a request. -/
theorem each_after_transmit {α : Type} {info : Identity} {slaveArg : Identity → Request}
    {p : Server α} {s : Host × Faults}
    (he : (transmitToSecondaty info slaveArg >>= fun _ => p).Each (disturbed .absent)
      (fun c _ => c.At n) s) : p.Each (disturbed .absent) (fun c _ => c.At n) s :=
  (each_bind.mp he).2 () s (transmit_absent info slaveArg s)

end

theorem passes_read (arg : ReadArg) (n : Int) : PassesOn (.read arg) n ↔ n = arg.offset.toNat := by
  constructor
  · intro hp
    have h := (hp .zero .absent (.start (.ofNodes [])) allFail).2 _ rfl
    exact (h.1 _ rfl).symm
  · rintro rfl
    refine passes_of_calls fun stale => ?_
    refine calls_bind ?_ fun _ => calls_pure _
    refine calls_bind (calls_at_sys rfl) fun _ => ?_
    refine calls_bind ((calls_perform _).mpr fun m hm => ?_) fun data => ?_
    · cases hm
      rfl
    · refine calls_bind (calls_at_sys rfl) fun _ => ?_
      cases data with
      | none => exact calls_bind calls_at_negErrno fun _ => calls_pure _
      | some data => exact calls_pure _

theorem passes_truncate (arg : TruncateArg) (n : Int) :
    PassesOn (.truncate arg) n ↔ n = arg.newsize := by
  constructor
  · intro hp
    have h := each_after_transmit
      (each_map.mp (hp .zero .absent (.start (.ofNodes [])) allFail))
    exact (h.1 _ rfl).symm
  · rintro rfl
    refine passes_of_calls fun stale => ?_
    refine calls_bind ?_ fun _ => calls_pure _
    refine calls_bind (calls_at_transmit _ _) fun _ => ?_
    refine calls_bind ((calls_perform _).mpr fun m hm => ?_) fun ret => ?_
    · cases hm
      rfl
    · split
      · exact calls_bind calls_at_negErrno fun _ => calls_pure _
      · exact calls_pure _

/-- The part of a write that both servers have in common. -/
theorem calls_at_lockedWrite (arg : WriteArg) (fd : Int) {α : Type} {k : Int → Server α}
    (hk : ∀ v, (k v).Calls (Call.At (arg.offset.toNat : Int))) :
    (do
      let _ ← sys (.flock fd .ex)
      let v ← sys (.pwrite fd arg.buffer.bytes arg.size.toNat arg.offset.toNat)
      let _ ← sys (.flock fd .un)
      k v : Server α).Calls (Call.At (arg.offset.toNat : Int)) := by
  refine calls_bind (calls_at_sys rfl) fun _ => ?_
  refine calls_bind ((calls_perform _).mpr fun m hm => ?_) fun v => ?_
  · cases hm
    rfl
  · exact calls_bind (calls_at_sys rfl) fun _ => hk v

theorem passes_write (arg : WriteArg) (n : Int) :
    PassesOn (.write arg) n ↔ n = arg.offset.toNat := by
  constructor
  · intro hp
    have h := each_after_transmit
      (each_map.mp (hp .zero .absent (.start (.ofNodes [])) allFail))
    dsimp only at h
    split at h
    · exact ((h.2 _ rfl).2 _ rfl).1 _ rfl |>.symm
    · exact ((h.2 _ rfl).1 _ rfl).symm
  · rintro rfl
    refine passes_of_calls fun stale => ?_
    refine calls_bind ?_ fun _ => calls_pure _
    refine calls_bind (calls_at_transmit _ _) fun _ => ?_
    dsimp only
    split
    · refine calls_bind (calls_at_sys rfl) fun fd => calls_at_lockedWrite arg fd fun v => ?_
      split
      · exact calls_bind calls_at_negErrno fun _ => calls_pure _
      · exact calls_bind (calls_at_sys rfl) fun _ => calls_pure _
    · refine calls_at_lockedWrite arg arg.fd fun v => ?_
      split
      · exact calls_bind calls_at_negErrno fun _ => calls_pure _
      · exact calls_pure _

/-! ## Refusals -/

/-- A disturbed call that leaves the tree alone leaves it alone. -/
theorem execUnder_keepsTree {β : Type} {c : Sys β} (hc : c.keepsTree = true)
    {fault : Option Fault} {os : OS} {r : β × OS} (h : OS.execUnder fault c os = .ok r) :
    r.2.fs = os.fs := by
  have hlimited : ∀ n, (c.limited n).keepsTree = true := by
    intro n
    cases c <;> exact hc
  cases fault with
  | none => exact (OS.exec_keepsTree hc h).1
  | some fault =>
      cases fault with
      | short n => exact (OS.exec_keepsTree (hlimited n) h).1
      | fail e he =>
          unfold OS.execUnder at h
          dsimp only at h
          split at h
          · cases h
            rfl
          · exact (OS.exec_keepsTree hc h).1

/-- A program of such calls leaves the tree alone. -/
theorem run_keepsTree {α : Type} {p : Server α} (hp : p.Calls (Call.Is Sys.keepsTree))
    {peer : Peer} {s t : Host × Faults} {a : α} (hr : p.run (disturbed peer) s = .ok (a, t)) :
    t.1.os.fs = s.1.os.fs := by
  refine hp.run_rel (R := fun s t : Host × Faults => t.1.os.fs = s.1.os.fs) (fun _ => rfl)
    (fun _ _ _ h h' => h'.trans h) ?_ hr
  intro β e he s b t hstep
  cases e with
  | os c =>
      simp only [disturbed] at hstep
      obtain ⟨r, hr, hrt⟩ := map_eq_ok.mp hstep
      cases hrt
      exact execUnder_keepsTree he hr
  | rpc c => cases c <;> cases hstep <;> rfl

section

variable {peer : Peer} {h : Host} {f : Faults}

theorem wp_keepsTree {α : Type} {p : Server α} (hp : p.Calls (Call.Is Sys.keepsTree))
    {Q : α → Host × Faults → Prop} (hQ : ∀ a h' f', h'.os.fs = h.os.fs → Q a (h', f')) :
    p.wp (disturbed peer) Q (fun _ => True) (h, f) :=
  wp_of_run fun a t hr => hQ a t.1 t.2 (run_keepsTree hp hr)

/-- The secondary opens the file of a write without changing the tree. -/
theorem openFile_write_fs (os : OS) (p : CStr) {r : Int × OS}
    (h : os.openFile p writeOpenFlags 0 = .ok r) : r.2.fs = os.fs := by
  rcases os.openFile_cases p writeOpenFlags 0 with
    ⟨e, -, hr, -⟩ | ⟨i, fs, hopen, hr⟩ | hr
  · rw [hr] at h
    cases h
    rfl
  · rw [hr] at h
    cases h
    exact (openAt_write.mp hopen).2.1
  · rw [hr] at h
    cases h

theorem wp_openWrite {p : CStr} {Q : Int → Host × Faults → Prop}
    (hQ : ∀ fd h' f', h'.os.fs = h.os.fs → Q fd (h', f')) :
    (sys (.openPath p writeOpenFlags 0)).wp (disturbed peer) Q (fun _ => True) (h, f) := by
  refine wp_fallible rfl (fun _ => rfl) (fun _ e _ => hQ _ _ _ rfl) fun _ => ?_
  simp only [OS.exec]
  cases ho : h.os.openFile p writeOpenFlags 0 with
  | ok r => exact hQ _ _ _ (openFile_write_fs _ _ ho)
  | error w => trivial

/-- A write that fails changes nothing. -/
theorem execUnder_pwrite_failed {fault : Option Fault} {os : OS} {fd : Int} {buf : List UInt8}
    {size offset : ℕ} {r : Int × OS}
    (h : OS.execUnder fault (.pwrite fd buf size offset) os = .ok r) (hr : r.1 = -1) :
    r.2.fs = os.fs := by
  have hexec : ∀ n, OS.exec (.pwrite fd buf n offset) os = .ok r → r.2.fs = os.fs := by
    intro n hx
    simp only [OS.exec] at hx
    split at hx
    · cases hx
      dsimp only at hr
      omega
    · cases hx
      rfl
  cases fault with
  | none => exact hexec size h
  | some fault =>
      cases fault with
      | short n => exact hexec (min size n) h
      | fail e he =>
          cases h
          rfl

theorem wp_lockedWriteUnder {fd : Int} {arg : WriteArg} {α : Type} {k : Int → Server α}
    {Q : α → Host × Faults → Prop} (hk : ∀ v h' f', (v = -1 → h'.os.fs = h.os.fs) →
      (k v).wp (disturbed peer) Q (fun _ => True) (h', f')) :
    (do
      let _ ← sys (.flock fd .ex)
      let v ← sys (.pwrite fd arg.buffer.bytes arg.size.toNat arg.offset.toNat)
      let _ ← sys (.flock fd .un)
      k v : Server α).wp (disturbed peer) Q (fun _ => True) (h, f) := by
  rw [wp_bind]
  refine wp_keepsTree (calls_sys rfl) fun _ h₁ f₁ hfs₁ => ?_
  rw [wp_bind, wp_sysUnder]
  split
  · next r hx =>
    rw [wp_bind]
    refine wp_keepsTree (calls_sys rfl) fun _ h₃ f₃ hfs₃ => hk _ _ _ fun hv => ?_
    exact hfs₃.trans ((execUnder_pwrite_failed hx hv).trans hfs₁)
  · trivial

theorem wp_writeRefused (arg : WriteArg) (result : WriteRet) :
    (bbWrite6Svc arg result).wp (disturbed peer)
      (fun r s => r.ret < 0 → s.1.os.fs = h.os.fs) (fun _ => True) (h, f) := by
  unfold bbWrite6Svc
  rw [wp_bind]
  refine wp_transmitUnder fun h₀ h₀os => ?_
  dsimp only
  split
  · rw [wp_bind]
    refine wp_openWrite fun fd h₁ f₁ hfs₁ => wp_lockedWriteUnder fun v h₂ f₂ hfs₂ => ?_
    split
    · next hv =>
      rw [wp_bind]
      refine wp_keepsTree (calls_negErrno rfl) fun _ h₃ f₃ hfs₃ _ => ?_
      rw [hfs₃, hfs₂ hv, hfs₁, h₀os]
    · rw [wp_bind]
      exact wp_keepsTree (calls_sys rfl) fun _ _ _ _ hret => absurd hret (Int.lt_irrefl 0)
  · refine wp_lockedWriteUnder fun v h₂ f₂ hfs₂ => ?_
    split
    · next hv =>
      rw [wp_bind]
      refine wp_keepsTree (calls_negErrno rfl) fun _ h₃ f₃ hfs₃ _ => ?_
      rw [hfs₃, hfs₂ hv, h₀os]
    · exact fun hret => absurd hret (Int.lt_irrefl 0)

theorem wp_truncateRefused (arg : TruncateArg) :
    (bbTruncate6Svc arg).wp (disturbed peer)
      (fun r s => r.ret < 0 → s.1.os.fs = h.os.fs) (fun _ => True) (h, f) := by
  unfold bbTruncate6Svc
  rw [wp_bind]
  refine wp_transmitUnder fun h₀ h₀os => ?_
  dsimp only
  rw [wp_bind]
  refine wp_fallible rfl (fun _ => rfl) (fun _ e _ => ?_) fun _ => ?_
  · rw [if_pos (by decide), wp_bind]
    refine wp_keepsTree (calls_negErrno rfl) fun _ h₃ f₃ hfs₃ _ => ?_
    rw [hfs₃, ← h₀os]
    rfl
  · simp only [OS.exec]
    cases h₀.os.fs.truncate (translateAbspath arg.path) arg.newsize with
    | ok fs => exact fun hret => absurd hret (by decide)
    | error e =>
        rw [OS.tryFS, if_pos (show (-1 : Int) < 0 by decide), wp_bind]
        refine wp_keepsTree (calls_negErrno rfl) fun _ h₃ f₃ hfs₃ _ => ?_
        rw [hfs₃, ← h₀os]
        rfl

end

/-- The requests that read, write or truncate. -/
def Request.positioned : Request → Bool
  | .read _ | .write _ | .truncate _ => true
  | _ => false

/-- **Refusals.**  A read, a write or a truncation that is answered with an error has left the
tree alone. -/
theorem refused_iff {r : Request} (hr : r.positioned = true) (reply : Reply) :
    Refused r reply ↔ reply.ret < 0 := by
  refine and_iff_left_of_imp ?_
  rintro hret d h h' rfl hs
  obtain ⟨⟨reply', s⟩, hrun, heq⟩ := map_eq_ok.mp hs
  cases heq
  cases hreq : d.arrival.request with
  | read arg =>
      rw [hreq] at hrun
      exact run_keepsTree (compute6_calls_keepsTree (fun _ hc => hc) rfl d.arrival.stale) hrun
  | write arg =>
      rw [hreq, compute6, run_map_eq_ok] at hrun
      obtain ⟨v, hrun, rfl⟩ := hrun
      exact (wp_writeRefused arg d.arrival.stale.write).of_run hrun hret
  | truncate arg =>
      rw [hreq, compute6, run_map_eq_ok] at hrun
      obtain ⟨v, hrun, rfl⟩ := hrun
      exact (wp_truncateRefused arg).of_run hrun hret
  | _ =>
      rw [hreq] at hr
      cases hr

end DFS
