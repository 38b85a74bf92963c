import NetworkFileSystem.Service.Refinement

/-!
# What the other requests leave alone

Most handlers change nothing but `errno`, the position in an open directory or a lock; their
calls are *quiet*, and that settles the matter (`compute6_quiet`).  Handlers that open or close
descriptors as well still leave the tree alone (`compute6_keepsTree`).  Opening and writing a file
can change the tree; their rules are stated here for the handlers as a whole.

`OS.Same` compares two states of a process up to `errno`, positions and locks.
-/

namespace Posix

/-- An open file without its position and its lock. -/
def OpenFile.base (f : OpenFile) : OpenFile := { f with pos := 0, lock := none }

/-- The same open files under the same numbers. -/
def Descriptors.Same (t t' : Descriptors) : Prop :=
  ∀ fd, (t'.file fd).map OpenFile.base = (t.file fd).map OpenFile.base

/-- The same state of a process up to `errno`, positions and locks. -/
structure OS.Same (os os' : OS) : Prop where
  fs_eq : os'.fs = os.fs
  umask_eq : os'.umask = os.umask
  beyond_eq : os'.beyond = os.beyond
  fds : Descriptors.Same os.fds os'.fds

namespace Descriptors.Same

variable {t t' t'' : Descriptors}

theorem refl (t : Descriptors) : Same t t := fun _ => rfl

theorem trans (h : Same t t') (h' : Same t' t'') : Same t t'' := fun fd => (h' fd).trans (h fd)

theorem setFile (fd : Int) {f : OpenFile → OpenFile} (hf : ∀ g, (f g).base = g.base) :
    Same t (t.setFile fd f) := by
  intro k
  rw [file_setFile]
  split
  · cases t.file k <;> simp [hf]
  · rfl

theorem symm (h : Same t t') : Same t' t := fun fd => (h fd).symm

/-- An open file of the one table is there in the other, with the same essentials. -/
theorem file (h : Same t t') {fd : Int} {f : OpenFile} (hf : t.file fd = some f) :
    ∃ f', t'.file fd = some f' ∧ f'.base = f.base := by
  have hb := h fd
  rw [hf] at hb
  exact Option.map_eq_some_iff.mp hb

theorem file_none (h : Same t t') {fd : Int} (hf : t.file fd = none) : t'.file fd = none := by
  have hb := h fd
  rw [hf] at hb
  simpa using hb

end Descriptors.Same

namespace OS.Same

variable {os os' os'' : OS}

theorem refl (os : OS) : OS.Same os os := ⟨rfl, rfl, rfl, .refl _⟩

theorem trans (h : OS.Same os os') (h' : OS.Same os' os'') : OS.Same os os'' :=
  ⟨h'.fs_eq.trans h.fs_eq, h'.umask_eq.trans h.umask_eq, h'.beyond_eq.trans h.beyond_eq,
    h.fds.trans h'.fds⟩

theorem fail (os : OS) (e : Errno) : OS.Same os (os.fail e) := ⟨rfl, rfl, rfl, .refl _⟩

theorem tryGet (os : OS) {α : Type} (r : Except Errno α) : OS.Same os (os.tryGet r).2 := by
  cases r with
  | ok a => exact refl os
  | error e => exact fail os e

/-- Setting a lock. -/
theorem flock {fd : Int} {op : LockOp} {r : Int × OS} (h : os.flock fd op = .ok r) :
    OS.Same os r.2 := by
  unfold OS.flock at h
  split at h
  · cases h
    exact fail os _
  · split at h
    · cases h
      exact fail os _
    · split at h
      · split at h
        · cases h
        · cases h
          exact ⟨rfl, rfl, rfl, .setFile fd fun _ => rfl⟩
      · cases h
        exact ⟨rfl, rfl, rfl, .setFile fd fun _ => rfl⟩

end OS.Same

/-- The calls that change nothing but `errno`, a position or a lock. -/
def Sys.quiet {β : Type} : Sys β → Bool
  | .lstat _ | .access _ _ | .readlink _ _ | .statvfs _ | .pread _ _ _ | .flock _ _
  | .fdopendir _ | .readdir _ | .errno => true
  | _ => false

/-- The calls that leave the tree alone. -/
def Sys.keepsTree {β : Type} : Sys β → Bool
  | .opendir _ | .close _ | .closedir _ => true
  | c => c.quiet

theorem Sys.keepsTree_of_quiet {β : Type} {c : Sys β} (h : c.quiet = true) :
    c.keepsTree = true := by
  cases c <;> first | rfl | cases h

/-- A quiet call changes no tree and no table, apart from locks and positions. -/
theorem OS.exec_quiet {β : Type} {c : Sys β} (hc : c.quiet = true) {os : OS} {r : β × OS}
    (h : OS.exec c os = .ok r) : OS.Same os r.2 := by
  cases c <;> simp only [Sys.quiet, Bool.false_eq_true] at hc <;> simp only [OS.exec] at h
  case flock fd op => exact OS.Same.flock h
  case lstat | readlink | statvfs | pread =>
    cases h
    exact OS.Same.tryGet os _
  case access p mask =>
    cases h
    cases os.fs.access p mask with
    | ok u => exact OS.Same.refl os
    | error e => exact OS.Same.fail os e
  case fdopendir fd =>
    cases h
    unfold OS.fdopendir
    split
    · exact OS.Same.fail os _
    · split
      · exact OS.Same.fail os _
      · split
        · split
          · exact OS.Same.refl os
          · exact OS.Same.fail os _
        · exact OS.Same.fail os _
  case readdir dp =>
    cases h
    unfold OS.readdir
    split
    · exact OS.Same.fail os _
    · split
      · exact ⟨rfl, rfl, rfl, .setFile _ fun _ => rfl⟩
      · exact OS.Same.fail os _
  case errno =>
    cases h
    exact OS.Same.refl os

/-- Most calls leave the tree alone. -/
theorem OS.exec_keepsTree {β : Type} {c : Sys β} (hc : c.keepsTree = true) {os : OS} {r : β × OS}
    (h : OS.exec c os = .ok r) : r.2.fs = os.fs ∧ r.2.umask = os.umask := by
  by_cases hq : c.quiet = true
  · exact ⟨(OS.exec_quiet hq h).fs_eq, (OS.exec_quiet hq h).umask_eq⟩
  · cases c <;> simp only [Sys.keepsTree, Sys.quiet, Bool.false_eq_true, not_true_eq_false,
      not_false_eq_true] at hc hq <;> simp only [OS.exec] at h
    case opendir p =>
      cases h
      unfold OS.opendir
      split <;> exact ⟨rfl, rfl⟩
    case close | closedir =>
      cases h
      unfold OS.close
      split <;> exact ⟨rfl, rfl⟩

end Posix

namespace DFS

open Effects Posix Prog

/-! ## The calls of the handlers -/

/-- A system call with a property, or any call of the RPC client. -/
def Call.Is (P : {γ : Type} → Sys γ → Bool) {β : Type} : Call β → Prop
  | .os c => P c = true
  | .rpc _ => True

/-- A system call with a property. -/
def Call.Does (P : {γ : Type} → Sys γ → Bool) {β : Type} : Call β → Prop
  | .os c => P c = true
  | .rpc _ => False

section Calls

variable {P : {γ : Type} → Sys γ → Bool} {A : {γ : Type} → Call γ → Prop} {α β : Type}

theorem not_does {e : Call β} (he : Call.Is (fun c => !P c) e) : ¬ e.Does P := by
  intro hd
  cases e with
  | os c => simp_all [Call.Is, Call.Does]
  | rpc c => exact hd

theorem calls_os {c : Sys β} (hc : A (.os c)) : (sys c).Calls A :=
  (calls_perform _).mpr hc

theorem calls_sys {c : Sys β} (hc : P c = true) : (sys c).Calls (Call.Is P) := calls_os hc

theorem calls_map {f : α → β} {p : Server α} (hp : p.Calls A) : (f <$> p).Calls A := by
  rw [← bind_pure_comp]
  exact calls_bind hp fun _ => trivial

theorem calls_negErrno (h : A (.os Sys.errno)) : negErrno.Calls A :=
  calls_bind (calls_os h) fun _ => trivial

theorem calls_isOpValid (h : ∀ p, A (.os (Sys.lstat p))) (p ip : CStr) (flags : UInt32) :
    (isOpValid p ip flags).Calls A := by
  refine calls_bind (calls_os (h p)) fun r => ?_
  cases r <;> trivial

theorem calls_isOwner (h : ∀ p, A (.os (Sys.lstat p))) (p ip : CStr) :
    (isOwner p ip).Calls A :=
  calls_bind (calls_os (h p)) fun r => by cases r <;> trivial

theorem calls_isParentDirValid (h : ∀ p, A (.os (Sys.lstat p))) (p q ip : CStr) (op : OpName) :
    (isParentDirValid p q ip op).Calls A := by
  unfold isParentDirValid
  dsimp only
  split
  · split
    · refine calls_bind (calls_bind (calls_os (h q)) fun r => ?_) fun _ => ?_
      · cases r <;> trivial
      · split <;> trivial
    · trivial
  · exact calls_bind (calls_isOpValid h _ _ _) fun _ => by split <;> trivial

theorem calls_checkParent (h : ∀ p, A (.os (Sys.lstat p))) {p q ip : CStr} {op : OpName}
    {rest : Server StatusRet} (hrest : rest.Calls A) :
    (checkParentDirectoryValid p q ip op rest).Calls A := by
  unfold checkParentDirectoryValid
  exact calls_bind (calls_isParentDirValid h _ _ _ _) fun _ => by split <;> first
    | exact hrest
    | trivial

theorem calls_transmit (info : Identity) (slaveArg : Identity → Request) :
    (transmitToSecondaty info slaveArg).Calls (Call.Is P) := by
  unfold transmitToSecondaty connectServer
  split
  · refine calls_bind (calls_perform _ |>.mpr trivial) fun b => ?_
    split
    · exact calls_bind (calls_perform _ |>.mpr trivial) fun _ => calls_perform _ |>.mpr trivial
    · trivial
  · trivial

/-- Giving up a lock is one call, whatever comes of it. -/
theorem calls_dunlock (h : ∀ fd, A (.os (Sys.flock fd .un))) (fd : Int) : (dunlock fd).Calls A :=
  calls_bind (calls_os (h fd)) fun _ => by split <;> trivial

theorem calls_unlock (h : ∀ fd, A (.os (Sys.flock fd .un))) (fd : Int) (result : StatusRet) :
    (unlockDirectory fd result).Calls A :=
  calls_bind (calls_dunlock h fd) fun _ => by split <;> trivial

/-- A lock is taken by two calls. -/
theorem calls_dlock (hopen : ∀ p, A (.os (Sys.opendir p)))
    (hlock : ∀ fd, A (.os (Sys.flock fd .ex))) (p : CStr) : (dlock p).Calls A := by
  refine calls_bind (calls_os (hopen p)) fun dir => ?_
  cases dir with
  | none => trivial
  | some dir =>
      dsimp only
      split
      · trivial
      · exact calls_bind (calls_os (hlock _)) fun _ => by split <;> trivial

/-- Giving an object to the client is one call. -/
theorem calls_setOwner (h : ∀ p u g, A (.os (Sys.chown p u g))) (p ip : CStr) :
    (setOwner p ip).Calls A :=
  calls_bind (calls_os (h p _ _)) fun _ => by split <;> trivial

end Calls

/-- The requests whose handlers are quiet. -/
def Request.quiet : Request → Bool
  | .getattr _ | .access _ | .readdir _ | .readlink _ | .read _ | .statfs _ => true
  | _ => false

theorem compute6_calls_quiet {A : {γ : Type} → Call γ → Prop}
    (hA : ∀ {γ : Type} (c : Sys γ), c.quiet = true → A (.os c)) {r : Request}
    (h : r.quiet = true) (stale : Stale) : (compute6 stale r).Calls A := by
  have herr : ∀ {ρ : Type} (f : Int → ρ), (do return f (← negErrno) : Server ρ).Calls A :=
    fun f => calls_bind (calls_negErrno (hA _ rfl)) fun _ => trivial
  cases r <;> simp only [Request.quiet, Bool.false_eq_true] at h <;> refine calls_map ?_
  case getattr arg =>
    refine calls_bind (calls_os (hA _ rfl)) fun r => ?_
    cases r with
    | none => exact herr _
    | some st => trivial
  case access arg => exact calls_bind (calls_os (hA _ rfl)) fun _ => trivial
  case readdir arg =>
    refine calls_bind (calls_os (hA _ rfl)) fun _ => calls_bind (calls_os (hA _ rfl)) fun r => ?_
    cases r with
    | none => exact calls_bind (calls_os (hA _ rfl)) fun _ => herr _
    | some dp =>
        exact calls_bind (calls_os (hA _ rfl)) fun _ =>
          calls_bind (calls_os (hA _ rfl)) fun _ => trivial
  case readlink arg =>
    refine calls_bind (calls_os (hA _ rfl)) fun r => ?_
    cases r with
    | none => exact herr _
    | some target => trivial
  case read arg =>
    refine calls_bind (calls_os (hA _ rfl)) fun _ => calls_bind (calls_os (hA _ rfl)) fun r =>
      calls_bind (calls_os (hA _ rfl)) fun _ => ?_
    cases r with
    | none => exact herr _
    | some data => trivial
  case statfs arg =>
    refine calls_bind (calls_os (hA _ rfl)) fun r => ?_
    cases r with
    | none => exact herr _
    | some st => trivial

/-- The requests that leave the tree alone. -/
def Request.keepsTree : Request → Bool
  | .opendir _ | .releasedir _ | .release _ => true
  | r => r.quiet

theorem compute6_calls_keepsTree {A : {γ : Type} → Call γ → Prop}
    (hA : ∀ {γ : Type} (c : Sys γ), c.keepsTree = true → A (.os c)) {r : Request}
    (h : r.keepsTree = true) (stale : Stale) : (compute6 stale r).Calls A := by
  have herr : ∀ {ρ : Type} (f : Int → ρ), (do return f (← negErrno) : Server ρ).Calls A :=
    fun f => calls_bind (calls_negErrno (hA _ rfl)) fun _ => trivial
  by_cases hq : r.quiet = true
  · exact compute6_calls_quiet (fun c hc => hA c (Sys.keepsTree_of_quiet hc)) hq stale
  · cases r <;> simp only [Request.keepsTree, Request.quiet, Bool.false_eq_true,
      not_true_eq_false, not_false_eq_true] at h hq <;> refine calls_map ?_
    case opendir arg =>
      refine calls_bind (calls_isOpValid (fun _ => hA _ rfl) _ _ _) fun v => ?_
      split
      · trivial
      · refine calls_bind (calls_os (hA _ rfl)) fun r => ?_
        cases r with
        | none => exact herr _
        | some dp => trivial
    case releasedir arg =>
      refine calls_bind (calls_os (hA _ rfl)) fun r => ?_
      cases r with
      | none => exact herr _
      | some dir =>
          refine calls_bind (calls_os (hA _ rfl)) fun r => ?_
          split
          · exact herr _
          · trivial
    case release arg =>
      refine calls_bind (calls_os (hA _ rfl)) fun r => ?_
      split
      · exact herr _
      · trivial

/-! ## Frames -/

/-- A relation that every call of a program respects is respected by the program's runs. -/
theorem server_run_rel {P : {γ : Type} → Sys γ → Bool} {R : OS → OS → Prop}
    (hrefl : ∀ os, R os os) (htrans : ∀ a b c, R a b → R b c → R a c)
    (hexec : ∀ {β : Type} {c : Sys β}, P c = true → ∀ {os : OS} {r : β × OS},
      OS.exec c os = .ok r → R os r.2)
    {α : Type} {p : Server α} (hp : p.Calls (Call.Is P)) {peer : Peer} {h h' : Host} {a : α}
    (hr : p.run (server peer) h = .ok (a, h')) : R h.os h'.os := by
  refine Calls.run_rel (R := fun h h' : Host => R h.os h'.os) (fun h => hrefl _)
    (fun a b c => htrans _ _ _) ?_ hp hr
  intro β e he s b t hstep
  cases e with
  | os c =>
      simp only [server] at hstep
      obtain ⟨r, hr, hrt⟩ := map_eq_ok.mp hstep
      cases hrt
      exact hexec he hr
  | rpc c =>
      cases c <;> cases hstep <;> exact hrefl _

/-- **A quiet request** changes `errno`, positions and locks at most. -/
theorem compute6_quiet {r : Request} (hq : r.quiet = true) {peer : Peer} {stale : Stale}
    {h h' : Host} {reply : Reply}
    (hr : (compute6 stale r).run (server peer) h = .ok (reply, h')) : OS.Same h.os h'.os :=
  server_run_rel OS.Same.refl (fun _ _ _ => OS.Same.trans) OS.exec_quiet
    (compute6_calls_quiet (fun _ hc => hc) hq stale) hr

/-- A request that only looks leaves the tree alone. -/
theorem compute6_keepsTree {r : Request} (hk : r.keepsTree = true) {peer : Peer} {stale : Stale}
    {h h' : Host} {reply : Reply}
    (hr : (compute6 stale r).run (server peer) h = .ok (reply, h')) :
    h'.os.fs = h.os.fs ∧ h'.os.umask = h.os.umask :=
  server_run_rel (R := fun a b => b.fs = a.fs ∧ b.umask = a.umask) (fun _ => ⟨rfl, rfl⟩)
    (fun _ _ _ h h' => ⟨h'.1.trans h.1, h'.2.trans h.2⟩) OS.exec_keepsTree
    (compute6_calls_keepsTree (fun _ hc => hc) hk stale) hr

/-- No system call of the signature sets the `umask`. -/
theorem exec_umask {β : Type} {c : Sys β} {os : OS} {r : β × OS} (h : OS.exec c os = .ok r) :
    r.2.umask = os.umask := by
  have htry : ∀ x : Except Errno FS, (os.tryFS x).2.umask = os.umask := by
    intro x
    cases x <;> rfl
  by_cases hk : c.keepsTree = true
  · exact (OS.exec_keepsTree hk h).2
  · cases c <;> simp only [Sys.keepsTree, Sys.quiet, not_true_eq_false] at hk <;>
      simp only [OS.exec] at h
    case openPath p flags mode =>
      rcases os.openFile_cases p flags mode with ⟨e, -, hr, -⟩ | ⟨i, fs, -, hr⟩ | hr
      · rw [hr] at h
        cases h
        rfl
      · rw [hr] at h
        cases h
        rfl
      · rw [hr] at h
        cases h
    case pwrite fd buf size offset =>
      split at h
      · cases h
        rfl
      · cases h
        rfl
    case exit => cases h
    all_goals
      cases h
      exact htry _

/-- No request changes the `umask`. -/
theorem serve_umask {a : Arrival} {h h' : Host} {reply : Reply} (hr : serve a h = .ok (reply, h')) :
    h'.os.umask = h.os.umask :=
  server_run_rel (P := fun _ => true) (R := fun os os' => os'.umask = os.umask) (fun _ => rfl)
    (fun _ _ _ h h' => h'.trans h) (fun _ {_ _} => exec_umask)
    ((calls_true _).mono fun e _ => by cases e <;> trivial) hr

end DFS
