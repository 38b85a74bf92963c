import NetworkFileSystem.Service.Files
import NetworkFileSystem.Service.Locking

/-!
# What a request does to the descriptor table

`TableStep` lists the ways from the table before a request to the table after it, for a server
whose system calls may fail: a descriptor is opened by `open` or `opendir`, or closed by `release`
or `releasedir`, or the table keeps what it had and gets what the handler leaves open
(`leftOpen`).  Positions in directories change, and locks are taken and given up.

**`compute6_table`** says so for every request, and when a handler can wait for a lock.
-/

namespace Posix

/-- The same open files, and no new lock. -/
def Descriptors.Touched (t t' : Descriptors) : Prop :=
  Descriptors.Same t t' ∧ (t.Unlocked → t'.Unlocked)

/-- The same open files; only `fd` may have got another lock. -/
def Descriptors.Held (fd : Int) (t t' : Descriptors) : Prop :=
  Descriptors.Same t t' ∧ ∀ k f f', t.file k = some f → t'.file k = some f' →
    (k ≠ fd ∨ f.pathOnly = true) → f'.lock = f.lock

namespace Descriptors

variable {t t' t'' : Descriptors} {fd : Int}

theorem Touched.refl (t : Descriptors) : Touched t t := ⟨.refl t, id⟩

theorem Held.refl (fd : Int) (t : Descriptors) : Held fd t t := by
  refine ⟨.refl t, fun k f f' hf hf' _ => ?_⟩
  rw [hf] at hf'
  cases hf'
  rfl

theorem Held.trans (h : Held fd t t') (h' : Held fd t' t'') : Held fd t t'' := by
  refine ⟨h.1.trans h'.1, fun k f f'' hf hf'' hk => ?_⟩
  obtain ⟨f', hf', hb⟩ := h.1.file hf
  have hpath : f'.pathOnly = f.pathOnly := by
    have := congrArg OpenFile.pathOnly hb
    simpa [OpenFile.base] using this
  rw [h'.2 k f' f'' hf' hf'' (by rwa [hpath]), h.2 k f f' hf hf' hk]

/-- Changing position and lock of a descriptor that is good for more than naming a file. -/
theorem Held.setFile {g : OpenFile → OpenFile} (hg : ∀ f, (g f).base = f.base)
    (hfile : ∀ f, t.file fd = some f → f.pathOnly = true → (g f).lock = f.lock) :
    Held fd t (t.setFile fd g) := by
  refine ⟨.setFile fd hg, fun k f f' hf hf' hk => ?_⟩
  rw [file_setFile] at hf'
  split at hf'
  · next hkfd =>
    rw [hf, Option.map_some, Option.some.injEq] at hf'
    subst hf'
    rcases hk with hk | hk
    · exact absurd hkfd hk
    · exact hfile f (hkfd ▸ hf) hk
  · rw [hf, Option.some.injEq] at hf'
    rw [hf']

/-- Closing the newest descriptor again. -/
theorem Touched.dropFile {f : OpenFile} (h : Touched (t.addFile f) t') (hf : f.lock = none) :
    Touched t (t'.dropFile t.nextFd) := by
  refine ⟨fun k => ?_, fun hu => (h.2 (hu.addFile hf)).dropFile _⟩
  have hk := h.1 k
  rw [file_addFile] at hk
  rw [file_dropFile]
  split
  · next hkn => rw [hkn, file_nextFd]
  · next hkn => rwa [if_neg hkn] at hk

/-- The number of open descriptors goes by the numbers that are open. -/
theorem Same.count_eq (h : Same t t') : t'.count = t.count := by
  have hsub : ∀ {t t' : Descriptors}, Same t t' →
      t.entries.map (·.1) ⊆ t'.entries.map (·.1) := by
    intro t t' h n hn
    obtain ⟨⟨m, f⟩, hmem, rfl⟩ := List.mem_map.mp hn
    obtain ⟨f', hf', -⟩ := @Same.file _ _ h m _ (file_eq_some.mpr ⟨m, hmem, rfl⟩)
    obtain ⟨m', hmem', hm'⟩ := file_eq_some.mp hf'
    exact List.mem_map.mpr ⟨(m', f'), hmem', by exact_mod_cast hm'⟩
  have hle := t.nodup.length_le_of_subset (hsub h)
  have hle' := t'.nodup.length_le_of_subset (hsub h.symm)
  simp only [List.length_map] at hle hle'
  exact Nat.le_antisymm hle' hle

end Descriptors

end Posix

namespace DFS

open Effects Posix Prog

/-! ## Requests and replies about descriptors -/

/-- The descriptor that a request has opened, by its reply. -/
def opens : Request → Reply → Option Int
  | .openFile _, .openFile r => if r.ret = 0 then some r.fd else none
  | .opendir _, .opendir r => if r.ret = 0 then some r.fd else none
  | _, _ => none

/-- The descriptor that a request has closed, by its reply. -/
def closes : Request → Reply → Option Int
  | .release arg, r => if r.ret = 0 then some arg.fd else none
  | .releasedir arg, r => if r.ret = 0 then some arg.fd else none
  | _, _ => none

/-- What a write in the role of the secondary leaves open: the file, when `pwrite` fails. -/
def writeLeaves (f : Faults) (fs : FS) (p : CStr) : List OpenFile :=
  if faulted f 0 then []
  else match fs.resolve p with
    | .error _ => []
    | .ok i => match fs.node i with
      | none => []
      | some n =>
        if n.kind = .fifo ∨ (n.kind = .reg ∧ faulted f 2) then [OS.opened writeOpenFlags i] else []

/-- What a request leaves open besides what it was asked to open. -/
def leftOpen (f : Faults) (fs : FS) : Request → List OpenFile
  | .mkdir arg => lockLeaves f fs (translateAbspath arg.path) (atoi arg.ip) .mkdir
  | .rmdir arg => lockLeaves f fs (translateAbspath arg.path) (atoi arg.ip) .rmdir
  | .mknod arg => lockLeaves f fs (translateAbspath arg.path) (atoi arg.ip) .mknod
  | .unlink arg => lockLeaves f fs (translateAbspath arg.path) (atoi arg.ip) .unlink
  | .rename arg =>
    renameLeaves f fs (translateAbspath arg.path) (translateAbspath arg.newpath) (atoi arg.ip)
  | .write arg => if arg.byPath then writeLeaves f fs (translateAbspath arg.path) else []
  | _ => []

/-- Whether a request waits for a lock that its handler holds. -/
def blocksItself (f : Faults) (fs : FS) : Request → Prop
  | .rename arg =>
    renameBlocks f fs (translateAbspath arg.path) (translateAbspath arg.newpath) (atoi arg.ip)
  | _ => False

/-- The descriptor that a request is about to close: one that is open and, for `releasedir`, of a
directory and open for reading. -/
def closing (f : Faults) (os : OS) : Request → Option Int
  | .release arg => if (os.fds.file arg.fd).isSome then some arg.fd else none
  | .releasedir arg =>
    if faulted f 0 = false ∧ (os.fdopendir arg.fd).1.isSome then some arg.fd else none
  | _ => none

/-- The ways from the table before a request to the table after it. -/
inductive TableStep (f : Faults) (r : Request) (os : OS) (reply : Reply) : Descriptors → Prop
  | left {t : Descriptors} (ho : opens r reply = none) (hc : closes r reply = none)
      (hn : closing f os r = none)
      (ht : Descriptors.Touched (os.fds.addFiles (leftOpen f os.fs r)) t) :
      TableStep f r os reply t
  | opened {flags : UInt32} {i : Ino} (ho : opens r reply = some (os.fds.nextFd : Int))
      (hc : closes r reply = none) (hn : closing f os r = none)
      (hv : ∀ arg, r = .openFile arg → flags = arg.flags ∧
        opValid os.fs (translateAbspath arg.path) (atoi arg.ip) (openFlagToCheck arg.flags) = 1) :
      TableStep f r os reply (os.fds.addFile (OS.opened flags i))
  | closed {fd : Int} {g : OpenFile} (ho : opens r reply = none)
      (hc : closes r reply = some fd) (hn : closing f os r = some fd)
      (hg : os.fds.file fd = some g) :
      TableStep f r os reply (os.fds.dropFile fd)

/-- Why a request may wait for a lock: some lock is held already, or it holds the lock itself. -/
def MayWait (f : Faults) (r : Request) (os : OS) : Prop :=
  (∃ i, os.fds.locks i = true) ∨ blocksItself f os.fs r

/-! ## The requests that leave the table alone -/

/-- The requests whose handlers use no descriptor. -/
def Request.keepsFds : Request → Bool
  | .initRootdir _ | .getattr _ | .access _ | .symlink _ | .link _ | .readlink _ | .truncate _
  | .utime _ | .chmod _ | .chown _ | .statfs _ => true
  | _ => false

theorem compute6_calls_keepsFds {r : Request} (h : r.keepsFds = true) (stale : Stale) :
    (compute6 stale r).Calls (Call.Is keepsFds) := by
  have herr : ∀ {ρ : Type} (f : Int → ρ), (do return f (← negErrno) : Server ρ).Calls
      (Call.Is keepsFds) := fun f => calls_bind (calls_negErrno rfl) fun _ => trivial
  cases r <;> simp only [Request.keepsFds, Bool.false_eq_true] at h <;> refine calls_map ?_
  case getattr arg =>
    refine calls_bind (calls_sys rfl) fun r => ?_
    cases r with
    | none => exact herr _
    | some st => trivial
  case access arg => exact calls_bind (calls_sys rfl) fun _ => trivial
  case readlink arg =>
    refine calls_bind (calls_sys rfl) fun r => ?_
    cases r with
    | none => exact herr _
    | some target => trivial
  case statfs arg =>
    refine calls_bind (calls_sys rfl) fun r => ?_
    cases r with
    | none => exact herr _
    | some st => trivial
  case initRootdir arg =>
    -- Whether or not the directory is made first, `chmod` is what comes last.
    have hchmod : (do
        if (← sys (.chmod dfsRoot 0o777)) ≠ 0 then
          let _ ← sys (.exit 1)
        return ⟨0⟩ : Server InitRet).Calls (Call.Is keepsFds) := by
      refine calls_bind (calls_sys rfl) fun r => ?_
      dsimp only
      split
      · exact calls_bind (calls_sys rfl) fun r => r.elim
      · trivial
    refine calls_bind (calls_transmit _ _) fun _ => calls_bind (calls_sys rfl) fun r => ?_
    split
    · refine calls_bind (calls_sys rfl) fun r => ?_
      split
      · exact calls_bind (calls_sys rfl) fun r => r.elim
      · exact hchmod
    · exact hchmod
  case symlink arg =>
    refine calls_bind (calls_transmit _ _) fun _ => calls_checkParent (fun _ => rfl) ?_
    refine calls_bind (calls_sys rfl) fun r => ?_
    split
    · refine calls_bind ?_ fun _ => by split <;> trivial
      exact calls_bind (calls_sys rfl) fun _ => by split <;> trivial
    · trivial
  case link arg =>
    refine calls_bind (calls_transmit _ _) fun _ => calls_checkParent (fun _ => rfl)
      (calls_checkParent (fun _ => rfl) ?_)
    refine calls_bind (calls_sys rfl) fun r => ?_
    split
    · exact calls_bind (calls_setOwner (fun _ _ _ => rfl) _ _) fun _ => by split <;> trivial
    · trivial
  case truncate arg =>
    refine calls_bind (calls_transmit _ _) fun _ => calls_bind (calls_sys rfl) fun r => ?_
    split
    · exact herr _
    · trivial
  case utime arg =>
    refine calls_bind (calls_transmit _ _) fun _ => ?_
    refine calls_bind (calls_isOwner (fun _ => rfl) _ _) fun r => ?_
    split
    · trivial
    · exact calls_bind (calls_sys rfl) fun _ => trivial
  case chmod arg =>
    refine calls_bind (calls_transmit _ _) fun _ => ?_
    refine calls_bind (calls_isOwner (fun _ => rfl) _ _) fun r => ?_
    split
    · trivial
    · exact calls_bind (calls_sys rfl) fun _ => trivial
  case chown arg =>
    refine calls_bind (calls_transmit _ _) fun _ => calls_bind (calls_sys rfl) fun r => ?_
    split
    · exact herr _
    · trivial

/-! ## Reading and writing under a lock -/

section

variable {peer : Peer} {h : Host} {f : Faults} {P : Prop} {fd : Int} {t : Descriptors}

/-- A lock call waits only when some open file is locked. -/
theorem flock_cases (os : OS) (fd : Int) (op : LockOp) :
    (∃ i, os.flock fd op = .error .flock ∧ os.fds.locks i = true) ∨
    ∃ r os', os.flock fd op = .ok (r, os') ∧ Descriptors.Held fd os.fds os'.fds ∧
      (op = .un → ∀ g, os'.fds.file fd = some g → g.pathOnly = false → g.lock = none) := by
  unfold OS.flock
  cases hf : os.fds.file fd with
  | none =>
      refine .inr ⟨_, _, rfl, .refl fd _, fun _ g hg => ?_⟩
      simp only [OS.fail] at hg
      rw [hf] at hg
      cases hg
  | some g =>
      simp only
      by_cases hp : g.pathOnly = true
      · rw [if_pos hp]
        refine .inr ⟨_, _, rfl, .refl fd _, fun _ g' hg' hp' => ?_⟩
        simp only [OS.fail] at hg'
        rw [hf, Option.some.injEq] at hg'
        rw [hg', hp'] at hp
        cases hp
      · rw [if_neg hp]
        -- The lock of the descriptor is set to whatever was asked for.
        have hset : ∀ lock : Option LockMode, (op = .un → lock = none) →
            Descriptors.Held fd os.fds (os.fds.setFile fd fun f => { f with lock := lock }) ∧
            (op = .un → ∀ g', (os.fds.setFile fd fun f => { f with lock := lock }).file fd =
              some g' → g'.pathOnly = false → g'.lock = none) := by
          intro lock hlock
          refine ⟨.setFile (fun _ => rfl) fun f' hf' hp' => ?_, fun hop g' hg' _ => ?_⟩
          · rw [hf, Option.some.injEq] at hf'
            rw [hf'] at hp
            exact absurd hp' hp
          · rw [Descriptors.file_setFile, if_pos rfl, hf, Option.map_some,
              Option.some.injEq] at hg'
            rw [← hg']
            exact hlock hop
        split
        · next i mode hi hm =>
          split
          · next hc =>
            refine .inl ⟨i, rfl, ?_⟩
            unfold OS.conflict at hc
            obtain ⟨e, he, hc⟩ := List.any_eq_true.mp hc
            simp only [decide_eq_true_eq] at hc
            exact List.any_eq_true.mpr ⟨e, he, by simpa using ⟨hc.2.1, hc.2.2.1⟩⟩
          · refine .inr ⟨_, _, rfl, hset (some mode) fun hop => ?_⟩
            rw [hop] at hm
            cases hm
        · refine .inr ⟨_, _, rfl, hset (OS.lockMode op) fun hop => ?_⟩
          rw [hop]
          rfl

/-- Asking for a lock. -/
theorem wp_lockUnder {op : LockOp} {b : Int} {Q : Int → Host × Faults → Prop}
    (hop : (Sys.flock fd op).refusal = some b) (hP : ∀ i, h.os.fds.locks i = true → P)
    (hQ : ∀ r h', Descriptors.Held fd h.os.fds h'.os.fds → h'.os.fs = h.os.fs →
      Q r (h', f.drop 1)) :
    (sys (.flock fd op)).wp (disturbed peer) Q (Waits P) (h, f) := by
  refine wp_fallible hop (fun _ => rfl) (fun _ e _ => hQ _ _ (.refl fd _) rfl) fun _ => ?_
  simp only [OS.exec]
  rcases flock_cases h.os fd op with ⟨i, ho, hi⟩ | ⟨r, os', ho, hheld, -⟩
  · rw [ho]
    exact fun _ => hP i hi
  · rw [ho]
    exact hQ _ _ hheld (OS.Same.flock ho).fs_eq

/-- Giving a lock up: afterwards there is no new one. -/
theorem wp_releaseUnder {Q : Int → Host × Faults → Prop} (ht : Descriptors.Held fd t h.os.fds)
    (hQ : ∀ r h', Descriptors.Touched t h'.os.fds → Q r (h', f.drop 1)) :
    (sys (.flock fd .un)).wp (disturbed peer) Q (Waits P) (h, f) := by
  rw [wp_steady rfl fun _ => rfl]
  simp only [OS.exec]
  rcases flock_cases h.os fd .un with ⟨i, ho, -⟩ | ⟨r, os', ho, hheld, hun⟩
  · -- Unlocking never waits.
    exfalso
    unfold OS.flock OS.lockMode at ho
    split at ho
    · cases ho
    · split at ho
      · cases ho
      · split at ho
        · next hm => cases hm
        · cases ho
  · rw [ho]
    have hheld' := ht.trans hheld
    refine hQ _ _ ⟨hheld'.1, fun hu k g' hg' => ?_⟩
    · obtain ⟨g, hg, hb⟩ : ∃ g, t.file k = some g ∧ g'.base = g.base := by
        cases hg : t.file k with
        | none =>
            have hnone := hheld'.1.file_none hg
            rw [show os'.fds.file k = some g' from hg'] at hnone
            cases hnone
        | some g =>
            obtain ⟨g'', hg'', hb⟩ := hheld'.1.file hg
            rw [show os'.fds.file k = some g' from hg', Option.some.injEq] at hg''
            exact ⟨g, rfl, hg'' ▸ hb⟩
      by_cases hk : k = fd ∧ g.pathOnly = false
      · have hp : g'.pathOnly = false := by
          have := congrArg OpenFile.pathOnly hb
          simpa [OpenFile.base, hk.2] using this
        exact hun rfl g' (hk.1 ▸ hg') hp
      · have hor : k ≠ fd ∨ g.pathOnly = true := by
          rw [not_and_or] at hk
          simpa using hk
        rw [hheld'.2 k g g' hg hg' hor]
        exact hu k g hg

theorem wp_read (argp : ReadArg) (result : ReadRet) (hP : ∀ i, h.os.fds.locks i = true → P) :
    (bbRead6Svc argp result).wp (disturbed peer)
      (fun _ s => Descriptors.Touched h.os.fds s.1.os.fds) (Waits P) (h, f) := by
  unfold bbRead6Svc
  rw [wp_bind]
  refine wp_lockUnder rfl hP fun _ h₁ hheld _ => ?_
  rw [wp_bind]
  refine (wp_frame (calls_sys rfl) waits_exit).imp fun data s hs => ?_
  obtain ⟨h₂, f₂⟩ := s
  rw [wp_bind]
  refine wp_releaseUnder (t := h.os.fds) (by rwa [hs]) fun _ h₃ ht => ?_
  cases data with
  | none =>
      have hrest : (do return { result with ret := ← negErrno } : Server ReadRet).Calls
          (Call.Is keepsFds) := calls_bind (calls_negErrno rfl) fun _ => trivial
      refine (wp_frame hrest waits_exit).imp fun _ s hs' => ?_
      rwa [hs']
  | some data => exact ht

theorem readdir_held (os : OS) (fd : Int) :
    Descriptors.Held fd os.fds (os.readdir fd).2.fds := by
  unfold OS.readdir
  split
  · exact .refl fd _
  · split
    · exact .setFile (fun _ => rfl) fun _ _ _ => rfl
    · exact .refl fd _

theorem wp_readdir (argp : ReaddirArg) (result : ReaddirRet)
    (hP : ∀ i, h.os.fds.locks i = true → P) :
    (bbReaddir6Svc argp result).wp (disturbed peer)
      (fun _ s => Descriptors.Touched h.os.fds s.1.os.fds) (Waits P) (h, f) := by
  unfold bbReaddir6Svc
  rw [wp_bind]
  refine wp_lockUnder rfl hP fun _ h₁ hheld _ => ?_
  rw [wp_bind]
  -- A stream over the descriptor has the descriptor's number.
  have hdp : (sys (.fdopendir argp.fd)).wp (disturbed peer)
      (fun dp s => s.1.os.fds = h₁.os.fds ∧ ∀ d, dp = some d → d.fd = argp.fd) (Waits P)
      (h₁, f.drop 1) := by
    refine wp_fallible rfl (fun _ => rfl) (fun _ e _ => ⟨rfl, fun d hd => by cases hd⟩) fun _ => ?_
    simp only [OS.exec]
    rcases h₁.os.fdopendir_cases argp.fd with ⟨g, -, -, ho⟩ | ⟨e, -, -, ho⟩
    · rw [ho]
      exact ⟨rfl, fun d hd => by cases hd; rfl⟩
    · rw [ho]
      exact ⟨rfl, fun d hd => by cases hd⟩
  refine hdp.imp fun dp s hs => ?_
  obtain ⟨h₂, f₂⟩ := s
  obtain ⟨hs, hd⟩ := hs
  cases dp with
  | none =>
      simp only
      rw [wp_bind]
      refine wp_releaseUnder (t := h.os.fds) (by rwa [hs]) fun _ h₃ ht => ?_
      have hrest : (do return { count := 0, entries := result.entries, ret := ← negErrno } :
          Server ReaddirRet).Calls (Call.Is keepsFds) :=
        calls_bind (calls_negErrno rfl) fun _ => trivial
      refine (wp_frame hrest waits_exit).imp fun _ s hs' => ?_
      rwa [hs']
  | some dp =>
      simp only
      rw [wp_bind, wp_steady rfl fun _ => rfl]
      simp only [OS.exec]
      rw [wp_bind]
      refine wp_releaseUnder (t := h.os.fds) ?_ fun _ h₃ ht => ht
      rw [hd dp rfl]
      exact (hs ▸ hheld).trans (readdir_held h₂.os argp.fd)

/-! ## Opening and closing -/

theorem wp_open (argp : OpenArg) (mode : UInt32) (result : OpenRet) :
    (bbOpen6Svc argp mode result).wp (disturbed peer) (fun r s =>
      (∃ i, r = ⟨h.os.fds.nextFd, 0⟩ ∧
        s.1.os.fds = h.os.fds.addFile (OS.opened argp.flags i) ∧
        opValid h.os.fs (translateAbspath argp.path) (atoi argp.ip)
          (openFlagToCheck argp.flags) = 1) ∨
      (r.ret < 0 ∧ s.1.os.fds = h.os.fds)) (Waits P) (h, f) := by
  unfold bbOpen6Svc
  rw [wp_bind]
  refine wp_isOpValidUnder fun e => ?_
  split
  · exact .inr ⟨by change -(EACCES : Int) < 0; decide, rfl⟩
  · next hv =>
    rw [not_not] at hv
    have hvalid : opValid h.os.fs (translateAbspath argp.path) (atoi argp.ip)
        (openFlagToCheck argp.flags) = 1 := by
      unfold opValidUnder at hv
      split at hv
      · exact absurd hv (by decide)
      · exact hv
    rw [wp_bind]
    refine wp_fallible rfl (fun _ => rfl) (fun _ e' he' => ?_) fun _ => ?_
    · rw [if_pos rfl, wp_bind]
      exact wp_negErrnoUnder (.inr ⟨Int.neg_neg_of_pos (Int.natCast_pos.mpr he'), rfl⟩)
    · simp only [OS.exec]
      rcases (h.os.fail e).openFile_cases (translateAbspath argp.path) argp.flags mode with
        ⟨e', he', ho, -⟩ | ⟨i, fs, -, ho⟩ | ho
      · rw [ho]
        simp only [if_true]
        rw [wp_bind]
        exact wp_negErrnoUnder (.inr ⟨Int.neg_neg_of_pos (Int.natCast_pos.mpr he'), rfl⟩)
      · rw [ho]
        simp only
        rw [if_neg (by omega)]
        exact .inl ⟨i, rfl, rfl, hvalid⟩
      · rw [ho]
        exact waits_fifo

theorem wp_opendir (argp : OpendirArg) (result : OpendirRet) :
    (bbOpendir6Svc argp result).wp (disturbed peer) (fun r s =>
      (∃ i, r = ⟨h.os.fds.nextFd, 0⟩ ∧ s.1.os.fds = h.os.fds.addFile (dirFile i)) ∨
      (r.ret < 0 ∧ s.1.os.fds = h.os.fds)) (Waits P) (h, f) := by
  unfold bbOpendir6Svc
  rw [wp_bind]
  refine wp_isOpValidUnder fun e => ?_
  split
  · exact .inr ⟨by change -(EACCES : Int) < 0; decide, rfl⟩
  · rw [wp_bind]
    refine wp_fallible rfl (fun _ => rfl) (fun _ e' he' => ?_) fun _ => ?_
    · simp only
      rw [wp_bind]
      exact wp_negErrnoUnder (.inr ⟨Int.neg_neg_of_pos (Int.natCast_pos.mpr he'), rfl⟩)
    · simp only [OS.exec]
      rcases opendir_cases (h.os.fail e) (translateAbspath argp.path) with
        ⟨i, -, ho⟩ | ⟨e', he', -, ho⟩
      · rw [ho]
        exact .inl ⟨i, rfl, rfl⟩
      · rw [ho]
        simp only
        rw [wp_bind]
        exact wp_negErrnoUnder (.inr ⟨Int.neg_neg_of_pos (Int.natCast_pos.mpr he'), rfl⟩)

/-- Closing a descriptor: it is open, or the table stays as it is. -/
theorem wp_release (argp : ReleaseArg) :
    (bbRelease6Svc argp).wp (disturbed peer) (fun r s =>
      (∃ g, h.os.fds.file argp.fd = some g ∧ r.ret = 0 ∧
        closing f h.os (.release argp) = some argp.fd ∧
        s.1.os.fds = h.os.fds.dropFile argp.fd) ∨
      (r.ret < 0 ∧ closing f h.os (.release argp) = none ∧ s.1.os.fds = h.os.fds))
      (Waits P) (h, f) := by
  unfold bbRelease6Svc
  rw [wp_bind, wp_steady rfl fun _ => rfl]
  simp only [OS.exec, OS.close]
  cases hf : h.os.fds.file argp.fd with
  | none =>
      simp only [if_true]
      rw [wp_bind]
      exact wp_negErrnoUnder (.inr ⟨by change -(EBADF : Int) < 0; decide, by simp [closing, hf],
        rfl⟩)
  | some g => exact .inl ⟨g, rfl, rfl, by simp [closing, hf], rfl⟩

theorem wp_releasedir (argp : ReleasedirArg) :
    (bbReleasedir6Svc argp).wp (disturbed peer) (fun r s =>
      (∃ g, h.os.fds.file argp.fd = some g ∧ r.ret = 0 ∧
        closing f h.os (.releasedir argp) = some argp.fd ∧
        s.1.os.fds = h.os.fds.dropFile argp.fd) ∨
      (r.ret < 0 ∧ closing f h.os (.releasedir argp) = none ∧ s.1.os.fds = h.os.fds))
      (Waits P) (h, f) := by
  unfold bbReleasedir6Svc
  rw [wp_bind]
  refine wp_fallible rfl (fun _ => rfl) (fun hf e he => ?_) fun hf => ?_
  · simp only
    rw [wp_bind]
    exact wp_negErrnoUnder (.inr ⟨Int.neg_neg_of_pos (Int.natCast_pos.mpr he),
      by simp [closing, hf], rfl⟩)
  · simp only [OS.exec]
    rcases h.os.fdopendir_cases argp.fd with ⟨g, hg, -, ho⟩ | ⟨e, he, -, ho⟩
    · rw [ho]
      simp only
      rw [wp_bind, wp_steady rfl fun _ => rfl]
      simp only [OS.exec, OS.close, hg]
      exact .inl ⟨g, rfl, rfl, by simp [closing, hf, ho], rfl⟩
    · rw [ho]
      simp only
      rw [wp_bind]
      exact wp_negErrnoUnder (.inr ⟨Int.neg_neg_of_pos (Int.natCast_pos.mpr he),
        by simp [closing, ho], rfl⟩)

/-! ## Writing -/

theorem locks_addFile_of_unlocked {g : OpenFile} {j : Ino} (hg : g.lock = none) :
    (t.addFile g).locks j = t.locks j := by
  simp [Descriptors.locks, Descriptors.addFile, hg]

/-- `pwrite` on an open file under a disturbance. -/
theorem execUnder_pwrite (fault : Option Fault) (os : OS) (fd : Int) (buf : List UInt8)
    (size offset : ℕ) : ∃ v os', OS.execUnder fault (.pwrite fd buf size offset) os = .ok (v, os') ∧
      os'.fds = os.fds ∧ (v = -1 ∨ 0 ≤ v) ∧
      (v = -1 ↔ fails fault = true ∨ ∃ e, os.pwrite fd [] 0 = .error e) := by
  -- Whether `pwrite` fails does not depend on what is written, nor where.
  have hsame : ∀ bytes off, (∃ e, os.pwrite fd bytes off = .error e) ↔
      ∃ e, os.pwrite fd [] 0 = .error e := by
    intro bytes off
    unfold OS.pwrite
    split
    · rfl
    · split
      · rfl
      · split
        · simp
        · rfl
  have hexec : ∀ n, fails fault = false → ∃ v os',
      OS.exec (.pwrite fd buf n offset) os = .ok (v, os') ∧ os'.fds = os.fds ∧
      (v = -1 ∨ 0 ≤ v) ∧ (v = -1 ↔ fails fault = true ∨ ∃ e, os.pwrite fd [] 0 = .error e) := by
    intro n hf
    simp only [OS.exec]
    rw [hf]
    cases hw : os.pwrite fd ((buf ++ os.beyond).take (min n maxRwCount)) offset with
    | ok fs =>
        refine ⟨_, _, rfl, rfl, .inr (by omega), ?_⟩
        refine iff_of_false (by omega) ?_
        rintro (h | h)
        · cases h
        · obtain ⟨e, he⟩ := (hsame _ _).mpr h
          cases he.symm.trans hw
    | error e =>
        exact ⟨_, _, rfl, rfl, .inl rfl, iff_of_true rfl (.inr ((hsame _ _).mp ⟨e, hw⟩))⟩
  cases fault with
  | none => exact hexec size rfl
  | some fault =>
      cases fault with
      | short n => exact hexec (min size n) rfl
      | fail e he => exact ⟨-1, os.fail e, rfl, rfl, .inl rfl, iff_of_true rfl (.inl rfl)⟩

/-- What `open` does with the flags of the secondary. -/
theorem openFile_write_cases (os : OS) (p : CStr) :
    (∃ e, os.openFile p writeOpenFlags 0 = .ok (-1, os.fail e) ∧
      ∀ f, writeLeaves f os.fs p = []) ∨
    (∃ i n, os.fs.resolve p = .ok i ∧ os.fs.node i = some n ∧ (n.kind = .reg ∨ n.kind = .fifo) ∧
      os.openFile p writeOpenFlags 0 = .ok (os.fds.nextFd,
        { os with fds := os.fds.addFile (OS.opened writeOpenFlags i) })) ∨
    os.openFile p writeOpenFlags 0 = .error .fifo := by
  cases ho : os.fs.openAt os.umask p writeOpenFlags 0 with
  | error e =>
      refine .inl ⟨e, OS.openFile_error _ ho, fun f => ?_⟩
      unfold writeLeaves
      split
      · rfl
      · split
        · rfl
        · next i hi =>
          split
          · rfl
          · next n hn =>
            refine if_neg fun hk => ?_
            have hkind : n.kind = .reg ∨ n.kind = .fifo := by
              rcases hk with hk | hk
              · exact .inr hk
              · exact .inl hk.1
            cases ho.symm.trans (openAt_write.mpr ⟨hi, rfl, n, hn, hkind⟩)
  | ok r =>
      obtain ⟨i, fs⟩ := r
      obtain ⟨hi, rfl, n, hn, hkind⟩ := openAt_write.mp ho
      rcases hkind with hreg | hfifo
      · refine .inr (.inl ⟨i, n, hi, hn, .inl hreg, ?_⟩)
        rw [OS.openFile_ok _ ho hn (by rw [hreg]; decide)]
      · have hacc : ¬ writeOpenFlags &&& O_ACCMODE = O_RDONLY := by decide
        have hacc' : writeOpenFlags &&& O_ACCMODE = O_WRONLY := by decide
        have hblock : hasBit writeOpenFlags O_NONBLOCK = false := by decide
        have hpath : hasBit writeOpenFlags O_PATH = false := by decide
        unfold OS.openFile OS.fifoReady
        simp only [ho, hn, hfifo, hpath, and_self, if_true, hacc, if_false, hblock,
          Bool.false_eq_true]
        by_cases hr : (os.fds.entries.any fun e => e.2.ino = some i ∧ e.2.readable) = true
        · rw [if_pos hr]
          exact .inr (.inl ⟨i, n, hi, hn, .inr hfifo, rfl⟩)
        · rw [if_neg hr]
          exact .inr (.inr rfl)

/-- Writing to the file that the secondary has opened fails for a pipe only. -/
theorem pwrite_opened {os : OS} {i : Ino} {n : Inode} {F : OpenFile}
    (hF : OS.opened writeOpenFlags i = F) (hs : Descriptors.Same (t.addFile F) os.fds)
    (hn : os.fs.node i = some n) (hkind : n.kind = .reg ∨ n.kind = .fifo) :
    (∃ e, os.pwrite t.nextFd [] 0 = .error e) ↔ n.kind = .fifo := by
  obtain ⟨g, hg, hb⟩ := @Descriptors.Same.file _ _ hs t.nextFd F
    (by rw [Descriptors.file_addFile, if_pos rfl])
  have hbits : hasBit writeOpenFlags O_PATH = false ∧
      writeOpenFlags &&& O_ACCMODE = O_WRONLY := by decide
  have hw : g.writable = true := by
    have := congrArg OpenFile.writable hb
    simpa [OpenFile.base, ← hF, OS.opened, hbits] using this
  have hi : g.ino = some i := by
    have := congrArg OpenFile.ino hb
    simpa [OpenFile.base, ← hF, OS.opened] using this
  unfold OS.pwrite OS.bodyOf
  rcases hkind with hk | hk
  · obtain ⟨d, hd⟩ : ∃ d, n.body = .reg d := by
      cases hbody : n.body <;> simp_all [Inode.kind, Body.kind]
    simp [hg, hw, hi, hn, hd, hk]
  · have hd : n.body = .fifo := by
      cases hbody : n.body <;> simp_all [Inode.kind, Body.kind]
    simp [hg, hw, hi, hn, hd, hk]

theorem wp_writeDirect (argp : WriteArg) (result : WriteRet) (hrole : ¬ argp.byPath)
    (hP : ∀ i, h.os.fds.locks i = true → P) :
    (bbWrite6Svc argp result).wp (disturbed peer)
      (fun _ s => Descriptors.Touched h.os.fds s.1.os.fds) (Waits P) (h, f) := by
  unfold bbWrite6Svc
  rw [wp_bind]
  refine wp_transmitUnder fun h₀ h₀os => ?_
  unfold WriteArg.byPath at hrole
  simp only [hrole, if_false, pure_bind]
  rw [← h₀os] at hP ⊢
  rw [wp_bind]
  refine wp_lockUnder rfl hP fun _ h₁ hheld _ => ?_
  rw [wp_bind]
  refine (wp_frame (calls_sys rfl) waits_exit).imp fun v s hs => ?_
  obtain ⟨h₂, f₂⟩ := s
  rw [wp_bind]
  refine wp_releaseUnder (t := h₀.os.fds) (by rwa [hs]) fun _ h₃ ht => ?_
  split
  · have hrest : (do return { result with ret := ← negErrno } : Server WriteRet).Calls
        (Call.Is keepsFds) := calls_bind (calls_negErrno rfl) fun _ => trivial
    refine (wp_frame hrest waits_exit).imp fun _ s hs' => ?_
    rwa [hs']
  · exact ht

/-- **The descriptor of the secondary.**  It is closed exactly when `pwrite` succeeds. -/
theorem wp_writeByPath (argp : WriteArg) (result : WriteRet) (hrole : argp.byPath)
    (hP : ∀ i, h.os.fds.locks i = true → P) :
    (bbWrite6Svc argp result).wp (disturbed peer) (fun _ s => Descriptors.Touched
      (h.os.fds.addFiles (writeLeaves f h.os.fs (translateAbspath argp.path))) s.1.os.fds)
      (Waits P) (h, f) := by
  unfold bbWrite6Svc
  rw [wp_bind]
  refine wp_transmitUnder fun h₀ h₀os => ?_
  unfold WriteArg.byPath at hrole
  simp only [hrole, and_self, if_true]
  rw [← h₀os] at hP ⊢
  generalize translateAbspath argp.path = p
  have herr : (do return { result with ret := ← negErrno } : Server WriteRet).Calls
      (Call.Is keepsFds) := calls_bind (calls_negErrno rfl) fun _ => trivial
  -- Nothing was opened: the calls that follow get the descriptor `-1`.
  have hclosed : ∀ h₁ : Host, h₁.os.fds = h₀.os.fds → writeLeaves f h₀.os.fs p = [] →
      (do
        let _ ← sys (.flock (-1) .ex)
        let writeRet ← sys (.pwrite (-1) argp.buffer.bytes argp.size.toNat argp.offset.toNat)
        let _ ← sys (.flock (-1) .un)
        if writeRet = -1 then return { result with ret := ← negErrno }
        else
          let _ ← sys (.close (-1))
          return { len := writeRet, ret := 0 } : Server WriteRet).wp (disturbed peer)
        (fun _ s => Descriptors.Touched (h₀.os.fds.addFiles (writeLeaves f h₀.os.fs p))
          s.1.os.fds) (Waits P) (h₁, f.drop 1) := by
    intro h₁ h₁fds hl
    rw [hl, wp_bind]
    refine wp_lockUnder rfl (by rwa [h₁fds]) fun _ h₂ hheld _ => ?_
    rw [wp_bind, wp_sysUnder]
    obtain ⟨v, os', hx, hfds, -, hv⟩ := execUnder_pwrite ((f.drop 1).drop 1).head?.join h₂.os (-1)
      argp.buffer.bytes argp.size.toNat argp.offset.toNat
    have hnone : h₂.os.fds.file (-1) = none := Descriptors.file_of_neg (by decide)
    have hv' : v = -1 := hv.mpr (.inr ⟨EBADF, by simp [OS.pwrite, hnone]⟩)
    rw [hx, hv']
    simp only
    rw [wp_bind]
    refine wp_releaseUnder (t := h₀.os.fds) ?_ fun _ h₃ ht => ?_
    · rw [← h₁fds]
      exact hfds ▸ hheld
    · simp only [if_true]
      refine (wp_frame herr waits_exit).imp fun _ s hs' => ?_
      rwa [hs']
  rw [wp_bind]
  refine wp_fallible rfl (fun _ => rfl) (fun hf e _ => ?_) fun hf => ?_
  · exact hclosed _ rfl (if_pos hf)
  · simp only [OS.exec]
    rcases openFile_write_cases h₀.os p with ⟨e, ho, hl⟩ | ⟨i, n, hi, hn, hkind, ho⟩ | ho
    · rw [ho]
      exact hclosed _ rfl (hl f)
    · rw [ho]
      simp only
      have hleaves : writeLeaves f h₀.os.fs p =
          if n.kind = .fifo ∨ (n.kind = .reg ∧ faulted f 2 = true)
          then [OS.opened writeOpenFlags i] else [] := by
        simp only [writeLeaves, hf, Bool.false_eq_true, if_false, hi, hn]
      generalize hF : OS.opened writeOpenFlags i = F at hleaves
      have hFlock : F.lock = none := by rw [← hF]; rfl
      rw [wp_bind]
      refine wp_lockUnder rfl (fun j hj => hP j ?_) fun _ h₂ hheld hfs => ?_
      · rwa [← locks_addFile_of_unlocked hFlock]
      rw [wp_bind, wp_sysUnder]
      obtain ⟨v, os', hx, hfds, hneg, hv⟩ := execUnder_pwrite ((f.drop 1).drop 1).head?.join h₂.os
        h₀.os.fds.nextFd argp.buffer.bytes argp.size.toNat argp.offset.toNat
      have hv' : v = -1 ↔ n.kind = .fifo ∨ (n.kind = .reg ∧ faulted f 2 = true) := by
        have hfault : fails ((f.drop 1).drop 1).head?.join = faulted f 2 := by
          rw [faulted, List.drop_drop]
        have hpwrite : (∃ e, h₂.os.pwrite h₀.os.fds.nextFd [] 0 = .error e) ↔ n.kind = .fifo :=
          pwrite_opened hF hheld.1 (by rw [hfs]; exact hn) hkind
        rw [hv, hfault, hpwrite]
        rcases hkind with hk | hk <;> simp [hk]
      rw [hx]
      simp only
      rw [wp_bind]
      refine wp_releaseUnder (t := h₀.os.fds.addFile F) (hfds ▸ hheld) fun _ h₃ ht => ?_
      by_cases hvm : v = -1
      · rw [if_pos hvm, hleaves, if_pos (hv'.mp hvm)]
        refine (wp_frame herr waits_exit).imp fun _ s hs' => ?_
        rw [hs']
        exact ht
      · obtain ⟨g, hg, -⟩ := @Descriptors.Same.file _ _ ht.1 h₀.os.fds.nextFd F
          (by rw [Descriptors.file_addFile, if_pos rfl])
        rw [if_neg hvm, hleaves, if_neg (mt hv'.mpr hvm), wp_bind, wp_steady rfl fun _ => rfl]
        simp only [OS.exec, OS.close, hg]
        exact ht.dropFile hFlock
    · rw [ho]
      exact waits_fifo

end

/-! ## Every request -/

theorem closes_eq_none {r : Request} {reply : Reply} (hr : reply.ret < 0) :
    closes r reply = none := by
  cases r <;> first
    | rfl
    | exact if_neg (by omega)

theorem opens_openFile {arg : OpenArg} {reply : Reply} {fd : Int} :
    opens (.openFile arg) reply = some fd ↔
      ∃ r, reply = .openFile r ∧ r.ret = 0 ∧ r.fd = fd := by
  cases reply <;> simp [opens]

theorem opens_eq_none {r : Request} {reply : Reply} (hr : reply.ret < 0) :
    opens r reply = none := by
  unfold opens
  split
  · next r => exact if_neg (by change r.ret < 0 at hr; omega)
  · next r => exact if_neg (by change r.ret < 0 at hr; omega)
  · rfl

/-- **What a request does to the table.** -/
theorem compute6_table (r : Request) (stale : Stale) (peer : Peer) (h : Host) (f : Faults) :
    (compute6 stale r).wp (disturbed peer) (fun reply s => TableStep f r h.os reply s.1.os.fds)
      (Waits (MayWait f r h.os)) (h, f) := by
  have hP : ∀ i, h.os.fds.locks i = true → MayWait f r h.os := fun i hi => .inl ⟨i, hi⟩
  by_cases hk : r.keepsFds = true
  · refine (wp_frame (compute6_calls_keepsFds hk stale) waits_exit).imp fun reply s hs => ?_
    have hleft : leftOpen f h.os.fs r = [] := by cases r <;> first | rfl | cases hk
    refine .left ?_ ?_ ?_ ?_
    · cases r <;> first | rfl | cases hk
    · cases r <;> first | rfl | cases hk
    · cases r <;> first | rfl | cases hk
    · rw [hleft, hs]
      exact .refl _
  · cases r <;> simp only [Request.keepsFds, not_true_eq_false] at hk <;>
      rw [compute6, ← bind_pure_comp, wp_bind]
    case mkdir arg =>
      refine (wp_mkdir arg hP).imp fun _ s hs => .left rfl rfl rfl ?_
      rw [hs]
      exact .refl _
    case rmdir arg =>
      refine (wp_rmdir arg hP).imp fun _ s hs => .left rfl rfl rfl ?_
      rw [hs]
      exact .refl _
    case mknod arg =>
      refine (wp_mknod arg hP).imp fun _ s hs => .left rfl rfl rfl ?_
      rw [hs]
      exact .refl _
    case unlink arg =>
      refine (wp_unlink arg hP).imp fun _ s hs => .left rfl rfl rfl ?_
      rw [hs]
      exact .refl _
    case rename arg =>
      refine (wp_rename arg hP .inr).imp fun _ s hs => .left rfl rfl rfl ?_
      rw [hs]
      exact .refl _
    case opendir arg =>
      refine (wp_opendir arg stale.opendir).imp fun reply s hs => ?_
      rcases hs with ⟨i, rfl, hs⟩ | ⟨hret, hs⟩
      · change TableStep _ _ _ _ s.1.os.fds
        rw [hs]
        exact .opened rfl rfl rfl fun _ h => nomatch h
      · refine .left (opens_eq_none hret) rfl rfl ?_
        rw [hs]
        exact .refl _
    case openFile arg =>
      refine (wp_open arg stale.openMode stale.openFile).imp fun reply s hs => ?_
      rcases hs with ⟨i, rfl, hs, hv⟩ | ⟨hret, hs⟩
      · change TableStep _ _ _ _ s.1.os.fds
        rw [hs]
        exact .opened rfl rfl rfl fun _ h => by cases h; exact ⟨rfl, hv⟩
      · refine .left (opens_eq_none hret) rfl rfl ?_
        rw [hs]
        exact .refl _
    case release arg =>
      refine (wp_release arg).imp fun reply s hs => ?_
      rcases hs with ⟨g, hg, hret, hn, hs⟩ | ⟨hret, hn, hs⟩
      · change TableStep _ _ _ _ s.1.os.fds
        rw [hs]
        exact .closed rfl (if_pos hret) hn hg
      · refine .left rfl (closes_eq_none hret) hn ?_
        rw [hs]
        exact .refl _
    case releasedir arg =>
      refine (wp_releasedir arg).imp fun reply s hs => ?_
      rcases hs with ⟨g, hg, hret, hn, hs⟩ | ⟨hret, hn, hs⟩
      · change TableStep _ _ _ _ s.1.os.fds
        rw [hs]
        exact .closed rfl (if_pos hret) hn hg
      · refine .left rfl (closes_eq_none hret) hn ?_
        rw [hs]
        exact .refl _
    case read arg => exact (wp_read arg stale.read hP).imp fun _ s hs => .left rfl rfl rfl hs
    case readdir arg =>
      exact (wp_readdir arg stale.readdir hP).imp fun _ s hs => .left rfl rfl rfl hs
    case write arg =>
      by_cases hrole : arg.byPath
      · refine (wp_writeByPath arg stale.write hrole hP).imp fun _ s hs => .left rfl rfl rfl ?_
        rw [leftOpen, if_pos hrole]
        exact hs
      · refine (wp_writeDirect arg stale.write hrole hP).imp fun _ s hs => .left rfl rfl rfl ?_
        rw [leftOpen, if_neg hrole]
        exact hs

/-- The same for a step of the server. -/
theorem serveUnder_table {f : Faults} {a : Arrival} {h h' : Host} {reply : Reply}
    (hr : serveUnder f a h = .ok (reply, h')) :
    TableStep f a.request h.os reply h'.os.fds := by
  obtain ⟨⟨reply', s⟩, hrun, hs⟩ := map_eq_ok.mp hr
  cases hs
  exact (compute6_table a.request a.stale a.peer h f).of_run hrun

theorem serveUnder_wait {f : Faults} {a : Arrival} {h : Host}
    (hr : serveUnder f a h = .error .flock) : MayWait f a.request h.os := by
  have hw := compute6_table a.request a.stale a.peer h f
  unfold Prog.wp at hw
  unfold serveUnder at hr
  cases hrun : (compute6 a.stale a.request).run (disturbed a.peer) (h, f) with
  | ok r => rw [hrun] at hr; cases hr
  | error w =>
      rw [hrun] at hr hw
      cases hr
      exact hw rfl

end DFS
