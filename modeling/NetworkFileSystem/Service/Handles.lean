import NetworkFileSystem.Effects.Issues
import NetworkFileSystem.Service.Files

/-!
# What a request does through a descriptor

The requests that carry the number of a descriptor use whatever the server has open under it, and
nothing else (`each_onFile`): either the open file can be used for the request, and then the
request succeeds and changes this one file only, or the request fails and changes nothing
(**`serve_handle`**), or it waits for ever for a lock on the file (`serve_returns`).
-/

namespace Posix

open Effects

variable {β : Type} {os : OS} {fd : Int}

/-- Giving up a lock does not wait. -/
theorem OS.flock_un_returns (os : OS) (fd : Int) : ∃ r, os.flock fd .un = .ok r := by
  cases hf : os.fds.file fd with
  | none => exact ⟨_, by rw [OS.flock, hf]⟩
  | some f =>
      cases hp : f.pathOnly with
      | true => exact ⟨_, by rw [OS.flock, hf]; exact if_pos hp⟩
      | false => exact ⟨_, OS.flock_un os hf hp⟩

/-- The calls that cannot wait. -/
def Sys.settles : Sys β → Bool
  | .openPath _ _ _ | .exit _ | .flock _ .sh | .flock _ .ex => false
  | _ => true

theorem OS.exec_settles {c : Sys β} (hc : c.settles = true) (os : OS) :
    ∃ r, OS.exec c os = .ok r := by
  cases c
  case flock fd op =>
    cases op with
    | un => exact OS.flock_un_returns os fd
    | sh | ex => cases hc
  case pwrite =>
    simp only [OS.exec]
    split <;> exact ⟨_, rfl⟩
  case openPath | exit => cases hc
  all_goals exact ⟨_, rfl⟩

end Posix

namespace DFS

open Effects Posix Prog

/-! ## Requests -/

/-- The descriptor that a request acts on. -/
def Request.handle : Request → Option Int
  | .read arg => some arg.fd
  | .write arg => if arg.byPath then none else some arg.fd
  | .release arg => some arg.fd
  | .readdir arg => some arg.fd
  | .releasedir arg => some arg.fd
  | _ => none

/-- Whether an open file can be used for a request: a regular file that is open for reading or for
writing, a directory that is open for reading, and any file for closing it. -/
def Usable (os : OS) (g : OpenFile) : Request → Prop
  | .read _ => g.readable = true ∧ ∃ d, os.bodyOf g = some (.reg d)
  | .write _ => g.writable = true ∧ ∃ d, os.bodyOf g = some (.reg d)
  | .release _ => True
  | .readdir _ | .releasedir _ => os.Listable g
  | _ => False

/-- The lock that a request takes first. -/
def Request.lockOp : Request → Option LockOp
  | .read _ | .readdir _ => some .sh
  | .write _ => some .ex
  | _ => none

/-- The request waits for ever for its lock. -/
def Stalls (os : OS) (fd : Int) (r : Request) : Prop :=
  ∃ op, r.lockOp = some op ∧ os.flock fd op = .error .flock

/-- What comes of a request through a descriptor. -/
inductive HandleStep (os : OS) (r : Request) (fd : Int) (ret : Int) (os' : OS) : Prop
  | used {g : OpenFile} (hg : os.fds.file fd = some g) (hu : Usable os g r) (hret : ret = 0)
      (hnodes : ∀ j, g.ino ≠ some j → os'.fs.node j = os.fs.node j)
  | refused (hu : ∀ g, os.fds.file fd = some g → ¬ Usable os g r) (hret : ret < 0)
      (hs : OS.Same os os')

section

variable {os os' : OS} {fd : Int} {g : OpenFile} {r : Request}

theorem bodyOf_reg {d : List UInt8} : os.bodyOf g = some (.reg d) ↔
    ∃ i n, g.ino = some i ∧ os.fs.node i = some n ∧ n.body = .reg d := by
  simp [OS.bodyOf, Option.bind_eq_some_iff]

theorem OS.Same.listable (h : OS.Same os os') {g' : OpenFile} (hg : g'.base = g.base) :
    os'.Listable g' ↔ os.Listable g := by
  obtain ⟨hino, hr, -, -, hp⟩ : g'.ino = g.ino ∧ g'.readable = g.readable ∧
      g'.writable = g.writable ∧ g'.append = g.append ∧ g'.pathOnly = g.pathOnly := by
    simpa [OpenFile.base] using hg
  simp only [OS.Listable, OS.bodyOf, hino, hr, hp, h.fs_eq]

/-- A request that changes nothing has used an open file. -/
theorem HandleStep.of_same {ret : Int} (hg : os.fds.file fd = some g) (hu : Usable os g r)
    (hret : ret = 0) (h : os'.fs = os.fs) : HandleStep os r fd ret os' :=
  .used hg hu hret fun j _ => by rw [h]

end

variable {α β : Type} {peer : Peer} {h : Host}

/-! ## The calls -/

theorem each_sys {A : {γ : Type} → Call γ → Host → Prop} {c : Sys β} {f : β → Server α} :
    (sys c >>= f).Each (server peer) A h ↔ A (.os c) h ∧ ∀ b os', OS.exec c h.os = .ok (b, os') →
      (f b).Each (server peer) A { h with os := os' } := by
  have hstep : (server peer).step (.os c) h =
      (OS.exec c h.os).map fun r => (r.1, { h with os := r.2 }) := rfl
  change (_ ∧ ∀ r, (server peer).step (.os c) h = .ok r → _) ↔ _
  rw [hstep]
  refine and_congr_right fun _ => ?_
  cases OS.exec c h.os with
  | error w => exact iff_of_true (fun _ hr => nomatch hr) fun _ _ hr => nomatch hr
  | ok r =>
      constructor
      · intro hf b os' hb
        cases hb
        exact hf _ rfl
      · intro hf r' hr'
        cases hr'
        exact hf _ _ rfl

/-- What the handler of a request through `fd` does. -/
abbrev Handles (peer : Peer) (h : Host) (r : Request) (fd : Int) {ρ : Type} (ret : ρ → Int)
    (p : Server ρ) : Prop :=
  p.wp (server peer) (fun v h' => HandleStep h.os r fd (ret v) h'.os) (fun _ => True) h

theorem handles_read (argp : ReadArg) (result : ReadRet) :
    Handles peer h (.read argp) argp.fd ReadRet.ret (bbRead6Svc argp result) := by
  unfold Handles bbRead6Svc
  rw [wp_bind]
  refine wp_flock fun _ os₁ hs₁ _ => ?_
  rw [wp_bind, wp_sys]
  simp only [OS.exec, hs₁.pread]
  cases hp : h.os.pread argp.fd argp.size.toNat argp.offset.toNat with
  | ok d =>
      obtain ⟨g, i, n, d', hg, hr, hi, hn, hd, -⟩ := OS.pread_eq_ok.mp hp
      simp only [OS.tryGet]
      rw [wp_bind]
      exact wp_flock fun _ os₂ hs₂ _ => .of_same hg ⟨hr, d', bodyOf_reg.mpr ⟨i, n, hi, hn, hd⟩⟩ rfl
        (hs₁.trans hs₂).fs_eq
  | error e =>
      have hu : ∀ g, h.os.fds.file argp.fd = some g → ¬ Usable h.os g (.read argp) := by
        rintro g hg ⟨hr, d, hd⟩
        obtain ⟨i, n, hi, hn, hb⟩ := bodyOf_reg.mp hd
        cases hp.symm.trans (OS.pread_eq_ok.mpr ⟨g, i, n, d, hg, hr, hi, hn, hb, rfl⟩)
      simp only [OS.tryGet]
      rw [wp_bind]
      refine wp_flock fun _ os₂ hs₂ he₂ => ?_
      rw [wp_bind]
      refine wp_negErrno (.refused hu ?_ (hs₁.trans ((OS.Same.fail _ _).trans hs₂)))
      have hpos : (0 : ℕ) < os₂.errno := by
        rcases he₂ with he₂ | he₂
        · rw [he₂]
          exact OS.pread_error hp
        · rw [he₂]
          exact (by decide : 0 < EBADF)
      exact Int.neg_neg_of_pos (Int.natCast_pos.mpr hpos)

theorem handles_write (argp : WriteArg) (result : WriteRet) (hrole : ¬ argp.byPath) :
    Handles peer h (.write argp) argp.fd WriteRet.ret (bbWrite6Svc argp result) := by
  refine (bbWrite6Svc_direct argp result hrole).imp fun r h' hr => ?_
  rcases hr with ⟨fs, hw, rfl, hs⟩ | ⟨⟨e, he⟩, hret, hs⟩
  · obtain ⟨g, i, n, d, hg, hwr, hi, hn, hd, rfl⟩ := OS.pwrite_eq_ok.mp hw
    refine .used hg ⟨hwr, d, bodyOf_reg.mpr ⟨i, n, hi, hn, hd⟩⟩ rfl fun j hj => ?_
    rw [hs.fs_eq]
    exact FS.modify_node_ne _ fun hji => hj (hji ▸ hi)
  · refine .refused ?_ hret hs
    rintro g hg ⟨hwr, d, hd⟩
    obtain ⟨i, n, hi, hn, hb⟩ := bodyOf_reg.mp hd
    cases he.symm.trans (OS.pwrite_eq_ok.mpr ⟨g, i, n, d, hg, hwr, hi, hn, hb, rfl⟩)

/-- Closing a descriptor that is open, and what follows. -/
theorem handles_close {r : Request} {c : Sys Int} {fd : Int} {g : OpenFile}
    (hc : OS.exec c h.os = .ok (h.os.close fd)) (hg : h.os.fds.file fd = some g)
    (hu : Usable h.os g r) : Handles peer h r fd StatusRet.ret
      (do if (← sys c) = -1 then return ⟨← negErrno⟩ else return ⟨0⟩ : Server StatusRet) := by
  unfold Handles
  have hclose : h.os.close fd = (0, { h.os with fds := h.os.fds.dropFile fd }) := by
    unfold OS.close
    rw [hg]
  rw [wp_bind, wp_sys, hc, hclose]
  simp only
  rw [if_neg (by decide), wp_pure]
  exact .of_same hg hu rfl rfl

theorem handles_release (argp : ReleaseArg) :
    Handles peer h (.release argp) argp.fd StatusRet.ret (bbRelease6Svc argp) := by
  cases hg : h.os.fds.file argp.fd with
  | some g => exact handles_close rfl hg trivial
  | none =>
      unfold Handles bbRelease6Svc
      rw [wp_bind, wp_sys]
      simp only [OS.exec, OS.close, hg, if_true]
      rw [wp_bind]
      refine wp_negErrno (.refused (fun g hg' => ?_)
        (show -(EBADF : Int) < 0 by decide) (OS.Same.fail _ _))
      cases hg.symm.trans hg'

theorem handles_readdir (argp : ReaddirArg) (result : ReaddirRet) :
    Handles peer h (.readdir argp) argp.fd ReaddirRet.ret (bbReaddir6Svc argp result) := by
  unfold Handles bbReaddir6Svc
  rw [wp_bind]
  refine wp_flock fun _ os₁ hs₁ _ => ?_
  rw [wp_bind, wp_sys]
  simp only [OS.exec]
  rcases os₁.fdopendir_cases argp.fd with ⟨f, hf, hl, hr⟩ | ⟨e, he, hno, hr⟩
  · obtain ⟨g, hg, hb⟩ := hs₁.fds.symm.file hf
    have hlist : h.os.Listable g := (OS.Same.listable hs₁ hb.symm).mp hl
    rw [hr]
    simp only
    rw [wp_bind, wp_sys]
    have hs₂ : OS.Same os₁ (os₁.readdir argp.fd).2 :=
      OS.exec_quiet (c := .readdir ⟨argp.fd⟩) rfl rfl
    simp only [OS.exec]
    rw [wp_bind]
    exact wp_flock fun _ os₃ hs₃ _ => .of_same hg hlist rfl
      (hs₁.trans (hs₂.trans hs₃)).fs_eq
  · rw [hr]
    simp only
    rw [wp_bind]
    refine wp_flock fun _ os₂ hs₂ he₂ => ?_
    rw [wp_bind]
    refine wp_negErrno (.refused ?_ ?_ (hs₁.trans ((OS.Same.fail _ _).trans hs₂)))
    · intro g hg hl
      obtain ⟨f, hf, hb⟩ := hs₁.fds.file hg
      exact hno f hf ((OS.Same.listable hs₁ hb).mpr hl)
    · have hpos : (0 : ℕ) < os₂.errno := by
        rcases he₂ with he₂ | he₂
        · rw [he₂]
          exact he
        · rw [he₂]
          exact (by decide : 0 < EBADF)
      exact Int.neg_neg_of_pos (Int.natCast_pos.mpr hpos)

theorem handles_releasedir (argp : ReleasedirArg) :
    Handles peer h (.releasedir argp) argp.fd StatusRet.ret (bbReleasedir6Svc argp) := by
  unfold Handles bbReleasedir6Svc
  rw [wp_bind, wp_sys]
  simp only [OS.exec]
  rcases h.os.fdopendir_cases argp.fd with ⟨g, hg, hl, hr⟩ | ⟨e, he, hno, hr⟩
  · rw [hr]
    exact handles_close (c := .closedir ⟨argp.fd⟩) rfl hg hl
  · rw [hr]
    simp only
    rw [wp_bind]
    exact wp_negErrno (.refused hno (Int.neg_neg_of_pos (Int.natCast_pos.mpr he))
      (OS.Same.fail _ _))

/-- **A request through a descriptor** that returns has used the open file behind it, or has
failed without a trace. -/
theorem serve_handle {a : Arrival} {fd : Int} (hr : a.request.handle = some fd) {reply : Reply}
    {h' : Host} (hs : serve a h = .ok (reply, h')) :
    HandleStep h.os a.request fd reply.ret h'.os := by
  obtain ⟨r, stale, peer⟩ := a
  cases r <;> simp only [Request.handle, Option.some.injEq, reduceCtorEq] at hr
  case read argp =>
    subst hr
    obtain ⟨v, hv, rfl⟩ := (run_map_eq_ok _).mp hs
    exact (handles_read argp _).of_run hv
  case write argp =>
    split at hr
    · cases hr
    · next hrole =>
      cases hr
      obtain ⟨v, hv, rfl⟩ := (run_map_eq_ok _).mp hs
      exact (handles_write argp _ hrole).of_run hv
  case release argp =>
    subst hr
    obtain ⟨v, hv, rfl⟩ := (run_map_eq_ok _).mp hs
    exact (handles_release argp).of_run hv
  case readdir argp =>
    subst hr
    obtain ⟨v, hv, rfl⟩ := (run_map_eq_ok _).mp hs
    exact (handles_readdir argp _).of_run hv
  case releasedir argp =>
    subst hr
    obtain ⟨v, hv, rfl⟩ := (run_map_eq_ok _).mp hs
    exact (handles_releasedir argp).of_run hv

/-! ## Waiting -/

theorem flock_returns_iff {os : OS} {fd : Int} (op : LockOp) {r : Request}
    (hr : r.lockOp = some op) : (∃ x, os.flock fd op = .ok x) ↔ ¬ Stalls os fd r := by
  cases hf : os.flock fd op with
  | ok x => exact iff_of_true ⟨x, rfl⟩ (by
      rintro ⟨op', hop, hw⟩
      obtain rfl := Option.some.inj (hr.symm.trans hop)
      cases hf.symm.trans hw)
  | error w =>
      have hw : w = .flock := by
        unfold OS.flock at hf
        repeat' split at hf
        all_goals cases hf
        rfl
      subst hw
      exact iff_of_false (fun ⟨_, hx⟩ => nomatch hx) fun hno => hno ⟨op, hr, hf⟩

/-- The request acts on the open file `g`. -/
structure Acts (os : OS) (r : Request) (fd : Int) (g : OpenFile) : Prop where
  file : os.fds.file fd = some g
  usable : Usable os g r
  granted : ¬ Stalls os fd r

end DFS
