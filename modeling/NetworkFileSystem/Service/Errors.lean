import NetworkFileSystem.Service.Trials

/-!
# What a reply says of a failed call

Every handler has one call that the request is about, its *decisive* call.  Here it is worked out
what the reply says when that call fails, over every outcome of all calls (**`serve_reported`**).
There are three conventions: some handlers send the `-1` of the call back, some send `-errno`, and
`bb_read_6_svc` and `bb_write_6_svc` send `-errno` but give up a lock in between, so that the error
number may be that of the lock.
-/

namespace DFS

open Effects Posix Prog

/-! ## Requests -/

/-- The decisive calls of a request. -/
def Request.decisive : Request → SysName → Bool
  | .getattr _, n => n = .lstat
  | .access _, n => n = .access
  | .mkdir _, n => n = .mkdir
  | .rmdir _, n => n = .rmdir
  | .opendir _, n => n = .opendir
  | .rename _, n => n = .rename
  | .symlink _, n => n = .symlink
  | .link _, n => n = .link
  | .mknod _, n => n = .mknod ∨ n = .openPath ∨ n = .mkfifo
  | .truncate _, n => n = .truncate
  | .unlink _, n => n = .unlink
  | .utime _, n => n = .utime
  | .chmod _, n => n = .chmod
  | .chown _, n => n = .chown
  | .openFile _, n => n = .openPath
  | .release _, n => n = .close
  | .read _, n => n = .pread
  | .write _, n => n = .pwrite
  | .statfs _, n => n = .statvfs
  | _, _ => false

/-- A handler up to its permission check: whether it goes on. -/
def preamble : Request → Server Bool
  | .mkdir arg => do
    transmitToSecondaty arg.serverInfo fun info => .mkdir { arg with serverInfo := info }
    let p := translateAbspath arg.path
    isParentDirValid (getParentPath p) p arg.ip .mkdir
  | .rmdir arg => do
    transmitToSecondaty arg.serverInfo fun info => .rmdir { arg with serverInfo := info }
    let p := translateAbspath arg.path
    isParentDirValid (getParentPath p) p arg.ip .rmdir
  | .mknod arg => do
    transmitToSecondaty arg.serverInfo fun info => .mknod { arg with serverInfo := info }
    let p := translateAbspath arg.path
    isParentDirValid (getParentPath p) p arg.ip .mknod
  | .unlink arg => do
    transmitToSecondaty arg.serverInfo fun info => .unlink { arg with serverInfo := info }
    let p := translateAbspath arg.path
    isParentDirValid (getParentPath p) p arg.ip .unlink
  | .symlink arg => do
    transmitToSecondaty arg.serverInfo fun info => .symlink { arg with serverInfo := info }
    let p := translateAbspath arg.link
    isParentDirValid (getParentPath p) p arg.ip .symlink
  | .rename arg => do
    transmitToSecondaty arg.serverInfo fun info => .rename { arg with serverInfo := info }
    let p := translateAbspath arg.path
    let q := translateAbspath arg.newpath
    if ← isParentDirValid (getParentPath p) p arg.ip .rename then
      isParentDirValid (getParentPath q) q arg.ip .rename
    else return false
  | .link arg => do
    transmitToSecondaty arg.serverInfo fun info => .link { arg with serverInfo := info }
    let p := translateAbspath arg.path
    let q := translateAbspath arg.newpath
    if ← isParentDirValid (getParentPath p) p arg.ip .link then
      isParentDirValid (getParentPath q) q arg.ip .link
    else return false
  | .utime arg => do
    transmitToSecondaty arg.serverInfo fun info => .utime { arg with serverInfo := info }
    isOwner (translateAbspath arg.path) arg.ip
  | .chmod arg => do
    transmitToSecondaty arg.serverInfo fun info => .chmod { arg with serverInfo := info }
    isOwner (translateAbspath arg.path) arg.ip
  | .opendir arg => do
    return (← isOpValid (translateAbspath arg.path) arg.ip (R_REQ ||| X_REQ)) = 1
  | .openFile arg => do
    return (← isOpValid (translateAbspath arg.path) arg.ip (openFlagToCheck arg.flags)) = 1
  | _ => return true

/-- The handler refuses for permission. -/
def Denies (peer : Peer) (r : Request) (s : Observed) : Prop :=
  ∃ t, (preamble r).run (trying peer) s = .ok (false, t)

/-- The error number of the last call that failed. -/
def lastError (l : List Trial) : ℕ := (l.filterMap Trial.failed).getLast?.getD 0

/-- The status in the reply after the decisive call failed with `e`, in the course of `l`. -/
def Request.report : Request → List Trial → Errno → Int
  | .getattr _, _, e | .opendir _, _, e | .truncate _, _, e | .chown _, _, e | .openFile _, _, e
  | .release _, _, e | .statfs _, _, e => -(e : Int)
  | .read _, l, _ | .write _, l, _ => -(lastError l : Int)
  | _, _, _ => -1

/-! ## Courses -/

section

variable (D : SysName → Bool)

/-- No decisive call was made. -/
def Idle (l : List Trial) : Prop := ∀ x ∈ l, D x.call = false

/-- Some call failed. -/
def Hurt (l : List Trial) : Prop := ∃ x ∈ l, x.failed ≠ none

/-- No decisive call failed. -/
def Unhurt (l : List Trial) : Prop := ∀ x ∈ l, D x.call = true → x.failed = none

/-- The decisive call failed with `e`. -/
def Struck (e : Errno) (l : List Trial) : Prop :=
  (∀ x ∈ l, D x.call = true → x.failed = some e) ∧ ∃ x ∈ l, D x.call = true ∧ x.failed = some e

/-- The status is right for the course: not negative unless some call failed, or the report of the
decisive call's failure. -/
def Right (report : List Trial → Errno → Int) (ret : Int) (l : List Trial) : Prop :=
  Unhurt D l ∧ (0 ≤ ret ∨ Hurt l) ∨ ∃ e, Struck D e l ∧ ret = report l e

/-- What the status of a reply has to do with the course of the request. -/
def Reported (r : Request) (refused : Prop) (ret : Int) (l : List Trial) : Prop :=
  (refused → ret = -EACCES ∧ Idle r.decisive l) ∧
  (¬ refused → Right r.decisive r.report ret l)

/-- The trials that were added satisfy `P`. -/
def Since (P : List Trial → Prop) (s t : Observed) : Prop := ∃ l, t.2 = s.2 ++ l ∧ P l

variable {D} {P Q R : List Trial → Prop} {s t u : Observed} {l l' : List Trial} {e : Errno}

theorem Since.append (h : Since P s t) (h' : Since Q t u)
    (hR : ∀ l l', P l → Q l' → R (l ++ l')) : Since R s u := by
  obtain ⟨l, hl, hP⟩ := h
  obtain ⟨l', hl', hQ⟩ := h'
  exact ⟨l ++ l', by rw [hl', hl, List.append_assoc], hR l l' hP hQ⟩

theorem Since.imp (h : Since P s t) (hPQ : ∀ l, P l → Q l) : Since Q s t := by
  obtain ⟨l, hl, hP⟩ := h
  exact ⟨l, hl, hPQ l hP⟩

theorem Idle.append (h : Idle D l) (h' : Idle D l') : Idle D (l ++ l') :=
  List.forall_mem_append.mpr ⟨h, h'⟩

theorem Idle.unhurt (h : Idle D l) : Unhurt D l := by
  intro x hx hd
  rw [h x hx] at hd
  cases hd

theorem Unhurt.append (h : Unhurt D l) (h' : Unhurt D l') : Unhurt D (l ++ l') :=
  List.forall_mem_append.mpr ⟨h, h'⟩

theorem Hurt.left (h : Hurt l) : Hurt (l ++ l') := by
  obtain ⟨x, hx, hf⟩ := h
  exact ⟨x, List.mem_append_left _ hx, hf⟩

theorem Hurt.right (h : Hurt l') : Hurt (l ++ l') := by
  obtain ⟨x, hx, hf⟩ := h
  exact ⟨x, List.mem_append_right _ hx, hf⟩

/-- Calls that are not decisive do not change what became of the decisive one. -/
theorem Struck.append (h : Struck D e l) (h' : Idle D l') : Struck D e (l ++ l') := by
  obtain ⟨hall, x, hx, hd⟩ := h
  refine ⟨List.forall_mem_append.mpr ⟨hall, fun y hy hy' => ?_⟩,
    x, List.mem_append_left _ hx, hd⟩
  rw [h' y hy] at hy'
  cases hy'

theorem Idle.struck (h : Idle D l) (h' : Struck D e l') : Struck D e (l ++ l') := by
  obtain ⟨hall, x, hx, hd⟩ := h'
  refine ⟨List.forall_mem_append.mpr ⟨fun y hy hy' => ?_, hall⟩,
    x, List.mem_append_right _ hx, hd⟩
  rw [h y hy] at hy'
  cases hy'

/-! ## Rules -/

variable {peer : Peer} {α β : Type} {s₀ : Observed}

/-- The trial of a call, as the list that it adds. -/
theorem since_noting {c : Sys β} {r : β × OS} (h : P [c.trial s.1.1.os r]) :
    Since P s (noting s c r) := ⟨_, rfl, h⟩

theorem forall_trial {p : Trial → Prop} {x : Trial} : (∀ y ∈ [x], p y) ↔ p x :=
  List.forall_mem_singleton

/-- A part of a handler without decisive calls. -/
theorem wp_idle {p : Server α} (hp : p.Calls (Call.Is fun c => !D c.name)) :
    p.wp (trying peer) (fun _ t => Since (Idle D) s t) AnyHalt s := by
  refine Calls.wp (m := trying peer) (R := Since (Idle D)) ?_ ?_ ?_ hp s
  · intro s
    exact ⟨[], (List.append_nil _).symm, fun _ hx => nomatch hx⟩
  · intro a b c hab hbc
    exact hab.append hbc fun _ _ => Idle.append
  · intro γ e he s
    cases e with
    | rpc c => cases c <;> exact ⟨[], rfl, fun x hx => nomatch hx⟩
    | os c =>
        simp only [trying, Machine.observe, attempting, noted]
        cases ha : OS.attempt s.1.2.head?.join c s.1.1.os with
        | error w => trivial
        | ok r => exact since_noting (forall_trial.mpr (by simpa [Call.Is, Sys.trial] using he))

/-- The same, in the course of a handler. -/
theorem wp_idleNext {p : Server α} {Q : α → Observed → Prop}
    (hp : p.Calls (Call.Is fun c => !D c.name)) (hs : Since (Idle D) s₀ s)
    (hQ : ∀ a t, Since (Idle D) s₀ t → Q a t) : p.wp (trying peer) Q AnyHalt s :=
  (wp_idle hp).imp fun a t ht => hQ a t (hs.append ht fun _ _ => Idle.append)

/-- A call that is not decisive. -/
theorem wp_other {c : Sys β} {Q : β → Observed → Prop} (hD : D c.name = false)
    (hok : ∀ b t, c.failed b = false → Since (Idle D) s t → Q b t)
    (hfail : ∀ b t, c.failed b = true → Since (fun l => Idle D l ∧ Hurt l) s t → Q b t) :
    (sys c).wp (trying peer) Q AnyHalt s := by
  refine wp_try_any fun r hr => ?_
  have hidle : Idle D [c.trial s.1.1.os r] := forall_trial.mpr hD
  cases hf : c.failed r.1 with
  | false => exact hok r.1 _ hf (since_noting hidle)
  | true =>
      have hhurt : Hurt [c.trial s.1.1.os r] :=
        ⟨_, List.mem_singleton_self _, by simp [Sys.trial, hf]⟩
      exact hfail r.1 _ hf (since_noting ⟨hidle, hhurt⟩)

/-- A call that is not decisive and answers `0` or `-1`. -/
theorem wp_status {c : Sys Int} {Q : Int → Observed → Prop} (hn : ∀ b, c.number b = some b)
    (hstatus : c.status = true) (hD : D c.name = false)
    (hok : ∀ t, Since (Idle D) s t → Q 0 t)
    (hfail : ∀ t, Since (fun l => Idle D l ∧ Hurt l) s t → Q (-1) t) :
    (sys c).wp (trying peer) Q AnyHalt s := by
  refine wp_try_any fun r hr => ?_
  have hidle : Idle D [c.trial s.1.1.os r] := forall_trial.mpr hD
  cases OS.attempt_answered (hn r.1) hr with
  | fails e hv hos =>
      have hfailed : (c.trial s.1.1.os r).failed ≠ none := by
        rw [Sys.trial, Sys.failed_number (hn r.1)]
        simp [hv]
      rw [hv]
      exact hfail _ (since_noting ⟨hidle, _, List.mem_singleton_self _, hfailed⟩)
  | succeeds hpos hzero _ =>
      rw [hzero hstatus]
      exact hok _ (since_noting hidle)

/-- A decisive call. -/
theorem wp_decisive {c : Sys β} {Q : β → Observed → Prop} (hD : D c.name = true)
    (hok : ∀ b t, c.failed b = false → (∀ v, c.number b = some v → 0 ≤ v) →
      Since (Unhurt D) s t → Q b t)
    (hfail : ∀ b t e, c.failed b = true → t.1.1.os.errno = e →
      Since (fun l => Struck D e l ∧ lastError l = e) s t → Q b t) :
    (sys c).wp (trying peer) Q AnyHalt s := by
  refine wp_try_any fun r hr => ?_
  cases hf : c.failed r.1 with
  | false =>
      refine hok r.1 _ hf (fun v hv => ?_)
        (since_noting (forall_trial.mpr fun _ => by simp [Sys.trial, hf]))
      cases OS.attempt_answered hv hr with
      | fails e hneg hos =>
          rw [Sys.failed_number hv, hneg] at hf
          cases hf
      | succeeds hpos hzero _ => exact hpos
  | true =>
      have htrial : (c.trial s.1.1.os r).failed = some r.2.errno := by simp [Sys.trial, hf]
      refine hfail r.1 _ r.2.errno hf rfl (since_noting ⟨⟨forall_trial.mpr fun _ => htrial, _,
        List.mem_singleton_self _, hD, htrial⟩, ?_⟩)
      simp [lastError, htrial]

/-! ## Statuses of `-1` -/

/-- A status that is `-1` when the decisive call failed. -/
abbrev Raw (D : SysName → Bool) (ret : Int) (l : List Trial) : Prop :=
  Right D (fun _ _ => -1) ret l

theorem Right.append {report : Errno → Int} {ret : Int} (h : Right D (fun _ => report) ret l)
    (h' : Idle D l') : Right D (fun _ => report) ret (l ++ l') := by
  rcases h with ⟨hun, hret⟩ | ⟨e, hs, hret⟩
  · exact .inl ⟨hun.append h'.unhurt, hret.imp_right Hurt.left⟩
  · exact .inr ⟨e, hs.append h', hret⟩

/-- After a failure that is not decisive, `-1` is right. -/
theorem Right.broken {ret : Int} (h : Raw D ret l) (h' : Idle D l' ∧ Hurt l') :
    Raw D (-1) (l ++ l') := by
  rcases h with ⟨hun, -⟩ | ⟨e, hs, -⟩
  · exact .inl ⟨hun.append h'.1.unhurt, .inr h'.2.right⟩
  · exact .inr ⟨e, hs.append h'.1, rfl⟩

theorem Right.zero {ret : Int} (h : Raw D ret l) (hret : 0 ≤ ret) : Raw D 0 l := by
  rcases h with ⟨hun, -⟩ | ⟨e, -, rfl⟩
  · exact .inl ⟨hun, .inl (Int.le_refl 0)⟩
  · exact absurd hret (Int.not_le.mpr (Int.negSucc_lt_zero 0))

theorem Right.negative {ret : Int} (h : Raw D ret l) (hret : ret < 0) : Raw D (-1) l := by
  rcases h with ⟨hun, hpos | hhurt⟩ | ⟨e, hs, -⟩
  · exact absurd hret (Int.not_lt.mpr hpos)
  · exact .inl ⟨hun, .inr hhurt⟩
  · exact .inr ⟨e, hs, rfl⟩

/-- The decisive call, whose answer is the status. -/
theorem wp_decisiveStatus {c : Sys Int} {Q : Int → Observed → Prop}
    (hn : ∀ b, c.number b = some b) (hD : D c.name = true) (hs : Since (Idle D) s₀ s)
    (hQ : ∀ v t, Since (Raw D v) s₀ t → Q v t) : (sys c).wp (trying peer) Q AnyHalt s := by
  refine wp_try_any fun r hr => hQ r.1 _ ?_
  cases OS.attempt_answered (hn r.1) hr with
  | fails e hv hos =>
      have hfailed : (c.trial s.1.1.os r).failed = some r.2.errno := by
        rw [Sys.trial, Sys.failed_number (hn r.1)]
        simp [hv]
      refine hs.append (since_noting (P := fun l => Struck D r.2.errno l)
        ⟨forall_trial.mpr fun _ => hfailed, _, List.mem_singleton_self _, hD, hfailed⟩) ?_
      intro l l' hl hl'
      exact .inr ⟨_, hl.struck hl', hv⟩
  | succeeds hpos hzero _ =>
      have hfailed : (c.trial s.1.1.os r).failed = none := by
        rw [Sys.trial, Sys.failed_number (hn r.1)]
        simp only [ite_eq_right_iff, reduceCtorEq, imp_false, decide_eq_true_eq]
        omega
      refine hs.append (since_noting (P := fun l => Unhurt D l)
        (forall_trial.mpr fun _ => hfailed)) ?_
      intro l l' hl hl'
      exact .inl ⟨hl.unhurt.append hl', .inl hpos⟩

theorem wp_unlockRaw {fd : Int} {result : StatusRet} {Q : StatusRet → Observed → Prop}
    (hD : D .flock = false) (hs : Since (Raw D result.ret) s₀ s)
    (hQ : ∀ r t, r = result ∨ r = ⟨-1⟩ → Since (Raw D r.ret) s₀ t → Q r t) :
    (unlockDirectory fd result).wp (trying peer) Q AnyHalt s := by
  unfold unlockDirectory dunlock
  rw [wp_bind, wp_bind]
  refine wp_status (fun _ => rfl) rfl hD (fun t ht => ?_) fun t ht => ?_
  · exact hQ result t (.inl rfl) (hs.append ht fun _ _ => Right.append)
  · exact hQ ⟨-1⟩ t (.inr rfl) (hs.append ht fun _ _ => Right.broken)

/-- A change of the owner after the decisive call. -/
theorem wp_ownerRaw {c : Sys Int} {ret : Int} {Q : Int → Observed → Prop}
    (hn : ∀ b, c.number b = some b) (hstatus : c.status = true) (hD : D c.name = false)
    (hs : Since (Raw D ret) s₀ s) (hok : ∀ t, Since (Raw D ret) s₀ t → Q 0 t)
    (hfail : ∀ t, Since (Raw D (-1)) s₀ t → Q (-1) t) :
    (do if (← sys c) ≠ 0 then return -1 else return 0 : Server Int).wp (trying peer) Q AnyHalt
      s := by
  rw [wp_bind]
  refine wp_status hn hstatus hD (fun t ht => ?_) fun t ht => ?_
  · exact hok t (hs.append ht fun _ _ => Right.append)
  · exact hfail t (hs.append ht fun _ _ => Right.broken)

/-- Before the decisive call, a failure makes `-1` right. -/
theorem Right.idle (h : Idle D l) (h' : Idle D l' ∧ Hurt l') : Raw D (-1) (l ++ l') :=
  .inl ⟨(h.append h'.1).unhurt, .inr h'.2.right⟩

theorem wp_opendirIdle {p : CStr} {Q : Option DIR → Observed → Prop} (hD : D .opendir = false)
    (hok : ∀ dir t, 0 ≤ dir.fd → Since (Idle D) s t → Q (some dir) t)
    (hfail : ∀ t, Since (fun l => Idle D l ∧ Hurt l) s t → Q none t) :
    (sys (.opendir p)).wp (trying peer) Q AnyHalt s := by
  refine wp_try_any fun r hr => ?_
  obtain ⟨b, os'⟩ := r
  have hidle : Idle D [(Sys.opendir p).trial s.1.1.os (b, os')] := forall_trial.mpr hD
  cases b with
  | some dir => exact hok dir _ (OS.attempt_opendir hr) (since_noting hidle)
  | none => exact hfail _ (since_noting ⟨hidle, _, List.mem_singleton_self _, nofun⟩)

/-- Locking a directory before the decisive call. -/
theorem wp_lockRaw {parent : CStr} {rest : Int → Server StatusRet} (hopen : D .opendir = false)
    (hlock : D .flock = false) (hs : Since (Idle D) s₀ s)
    (hrest : ∀ fd t, Since (Idle D) s₀ t →
      (rest fd).wp (trying peer) (fun r t => Since (Raw D r.ret) s₀ t) AnyHalt t) :
    (lockDirectory parent rest).wp (trying peer) (fun r t => Since (Raw D r.ret) s₀ t) AnyHalt
      s := by
  unfold lockDirectory dlock
  rw [wp_bind, wp_bind]
  refine wp_opendirIdle hopen (fun dir t hdir ht => ?_) fun t ht => hs.append ht fun _ _ => .idle
  have ht₀ : Since (Idle D) s₀ t := hs.append ht fun _ _ => Idle.append
  dsimp only
  rw [if_neg (by omega), wp_bind]
  refine wp_status (fun _ => rfl) rfl hlock (fun u hu => ?_) fun u hu => ?_
  · rw [if_neg (by decide), wp_pure, if_neg (Int.not_lt.mpr hdir)]
    exact hrest _ _ (ht₀.append hu fun _ _ => Idle.append)
  · exact ht₀.append hu fun _ _ => .idle

/-! ## Statuses of `-errno` -/

/-- A status that is `-errno` when the decisive call failed. -/
abbrev Coded (D : SysName → Bool) (ret : Int) (l : List Trial) : Prop :=
  Right D (fun _ e => -(e : Int)) ret l

theorem wp_errno {Q : Int → Observed → Prop} (hD : D .errno = false)
    (hQ : ∀ t, Since (fun l => Idle D l ∧ ¬ Hurt l) s t → Q (-(s.1.1.os.errno : Int)) t) :
    negErrno.wp (trying peer) Q AnyHalt s := by
  unfold negErrno
  rw [wp_bind]
  refine wp_try_any fun r hr => ?_
  have herrno : r = (s.1.1.os.errno, s.1.1.os) := by
    unfold OS.attempt at hr
    split at hr <;> exact (Except.ok.inj hr).symm
  subst herrno
  refine hQ _ (since_noting ⟨forall_trial.mpr hD, ?_⟩)
  rintro ⟨x, hx, hf⟩
  rw [List.mem_singleton.mp hx] at hf
  exact hf rfl

/-- The decisive call with `-errno` after a failure. -/
theorem wp_decisiveErrno {ρ : Type} (ret : ρ → Int) {c : Sys β} {k : β → Server ρ}
    (hD : D c.name = true) (herrno : D .errno = false) (hs : Since (Idle D) s₀ s)
    (hok : ∀ b t, c.failed b = false → (∀ v, c.number b = some v → 0 ≤ v) →
      Since (Unhurt D) s₀ t →
      (k b).wp (trying peer) (fun r t => Since (Coded D (ret r)) s₀ t) AnyHalt t)
    (hfail : ∀ b, c.failed b = true → ∃ f : Int → ρ, (∀ v, ret (f v) = v) ∧
      k b = (do return f (← negErrno))) :
    (sys c >>= k).wp (trying peer) (fun r t => Since (Coded D (ret r)) s₀ t) AnyHalt s := by
  rw [wp_bind]
  refine wp_decisive hD (fun b t hb hv ht => hok b t hb hv ?_) fun b t e hb he ht => ?_
  · exact hs.append ht fun _ _ hl hl' => hl.unhurt.append hl'
  · obtain ⟨f, hf, hk⟩ := hfail b hb
    rw [hk, wp_bind]
    refine wp_errno herrno fun u hu => ?_
    rw [wp_pure, hf, he]
    have ht₀ : Since (Struck D e) s₀ t := hs.append ht fun _ _ hl hl' => hl.struck hl'.1
    exact ht₀.append hu fun _ _ hl hl' => .inr ⟨e, hl.append hl'.1, rfl⟩

/-- A call that is not decisive, with `-errno` after a failure. -/
theorem wp_otherErrno {ρ : Type} (ret : ρ → Int) {c : Sys β} {k : β → Server ρ}
    {report : List Trial → Errno → Int} (hD : D c.name = false) (herrno : D .errno = false)
    (hs : Since (Idle D) s₀ s)
    (hok : ∀ b t, c.failed b = false → Since (Idle D) s₀ t →
      (k b).wp (trying peer) (fun r t => Since (Right D report (ret r)) s₀ t) AnyHalt t)
    (hfail : ∀ b, c.failed b = true → ∃ p : Server Unit, ∃ f : Int → ρ,
      p.Calls (Call.Is fun c => !D c.name) ∧ k b = (do p; return f (← negErrno))) :
    (sys c >>= k).wp (trying peer) (fun r t => Since (Right D report (ret r)) s₀ t) AnyHalt s := by
  rw [wp_bind]
  refine wp_other hD (fun b t hb ht => hok b t hb ?_) fun b t hb ht => ?_
  · exact hs.append ht fun _ _ => Idle.append
  · obtain ⟨p, f, hp, hk⟩ := hfail b hb
    have ht₀ : Since (fun l => Unhurt D l ∧ Hurt l) s₀ t :=
      hs.append ht fun _ _ hl hl' => ⟨(hl.append hl'.1).unhurt, hl'.2.right⟩
    rw [hk, wp_bind]
    refine (wp_idle hp).imp fun _ u hu => ?_
    rw [wp_bind]
    refine wp_errno herrno fun v hv => ?_
    have hu₀ : Since (fun l => Unhurt D l ∧ Hurt l) s₀ u :=
      ht₀.append hu fun _ _ hl hl' => ⟨hl.1.append hl'.unhurt, hl.2.left⟩
    exact hu₀.append hv fun _ _ hl hl' => .inl ⟨hl.1.append hl'.1.unhurt, .inr hl.2.left⟩

/-! ## Reading and writing -/

theorem lastError_hurt (h : Hurt l') : lastError (l ++ l') = lastError l' := by
  obtain ⟨x, hx, hf⟩ := h
  obtain ⟨e, he⟩ := Option.ne_none_iff_exists'.mp hf
  have hne : l'.filterMap Trial.failed ≠ [] :=
    List.ne_nil_of_mem (List.mem_filterMap.mpr ⟨x, hx, he⟩)
  rw [lastError, lastError, List.filterMap_append, List.getLast?_append_of_ne_nil _ hne]

theorem lastError_unhurt (h : ¬ Hurt l') : lastError (l ++ l') = lastError l := by
  have hnil : l'.filterMap Trial.failed = [] := by
    rw [List.filterMap_eq_nil_iff]
    intro x hx
    by_contra hf
    exact h ⟨x, hx, hf⟩
  rw [lastError, lastError, List.filterMap_append, hnil, List.append_nil]

theorem Struck.hurt (h : Struck D e l) : Hurt l := by
  obtain ⟨-, x, hx, -, hf⟩ := h
  exact ⟨x, hx, by rw [hf]; exact Option.some_ne_none e⟩

/-- The decisive call has failed, and `errno` is the one of the last failure. -/
def Marked (D : SysName → Bool) (s₀ s : Observed) : Prop :=
  Since (fun l => (∃ e, Struck D e l) ∧ lastError l = s.1.1.os.errno) s₀ s

/-- Giving up the lock of a file may replace `errno`. -/
theorem wp_flockMarked {fd : Int} {op : LockOp} {Q : Int → Observed → Prop}
    (hD : D .flock = false) (hs : Marked D s₀ s) (hQ : ∀ v t, Marked D s₀ t → Q v t) :
    (sys (.flock fd op)).wp (trying peer) Q AnyHalt s := by
  refine wp_try_any fun r hr => hQ r.1 _ ?_
  have hidle : Idle D [(Sys.flock fd op).trial s.1.1.os r] := forall_trial.mpr hD
  obtain ⟨l, hl, ⟨e, hstruck⟩, hlast⟩ := hs
  refine ⟨l ++ [(Sys.flock fd op).trial s.1.1.os r], ?_, ⟨e, hstruck.append hidle⟩, ?_⟩
  · rw [noting, hl, List.append_assoc]
  · have hnumber : (Sys.flock fd op).number r.1 = some r.1 := rfl
    have hfailed := Sys.failed_number hnumber
    cases OS.attempt_answered hnumber hr with
    | fails e' hv hos =>
        have htrial : ((Sys.flock fd op).trial s.1.1.os r).failed = some e' := by
          rw [Sys.trial, hfailed]
          simp [hv, hos, OS.fail]
        rw [lastError_hurt ⟨_, List.mem_singleton_self _, by simp [htrial]⟩]
        simp [lastError, htrial, noting, hos, OS.fail]
    | succeeds hpos hzero herrno =>
        have htrial : ((Sys.flock fd op).trial s.1.1.os r).failed = none := by
          rw [Sys.trial, hfailed]
          simp only [ite_eq_right_iff, reduceCtorEq, imp_false, decide_eq_true_eq]
          omega
        rw [lastError_unhurt, hlast, noting, herrno]
        rintro ⟨x, hx, hf⟩
        rw [List.mem_singleton.mp hx] at hf
        exact hf htrial

/-- The status of a read or a write. -/
abbrev Transferred (D : SysName → Bool) (ret : Int) (l : List Trial) : Prop :=
  Right D (fun l _ => -(lastError l : Int)) ret l

/-- `-errno` after the lock was given up. -/
theorem wp_errnoMarked {Q : Int → Observed → Prop} (hD : D .errno = false) (hs : Marked D s₀ s)
    (hQ : ∀ v t, Since (Transferred D v) s₀ t → Q v t) :
    negErrno.wp (trying peer) Q AnyHalt s := by
  refine wp_errno hD fun t ht => hQ _ t ?_
  refine hs.append ht fun l l' hl hl' => ?_
  obtain ⟨⟨e, hstruck⟩, hlast⟩ := hl
  refine .inr ⟨e, hstruck.append hl'.1, ?_⟩
  dsimp only
  rw [lastError_unhurt hl'.2, hlast]

/-- The decisive call of a read or a write, and the lock that is given up after it. -/
theorem wp_transfer {ρ : Type} (ret : ρ → Int) {c : Sys β} {k : β → Server ρ} {fd : Int}
    (hD : D c.name = true) (hlock : D .flock = false) (herrno : D .errno = false)
    (hs : Since (Idle D) s₀ s)
    (hok : ∀ b t, c.failed b = false → Since (Unhurt D) s₀ t →
      (k b).wp (trying peer) (fun r t => Since (Transferred D (ret r)) s₀ t) AnyHalt t)
    (hfail : ∀ b, c.failed b = true → ∃ f : Int → ρ, (∀ v, ret (f v) = v) ∧
      k b = (do return f (← negErrno))) :
    (do
      let b ← sys c
      let _ ← sys (.flock fd .un)
      k b).wp (trying peer) (fun r t => Since (Transferred D (ret r)) s₀ t) AnyHalt s := by
  rw [wp_bind]
  refine wp_decisive hD (fun b t hb _ ht => ?_) fun b t e hb he ht => ?_
  · have ht₀ : Since (Unhurt D) s₀ t := hs.append ht fun _ _ hl hl' => hl.unhurt.append hl'
    have hflock : (sys (.flock fd .un)).wp (trying peer) (fun _ u => Since (Idle D) t u) AnyHalt
        t := wp_idle (calls_sys (by rw [Sys.name, hlock]; rfl))
    rw [wp_bind]
    exact hflock.imp fun _ u hu => hok b u hb (ht₀.append hu fun _ _ hl hl' => hl.append hl'.unhurt)
  · have hmarked : Marked D s₀ t := hs.append ht fun l l' hl hl' =>
      ⟨⟨e, hl.struck hl'.1⟩, by rw [lastError_hurt hl'.1.hurt, hl'.2, he]⟩
    obtain ⟨f, hf, hk⟩ := hfail b hb
    rw [wp_bind]
    refine wp_flockMarked hlock hmarked fun _ u hu => ?_
    rw [hk, wp_bind]
    refine wp_errnoMarked herrno hu fun v w hw => ?_
    rw [wp_pure, hf]
    exact hw

end

/-! ## Handlers -/

section

variable {peer : Peer} {s₀ s : Observed}

/-- What is shown of a handler whose check is its preamble. -/
abbrev Answers (r : Request) (peer : Peer) (s : Observed) (ret : Int) (t : Observed) : Prop :=
  Since (Reported r (Denies peer r s) ret) s t

/-- A handler that consists of its preamble and the rest. -/
theorem wp_preamble {ρ : Type} (r : Request) (ret : ρ → Int) {k : Bool → Server ρ} {denied : ρ}
    (hcalls : (preamble r).Calls (Call.Is fun c => !r.decisive c.name))
    (hdenied : k false = pure denied) (hret : ret denied = -EACCES)
    (hrest : ∀ t, Since (Idle r.decisive) s t →
      (k true).wp (trying peer) (fun v u => Since (Right r.decisive r.report (ret v)) s u) AnyHalt
        t) :
    (preamble r >>= k).wp (trying peer) (fun v t => Answers r peer s (ret v) t) AnyHalt s := by
  rw [wp_bind]
  refine ((wp_idle hcalls).and (wp_of_run fun b t hrun => hrun)).imp fun b t ht => ?_
  obtain ⟨hidle, hrun⟩ := ht
  cases b with
  | false =>
      rw [hdenied, wp_pure, hret]
      exact hidle.imp fun l hl => ⟨fun _ => ⟨rfl, hl⟩, fun hno => absurd ⟨t, hrun⟩ hno⟩
  | true =>
      have hpass : ¬ Denies peer r s := by
        rintro ⟨u, hu⟩
        cases hrun.symm.trans hu
      exact (hrest t hidle).imp fun v u hu =>
        hu.imp fun l hl => ⟨fun h => absurd h hpass, fun _ => hl⟩

/-- A handler without a permission check. -/
theorem answers_of_right {ρ : Type} {r : Request} {p : Server ρ} {ret : ρ → Int}
    (hr : preamble r = pure true)
    (hp : p.wp (trying peer) (fun v t => Since (Right r.decisive r.report (ret v)) s t) AnyHalt s) :
    p.wp (trying peer) (fun v t => Answers r peer s (ret v) t) AnyHalt s := by
  refine hp.imp fun v t ht => ht.imp fun l hl => ⟨?_, fun _ => hl⟩
  rintro ⟨u, hu⟩
  rw [hr] at hu
  cases hu

theorem since_refl {D : SysName → Bool} (s : Observed) : Since (Idle D) s s :=
  ⟨[], (List.append_nil _).symm, fun _ hx => nomatch hx⟩

/-- The rest of a handler that locks one directory. -/
theorem right_locked {D : SysName → Bool} {parent : CStr} {c : Sys Int} (hopen : D .opendir = false)
    (hlock : D .flock = false) (hn : ∀ b, c.number b = some b) (hD : D c.name = true)
    (hs : Since (Idle D) s₀ s) :
    (lockDirectory parent fun fd => do unlockDirectory fd ⟨← sys c⟩).wp (trying peer)
      (fun r t => Since (Raw D r.ret) s₀ t) AnyHalt s := by
  refine wp_lockRaw hopen hlock hs fun fd t ht => ?_
  rw [wp_bind]
  exact wp_decisiveStatus hn hD ht fun v u hu => wp_unlockRaw hlock hu fun _ _ _ hw => hw

theorem is_lstat {D : SysName → Bool} (hD : D .lstat = false) (p : CStr) :
    Call.Is (fun c => !D c.name) (.os (Sys.lstat p)) := by
  show (!D .lstat) = true
  simp [hD]

theorem calls_onePath {D : SysName → Bool} (hD : D .lstat = false) (info : Identity)
    (slaveArg : Identity → Request) (parent p ip : CStr) (op : OpName) :
    (do transmitToSecondaty info slaveArg; isParentDirValid parent p ip op : Server Bool).Calls
      (Call.Is fun c => !D c.name) :=
  calls_bind (calls_transmit _ _) fun _ =>
    calls_isParentDirValid (is_lstat hD) _ _ _ _

theorem answers_mkdir (argp : MkdirArg) : (bbMkdir6Svc argp).wp (trying peer)
    (fun r t => Answers (.mkdir argp) peer s r.ret t) AnyHalt s := by
  unfold bbMkdir6Svc checkParentDirectoryValid
  rw [← bind_assoc]
  refine wp_preamble (.mkdir argp) StatusRet.ret (calls_onePath rfl _ _ _ _ _ _) rfl rfl
    fun t ht => ?_
  refine wp_lockRaw rfl rfl ht fun fd u hu => ?_
  rw [wp_bind]
  refine wp_decisiveStatus (fun _ => rfl) rfl hu fun v w hw => ?_
  rw [wp_bind]
  refine wp_unlockRaw rfl hw fun _ _ _ hx => ?_
  split
  · rw [wp_bind]
    exact wp_ownerRaw (fun _ => rfl) rfl rfl hx (fun y hy => hy) fun y hy => hy
  · exact hx

theorem answers_rmdir (argp : RmdirArg) : (bbRmdir6Svc argp).wp (trying peer)
    (fun r t => Answers (.rmdir argp) peer s r.ret t) AnyHalt s := by
  unfold bbRmdir6Svc checkParentDirectoryValid
  rw [← bind_assoc]
  exact wp_preamble (.rmdir argp) StatusRet.ret (calls_onePath rfl _ _ _ _ _ _) rfl rfl fun t ht =>
      right_locked rfl rfl (fun _ => rfl) rfl ht

theorem answers_unlink (argp : UnlinkArg) : (bbUnlink6Svc argp).wp (trying peer)
    (fun r t => Answers (.unlink argp) peer s r.ret t) AnyHalt s := by
  unfold bbUnlink6Svc checkParentDirectoryValid
  rw [← bind_assoc]
  exact wp_preamble (.unlink argp) StatusRet.ret (calls_onePath rfl _ _ _ _ _ _) rfl rfl fun t ht =>
      right_locked rfl rfl (fun _ => rfl) rfl ht

theorem answers_symlink (argp : SymlinkArg) : (bbSymlink6Svc argp).wp (trying peer)
    (fun r t => Answers (.symlink argp) peer s r.ret t) AnyHalt s := by
  unfold bbSymlink6Svc checkParentDirectoryValid
  rw [← bind_assoc]
  refine wp_preamble (.symlink argp) StatusRet.ret (calls_onePath rfl _ _ _ _ _ _) rfl rfl
    fun t ht => ?_
  rw [if_pos rfl, wp_bind]
  refine wp_decisiveStatus (fun _ => rfl) rfl ht fun v w hw => ?_
  split
  · rw [wp_bind]
    exact wp_ownerRaw (fun _ => rfl) rfl rfl hw (fun y hy => hy) fun y hy => hy
  · exact hw

/-- Two checks in a row are one check. -/
theorem checks_eq {x : Server Unit} {b c : Server Bool} {rest : Server StatusRet} :
    (do
      x
      if ← b then
        if ← c then rest else return ⟨-EACCES⟩
      else return ⟨-EACCES⟩ : Server StatusRet) =
    (do
      x
      if ← b then c else return false : Server Bool) >>= fun v =>
        if v then rest else return ⟨-EACCES⟩ := by
  rw [bind_assoc]
  refine bind_congr fun _ => ?_
  rw [bind_assoc]
  refine bind_congr fun v => ?_
  cases v <;> rfl

theorem calls_twoPaths {D : SysName → Bool} (hD : D .lstat = false) (info : Identity)
    (slaveArg : Identity → Request) (parent p parent' q ip : CStr) (op : OpName) :
    (do
      transmitToSecondaty info slaveArg
      if ← isParentDirValid parent p ip op then isParentDirValid parent' q ip op
      else return false : Server Bool).Calls (Call.Is fun c => !D c.name) := by
  refine calls_bind (calls_transmit _ _) fun _ => ?_
  refine calls_bind (calls_isParentDirValid (is_lstat hD) _ _ _ _)
    fun v => ?_
  split
  · exact calls_isParentDirValid (is_lstat hD) _ _ _ _
  · trivial

theorem answers_link (argp : LinkArg) : (bbLink6Svc argp).wp (trying peer)
    (fun r t => Answers (.link argp) peer s r.ret t) AnyHalt s := by
  unfold bbLink6Svc checkParentDirectoryValid
  rw [checks_eq]
  refine wp_preamble (.link argp) StatusRet.ret (calls_twoPaths rfl _ _ _ _ _ _ _ _) rfl rfl
    fun t ht => ?_
  rw [if_pos rfl, wp_bind]
  refine wp_decisiveStatus (fun _ => rfl) rfl ht fun v w hw => ?_
  split
  · rw [wp_bind]
    exact wp_ownerRaw (fun _ => rfl) rfl rfl hw (fun y hy => hy) fun y hy => hy
  · exact hw

/-- The call of a rename, and the locks that are given up after it. -/
theorem right_moved {D : SysName → Bool} {p q : CStr} {fd newFd : Int} (two : Bool)
    (hlock : D .flock = false) (hD : D .rename = true) (hs : Since (Idle D) s₀ s) :
    (do
      let ret ← sys (.rename p q)
      let result ← unlockDirectory fd ⟨ret⟩
      if two then unlockDirectory newFd result else return result : Server RenameRet).wp
      (trying peer) (fun r t => Since (Raw D r.ret) s₀ t) AnyHalt s := by
  rw [wp_bind]
  refine wp_decisiveStatus (fun _ => rfl) hD hs fun v t ht => ?_
  rw [wp_bind]
  refine wp_unlockRaw hlock ht fun r u _ hu => ?_
  cases two with
  | false => exact hu
  | true => exact wp_unlockRaw hlock hu fun _ _ _ hw => hw

theorem answers_rename (argp : RenameArg) : (bbRename6Svc argp).wp (trying peer)
    (fun r t => Answers (.rename argp) peer s r.ret t) AnyHalt s := by
  unfold bbRename6Svc checkParentDirectoryValid
  rw [checks_eq]
  refine wp_preamble (.rename argp) StatusRet.ret (calls_twoPaths rfl _ _ _ _ _ _ _ _) rfl rfl
    fun t ht => ?_
  refine wp_lockRaw rfl rfl ht fun fd u hu => ?_
  by_cases hp : getParentPath (translateAbspath argp.path) ≠
      getParentPath (translateAbspath argp.newpath)
  · simp only [if_pos hp]
    exact wp_lockRaw rfl rfl hu fun newFd w hw => right_moved true rfl rfl hw
  · simp only [if_neg hp]
    exact @right_moved _ _ _ _ _ _ _ (-1) false rfl rfl hu

theorem answers_mknod (argp : MknodArg) : (bbMknod6Svc argp).wp (trying peer)
    (fun r t => Answers (.mknod argp) peer s r.ret t) AnyHalt s := by
  unfold bbMknod6Svc checkParentDirectoryValid
  rw [← bind_assoc]
  refine wp_preamble (.mknod argp) StatusRet.ret (calls_onePath rfl _ _ _ _ _ _) rfl rfl
    fun t ht => ?_
  refine wp_lockRaw rfl rfl ht fun fd s' hs' => ?_
  -- After a failure the lock is given up and the status is `-1` in any case.
  have hfailed : ∀ {t : Observed}, Since (Raw (Request.mknod argp).decisive (-1)) s t → (do
      let _ ← unlockDirectory fd ⟨-1⟩
      return ⟨-1⟩ : Server MknodRet).wp (trying peer)
        (fun r t => Since (Raw (Request.mknod argp).decisive r.ret) s t) AnyHalt t := by
    intro t ht
    rw [wp_bind]
    refine wp_unlockRaw rfl ht fun r u hr hu => ?_
    rcases hr with rfl | rfl <;> exact hu
  have howned : ∀ {t : Observed}, Since (Raw (Request.mknod argp).decisive 0) s t → (do
      let ret : Int := if (← setOwner (translateAbspath argp.path) argp.ip) < 0 then -1 else 0
      unlockDirectory fd ⟨ret⟩ : Server MknodRet).wp (trying peer)
        (fun r t => Since (Raw (Request.mknod argp).decisive r.ret) s t) AnyHalt t := by
    intro t ht
    rw [wp_bind]
    refine wp_ownerRaw (fun _ => rfl) rfl rfl ht (fun u hu => ?_) fun u hu => ?_
    · exact wp_unlockRaw rfl hu fun _ _ _ hw => hw
    · exact wp_unlockRaw rfl hu fun _ _ _ hw => hw
  have hmade : ∀ {c : Sys Int} {k : Int → Server MknodRet}, (∀ b, c.number b = some b) →
      (Request.mknod argp).decisive c.name = true →
      (∀ v t, Since (Raw (Request.mknod argp).decisive 0) s t → (k v).wp (trying peer)
        (fun r t => Since (Raw (Request.mknod argp).decisive r.ret) s t) AnyHalt t) → (do
        let funcRet ← sys c
        if funcRet < 0 then
          let _ ← unlockDirectory fd ⟨-1⟩
          return ⟨-1⟩
        else k funcRet : Server MknodRet).wp (trying peer)
          (fun r t => Since (Raw (Request.mknod argp).decisive r.ret) s t) AnyHalt s' := by
    intro c k hn hD hk
    rw [wp_bind]
    refine wp_decisiveStatus hn hD hs' fun v t ht => ?_
    split
    · next hv => exact hfailed (ht.imp fun l hl => hl.negative hv)
    · next hv => exact hk v t (ht.imp fun l hl => hl.zero (Int.not_lt.mp hv))
  dsimp only
  split
  · refine hmade (fun _ => rfl) rfl fun v t ht => ?_
    have hclose : (sys (.close v)).wp (trying peer)
        (fun _ u => Since (Idle (Request.mknod argp).decisive) t u) AnyHalt t :=
      wp_idle (calls_sys rfl)
    rw [wp_bind]
    refine hclose.imp fun _ u hu => ?_
    exact howned (ht.append hu fun _ _ => Right.append)
  · split
    · exact hmade (fun _ => rfl) rfl fun _ t ht => howned ht
    · exact hmade (fun _ => rfl) rfl fun _ t ht => howned ht

/-- The rest of a handler that checks the owner. -/
theorem right_status {D : SysName → Bool} {c : Sys Int} (hn : ∀ b, c.number b = some b)
    (hD : D c.name = true) (hs : Since (Idle D) s₀ s) :
    (do return ⟨← sys c⟩ : Server StatusRet).wp (trying peer)
      (fun r t => Since (Raw D r.ret) s₀ t) AnyHalt s := by
  rw [wp_bind]
  exact wp_decisiveStatus hn hD hs fun _ _ ht => ht

theorem answers_utime (argp : UtimeArg) : (bbUtime6Svc argp).wp (trying peer)
    (fun r t => Answers (.utime argp) peer s r.ret t) AnyHalt s := by
  unfold bbUtime6Svc
  rw [← bind_assoc]
  exact wp_preamble (.utime argp) StatusRet.ret (calls_bind (calls_transmit _ _) fun _ =>
    calls_isOwner (fun _ => rfl) _ _) rfl rfl fun t ht => right_status (fun _ => rfl) rfl ht

theorem answers_chmod (argp : ChmodArg) : (bbChmod6Svc argp).wp (trying peer)
    (fun r t => Answers (.chmod argp) peer s r.ret t) AnyHalt s := by
  unfold bbChmod6Svc
  rw [← bind_assoc]
  exact wp_preamble (.chmod argp) StatusRet.ret (calls_bind (calls_transmit _ _) fun _ =>
    calls_isOwner (fun _ => rfl) _ _) rfl rfl fun t ht => right_status (fun _ => rfl) rfl ht

theorem answers_access (argp : AccessArg) : (bbAccess6Svc argp).wp (trying peer)
    (fun r t => Answers (.access argp) peer s r.ret t) AnyHalt s :=
  answers_of_right rfl (right_status (fun _ => rfl) rfl (since_refl s))

theorem right_done {ρ : Type} {D : SysName → Bool} {report : List Trial → Errno → Int}
    {ret : ρ → Int} {v : ρ} (hv : 0 ≤ ret v) (hs : Since (Unhurt D) s₀ s) :
    (pure v : Server ρ).wp (trying peer) (fun r t => Since (Right D report (ret r)) s₀ t) AnyHalt
      s := hs.imp fun _ hl => .inl ⟨hl, .inl hv⟩

/-- A call of which the handler sends back what it found, or `-errno`. -/
theorem right_found {ρ γ : Type} {D : SysName → Bool} {c : Sys (Option γ)} (ret : ρ → Int)
    {k : Option γ → Server ρ} {result : Int → ρ} {found : γ → ρ}
    (hfailed : ∀ b, c.failed b = b.isNone) (hk : ∀ a, k (some a) = pure (found a))
    (hnone : k none = (do return result (← negErrno))) (hfound : ∀ a, ret (found a) = 0)
    (hresult : ∀ v, ret (result v) = v) (hD : D c.name = true) (herrno : D .errno = false)
    (hs : Since (Idle D) s₀ s) :
    (sys c >>= k).wp (trying peer) (fun r t => Since (Coded D (ret r)) s₀ t) AnyHalt s := by
  refine wp_decisiveErrno ret hD herrno hs (fun b t hb _ ht => ?_) fun b hb => ?_
  · rw [hfailed] at hb
    cases b with
    | none => cases hb
    | some a =>
        rw [hk]
        exact right_done (Int.le_of_eq (hfound a).symm) ht
  · rw [hfailed] at hb
    cases b with
    | none => exact ⟨result, hresult, hnone⟩
    | some a => cases hb

/-- A call after which the handler answers `0` or `-errno`. -/
theorem right_code {D : SysName → Bool} {c : Sys Int} {p : Int → Prop} [DecidablePred p]
    (hn : ∀ b, c.number b = some b) (h0 : ∀ v, 0 ≤ v → ¬ p v) (h1 : p (-1))
    (hD : D c.name = true) (herrno : D .errno = false) (hs : Since (Idle D) s₀ s) :
    (do
      let v ← sys c
      if p v then return ⟨← negErrno⟩ else return ⟨0⟩ : Server StatusRet).wp (trying peer)
      (fun r t => Since (Coded D r.ret) s₀ t) AnyHalt s := by
  refine wp_decisiveErrno StatusRet.ret hD herrno hs (fun b t _ hv ht => ?_) fun b hb => ?_
  · rw [if_neg (h0 b (hv b (hn b)))]
    exact right_done (Int.le_refl 0) ht
  · rw [Sys.failed_number (hn b), decide_eq_true_eq] at hb
    rw [hb, if_pos h1]
    exact ⟨fun v => ⟨v⟩, fun _ => rfl, rfl⟩

theorem answers_getattr (argp : GetattrArg) (result : GetattrRet) :
    (bbGetattr6Svc argp result).wp (trying peer)
      (fun r t => Answers (.getattr argp) peer s r.ret t) AnyHalt s :=
  answers_of_right rfl (right_found GetattrRet.ret (fun _ => rfl) (fun _ => rfl) rfl
    (fun _ => rfl) (fun _ => rfl) rfl rfl (since_refl s))

theorem answers_statfs (argp : StatfsArg) (result : StatfsRet) :
    (bbStatfs6Svc argp result).wp (trying peer)
      (fun r t => Answers (.statfs argp) peer s r.ret t) AnyHalt s :=
  answers_of_right rfl (right_found StatfsRet.ret (fun _ => rfl) (fun _ => rfl) rfl
    (fun _ => rfl) (fun _ => rfl) rfl rfl (since_refl s))

/-- A check of the mode bits as a verdict. -/
theorem valid_eq {ρ : Type} {p ip : CStr} {flags : UInt32} {denied : ρ} {rest : Server ρ} :
    (do if (← isOpValid p ip flags) ≠ 1 then return denied else rest : Server ρ) =
    (do return (← isOpValid p ip flags) = 1 : Server Bool) >>= fun v =>
      if v then rest else return denied := by
  rw [bind_assoc]
  refine bind_congr fun v => ?_
  by_cases hv : v = 1 <;> simp [hv]

theorem calls_valid {D : SysName → Bool} (hD : D .lstat = false) (p ip : CStr) (flags : UInt32) :
    (do return (← isOpValid p ip flags) = 1 : Server Bool).Calls (Call.Is fun c => !D c.name) :=
  calls_bind (calls_isOpValid (is_lstat hD) _ _ _) fun _ => trivial

theorem answers_opendir (argp : OpendirArg) (result : OpendirRet) :
    (bbOpendir6Svc argp result).wp (trying peer)
      (fun r t => Answers (.opendir argp) peer s r.ret t) AnyHalt s := by
  unfold bbOpendir6Svc
  dsimp only
  rw [valid_eq]
  exact wp_preamble (.opendir argp) OpendirRet.ret (calls_valid rfl _ _ _) rfl rfl fun t ht =>
    right_found OpendirRet.ret (fun _ => rfl) (fun _ => rfl) rfl (fun _ => rfl) (fun _ => rfl)
      rfl rfl ht

theorem answers_open (argp : OpenArg) (mode : UInt32) (result : OpenRet) :
    (bbOpen6Svc argp mode result).wp (trying peer)
      (fun r t => Answers (.openFile argp) peer s r.ret t) AnyHalt s := by
  unfold bbOpen6Svc
  dsimp only
  rw [valid_eq]
  refine wp_preamble (.openFile argp) OpenRet.ret (calls_valid rfl _ _ _) rfl rfl fun t ht => ?_
  refine wp_decisiveErrno OpenRet.ret rfl rfl ht (fun b u _ hv hu => ?_) fun b hb => ?_
  · have hpos : 0 ≤ b := hv b rfl
    rw [if_neg (by omega)]
    exact right_done (Int.le_refl 0) hu
  · have hb' : b = -1 := by simpa [Sys.failed] using hb
    rw [if_pos hb']
    exact ⟨fun v => ⟨b, v⟩, fun _ => rfl, rfl⟩

theorem answers_release (argp : ReleaseArg) : (bbRelease6Svc argp).wp (trying peer)
    (fun r t => Answers (.release argp) peer s r.ret t) AnyHalt s :=
  answers_of_right rfl (right_code (fun _ => rfl) (fun _ hv => by omega) rfl rfl rfl
    (since_refl s))

/-- A handler that forwards, makes its call and answers `0` or `-errno`. -/
theorem right_forwarded {ρ : Type} {D : SysName → Bool} {report : List Trial → Errno → Int}
    {ret : ρ → Int} {info : Identity} {slaveArg : Identity → Request} {k : Server ρ}
    (hs : Since (Idle D) s₀ s) (hk : ∀ t, Since (Idle D) s₀ t →
      k.wp (trying peer) (fun r t => Since (Right D report (ret r)) s₀ t) AnyHalt t) :
    (transmitToSecondaty info slaveArg >>= fun _ => k).wp (trying peer)
      (fun r t => Since (Right D report (ret r)) s₀ t) AnyHalt s := by
  rw [wp_bind]
  exact wp_idleNext (calls_transmit info slaveArg) hs fun _ t ht => hk t ht

theorem answers_truncate (argp : TruncateArg) : (bbTruncate6Svc argp).wp (trying peer)
    (fun r t => Answers (.truncate argp) peer s r.ret t) AnyHalt s :=
  answers_of_right rfl (right_forwarded (since_refl s) fun _ ht =>
    right_code (fun _ => rfl) (fun _ hv => by omega) (by decide) rfl rfl ht)

theorem answers_chown (argp : ChownArg) : (bbChown6Svc argp).wp (trying peer)
    (fun r t => Answers (.chown argp) peer s r.ret t) AnyHalt s :=
  answers_of_right rfl (right_forwarded (since_refl s) fun _ ht =>
    right_code (fun _ => rfl) (fun _ hv => by omega) (by decide) rfl rfl ht)

/-! ### Requests without a decisive call -/

theorem answers_readlink (argp : ReadlinkArg) (result : ReadlinkRet) :
    (bbReadlink6Svc argp result).wp (trying peer)
      (fun r t => Answers (.readlink argp) peer s r.ret t) AnyHalt s := by
  refine answers_of_right rfl (wp_otherErrno ReadlinkRet.ret rfl rfl (since_refl s)
    (fun b t hb ht => ?_) fun b hb => ?_)
  · cases b with
    | none => cases hb
    | some target => exact right_done (Int.le_refl 0) (ht.imp fun _ => Idle.unhurt)
  · cases b with
    | none => exact ⟨pure (), fun v => { result with ret := v }, trivial, rfl⟩
    | some target => cases hb

theorem answers_readdir (argp : ReaddirArg) (result : ReaddirRet) :
    (bbReaddir6Svc argp result).wp (trying peer)
      (fun r t => Answers (.readdir argp) peer s r.ret t) AnyHalt s := by
  refine answers_of_right rfl ?_
  unfold bbReaddir6Svc
  dsimp only
  rw [wp_bind]
  refine wp_idleNext (D := (Request.readdir argp).decisive) (calls_sys rfl) (since_refl s)
    fun _ t ht => ?_
  refine wp_otherErrno ReaddirRet.ret rfl rfl ht (fun b u hb hu => ?_) fun b hb => ?_
  · cases b with
    | none => cases hb
    | some dp =>
        dsimp only
        rw [wp_bind]
        refine wp_idleNext (calls_sys rfl) hu fun names v hv => ?_
        rw [wp_bind]
        refine wp_idleNext (calls_sys rfl) hv fun _ w hw => ?_
        exact right_done (Int.le_refl 0) (hw.imp fun _ => Idle.unhurt)
  · cases b with
    | none =>
        refine ⟨sys (.flock argp.fd .un) >>= fun _ => pure (), _,
          calls_bind (calls_sys rfl) fun _ => trivial, rfl⟩
    | some dp => cases hb

theorem answers_releasedir (argp : ReleasedirArg) : (bbReleasedir6Svc argp).wp (trying peer)
    (fun r t => Answers (.releasedir argp) peer s r.ret t) AnyHalt s := by
  refine answers_of_right rfl (wp_otherErrno StatusRet.ret rfl rfl (since_refl s)
    (fun b t hb ht => ?_) fun b hb => ?_)
  · cases b with
    | none => cases hb
    | some dir =>
        refine wp_otherErrno StatusRet.ret rfl rfl ht (fun v u hv hu => ?_) fun v hv => ?_
        · have hv' : ¬ v = -1 := by simpa [Sys.failed] using hv
          rw [if_neg hv']
          exact right_done (Int.le_refl 0) (hu.imp fun _ => Idle.unhurt)
        · have hv' : v = -1 := by simpa [Sys.failed] using hv
          rw [if_pos hv']
          exact ⟨pure (), fun v => ⟨v⟩, trivial, rfl⟩
  · cases b with
    | none => exact ⟨pure (), fun v => ⟨v⟩, trivial, rfl⟩
    | some dir => cases hb

/-- Leaving the process. -/
theorem wp_exitAny {status : Int} {Q : Empty → Observed → Prop} :
    (sys (.exit status)).wp (trying peer) Q AnyHalt s :=
  wp_try_any fun r _ => r.1.elim

theorem answers_initRootdir (argp : InitArg) : (initRootdir6Svc argp).wp (trying peer)
    (fun r t => Answers (.initRootdir argp) peer s r.ret t) AnyHalt s := by
  refine answers_of_right rfl (right_forwarded (since_refl s) fun t ht => ?_)
  -- What follows once the root directory is there.
  have hchmod : ∀ {t : Observed}, Since (Idle (Request.initRootdir argp).decisive) s t → (do
      if (← sys (.chmod dfsRoot 0o777)) ≠ 0 then
        let _ ← sys (.exit 1)
      return ⟨0⟩ : Server InitRet).wp (trying peer) (fun r t => Since (Right
        (Request.initRootdir argp).decisive (Request.initRootdir argp).report r.ret) s t)
        AnyHalt t := by
    intro t ht
    rw [wp_bind]
    refine wp_idleNext (calls_sys rfl) ht fun v u hu => ?_
    split
    · rw [wp_bind]
      exact wp_exitAny
    · exact right_done (Int.le_refl 0) (hu.imp fun _ => Idle.unhurt)
  rw [wp_bind]
  refine wp_idleNext (calls_sys rfl) ht fun v u hu => ?_
  split
  · rw [wp_bind]
    refine wp_idleNext (calls_sys rfl) hu fun v w hw => ?_
    split
    · rw [wp_bind]
      exact wp_exitAny
    · exact hchmod hw
  · exact hchmod hu

/-! ### Reading and writing -/

theorem answers_read (argp : ReadArg) (result : ReadRet) :
    (bbRead6Svc argp result).wp (trying peer)
      (fun r t => Answers (.read argp) peer s r.ret t) AnyHalt s := by
  refine answers_of_right rfl ?_
  unfold bbRead6Svc
  dsimp only
  rw [wp_bind]
  refine wp_idleNext (D := (Request.read argp).decisive) (calls_sys rfl) (since_refl s)
    fun _ t ht => ?_
  refine wp_transfer ReadRet.ret rfl rfl rfl ht (fun b u hb hu => ?_) fun b hb => ?_
  · cases b with
    | none => cases hb
    | some data => exact right_done (Int.le_refl 0) hu
  · cases b with
    | none => exact ⟨fun v => { result with ret := v }, fun _ => rfl, rfl⟩
    | some data => cases hb

theorem answers_write (argp : WriteArg) (result : WriteRet) :
    (bbWrite6Svc argp result).wp (trying peer)
      (fun r t => Answers (.write argp) peer s r.ret t) AnyHalt s := by
  refine answers_of_right rfl (right_forwarded (since_refl s) fun t ht => ?_)
  -- What follows once it is settled which descriptor is used.
  have hrest : ∀ (fd : Int) {t : Observed}, Since (Idle (Request.write argp).decisive) s t → (do
      let _ ← sys (.flock fd .ex)
      let writeRet ← sys (.pwrite fd argp.buffer.bytes argp.size.toNat argp.offset.toNat)
      let _ ← sys (.flock fd .un)
      if writeRet = -1 then return { result with ret := ← negErrno }
      else
        if argp.serverInfo.isMaster = 0 ∧ argp.serverInfo.isDegraded = 0 then
          let _ ← sys (.close fd)
        return { len := writeRet, ret := 0 } : Server WriteRet).wp (trying peer)
      (fun r t => Since (Transferred (Request.write argp).decisive r.ret) s t) AnyHalt t := by
    intro fd t ht
    rw [wp_bind]
    refine wp_idleNext (D := (Request.write argp).decisive) (calls_sys rfl) ht fun _ u hu => ?_
    refine wp_transfer WriteRet.ret rfl rfl rfl hu (fun b w hb hw => ?_) fun b hb => ?_
    · have hb' : ¬ b = -1 := by simpa [Sys.failed] using hb
      have hclose : (sys (.close fd)).wp (trying peer)
          (fun _ x => Since (Idle (Request.write argp).decisive) w x) AnyHalt w :=
        wp_idle (calls_sys rfl)
      rw [if_neg hb']
      split
      · rw [wp_bind]
        refine hclose.imp fun _ x hx => ?_
        exact right_done (Int.le_refl 0) (hw.append hx fun _ _ hl hl' => hl.append hl'.unhurt)
      · exact right_done (Int.le_refl 0) hw
    · have hb' : b = -1 := by simpa [Sys.failed] using hb
      rw [if_pos hb']
      exact ⟨fun v => { result with ret := v }, fun _ => rfl, rfl⟩
  dsimp only
  by_cases hc : argp.serverInfo.isMaster = 0 ∧ argp.serverInfo.isDegraded = 0
  · rw [if_pos hc, wp_bind]
    exact wp_idleNext (calls_sys rfl) ht fun fd u hu => hrest fd hu
  · rw [if_neg hc]
    exact hrest argp.fd ht

/-- **The status in a reply**, over every outcome of the calls of its handler. -/
theorem serve_reported (stale : Stale) (r : Request) {reply : Reply} {t : Observed}
    (hrun : (compute6 stale r).run (trying peer) s = .ok (reply, t)) :
    Answers r peer s reply.ret t := by
  have hmap : ∀ {ρ : Type} {p : Server ρ} {wrap : ρ → Reply} {ret : ρ → Int},
      p.wp (trying peer) (fun v t => Answers r peer s (ret v) t) AnyHalt s →
      (∀ v, (wrap v).ret = ret v) → (wrap <$> p).run (trying peer) s = .ok (reply, t) →
        Answers r peer s reply.ret t := by
    intro ρ p wrap ret hp hwrap hrun
    obtain ⟨v, hv, rfl⟩ := (run_map_eq_ok _).mp hrun
    rw [hwrap]
    exact hp.of_run hv
  cases r with
  | initRootdir argp => exact hmap (answers_initRootdir argp) (fun _ => rfl) hrun
  | getattr argp => exact hmap (answers_getattr argp _) (fun _ => rfl) hrun
  | access argp => exact hmap (answers_access argp) (fun _ => rfl) hrun
  | mkdir argp => exact hmap (answers_mkdir argp) (fun _ => rfl) hrun
  | rmdir argp => exact hmap (answers_rmdir argp) (fun _ => rfl) hrun
  | opendir argp => exact hmap (answers_opendir argp _) (fun _ => rfl) hrun
  | readdir argp => exact hmap (answers_readdir argp _) (fun _ => rfl) hrun
  | releasedir argp => exact hmap (answers_releasedir argp) (fun _ => rfl) hrun
  | rename argp => exact hmap (answers_rename argp) (fun _ => rfl) hrun
  | symlink argp => exact hmap (answers_symlink argp) (fun _ => rfl) hrun
  | link argp => exact hmap (answers_link argp) (fun _ => rfl) hrun
  | readlink argp => exact hmap (answers_readlink argp _) (fun _ => rfl) hrun
  | mknod argp => exact hmap (answers_mknod argp) (fun _ => rfl) hrun
  | truncate argp => exact hmap (answers_truncate argp) (fun _ => rfl) hrun
  | unlink argp => exact hmap (answers_unlink argp) (fun _ => rfl) hrun
  | utime argp => exact hmap (answers_utime argp) (fun _ => rfl) hrun
  | chmod argp => exact hmap (answers_chmod argp) (fun _ => rfl) hrun
  | chown argp => exact hmap (answers_chown argp) (fun _ => rfl) hrun
  | openFile argp => exact hmap (answers_open argp _ _) (fun _ => rfl) hrun
  | release argp => exact hmap (answers_release argp) (fun _ => rfl) hrun
  | read argp => exact hmap (answers_read argp _) (fun _ => rfl) hrun
  | write argp => exact hmap (answers_write argp _) (fun _ => rfl) hrun
  | statfs argp => exact hmap (answers_statfs argp _) (fun _ => rfl) hrun

/-! ### Handles -/

/-- The requests that are answered with a handle or a listing, and whose clients ask for a status
of exactly zero. -/
def Request.exact : Request → Bool
  | .opendir _ | .readdir _ => true
  | _ => false

theorem gives_errno {ρ : Type} {P : ρ → Prop} {f : Int → ρ} (hf : ∀ v ≤ 0, P (f v)) :
    (do return f (← negErrno) : Server ρ).Gives P := by
  refine gives_bind (R := fun v : Int => v ≤ 0) (fun e => ?_) fun v hv => hf v hv
  exact Int.neg_nonpos_of_nonneg (Int.natCast_nonneg e)

/-- Such a status is not positive. -/
theorem serve_exact (stale : Stale) {r : Request} (hr : r.exact = true) {reply : Reply}
    {t : Observed} (hrun : (compute6 stale r).run (trying peer) s = .ok (reply, t)) :
    reply.ret ≤ 0 := by
  cases r <;> simp only [Request.exact, Bool.false_eq_true] at hr
  case opendir argp =>
    obtain ⟨ret, hret, rfl⟩ := (run_map_eq_ok _).mp hrun
    have hgives : (bbOpendir6Svc argp stale.opendir).Gives fun ret => ret.ret ≤ 0 := by
      refine gives_bind (gives_true _) fun v _ => ?_
      split
      · exact (by decide : -(EACCES : Int) ≤ 0)
      · refine gives_bind (gives_true _) fun b _ => ?_
        cases b with
        | none => exact gives_errno fun v hv => hv
        | some dp => exact Int.le_refl 0
    exact hgives.of_run hret
  case readdir argp =>
    obtain ⟨ret, hret, rfl⟩ := (run_map_eq_ok _).mp hrun
    have hgives : (bbReaddir6Svc argp stale.readdir).Gives fun ret => ret.ret ≤ 0 := by
      refine gives_bind (gives_true _) fun v _ => gives_bind (gives_true _) fun b _ => ?_
      cases b with
      | none => exact gives_bind (gives_true _) fun _ _ => gives_errno fun v hv => hv
      | some dp =>
          refine gives_bind (gives_true _) fun _ _ => gives_bind (gives_true _) fun _ _ => ?_
          exact Int.le_refl 0
    exact hgives.of_run hret

end

end DFS
