import NetworkFileSystem.Concurrency.Locks
import NetworkFileSystem.Effects.Threads
import NetworkFileSystem.Service.Frames

/-!
# Handlers that wait for each other's directories (`dlock`, `dunlock`)

Any number of handlers run at the same time, each in a process of its own, and meet in nothing but
the locks of the directories.  A handler is the program of `compute6`; its calls are answered in any
way, only `opendir` leads to the directory that the path of the parent stands for, and `flock` is
granted when nobody holds a lock on it.

**`deadlock_free_iff`** says for which handlers no order of the steps leads to a cycle of handlers
that wait for each other.
-/

namespace Posix

/-- A call that opens no directory, closes nothing and is not about a lock. -/
def Sys.plain {β : Type} : Sys β → Bool
  | .opendir _ | .flock _ _ | .close _ => false
  | _ => true

/-- A call that does not ask for an exclusive lock. -/
def Sys.asksNoLock {β : Type} : Sys β → Bool
  | .flock _ .ex => false
  | _ => true

end Posix

namespace DFS

open Effects Posix Prog Relation Concurrency

/-- A descriptor that stands for a directory. -/
structure Slot (D : Type) where
  fd : Int
  dir : D
  locked : Bool

section

variable {D : Type}

/-- The lock of a descriptor, taken or given back. -/
def setLock (fd : Int) (locked : Bool) (t : List (Slot D)) : List (Slot D) :=
  t.map fun s => if s.fd = fd then { s with locked := locked } else s

/-- What the calls do to the descriptors for directories, apart from taking a lock.  What they
answer is open. -/
def calm (dir : CStr → D) : Environment Call (List (Slot D))
  | _, .os (.opendir p), t, b, t' => (b = none ∧ t' = t) ∨
      ∃ fd : Int, 0 ≤ fd ∧ (∀ s ∈ t, s.fd ≠ fd) ∧ b = some ⟨fd⟩ ∧ t' = ⟨fd, dir p, false⟩ :: t
  | _, .os (.flock fd .ex), t, b, t' => t' = t ∧ (b ≠ 0 ∨ ∀ s ∈ t, s.fd = fd → s.locked = true)
  | _, .os (.flock fd .un), t, b, t' => (b ≠ 0 ∧ t' = t) ∨ (b = 0 ∧ t' = setLock fd false t)
  | _, .os (.close fd), t, _, t' => t' = t ∨ t' = t.filter (·.fd ≠ fd)
  | _, _, t, _, t' => t' = t

/-- `flock` takes the lock of the directory `d`. -/
def granted : {β : Type} → Call β → List (Slot D) → D → β → List (Slot D) → Prop
  | _, .os (.flock fd .ex), t, d, b, t' => ⟨fd, d, false⟩ ∈ t ∧ b = 0 ∧ t' = setLock fd true t
  | _, _, _, _, _, _ => False

/-- A handler on its way, with what each path of a parent directory leads to. -/
structure Handler (D : Type) where
  dir : CStr → D
  prog : Server Reply
  slots : List (Slot D)

/-- Handlers and the locks of directories. -/
def directoryLocks : Locking (Handler D) D where
  step h h' := h'.dir = h.dir ∧ Takes (calm h.dir) (h.prog, h.slots) (h'.prog, h'.slots)
  take h d h' := h'.dir = h.dir ∧
    Takes (fun e t b t' => granted e t d b t') (h.prog, h.slots) (h'.prog, h'.slots)
  holds h d := ∃ s ∈ h.slots, s.dir = d ∧ s.locked = true

/-- A handler at its start. -/
def Handler.start (stale : Stale) (dir : CStr → D) (r : Request) : Handler D :=
  ⟨dir, compute6 stale r, []⟩

end

/-- The requests whose handlers lock directories. -/
def Request.locksDirectories : Request → Bool
  | .mkdir _ | .rmdir _ | .mknod _ | .unlink _ | .rename _ => true
  | _ => false

/-- A handler locks the directory `d` and then, under another name, the directory `e`. -/
def LocksThen {D : Type} (dir : CStr → D) (r : Request) (d e : D) : Prop :=
  match r with
  | .rename arg =>
    let parentPath := getParentPath (translateAbspath arg.path)
    let newParentPath := getParentPath (translateAbspath arg.newpath)
    parentPath ≠ newParentPath ∧ dir parentPath = d ∧ dir newParentPath = e
  | _ => False

/-! ## Locks in order -/

section

variable {D : Type} {dir : CStr → D} {R : D → D → Prop} {t : List (Slot D)} {α β : Type}

/-- What a handler can meet. -/
def anyAnswer (dir : CStr → D) : Environment Call (List (Slot D)) := fun e t b t' =>
  calm dir e t b t' ∨ ∃ d, granted e t d b t'

/-- A lock is asked for in order. -/
def InOrder (R : D → D → Prop) : {β : Type} → Call β → List (Slot D) → Prop
  | _, .os (.flock fd .ex), t => ∀ s ∈ t, s.fd = fd → s.locked = false →
      ∀ s' ∈ t, s'.locked = true → R s'.dir s.dir
  | _, _, _ => True

/-- The lock is put on the newest descriptor. -/
theorem setLock_cons {fd : Int} (hfresh : ∀ s ∈ t, s.fd ≠ fd) (d : D) :
    setLock fd true (⟨fd, d, false⟩ :: t) = ⟨fd, d, true⟩ :: t := by
  have hmap : t.map (fun s : Slot D => if s.fd = fd then { s with locked := true } else s) = t :=
    (List.map_congr_left fun s hs => if_neg (hfresh s hs)).trans (List.map_id t)
  simp only [setLock, List.map_cons, if_pos, hmap]

/-- **A directory is locked in order** when all that is locked already comes before it. -/
theorem sure_lockDirectory {p : CStr} {rest : Int → Server StatusRet}
    (hR : ∀ s ∈ t, s.locked = true → R s.dir (dir p))
    (hrest : ∀ fd, (rest fd).Sure (anyAnswer dir) (InOrder R) (fun _ _ => True)
      (⟨fd, dir p, true⟩ :: t)) :
    (lockDirectory p rest).Sure (anyAnswer dir) (InOrder R) (fun _ _ => True) t := by
  refine ⟨trivial, fun o t₁ ho => ?_⟩
  rcases ho with (⟨rfl, rfl⟩ | ⟨fd, hfd, hfresh, rfl, rfl⟩) | ⟨d, hd⟩
  · exact trivial
  · show ((if fd = -1 then pure (-1) else do
      if (← sys (.flock fd .ex)) ≠ 0 then return -1
      return fd : Server Int) >>= _).Sure _ _ _ _
    rw [if_neg (by omega)]
    refine ⟨?_, fun b t₂ hb => ?_⟩
    · -- The new descriptor is the one that is locked, and the others are as they were.
      intro s hs hsfd _ s' hs' hlocked
      have hsnew : s = ⟨fd, dir p, false⟩ :=
        (List.mem_cons.mp hs).resolve_right fun hs => hfresh s hs hsfd
      have hs't : s' ∈ t := (List.mem_cons.mp hs').resolve_left fun h => by simp [h] at hlocked
      rw [hsnew]
      exact hR s' hs't hlocked
    · rcases hb with ⟨rfl, hb⟩ | ⟨d, -, rfl, rfl⟩
      · have hb0 : b ≠ 0 := hb.resolve_right fun h => by
          simpa using h _ (List.mem_cons_self ..) rfl
        show ((if b ≠ 0 then pure (-1) else pure fd : Server Int) >>= _).Sure _ _ _ _
        rw [if_pos hb0]
        exact trivial
      · show (if fd < 0 then pure ⟨-1⟩ else rest fd : Server StatusRet).Sure _ _ _ _
        rw [if_neg (by omega), setLock_cons hfresh]
        exact hrest fd
  · exact hd.elim

/-- Where no lock is asked for, all is in order. -/
theorem sure_of_asksNoLock {p : Server α} (hp : p.Calls (Call.Is Sys.asksNoLock)) :
    p.Sure (anyAnswer dir) (InOrder R) (fun _ _ => True) t :=
  hp.sure fun e s he => by
    cases e with
    | rpc c => exact trivial
    | os c => cases c <;> first
      | exact trivial
      | next fd op => cases op <;> first
        | exact trivial
        | cases he

/-- Where no descriptor for a directory is used, none is changed. -/
theorem sure_of_plain {p : Server α} (hp : p.Calls (Call.Is Sys.plain)) :
    p.Sure (anyAnswer dir) (InOrder R) (fun _ t' => t' = t) t := by
  refine hp.sure_same (fun e s he => ?_) fun e s b t' he ht => ?_
  · cases e with
    | rpc c => exact trivial
    | os c => cases c <;> first
      | exact trivial
      | cases he
  · cases e with
    | rpc c => exact ht.resolve_right fun ⟨_, h⟩ => h.elim
    | os c => cases c <;> first
      | exact ht.resolve_right fun ⟨_, h⟩ => h.elim
      | cases he

/-- The check of the parents locks nothing. -/
theorem sure_checkParent {rest : Server StatusRet} {p q ip : CStr} {op : OpName}
    (hrest : rest.Sure (anyAnswer dir) (InOrder R) (fun _ _ => True) t) :
    (checkParentDirectoryValid p q ip op rest).Sure (anyAnswer dir) (InOrder R)
      (fun _ _ => True) t := by
  unfold checkParentDirectoryValid
  rw [sure_bind]
  refine (sure_of_plain (calls_isParentDirValid (fun _ => rfl) _ _ _ _)).imp ?_
  rintro valid _ rfl
  cases valid with
  | true => exact hrest
  | false => exact trivial

/-- A handler that takes one lock. -/
theorem sure_oneLock {info : Identity} {slaveArg : Identity → Request} {p q ip : CStr}
    {op : OpName} {rest : Int → Server StatusRet}
    (hrest : ∀ fd, (rest fd).Calls (Call.Is Sys.asksNoLock)) :
    (do
      transmitToSecondaty info slaveArg
      checkParentDirectoryValid p q ip op (lockDirectory p rest)).Sure (anyAnswer dir) (InOrder R)
      (fun _ _ => True) [] := by
  rw [sure_bind]
  refine (sure_of_plain (calls_transmit _ _)).imp ?_
  rintro _ _ rfl
  refine sure_checkParent (sure_lockDirectory (fun s hs => nomatch hs) fun fd => ?_)
  exact sure_of_asksNoLock (hrest fd)

/-- Wrapping up the result locks nothing. -/
theorem sure_map {f : α → β} {p : Server α}
    (hp : p.Sure (anyAnswer dir) (InOrder R) (fun _ _ => True) t) :
    (f <$> p).Sure (anyAnswer dir) (InOrder R) (fun _ _ => True) t := by
  rw [← bind_pure_comp, sure_bind]
  exact hp.imp fun _ _ _ => trivial

/-- **One handler** asks for its locks in order. -/
theorem sure_compute6 {r : Request} (hr : r.locksDirectories = true) (stale : Stale)
    (hR : ∀ d e, LocksThen dir r d e → R d e) :
    (compute6 stale r).Sure (anyAnswer dir) (InOrder R) (fun _ _ => True) [] := by
  cases r <;> simp only [Request.locksDirectories, Bool.false_eq_true] at hr <;> refine sure_map ?_
  case mkdir arg =>
    refine sure_oneLock fun fd => calls_bind (calls_sys rfl) fun ret =>
      calls_bind (calls_unlock (fun _ => rfl) fd _) fun result => ?_
    split
    · exact calls_bind (calls_setOwner (fun _ _ _ => rfl) _ _) fun _ => by split <;> trivial
    · trivial
  case rmdir arg =>
    exact sure_oneLock fun fd => calls_bind (calls_sys rfl) fun ret =>
      calls_unlock (fun _ => rfl) fd _
  case unlink arg =>
    exact sure_oneLock fun fd => calls_bind (calls_sys rfl) fun ret =>
      calls_unlock (fun _ => rfl) fd _
  case mknod arg =>
    refine sure_oneLock fun fd => ?_
    have hfailed : (do let _ ← unlockDirectory fd ⟨-1⟩; return ⟨-1⟩ : Server MknodRet).Calls
        (Call.Is Sys.asksNoLock) := calls_bind (calls_unlock (fun _ => rfl) fd _) fun _ => trivial
    have howned : (do
        let ret : Int := if (← setOwner (translateAbspath arg.path) arg.ip) < 0 then -1 else 0
        unlockDirectory fd ⟨ret⟩ : Server MknodRet).Calls (Call.Is Sys.asksNoLock) :=
      calls_bind (calls_setOwner (fun _ _ _ => rfl) _ _) fun _ => calls_unlock (fun _ => rfl) fd _
    dsimp only
    split
    · refine calls_bind (calls_sys rfl) fun ret => ?_
      split
      · exact hfailed
      · exact calls_bind (calls_sys rfl) fun _ => howned
    · split
      · refine calls_bind (calls_sys rfl) fun ret => ?_
        split
        · exact hfailed
        · exact howned
      · refine calls_bind (calls_sys rfl) fun ret => ?_
        split
        · exact hfailed
        · exact howned
  case rename arg =>
    unfold bbRename6Svc
    rw [sure_bind]
    refine (sure_of_plain (calls_transmit _ _)).imp ?_
    rintro _ _ rfl
    refine sure_checkParent (sure_checkParent (sure_lockDirectory (fun s hs => nomatch hs) ?_))
    intro fd
    have hact : ∀ rest : StatusRet → Server StatusRet,
        (∀ result, (rest result).Calls (Call.Is Sys.asksNoLock)) → (do
          let ret ← sys (.rename (translateAbspath arg.path) (translateAbspath arg.newpath))
          let result ← unlockDirectory fd ⟨ret⟩
          rest result : Server RenameRet).Calls (Call.Is Sys.asksNoLock) := fun rest hrest =>
      calls_bind (calls_sys rfl) fun ret => calls_bind (calls_unlock (fun _ => rfl) fd _) hrest
    dsimp only
    split
    · next hne =>
      refine sure_lockDirectory ?_ fun newFd =>
        sure_of_asksNoLock (hact _ fun result => calls_unlock (fun _ => rfl) newFd result)
      -- The one lock that is held is that of the first directory.
      intro s hs _
      obtain rfl := List.mem_singleton.mp hs
      exact hR _ _ ⟨hne, rfl, rfl⟩
    · exact sure_of_asksNoLock (hact _ fun result => trivial)

/-- Steps of its own do not change where the paths of a handler lead. -/
theorem own_takes {h h' : Handler D} (hown : ReflTransGen directoryLocks.Own h h') :
    h'.dir = h.dir ∧
      ReflTransGen (Takes (anyAnswer h.dir)) (h.prog, h.slots) (h'.prog, h'.slots) := by
  induction hown with
  | refl => exact ⟨rfl, .refl⟩
  | tail _ hstep ih =>
      obtain ⟨hdir, hpath⟩ := ih
      rcases hstep with ⟨hd, ht⟩ | ⟨d, hd, ht⟩
      · rw [hdir] at hd ht
        exact ⟨hd, hpath.tail (ht.mono fun _ _ _ _ => .inl)⟩
      · exact ⟨hd.trans hdir, hpath.tail (ht.mono fun _ _ _ _ hg => .inr ⟨d, hg⟩)⟩

/-- A handler that is sure of its order holds only locks that come before the one it asks for. -/
theorem order_of_sure {h : Handler D}
    (hs : h.prog.Sure (anyAnswer h.dir) (InOrder R) (fun _ _ => True) h.slots) {d e : D}
    (hd : directoryLocks.holds h d) (he : directoryLocks.Asks h e) : R d e := by
  obtain ⟨⟨dir', prog', slots'⟩, -, ht⟩ := he
  obtain ⟨s, hs', rfl, hlocked⟩ := hd
  obtain ⟨dir, prog, slots⟩ := h
  cases ht with
  | @mk β c k _ _ b hgrant =>
      cases c with
      | rpc c => exact hgrant.elim
      | os c => cases c <;> first
        | exact False.elim hgrant
        | next fd op => cases op <;> first
          | exact False.elim hgrant
          | exact hs.1 _ hgrant.1 rfl rfl s hs' hlocked

end

/-! ## Locks out of order -/

section

variable {D : Type} {dir : CStr → D}

/-- What `lstat` answers about a directory that everybody may change. -/
def openToAll : Stat := ⟨0, 0, 0o777, 0, 0, 0, 0, 0, 0, 0, 0, 0, 0⟩

/-- A directory that is open to all grants a client everything. -/
theorem modeGrants_openToAll (id : Int32) :
    modeGrants openToAll id (R_REQ ||| W_REQ ||| X_REQ) = true := by
  unfold modeGrants
  by_cases h : openToAll.st_uid.toInt32 = id
  · simp only [h, if_true]
    decide
  · simp only [h, if_false]
    decide

/-- The check of a parent directory can pass. -/
theorem check_passes {p q ip : CStr} {rest : Server StatusRet} (t : List (Slot D)) :
    ReflTransGen (Takes (calm dir)) (checkParentDirectoryValid p q ip .rename rest, t)
      (rest, t) := by
  unfold checkParentDirectoryValid isParentDirValid
  by_cases hroot : p = dfsRoot
  · simp only [hroot, if_true]
    exact .refl
  · simp only [hroot, if_false]
    refine .single (takes_call (b := some openToAll) rfl ?_)
    show ((if (if modeGrants openToAll (atoi ip) (R_REQ ||| W_REQ ||| X_REQ) = true then 1 else 0 :
      Int) ≠ 1 then pure false else pure true : Server Bool) >>= _) = rest
    rw [modeGrants_openToAll]
    rfl

/-- Forwarding can come to its end. -/
theorem transmit_returns (dir : CStr → D) (t : List (Slot D)) (info : Identity)
    (slaveArg : Identity → Request) : ∃ a, ReflTransGen (Takes (calm dir))
      (transmitToSecondaty info slaveArg, t) (Prog.ret a, t) :=
  (calls_transmit (P := fun _ => false) info slaveArg).returns t fun e he => by
    cases e with
    | os c => cases he
    | rpc c => cases c with
      | clntCreate => exact ⟨false, rfl⟩
      | clntCall r => exact ⟨none, rfl⟩
      | clntDestroy => exact ⟨(), rfl⟩

/-- What `dlock` does once the directory is open. -/
def dlockOpened (fd : Int) : Server Int := do
  if (← sys (.flock fd .ex)) ≠ 0 then return -1
  return fd

/-- The handler that waits for the lock of `fd`. -/
def waitFor (fd : Int) (rest : Int → Server StatusRet) : Server StatusRet := do
  let fd ← dlockOpened fd
  if fd < 0 then return ⟨-1⟩
  rest fd

variable {t : List (Slot D)} {fd : Int} {p : CStr} {rest : Int → Server StatusRet}
  {f : StatusRet → Server Reply}

/-- A handler opens the directory and then asks for its lock. -/
theorem opens_directory (hfd : 0 ≤ fd) (hfresh : ∀ s ∈ t, s.fd ≠ fd) :
    Takes (calm dir) (lockDirectory p rest >>= f, t)
      (waitFor fd rest >>= f, ⟨fd, dir p, false⟩ :: t) := by
  refine takes_call (b := some ⟨fd⟩) (.inr ⟨fd, hfd, hfresh, rfl, rfl⟩) ?_
  show (((if fd = -1 then pure (-1) else dlockOpened fd : Server Int) >>= _) >>= f) = _
  rw [if_neg (by omega)]
  rfl

/-- The lock is granted. -/
theorem takes_lock (hfd : 0 ≤ fd) (hfresh : ∀ s ∈ t, s.fd ≠ fd) (d : D) :
    Takes (fun e t b t' => granted e t d b t') (waitFor fd rest >>= f, ⟨fd, d, false⟩ :: t)
      (rest fd >>= f, ⟨fd, d, true⟩ :: t) := by
  refine takes_call (b := (0 : Int)) ⟨List.mem_cons_self .., rfl, ?_⟩ ?_
  · exact (setLock_cons hfresh d).symm
  · show ((if fd < 0 then pure ⟨-1⟩ else rest fd : Server StatusRet) >>= f) = _
    rw [if_neg (by omega)]

/-- A handler at its `flock` asks for the lock of the directory that it has opened. -/
theorem asks_lock (hfd : 0 ≤ fd) (hfresh : ∀ s ∈ t, s.fd ≠ fd) (d : D) : directoryLocks.Asks
    (⟨dir, waitFor fd rest >>= f, ⟨fd, d, false⟩ :: t⟩ : Handler D) d :=
  ⟨⟨dir, rest fd >>= f, ⟨fd, d, true⟩ :: t⟩, rfl, takes_lock hfd hfresh d⟩

/-- What a handler does when nobody is in its way. -/
theorem steps_of_takes {p q : Server Reply × List (Slot D)}
    (h : ReflTransGen (Takes (calm dir)) p q) :
    ReflTransGen directoryLocks.step (⟨dir, p.1, p.2⟩ : Handler D) ⟨dir, q.1, q.2⟩ := by
  induction h with
  | refl => exact .refl
  | tail _ hstep ih => exact ih.tail ⟨rfl, hstep⟩

/-- The part of `bb_rename_6_svc` that comes after two locks. -/
def renameLocked (fpath fnewpath : CStr) (parentFd newParentFd : Int) : Server RenameRet := do
  let ret ← sys (.rename fpath fnewpath)
  let result ← unlockDirectory parentFd ⟨ret⟩
  unlockDirectory newParentFd result

/-- **A rename between two parents** can hold the lock of the first and ask for that of the
second. -/
theorem rename_hop {arg : RenameArg} {d e : D} (stale : Stale)
    (h : LocksThen dir (.rename arg) d e) :
    ∃ r, directoryLocks.Hop (Handler.start stale dir (.rename arg)) d e r := by
  obtain ⟨hne, rfl, rfl⟩ := h
  let fpath := translateAbspath arg.path
  let fnewpath := translateAbspath arg.newpath
  let f : StatusRet → Server Reply := fun r => pure (.status r)
  let act := renameLocked fpath fnewpath
  let rest : Int → Server RenameRet := fun fd => lockDirectory (getParentPath fnewpath) (act fd)
  have hnil : ∀ s ∈ ([] : List (Slot D)), s.fd ≠ 0 := fun s hs => nomatch hs
  have hone : ∀ s ∈ [(⟨0, dir (getParentPath fpath), true⟩ : Slot D)], s.fd ≠ 1 := by
    intro s hs
    rw [List.mem_singleton.mp hs]
    exact Int.zero_ne_one
  have hstart : ReflTransGen (Takes (calm dir))
      (compute6 stale (.rename arg), ([] : List (Slot D)))
      (lockDirectory (getParentPath fpath) rest >>= f, []) := by
    have hprog : bbRename6Svc arg = (transmitToSecondaty arg.serverInfo fun info =>
        .rename { arg with serverInfo := info }) >>= fun _ =>
        checkParentDirectoryValid (getParentPath fpath) fpath arg.ip .rename
          (checkParentDirectoryValid (getParentPath fnewpath) fnewpath arg.ip .rename
            (lockDirectory (getParentPath fpath) rest)) := by
      unfold bbRename6Svc
      simp only [if_pos hne]
      rfl
    obtain ⟨a, ha⟩ := transmit_returns dir [] arg.serverInfo fun info =>
      .rename { arg with serverInfo := info }
    have hfirst := takes_bind (fun _ => checkParentDirectoryValid (getParentPath fpath) fpath arg.ip
      .rename (checkParentDirectoryValid (getParentPath fnewpath) fnewpath arg.ip .rename
        (lockDirectory (getParentPath fpath) rest))) ha
    show ReflTransGen _ (Reply.status <$> bbRename6Svc arg, []) _
    rw [← bind_pure_comp, hprog]
    exact takes_bind f (hfirst.trans ((check_passes []).trans (check_passes [])))
  let p : Handler D := ⟨dir, waitFor 0 rest >>= f, [⟨0, dir (getParentPath fpath), false⟩]⟩
  let q : Handler D := ⟨dir, rest 0 >>= f, [⟨0, dir (getParentPath fpath), true⟩]⟩
  refine ⟨⟨dir, waitFor 1 (act 0) >>= f, ⟨1, dir (getParentPath fnewpath), false⟩ :: q.slots⟩,
    ⟨p, q, ?_, ?_, ?_, ?_⟩, ?_, ?_⟩
  · exact steps_of_takes (hstart.tail (opens_directory (Int.le_refl 0) hnil))
  · rintro x ⟨s, hs, -, hlocked⟩
    rw [List.mem_singleton.mp hs] at hlocked
    cases hlocked
  · exact ⟨rfl, takes_lock (Int.le_refl 0) hnil _⟩
  · exact .single ⟨rfl, opens_directory Int.one_nonneg hone⟩
  · intro x
    constructor
    · rintro ⟨s, hs, rfl, hlocked⟩
      rcases List.mem_cons.mp hs with rfl | hs
      · cases hlocked
      · rw [List.mem_singleton.mp hs]
    · rintro rfl
      exact ⟨_, List.mem_cons_of_mem _ (List.mem_singleton.mpr rfl), rfl, rfl⟩
  · exact asks_lock Int.one_nonneg hone _

end

/-! ## All handlers -/

section

variable {ι D : Type} {request : ι → Request}

/-- Handlers at their start. -/
def handlers (stale : ι → Stale) (dir : ι → CStr → D) (request : ι → Request) : ι → Handler D :=
  fun i => .start (stale i) (dir i) (request i)

/-- Whatever the order of the steps, the handlers never come to wait for each other in a circle. -/
def DeadlockFree (stale : ι → Stale) (dir : ι → CStr → D) (request : ι → Request) : Prop :=
  ∀ s, ReflTransGen directoryLocks.Turn (handlers stale dir request) s →
    ¬ directoryLocks.Deadlocked s

/-- Some handler locks the directory `d` and then `e`. -/
def Edge (dir : ι → CStr → D) (request : ι → Request) (d e : D) : Prop :=
  ∃ i, LocksThen (dir i) (request i) d e

/-- The handlers on a cycle can all get their first lock. -/
theorem deadlock_reachable (stale : ι → Stale) (dir : ι → CStr → D)
    (hcycle : ∃ d, TransGen (Edge dir request) d d) :
    ∃ s, ReflTransGen directoryLocks.Turn (handlers stale dir request) s ∧
      directoryLocks.Deadlocked s := by
  let first : ι → D := fun i => dir i <| match request i with
    | .rename arg => getParentPath (translateAbspath arg.path)
    | _ => []
  refine Locking.exists_deadlocked first ?_ ?_ hcycle
  · rintro d e ⟨i, hi⟩
    cases hr : request i with
    | rename arg =>
        rw [hr] at hi
        obtain ⟨r, hop⟩ := rename_hop (stale i) hi
        refine ⟨i, r, ?_, ?_⟩
        · simp only [first, hr]
          exact hi.2.1
        · rw [handlers, hr]
          exact hop
    | _ =>
        rw [hr] at hi
        exact hi.elim
  · rintro i d ⟨s, hs, -⟩
    cases hs

/-- **No deadlock** comes about exactly when the renames do not lead around in a circle from first
to second directories. -/
theorem deadlock_free_iff (stale : ι → Stale) (dir : ι → CStr → D)
    (hkind : ∀ i, (request i).locksDirectories = true) :
    DeadlockFree stale dir request ↔ ∀ d, ¬ TransGen (Edge dir request) d d := by
  constructor
  · intro h d hd
    obtain ⟨s, hs, hdead⟩ := deadlock_reachable stale dir ⟨d, hd⟩
    exact h s hs hdead
  · intro hacyclic s hs
    refine Locking.not_deadlocked hacyclic fun i d e hd he => ?_
    obtain ⟨hdir, hpath⟩ := own_takes (Locking.own_of_turns hs i)
    have hstart := sure_compute6 (R := Edge dir request) (hkind i) (stale i) fun d e h => ⟨i, h⟩
    have hsure := hstart.takes_star hpath
    rw [← hdir] at hsure
    exact order_of_sure hsure hd he

/-- A rename. -/
def move (path newpath : String) : Request :=
  .rename ⟨"1".toList, ⟨1, 1⟩, path.toList, newpath.toList⟩

/-- Two renames, the second from where the first one goes to. -/
def onward (second : Bool) : Request :=
  if second then move "/b/g" "/c/g" else move "/a/f" "/b/f"

/-- Renames that all go the same way cannot block one another. -/
theorem deadlock_free_onward : DeadlockFree (fun _ => .zero) (fun _ => id) onward := by
  refine (deadlock_free_iff (fun _ => .zero) (fun _ => id) (by decide)).mpr ?_
  refine not_cycle_of_rank (fun p : CStr => (p.getD 5 'z').toNat) ?_
  rintro d e ⟨i, h⟩
  cases i with
  | false =>
      obtain ⟨-, rfl, rfl⟩ := h
      decide
  | true =>
      obtain ⟨-, rfl, rfl⟩ := h
      decide

/-- Two renames in opposite directions. -/
def crossed (second : Bool) : Request :=
  if second then move "/b/g" "/a/g" else move "/a/f" "/b/f"

/-- Each of them gets its first lock and waits for the second one. -/
theorem crossed_deadlock : ¬ ∀ (ι D : Type) (request : ι → Request) (stale : ι → Stale)
    (dir : ι → CStr → D), (∀ i, (request i).locksDirectories = true) →
    DeadlockFree stale dir request := by
  intro hall
  have hfirst : Edge (fun _ => id) crossed "/DFS/a".toList "/DFS/b".toList :=
    ⟨false, by decide, rfl, rfl⟩
  have hsecond : Edge (fun _ => id) crossed "/DFS/b".toList "/DFS/a".toList :=
    ⟨true, by decide, rfl, rfl⟩
  obtain ⟨s, hs, hdead⟩ := deadlock_reachable (fun _ => .zero) (fun _ => id)
    ⟨_, .tail (.single hfirst) hsecond⟩
  exact hall Bool CStr crossed (fun _ => .zero) (fun _ => id) (by decide) s hs hdead

end

end DFS
