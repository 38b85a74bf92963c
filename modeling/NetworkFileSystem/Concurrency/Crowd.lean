import NetworkFileSystem.Concurrency.Deadlock
import NetworkFileSystem.Concurrency.Serial
import NetworkFileSystem.Service.Mutations

/-!
# Handlers that change the tree side by side

Any number of handlers run at the same time, each in a process of its own.  They share the tree; a
step is one call of one handler, made to the tree as it is then, and a lock is granted when no
other process holds it.  The handlers are the programs of `compute6`.

Besides, a crowd keeps account of how far each handler is (`Stage`) and of the new inodes that
are still to get their owners (`owed`).  Both are read off the calls, and no call depends on them.
-/

namespace Posix

/-- A call that comes before the change. -/
def Sys.looks {β : Type} : Sys β → Bool
  | .lstat _ | .opendir _ | .flock _ .ex => true
  | _ => false

/-- A call that comes after the change. -/
def Sys.ends {β : Type} : Sys β → Bool
  | .flock _ .un | .close _ => true
  | _ => false

/-- Whether the call changes the owner of what a path leads to. -/
def Sys.chowns {β : Type} : Sys β → Bool
  | .chown _ _ _ => true
  | _ => false

/-- The call that gives `u` what is under the path `p`. -/
def Sys.gives (p : CStr) (u : UInt32) {β : Type} : Sys β → Bool
  | .chown q uid gid => q = p ∧ uid = u ∧ gid = u
  | _ => false

/-- What a path leads to, with its owners. -/
def FS.view (fs : FS) (p : CStr) : Option (Kind × UInt32 × UInt32) :=
  match fs.lresolve p with
  | .ok i => (fs.node i).map fun n => (n.kind, n.uid, n.gid)
  | .error _ => none

end Posix

namespace DFS

open Effects Posix Prog Relation Concurrency

/-! ## Crowds -/

/-- The server with another tree. -/
def Host.on (h : Host) (fs : FS) : Host := { h with os := { h.os with fs := fs } }

/-- How far a handler is: it has changed nothing so far, it has still to give the inode that it
has made to its client, or nothing can happen any more to its reply. -/
inductive Stage
  | looking
  | owing (i : Ino)
  | done (reply : Reply)

/-- The reply after a call that succeeded or failed. -/
def outcome (failed : Bool) : Reply := .status ⟨if failed then -1 else 0⟩

/-- How far a handler is after a call; `next` is the number that a new inode gets. -/
def Stage.after (next : Ino) {β : Type} : Stage → Call β → β → Stage
  | .looking, .os c, b =>
    if c.makes.isSome then if c.failed b then .done (outcome true) else .owing next
    else if c.removes then .done (outcome (c.failed b)) else .looking
  | .owing i, .os c, b => if c.chowns then .done (outcome (c.failed b)) else .owing i
  | st, _, _ => st

/-- The reply, once it is certain. -/
def Stage.verdict : Stage → Option Reply
  | .looking => none
  | .owing _ => some (outcome false)
  | .done reply => some reply

/-- The owners that are owed when a handler of the client `u` has gone on. -/
def Stage.owes (u : UInt32) : Stage → Stage → (Ino → Option UInt32) → Ino → Option UInt32
  | .looking, .owing i, owed => Function.update owed i (some u)
  | .owing i, .done _, owed => Function.update owed i none
  | _, _, owed => owed

/-- A request at a process of the server; the tree of the process is immaterial. -/
structure Job where
  arrival : Arrival
  host : Host

/-- A handler on its way. -/
structure Worker where
  prog : Server Reply
  host : Host
  stage : Stage

structure Crowd (ι : Type) where
  tree : FS
  owed : Ino → Option UInt32
  worker : ι → Worker

/-- The client that a request makes an inode for. -/
def Request.owner : Request → UInt32
  | .mkdir arg => (atoi arg.ip).toUInt32
  | .mknod arg => (atoi arg.ip).toUInt32
  | _ => 0

/-- The path at which a request makes an inode. -/
def Request.place : Request → CStr
  | .mkdir arg => translateAbspath arg.path
  | .mknod arg => translateAbspath arg.path
  | _ => []

def Job.start (j : Job) : Worker := ⟨compute6 j.arrival.stale j.arrival.request, j.host, .looking⟩

section

variable {ι : Type} [DecidableEq ι]

/-- All handlers at their start. -/
def Crowd.start (job : ι → Job) (fs : FS) : Crowd ι := ⟨fs, fun _ => none, fun i => (job i).start⟩

/-- The locks that a process newly holds are held by no other. -/
def Free (c : Crowd ι) (i : ι) (h : Host) : Prop :=
  ∀ d, h.os.fds.locks d = true → (c.worker i).host.os.fds.locks d = true ∨
    ∀ j, j ≠ i → (c.worker j).host.os.fds.locks d = false

/-- One step: a handler makes its next call, or it sends a reply without having changed anything. -/
inductive Turn (job : ι → Job) (i : ι) (c : Crowd ι) : Crowd ι → Prop
  | call {β : Type} {e : Call β} {k : β → Server Reply} {b : β} {h : Host}
      (hprog : (c.worker i).prog = .call e k)
      (hstep : (server (job i).arrival.peer).step e ((c.worker i).host.on c.tree) = .ok (b, h))
      (hfree : Free c i h) : Turn job i c
        { tree := h.os.fs
          owed := (c.worker i).stage.owes (job i).arrival.request.owner
            ((c.worker i).stage.after c.tree.next e b) c.owed
          worker := Function.update c.worker i
            ⟨k b, h, (c.worker i).stage.after c.tree.next e b⟩ }
  | reply {r : Reply} (hprog : (c.worker i).prog = .ret r)
      (hstage : (c.worker i).stage = .looking) : Turn job i c
        { c with worker := Function.update c.worker i ⟨.ret r, (c.worker i).host, .done r⟩ }

/-- Every handler has sent its reply. -/
def Crowd.Finished (c : Crowd ι) (reply : ι → Reply) : Prop :=
  ∀ i, (c.worker i).prog = .ret (reply i) ∧ (c.worker i).stage ≠ .looking

/-- A handler by itself takes one tree to another. -/
def Job.Alone (j : Job) (fs : FS) (r : Reply) (fs' : FS) : Prop :=
  ∃ h, serve j.arrival (j.host.on fs) = .ok (r, h) ∧ h.os.fs = fs'

/-- The same replies and the same names, kinds and owners come about when the handlers run one
after the other in some order. -/
def Serialisable (job : ι → Job) (fs : FS) (reply : ι → Reply) (fs' : FS) : Prop :=
  ∃ (l : List ι) (fs'' : FS), l.Nodup ∧ (∀ i, i ∈ l) ∧
    Serially (fun i => (job i).Alone) (fun i => some (reply i)) fs l fs'' ∧
    ∀ p, fs''.view p = fs'.view p

/-! ## The condition -/

/-- The tree when all owners that are owed have been given. -/
def Crowd.settled (c : Crowd ι) : FS := c.tree.given c.owed

/-- What a handler meets that only looks. -/
def glances (peer : Peer) : Environment Call Host := fun e h b h' =>
  e.Is Sys.looks ∧ (server peer).step e h = .ok (b, h')

/-- By itself, in the tree as it is when all owners have been given, the handler comes to the point
where it is. -/
def Crowd.Repeats (job : ι → Job) (c : Crowd ι) (i : ι) : Prop :=
  ∃ h, ReflTransGen (Takes (glances (job i).arrival.peer))
    ((job i).start.prog, (job i).host.on c.settled) ((c.worker i).prog, h)

/-- Whether a handler is about to make its change, or to reply. -/
def commits : Server Reply → Bool
  | .ret _ => true
  | .call (.os c) _ => c.makes.isSome || c.removes
  | .call (.rpc _) _ => false

/-- Whether an inode that is to get its owner is found by the call. -/
def Call.finds : {β : Type} → Call β → FS → Stage → Prop
  | _, .os (.chown p _ _), fs, .owing i => fs.resolve p = .ok i
  | _, _, _, _ => True

/-- Whether the group of an inode that the call makes is certain. -/
def Call.certain {β : Type} (owed : Ino → Option UInt32) (fs : FS) : Call β → Prop
  | .os c => ∀ p, c.makes = some p → fs.Settled owed p
  | .rpc _ => True

/-- The condition on a step of the handler `i`. -/
structure Orderly (job : ι → Job) (c : Crowd ι) (i : ι) : Prop where
  repeats : (c.worker i).stage = .looking → commits (c.worker i).prog = true → c.Repeats job i
  certain : ∀ {β : Type} (e : Call β) k, (c.worker i).prog = .call e k → e.certain c.owed c.tree
  finds : ∀ {β : Type} (e : Call β) k, (c.worker i).prog = .call e k →
    e.finds c.tree (c.worker i).stage

/-- A step that meets the condition. -/
def OrderlyTurn (job : ι → Job) (c c' : Crowd ι) : Prop := ∃ i, Orderly job c i ∧ Turn job i c c'

end

/-! ## One handler, call by call -/

section

variable {peer : Peer} {r : Request} {α : Type} {h h' : Host} {fd : Int}

/-- What a handler can meet while the others do what they like to the tree; only the inode that it
has made stays where it is. -/
def meets (peer : Peer) : Environment Call (Host × Stage) := fun e s b t =>
  ∃ fs : FS, e.finds fs s.2 ∧ (server peer).step e (s.1.on fs) = .ok (b, t.1) ∧
    t.2 = s.2.after fs.next e b

/-- The calls of a handler at each stage. -/
def Proper (r : Request) : {β : Type} → Call β → Host × Stage → Prop
  | _, e, (_, .looking) => e.Is Sys.looks ∨ e.Does (Sys.changes r.place)
  | _, e, (_, .owing _) => e.Does Sys.ends ∨ e.Does (Sys.gives r.place r.owner)
  | _, e, (_, .done _) => e.Does Sys.ends

/-- An open file that can be unlocked. -/
def Held (fd : Int) (h : Host) : Prop := ∃ f, h.os.fds.file fd = some f ∧ f.pathOnly = false

/-- A system call concerns the process of the server alone. -/
theorem step_os {β : Type} {c : Sys β} {b : β} :
    (server peer).step (.os c) h = .ok (b, h') ↔
      ∃ os, OS.exec c h.os = .ok (b, os) ∧ h' = { h with os := os } := by
  simp only [server]
  cases OS.exec c h.os with
  | error w => simp [Except.map]
  | ok r =>
      obtain ⟨b', os⟩ := r
      simp only [Except.map, Except.ok.injEq, Prod.mk.injEq]
      constructor
      · rintro ⟨rfl, rfl⟩
        exact ⟨os, ⟨rfl, rfl⟩, rfl⟩
      · rintro ⟨os', ⟨rfl, rfl⟩, rfl⟩
        exact ⟨rfl, rfl⟩

/-- Looking is not deciding. -/
theorem after_looks {β : Type} {e : Call β} (he : e.Is Sys.looks) (n : Ino) (b : β) :
    Stage.looking.after n e b = .looking := by
  cases e with
  | rpc c => rfl
  | os c => cases c <;> first | rfl | cases he

/-- Nor are the calls at the end. -/
theorem after_ends {β : Type} {e : Call β} (he : e.Does Sys.ends) (st : Stage) (hst : st ≠ .looking)
    (n : Ino) (b : β) : st.after n e b = st := by
  cases st with
  | looking => exact absurd rfl hst
  | done reply => cases e <;> rfl
  | owing i =>
      cases e with
      | rpc c => rfl
      | os c => cases c <;> first | rfl | cases he

/-- The part of a handler that only looks. -/
theorem proper_looks {p : Server α} (hp : p.Calls (Call.Is Sys.looks)) :
    p.Sure (meets peer) (Proper r) (fun _ s => s.2 = .looking) (h, .looking) := by
  induction p generalizing h with
  | ret a => rfl
  | call e k ih =>
      refine ⟨.inl hp.1, fun b t hbt => ?_⟩
      obtain ⟨fs, -, -, ht⟩ := hbt
      obtain ⟨h', st⟩ := t
      obtain rfl : st = .looking := ht.trans (after_looks hp.1 _ _)
      exact ih b (hp.2 b)

/-- The check of the parents only looks. -/
theorem proper_checkParent {p q ip : CStr} {op : OpName} {rest : Server StatusRet}
    {Q : StatusRet → Host × Stage → Prop} (hrefused : ∀ h, Q ⟨-EACCES⟩ (h, .looking))
    (hrest : ∀ h, rest.Sure (meets peer) (Proper r) Q (h, .looking)) :
    (checkParentDirectoryValid p q ip op rest).Sure (meets peer) (Proper r) Q (h, .looking) := by
  unfold checkParentDirectoryValid
  rw [sure_bind]
  refine (proper_looks (calls_isParentDirValid (fun _ => rfl) p q ip op)).imp ?_
  rintro passes ⟨h', st⟩ rfl
  split
  · exact hrest h'
  · exact hrefused h'

/-- `opendir` and what it leaves. -/
theorem opendir_opens (os : OS) (p : CStr) : (∃ e, os.opendir p = (none, os.fail e)) ∨
    ∃ i, os.opendir p = (some ⟨os.fds.nextFd⟩,
      { os with fds := os.fds.addFile (OS.opened O_RDONLY i) }) := by
  unfold OS.opendir
  split
  · exact .inl ⟨_, rfl⟩
  · exact .inr ⟨_, rfl⟩

/-- A descriptor is still held when another one is opened. -/
theorem Held.addFile (hh : Held fd h) {f : OpenFile} (hfds : h'.os.fds = h.os.fds.addFile f) :
    Held fd h' := by
  obtain ⟨g, hg, hp⟩ := hh
  refine ⟨g, ?_, hp⟩
  rw [hfds, Descriptors.file_addFile, if_neg (Descriptors.ne_nextFd hg), hg]

/-- Locking does not change what is held. -/
theorem Held.setLock (hh : Held fd h) {k : Int} {m : Option LockMode}
    (hfds : h'.os.fds = h.os.fds.setFile k fun f => { f with lock := m }) : Held fd h' := by
  obtain ⟨g, hg, hp⟩ := hh
  rw [Held, hfds, Descriptors.file_setFile]
  split
  · exact ⟨{ g with lock := m }, by simp [hg], hp⟩
  · exact ⟨g, hg, hp⟩

/-- A descriptor is still held when another one is closed. -/
theorem Held.dropFile (hh : Held fd h) {k : Int} (hne : fd ≠ k)
    (hfds : h'.os.fds = h.os.fds.dropFile k) : Held fd h' := by
  obtain ⟨g, hg, hp⟩ := hh
  exact ⟨g, by rw [hfds, Descriptors.file_dropFile, if_neg hne, hg], hp⟩

/-- An opened directory is held. -/
theorem held_addFile {i : Ino} (hfds : h'.os.fds = h.os.fds.addFile (OS.opened O_RDONLY i)) :
    Held h.os.fds.nextFd h' := by
  refine ⟨OS.opened O_RDONLY i, ?_, rfl⟩
  rw [hfds, Descriptors.file_addFile, if_pos rfl]

/-- Locking or unlocking an open file: if it returns, it has succeeded. -/
theorem step_flock (hh : Held fd h) {op : LockOp} {fs : FS} {b : Int}
    (hstep : (server peer).step (.os (.flock fd op)) (h.on fs) = .ok (b, h')) :
    b = 0 ∧ h'.os.fds = h.os.fds.setFile fd fun f => { f with lock := OS.lockMode op } := by
  obtain ⟨os, hos, rfl⟩ := step_os.mp hstep
  obtain ⟨f, hf, hp⟩ := hh
  simp only [OS.exec] at hos
  rcases OS.flock_open (h.on fs).os hf hp op with hw | hr
  · rw [hw] at hos
    cases hos
  · rw [hr] at hos
    cases hos
    exact ⟨rfl, rfl⟩

/-- Opening and locking the parent comes before the decision. -/
theorem proper_lockDirectory {p : CStr} {rest : Int → Server StatusRet}
    {Q : StatusRet → Host × Stage → Prop} (hrefused : ∀ h, Q ⟨-1⟩ (h, .looking))
    (hrest : ∀ fd h', Held fd h' → (∀ fd', Held fd' h → Held fd' h') →
      (rest fd).Sure (meets peer) (Proper r) Q (h', .looking)) :
    (lockDirectory p rest).Sure (meets peer) (Proper r) Q (h, .looking) := by
  refine ⟨.inl rfl, fun b t hbt => ?_⟩
  obtain ⟨fs, -, hstep, ht⟩ := hbt
  obtain ⟨h₁, st⟩ := t
  obtain rfl : st = .looking := ht.trans (after_looks (e := .os (.opendir p)) rfl _ _)
  obtain ⟨os₁, hos₁, rfl⟩ := step_os.mp hstep
  rcases opendir_opens (h.on fs).os p with ⟨e, ho⟩ | ⟨i, ho⟩
  · simp only [OS.exec, ho, Except.ok.injEq, Prod.mk.injEq] at hos₁
    obtain ⟨rfl, rfl⟩ := hos₁
    exact hrefused _
  · simp only [OS.exec, ho, Except.ok.injEq, Prod.mk.injEq] at hos₁
    obtain ⟨rfl, rfl⟩ := hos₁
    obtain ⟨n, hn⟩ : ∃ n, n = (h.on fs).os.fds.nextFd := ⟨_, rfl⟩
    rw [← hn]
    show ((if (n : Int) = -1 then pure (-1) else do
      if (← sys (.flock n .ex)) ≠ 0 then return -1
      return (n : Int) : Server Int) >>= _).Sure _ _ _ _
    rw [if_neg (by omega)]
    refine ⟨.inl rfl, fun b t hbt => ?_⟩
    obtain ⟨fs₂, -, hstep₂, ht₂⟩ := hbt
    obtain ⟨h₂, st₂⟩ := t
    obtain rfl : st₂ = .looking :=
      ht₂.trans (after_looks (e := .os (.flock n .ex)) rfl _ _)
    have hopen : Held n { h.on fs with
        os := { (h.on fs).os with fds := (h.on fs).os.fds.addFile (OS.opened O_RDONLY i) } } :=
      hn ▸ held_addFile (h := h.on fs) rfl
    obtain ⟨rfl, hfds⟩ := step_flock hopen hstep₂
    show ((if (n : Int) < 0 then pure ⟨-1⟩ else rest n : Server StatusRet)).Sure _ _ _ _
    rw [if_neg (by omega)]
    refine hrest n h₂ (hopen.setLock hfds) fun fd' hfd' => ?_
    have hadded : Held fd' { h.on fs with
        os := { (h.on fs).os with fds := (h.on fs).os.fds.addFile (OS.opened O_RDONLY i) } } :=
      hfd'.addFile rfl
    exact hadded.setLock hfds

/-- The calls at the end are proper once the handler has decided. -/
theorem proper_of_ends {β : Type} {e : Call β} {st : Stage} (hst : st ≠ .looking)
    (he : e.Does Sys.ends) : Proper r e (h, st) := by
  cases st with
  | looking => exact absurd rfl hst
  | owing i => exact .inl he
  | done reply => exact he

/-- Unlocking comes after the decision, on a descriptor that is held. -/
theorem proper_unlock {result : StatusRet} {k : StatusRet → Server α} {st : Stage}
    {Q : α → Host × Stage → Prop} (hst : st ≠ .looking) (hh : Held fd h)
    (hk : ∀ h', (∀ fd', Held fd' h → Held fd' h') →
      (k result).Sure (meets peer) (Proper r) Q (h', st)) :
    (unlockDirectory fd result >>= k).Sure (meets peer) (Proper r) Q (h, st) := by
  refine ⟨proper_of_ends hst rfl, fun b t hbt => ?_⟩
  obtain ⟨fs, -, hstep, ht⟩ := hbt
  obtain ⟨h', st'⟩ := t
  obtain rfl : st' = st := ht.trans (after_ends (e := .os (.flock fd .un)) rfl st hst _ _)
  obtain ⟨rfl, hfds⟩ := step_flock hh hstep
  exact hk h' fun fd' hfd' => hfd'.setLock hfds

/-- So does closing. -/
theorem proper_close {k : Int} {p : Server α} {st : Stage} {Q : α → Host × Stage → Prop}
    (hst : st ≠ .looking) (hh : Held fd h) (hne : fd ≠ k)
    (hp : ∀ h', Held fd h' → p.Sure (meets peer) (Proper r) Q (h', st)) :
    (do
      let _ ← sys (.close k)
      p).Sure (meets peer) (Proper r) Q (h, st) := by
  refine ⟨proper_of_ends hst rfl, fun b t hbt => ?_⟩
  obtain ⟨fs, -, hstep, ht⟩ := hbt
  obtain ⟨h', st'⟩ := t
  obtain rfl : st' = st := ht.trans (after_ends (e := .os (.close k)) rfl st hst _ _)
  obtain ⟨os, hos, rfl⟩ := step_os.mp hstep
  refine hp _ ?_
  simp only [OS.exec, OS.close] at hos
  split at hos
  · cases hos
    exact hh
  · cases hos
    exact hh.dropFile hne rfl

/-- The handler gives what it has made to its client. -/
theorem proper_setOwner {ip : CStr} {k : Int → Server α} {i : Ino} {Q : α → Host × Stage → Prop}
    (hr : (atoi ip).toUInt32 = r.owner)
    (hk : ∀ h', (∀ fd', Held fd' h → Held fd' h') →
      (k 0).Sure (meets peer) (Proper r) Q (h', .done (outcome false))) :
    (setOwner r.place ip >>= k).Sure (meets peer) (Proper r) Q (h, .owing i) := by
  refine ⟨.inr ?_, fun b t hbt => ?_⟩
  · simp [Call.Does, Sys.gives, hr]
  · obtain ⟨fs, hfinds, hstep, ht⟩ := hbt
    obtain ⟨h', st⟩ := t
    obtain ⟨os, hos, rfl⟩ := step_os.mp hstep
    have hfound : fs.resolve r.place = .ok i := hfinds
    have hchown : OS.exec (.chown r.place (atoi ip).toUInt32 (atoi ip).toUInt32) (h.on fs).os =
        .ok (0, { (h.on fs).os with
          fs := fs.modify i (Inode.setOwner (atoi ip).toUInt32 (atoi ip).toUInt32) }) := by
      simp only [OS.exec, Host.on, FS.chown, hfound]
      rfl
    rw [hchown] at hos
    cases hos
    obtain rfl : st = .done (outcome false) := ht
    exact hk _ fun fd' hfd' => hfd'

/-- What a handler goes on with after it has tried to make an inode. -/
theorem proper_make {c : Sys Int} {k : Int → Server α} {Q : α → Host × Stage → Prop}
    (hc : c.makes = some r.place) (hn : ∀ b, c.number b = some b)
    (hfails : ∀ h', (∀ fd', Held fd' h → Held fd' h') →
      (k (-1)).Sure (meets peer) (Proper r) Q (h', .done (outcome true)))
    (hmade : ∀ b h' i, 0 ≤ b → (c.status = true → b = 0) →
      (∀ fd', Held fd' h → Held fd' h' ∧ (c.status = false → fd' ≠ b)) →
      (k b).Sure (meets peer) (Proper r) Q (h', .owing i)) :
    (sys c >>= k).Sure (meets peer) (Proper r) Q (h, .looking) := by
  have hchange : c.changes r.place = true := by simp [Sys.changes, hc]
  refine ⟨.inr hchange, fun b t hbt => ?_⟩
  obtain ⟨fs, -, hstep, ht⟩ := hbt
  obtain ⟨h', st⟩ := t
  obtain ⟨os', hos, rfl⟩ := step_os.mp hstep
  obtain ⟨b', os'', v, hexec, hv, hchanged⟩ := exec_changes hchange (h.on fs).os
  obtain ⟨rfl, rfl⟩ : b = b' ∧ os' = os'' := by simpa [hexec] using hos.symm
  obtain rfl : b = v := by simpa [hn] using hv
  have hfailed := failed_iff hchange hv
  have hafter : st = if c.failed b then .done (outcome true) else .owing fs.next := by
    rw [show st = _ from ht]
    simp [Stage.after, hc]
  cases hchanged with
  | fails e hr hv hfail =>
      subst hv hfail
      rw [if_pos (hfailed.mpr rfl)] at hafter
      subst hafter
      exact hfails _ fun fd' hfd' => hfd'
  | succeeds hstatus hr hv hfds =>
      subst hv
      rw [if_neg (by rw [hfailed]; decide)] at hafter
      subst hafter
      refine hmade 0 _ fs.next (Int.le_refl 0) (fun _ => rfl) fun fd' hfd' =>
        ⟨?_, by simp [hstatus]⟩
      obtain ⟨f, hf, hp⟩ := hfd'
      exact ⟨f, by rw [hfds]; exact hf, hp⟩
  | opens f hstatus hr hv hfds =>
      subst hv
      rw [if_neg (by rw [hfailed]; omega)] at hafter
      subst hafter
      refine hmade _ _ fs.next (Int.natCast_nonneg _) (by simp [hstatus]) fun fd' hfd' =>
        ⟨hfd'.addFile hfds, ?_⟩
      obtain ⟨g, hg, -⟩ := hfd'
      exact fun _ => Descriptors.ne_nextFd hg

/-- What a handler goes on with after it has tried to take a name away. -/
theorem proper_remove {c : Sys Int} {k : Int → Server α} {Q : α → Host × Stage → Prop}
    (hc : c.removes = true) (hn : ∀ b, c.number b = some b)
    (hk : ∀ b h', (b = -1 ∨ b = 0) → (∀ fd', Held fd' h → Held fd' h') →
      (k b).Sure (meets peer) (Proper r) Q (h', .done (.status ⟨b⟩))) :
    (sys c >>= k).Sure (meets peer) (Proper r) Q (h, .looking) := by
  have hchange : c.changes r.place = true := by simp [Sys.changes, hc]
  obtain ⟨hmakes, hstatus⟩ := of_removes hc
  refine ⟨.inr hchange, fun b t hbt => ?_⟩
  obtain ⟨fs, -, hstep, ht⟩ := hbt
  obtain ⟨h', st⟩ := t
  obtain ⟨os', hos, rfl⟩ := step_os.mp hstep
  obtain ⟨b', os'', v, hexec, hv, hchanged⟩ := exec_changes hchange (h.on fs).os
  obtain ⟨rfl, rfl⟩ : b = b' ∧ os' = os'' := by simpa [hexec] using hos.symm
  obtain rfl : b = v := by simpa [hn] using hv
  have hfailed := failed_iff hchange hv
  have hafter : st = .done (outcome (c.failed b)) := by
    rw [show st = _ from ht]
    simp [Stage.after, hc, hmakes]
  cases hchanged with
  | fails e hr hv hfail =>
      subst hv hfail
      rw [hfailed.mpr rfl] at hafter
      subst hafter
      exact hk _ _ (.inl rfl) fun fd' hfd' => hfd'
  | succeeds _ hr hv hfds =>
      subst hv
      have hno : c.failed 0 = false := by
        rw [Bool.eq_false_iff, ne_eq, hfailed]
        decide
      rw [hno] at hafter
      subst hafter
      refine hk _ _ (.inr rfl) fun fd' hfd' => ?_
      obtain ⟨f, hf, hp⟩ := hfd'
      exact ⟨f, by rw [hfds]; exact hf, hp⟩
  | opens f hopens hr hv hfds =>
      rw [hstatus] at hopens
      cases hopens

/-- A handler that has made its change does not reply before it has given the inode to the client,
and its reply is the one that is certain then. -/
def Replies (a : Reply) (s : Host × Stage) : Prop := s.2 = .looking ∨ s.2 = .done a

/-- What is proper stays so when its result is wrapped up. -/
theorem proper_map {p : Server StatusRet} (hp : p.Sure (meets peer) (Proper r)
    (fun a s => Replies (.status a) s) (h, .looking)) :
    (Reply.status <$> p).Sure (meets peer) (Proper r) Replies (h, .looking) := by
  rw [← bind_pure_comp, sure_bind]
  exact hp

/-- **A handler with one lock**: forward, check, open and lock, and whatever is proper from there.
-/
theorem proper_oneLock {info : Identity} {slaveArg : Identity → Request} {p q ip : CStr}
    {op : OpName} {rest : Int → Server StatusRet}
    (hrest : ∀ fd h', Held fd h' → (rest fd).Sure (meets peer) (Proper r)
      (fun a s => Replies (.status a) s) (h', .looking)) :
    (do
      transmitToSecondaty info slaveArg
      checkParentDirectoryValid p q ip op (lockDirectory p rest)).Sure (meets peer) (Proper r)
      (fun a s => Replies (.status a) s) (h, .looking) := by
  rw [sure_bind]
  refine (proper_looks (calls_transmit _ _)).imp ?_
  rintro _ ⟨h₁, st⟩ rfl
  refine proper_checkParent (fun _ => .inl rfl) fun h₂ => ?_
  exact proper_lockDirectory (fun _ => .inl rfl) fun fd h' hfd _ => hrest fd h' hfd

/-- **One handler**, call by call. -/
theorem proper_compute6 (hr : r.locksDirectories = true) (stale : Stale) :
    (compute6 stale r).Sure (meets peer) (Proper r) Replies (h, .looking) := by
  cases r <;> simp only [Request.locksDirectories, Bool.false_eq_true] at hr <;>
    refine proper_map ?_
  case mkdir arg =>
    refine proper_oneLock fun fd h₁ hfd => ?_
    refine proper_make rfl (fun _ => rfl) (fun h₂ hheld => ?_) fun b h₂ i _ hb hheld => ?_
    · refine proper_unlock (by simp) (hheld fd hfd) fun h₃ _ => ?_
      exact .inr rfl
    · refine proper_unlock (by simp) (hheld fd hfd).1 fun h₃ _ => ?_
      obtain rfl : b = 0 := hb rfl
      exact proper_setOwner (r := .mkdir arg)
        (k := fun v => if v < 0 then pure (⟨-1⟩ : MkdirRet) else pure ⟨0⟩) rfl fun h₄ _ => .inr rfl
  case rmdir arg =>
    refine proper_oneLock fun fd h₁ hfd => ?_
    refine proper_remove rfl (fun _ => rfl) fun b h₂ _ hheld => ?_
    rw [← bind_pure (unlockDirectory fd ⟨b⟩)]
    exact proper_unlock (by simp) (hheld fd hfd) fun h₃ _ => .inr rfl
  case unlink arg =>
    refine proper_oneLock fun fd h₁ hfd => ?_
    refine proper_remove rfl (fun _ => rfl) fun b h₂ _ hheld => ?_
    rw [← bind_pure (unlockDirectory fd ⟨b⟩)]
    exact proper_unlock (by simp) (hheld fd hfd) fun h₃ _ => .inr rfl
  case mknod arg =>
    refine proper_oneLock fun fd h₁ hfd => ?_
    have hfailed : ∀ h₂ : Host, Held fd h₂ → (do
        let _ ← unlockDirectory fd ⟨-1⟩
        return ⟨-1⟩ : Server MknodRet).Sure (meets peer) (Proper (.mknod arg))
        (fun a s => Replies (.status a) s) (h₂, .done (outcome true)) := fun h₂ hheld =>
      proper_unlock (by simp) hheld fun h₃ _ => .inr rfl
    have howned : ∀ (h₂ : Host) i, Held fd h₂ → (do
        let ret : Int := if (← setOwner (translateAbspath arg.path) arg.ip) < 0 then -1 else 0
        unlockDirectory fd ⟨ret⟩ : Server MknodRet).Sure (meets peer) (Proper (.mknod arg))
        (fun a s => Replies (.status a) s) (h₂, .owing i) := by
      intro h₂ i hheld
      refine proper_setOwner (r := .mknod arg)
        (k := fun v => unlockDirectory fd ⟨if v < 0 then -1 else 0⟩) rfl fun h₃ hheld' => ?_
      rw [← bind_pure (unlockDirectory fd _)]
      exact proper_unlock (by simp) (hheld' fd hheld) fun h₄ _ => .inr rfl
    dsimp only
    split
    · refine proper_make (by simp [Sys.makes, Request.place]) (fun _ => rfl) (fun h₂ hheld => ?_)
        fun b h₂ i hb _ hheld => ?_
      · exact hfailed h₂ (hheld fd hfd)
      · obtain ⟨hopen, hne⟩ := hheld fd hfd
        rw [if_neg (by omega)]
        exact proper_close (by simp) hopen (hne rfl) fun h₃ hheld' => howned h₃ i hheld'
    · split
      · refine proper_make rfl (fun _ => rfl) (fun h₂ hheld => ?_) fun b h₂ i hb _ hheld => ?_
        · exact hfailed h₂ (hheld fd hfd)
        · rw [if_neg (by omega)]
          exact howned h₂ i (hheld fd hfd).1
      · refine proper_make rfl (fun _ => rfl) (fun h₂ hheld => ?_) fun b h₂ i hb _ hheld => ?_
        · exact hfailed h₂ (hheld fd hfd)
        · rw [if_neg (by omega)]
          exact howned h₂ i (hheld fd hfd).1
  case rename arg =>
    unfold bbRename6Svc
    rw [sure_bind]
    refine (proper_looks (calls_transmit _ _)).imp ?_
    rintro _ ⟨h₁, st⟩ rfl
    refine proper_checkParent (fun _ => .inl rfl) fun h₂ => ?_
    refine proper_checkParent (fun _ => .inl rfl) fun h₃ => ?_
    refine proper_lockDirectory (fun _ => .inl rfl) fun fd h₄ hfd _ => ?_
    dsimp only
    split
    · next hne =>
      refine proper_lockDirectory (fun _ => .inl rfl) fun newFd h₅ hnew hheld => ?_
      refine proper_remove rfl (fun _ => rfl) fun b h₆ _ hheld' => ?_
      refine proper_unlock (by simp) (hheld' fd (hheld fd hfd)) fun h₇ hheld'' => ?_
      rw [← bind_pure (unlockDirectory newFd _)]
      exact proper_unlock (by simp) (hheld'' newFd (hheld' newFd hnew)) fun h₈ _ => .inr rfl
    · refine proper_remove rfl (fun _ => rfl) fun b h₅ _ hheld => ?_
      exact proper_unlock (by simp) (hheld fd hfd) fun h₆ _ => .inr rfl

end

end DFS
