import NetworkFileSystem.Service.Tables

/-!
# Locks between requests

The server handles one request after the other, and `flock` makes two open files of one directory
compete even within one process: a lock that a handler leaves behind, or asks for a second time,
stops the server for everybody.  Only `bb_rename_6_svc` can do either, when its second directory
cannot be locked or is the first one under another spelling.  **`locks_released`** says that
without such a rename no lock is held between requests and the server never waits for one.
-/

namespace DFS

open Effects Posix

/-- A rename with safe locks: it needs one lock only, or gets not even the first one, or gets the
second one too, on another directory. -/
def RenameSafe (f : Faults) (fs : FS) (p q : CStr) (id : Int32) : Prop :=
  let g := renameFaults f p q
  getParentPath p = getParentPath q ∨ renameChecks f fs p q id = false ∨
  lockOpens g fs (getParentPath p) = none ∨ faulted g 1 = true ∨
  ∃ j, lockOpens (g.drop 2) fs (getParentPath q) = some j ∧ faulted g 3 = false ∧
    lockOpens g fs (getParentPath p) ≠ some j

/-- A request whose locks are safe: every one but some renames. -/
def LocksSafe (f : Faults) (fs : FS) : Request → Prop
  | .rename arg =>
    RenameSafe f fs (translateAbspath arg.path) (translateAbspath arg.newpath) (atoi arg.ip)
  | _ => True

@[simp] theorem dirFile_lock (i : Ino) : (dirFile i).lock = none := rfl

/-- What a handler with one lock leaves open is not locked. -/
theorem lockLeaves_lock {f : Faults} {fs : FS} {p : CStr} {id : Int32} {opName : OpName} :
    ∀ g ∈ lockLeaves f fs p id opName, g.lock = none := by
  intro g hg
  obtain ⟨i, -, rfl⟩ := List.mem_map.mp hg
  exact dirFile_lock i

/-- What the secondary leaves open is not locked. -/
theorem writeLeaves_lock {f : Faults} {fs : FS} {p : CStr} :
    ∀ g ∈ writeLeaves f fs p, g.lock = none := by
  intro g hg
  unfold writeLeaves at hg
  repeat' split at hg
  all_goals first
    | cases hg
      done
    | rw [List.mem_singleton.mp hg]
      rfl

/-- Safe renames are those that neither keep a lock nor wait for their own. -/
theorem renameSafe_iff {f : Faults} {fs : FS} {p q : CStr} {id : Int32} :
    RenameSafe f fs p q id ↔
      (∀ g ∈ renameLeaves f fs p q id, g.lock = none) ∧ ¬ renameBlocks f fs p q id := by
  unfold RenameSafe renameLeaves renameBlocks renameFirst renameSecond
  dsimp only
  generalize renameFaults f p q = g
  by_cases hpq : getParentPath p = getParentPath q
  · -- One lock only.
    refine iff_of_true (.inl hpq) ⟨?_, fun h => h.1 hpq⟩
    split
    · exact fun _ hg => nomatch hg
    · simp [hpq]
  · cases hv : renameChecks f fs p q id with
    | false => simp
    | true =>
        simp only [hpq, Bool.true_eq_false, if_true, false_or, or_false, ne_eq,
          not_false_eq_true, true_and]
        cases hi : lockOpens g fs (getParentPath p) with
        | none => simp
        | some i =>
            cases hf : faulted g 1 with
            | true => simp
            | false =>
                cases hj : lockOpens (g.drop 2) fs (getParentPath q) with
                | none => simp
                | some j =>
                    cases hf' : faulted g 3 with
                    | true => simp
                    | false => simp [eq_comm]

/-- When no lock is left, in terms of what is left open. -/
theorem locksSafe_iff {f : Faults} {fs : FS} {r : Request} :
    LocksSafe f fs r ↔ (∀ g ∈ leftOpen f fs r, g.lock = none) ∧ ¬ blocksItself f fs r := by
  cases r <;> simp only [LocksSafe, leftOpen, blocksItself, renameSafe_iff, true_iff,
    not_false_iff, and_true]
  case mkdir | rmdir | mknod | unlink => exact lockLeaves_lock
  case write arg =>
    split
    · exact writeLeaves_lock
    · simp
  all_goals simp

/-- **One request.**  From a table without locks to a table without locks. -/
theorem unlocked_step {d : Disturbance} {h h' : Host} {reply : Reply}
    (hs : answer d h = .ok (reply, h')) (hfree : h.os.fds.Unlocked)
    (hsafe : LocksSafe d.faults h.os.fs d.arrival.request) : h'.os.fds.Unlocked := by
  have htable := serveUnder_table hs
  generalize h'.os.fds = t at htable ⊢
  cases htable with
  | left _ _ _ ht =>
      exact ht.2 ((Descriptors.unlocked_addFiles hfree).mpr (locksSafe_iff.mp hsafe).1)
  | opened _ _ _ _ => exact hfree.addFile rfl
  | closed _ _ _ _ => exact hfree.dropFile _

/-- A request with safe locks does not wait for one when none is held. -/
theorem not_waits {d : Disturbance} {h : Host} (hfree : h.os.fds.Unlocked)
    (hsafe : LocksSafe d.faults h.os.fs d.arrival.request) : answer d h ≠ .error .flock := by
  intro hw
  rcases serveUnder_wait hw with ⟨i, hi⟩ | hblocks
  · rw [hfree.locks_eq] at hi
    cases hi
  · exact (locksSafe_iff.mp hsafe).2 hblocks

/-- **No lock is left behind, and the server never waits for one.**  In every run without unsafe
renames from a server that holds no lock, none is held after any request, and the next request
does not wait for one either. -/
theorem locks_released {h₀ h : Host} {tr : List (Event Disturbance Reply Host)}
    (hrun : Runs answer h₀ tr h) (hfree : h₀.os.fds.Unlocked)
    (hsafe : ∀ e ∈ tr, LocksSafe e.input.faults e.pre.os.fs e.input.arrival.request) :
    (∀ e ∈ tr, e.post.os.fds.Unlocked) ∧
    ∀ d, LocksSafe d.faults h.os.fs d.arrival.request → answer d h ≠ .error .flock := by
  have hsafe : Runs.Along (fun _ e => LocksSafe e.input.faults e.pre.os.fs
      e.input.arrival.request) tr := Runs.along_mem.mpr hsafe
  have hend : h.os.fds.Unlocked := hrun.invariant (I := fun _ h => h.os.fds.Unlocked) hfree
    (fun _ _ hi hs hc => unlocked_step hs hi hc) hsafe
  have hall : Runs.Along (fun _ e => e.post.os.fds.Unlocked) tr :=
    hrun.along_of_invariant (I := fun _ h => h.os.fds.Unlocked) hfree
      (fun _ _ hi hs hc => ⟨unlocked_step hs hi hc, unlocked_step hs hi hc⟩) hsafe
  exact ⟨Runs.along_mem.mp hall, fun d hd => not_waits hend hd⟩

/-- The root directory `/DFS` with a file and a directory in it, which belong to the client with
number 1. -/
def privateDir : FS := .ofNodes [
  .plain (.dir 0 [("DFS".toList, 1)]) 0 0o755,
  .plain (.dir 0 [("f".toList, 2), ("d".toList, 3)]) 0 0o777,
  .plain (.reg []) 1 0o600,
  .plain (.dir 1 []) 1 0o700]

/-- The file moves into the directory. -/
def moveIn : Request := .rename ⟨"1".toList, ⟨1, 1⟩, "/f".toList, "/d/g".toList⟩

/-- A rename into a directory that leaves no lock. -/
theorem locks_released_moveIn : ∃ reply h,
    answer ⟨.alone moveIn, []⟩ (.start privateDir) = .ok (reply, h) ∧ reply.ret = 0 ∧
    h.os.fds.Unlocked ∧ answer ⟨.alone moveIn, []⟩ h ≠ .error .flock := by
  have hrun : (answer ⟨.alone moveIn, []⟩ (.start privateDir)).map
      (fun r => (r.1.ret, lockOpens [] r.2.os.fs dfsRoot,
        lockOpens [] r.2.os.fs (dfsRoot ++ "/d".toList))) = .ok (0, some 1, some 3) := by rfl
  obtain ⟨⟨reply, h⟩, hs, hret⟩ := map_eq_ok.mp hrun
  have hsafe : ∀ fs : FS, lockOpens [] fs dfsRoot = some 1 →
      lockOpens [] fs (dfsRoot ++ "/d".toList) = some 3 → LocksSafe [] fs moveIn :=
    fun fs h₁ h₂ => .inr (.inr (.inr (.inr ⟨3, h₂, rfl, fun h => nomatch h₁.symm.trans h⟩)))
  simp only [Prod.mk.injEq] at hret
  obtain ⟨hall, hnext⟩ := locks_released (.single hs)
    (fun fd f hf => by cases hf) fun e he => by
      rw [List.mem_singleton.mp he]
      exact hsafe _ rfl rfl
  exact ⟨reply, h, hs, hret.1, hall _ (List.mem_singleton.mpr rfl),
    hnext ⟨.alone moveIn, []⟩ (hsafe _ hret.2.1 hret.2.2)⟩

/-- The file moves into the directory, but there is no descriptor left for the second lock: the
handler returns with the first one. -/
theorem rename_keeps_lock : ¬ ∀ (h₀ h : Host) (tr : List (Event Disturbance Reply Host)),
    Runs answer h₀ tr h → h₀.os.fds.Unlocked →
    (∀ e ∈ tr, e.post.os.fds.Unlocked) ∧ ∀ d, answer d h ≠ .error .flock := by
  intro hall
  have hrun : (answer ⟨.alone moveIn, [none, none, none, some (.fail EMFILE (by decide))]⟩
      (.start privateDir)).map (fun r => (r.2.os.fds.file 0).map (·.lock)) =
      .ok (some (some .ex)) := by rfl
  obtain ⟨⟨reply, h⟩, hs, hlock⟩ := map_eq_ok.mp hrun
  have hfree := (hall _ _ _ (.single hs) fun fd f hf => by cases hf).1 _
    (List.mem_singleton.mpr rfl)
  change h.os.fds.Unlocked at hfree
  obtain ⟨g, hg, hex⟩ := Option.map_eq_some_iff.mp hlock
  rw [hfree 0 g hg] at hex
  cases hex

end DFS
