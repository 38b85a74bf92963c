import NetworkFileSystem.Effects.Ledger
import NetworkFileSystem.Service.Tables

/-!
# How many descriptors are open

Every descriptor beyond those of the start should be one that `open` or `opendir` has handed out
and that has not been closed since.  **`descriptors_balanced_iff`** says in which runs this holds,
whatever system calls fail on the way: in those where no request locks a directory (`dlock` opens
the directory and never closes it), no write at the secondary fails after its file was opened, and
no client closes a descriptor that was not handed out.
-/

namespace DFS

open Effects Posix

/-! ## The descriptors that are handed out -/

/-- `open` and `opendir` hand descriptors out, `release` and `releasedir` take them back. -/
def handleLedger {ι : Type} (req : ι → Request) : Ledger (Event ι Reply Host) Int where
  gives e := opens (req e.input) e.output
  takes e := closes (req e.input) e.output

/-- The descriptors that have been handed out and not been closed since. -/
def handles (tr : List (Event Disturbance Reply Host)) : List Int :=
  (handleLedger fun d => d.arrival.request).keys tr

/-- The handed-out descriptors are open, and no number is handed out twice. -/
structure HandlesOpen (handed : List Int) (t : Descriptors) : Prop where
  nodup : handed.Nodup
  isOpen : ∀ fd ∈ handed, ∃ g, t.file fd = some g

namespace HandlesOpen

variable {handed : List Int} {t t' : Descriptors}

/-- No handle was handed out. -/
theorem nil (t : Descriptors) : HandlesOpen [] t := ⟨List.nodup_nil, fun _ h => nomatch h⟩

/-- The table has the same open files. -/
theorem same (h : HandlesOpen handed t) (hs : Descriptors.Same t t') : HandlesOpen handed t' := by
  refine ⟨h.nodup, fun fd hfd => ?_⟩
  obtain ⟨g, hg⟩ := h.isOpen fd hfd
  obtain ⟨g', hg', -⟩ := hs.file hg
  exact ⟨g', hg'⟩

/-- A file that is opened and not handed out. -/
theorem addFile (h : HandlesOpen handed t) (f : OpenFile) : HandlesOpen handed (t.addFile f) := by
  refine ⟨h.nodup, fun fd hfd => ?_⟩
  obtain ⟨g, hg⟩ := h.isOpen fd hfd
  exact ⟨g, by rw [Descriptors.file_addFile, if_neg (Descriptors.ne_nextFd hg), hg]⟩

theorem addFiles (h : HandlesOpen handed t) (l : List OpenFile) :
    HandlesOpen handed (t.addFiles l) := by
  refine ⟨h.nodup, fun fd hfd => ?_⟩
  obtain ⟨g, hg⟩ := h.isOpen fd hfd
  exact ⟨g, Descriptors.file_addFiles hg l⟩

/-- A new descriptor is none of those handed out before. -/
theorem give (h : HandlesOpen handed t) (f : OpenFile) :
    HandlesOpen (t.nextFd :: handed) (t.addFile f) := by
  refine ⟨List.nodup_cons.mpr ⟨fun hmem => ?_, h.nodup⟩, fun fd hfd => ?_⟩
  · obtain ⟨g, hg⟩ := h.isOpen _ hmem
    exact Descriptors.ne_nextFd hg rfl
  · rcases List.mem_cons.mp hfd with rfl | hfd
    · exact ⟨f, by rw [Descriptors.file_addFile, if_pos rfl]⟩
    · exact (h.addFile f).isOpen fd hfd

/-- A handle that is given back and closed. -/
theorem take (h : HandlesOpen handed t) (fd : Int) :
    HandlesOpen (handed.filter (· ≠ fd)) (t.dropFile fd) := by
  refine ⟨h.nodup.filter _, fun k hk => ?_⟩
  obtain ⟨hmem, hne⟩ := List.mem_filter.mp hk
  obtain ⟨g, hg⟩ := h.isOpen k hmem
  exact ⟨g, by rw [Descriptors.file_dropFile, if_neg (by simpa using hne), hg]⟩

end HandlesOpen

/-! ## What leaks -/

/-- Whether a request that locks one directory opens it. -/
def LocksParent (f : Faults) (fs : FS) (p : CStr) (id : Int32) (opName : OpName) : Prop :=
  parentDirValidUnder f fs (getParentPath p) p id opName = true ∧
    (lockOpens (f.drop (checkCalls (getParentPath p) opName)) fs (getParentPath p)).isSome

/-- Whether a request opens something that its handler does not close: the parent directory that
is locked, and the file of a write at the secondary that fails. -/
def Leaks (f : Faults) (fs : FS) : Request → Prop
  | .mkdir arg => LocksParent f fs (translateAbspath arg.path) (atoi arg.ip) .mkdir
  | .rmdir arg => LocksParent f fs (translateAbspath arg.path) (atoi arg.ip) .rmdir
  | .mknod arg => LocksParent f fs (translateAbspath arg.path) (atoi arg.ip) .mknod
  | .unlink arg => LocksParent f fs (translateAbspath arg.path) (atoi arg.ip) .unlink
  | .rename arg =>
    let p := translateAbspath arg.path
    let q := translateAbspath arg.newpath
    renameChecks f fs p q (atoi arg.ip) = true ∧
      (lockOpens (renameFaults f p q) fs (getParentPath p)).isSome
  | .write arg => arg.byPath ∧ faulted f 0 = false ∧
    ∃ i n, fs.resolve (translateAbspath arg.path) = .ok i ∧ fs.node i = some n ∧
      (n.kind = .fifo ∨ (n.kind = .reg ∧ faulted f 2 = true))
  | _ => False

/-- A handler with one lock leaves a descriptor behind exactly when it opens the parent. -/
theorem lockLeaves_eq_nil {f : Faults} {fs : FS} {p : CStr} {id : Int32} {opName : OpName} :
    lockLeaves f fs p id opName = [] ↔ ¬ LocksParent f fs p id opName := by
  unfold lockLeaves lockedDir LocksParent
  split
  · next hv => simp [hv]
  · next hv => simp [hv]

/-- A rename leaves descriptors behind exactly when it opens its first parent. -/
theorem renameLeaves_eq_nil {f : Faults} {fs : FS} {p q : CStr} {id : Int32} :
    renameLeaves f fs p q id = [] ↔ renameFirst f fs p q id = none := by
  unfold renameLeaves
  constructor
  · intro h
    repeat' split at h
    all_goals first
      | assumption
      | cases h
  · intro h
    rw [h]

/-- The secondary leaves a descriptor behind when it has opened the file and cannot write it. -/
theorem writeLeaves_eq_nil {f : Faults} {fs : FS} {p : CStr} :
    writeLeaves f fs p = [] ↔ ¬ (faulted f 0 = false ∧ ∃ i n, fs.resolve p = .ok i ∧
      fs.node i = some n ∧ (n.kind = .fifo ∨ (n.kind = .reg ∧ faulted f 2 = true))) := by
  unfold writeLeaves
  cases hf : faulted f 0 with
  | true => simp
  | false =>
      cases hi : fs.resolve p with
      | error e => simp
      | ok i =>
          cases hn : fs.node i with
          | none => simp [hn]
          | some n => simp [hn]

/-- **No descriptor is left open** exactly when the request does not leak. -/
theorem leftOpen_eq_nil {f : Faults} {fs : FS} {r : Request} :
    leftOpen f fs r = [] ↔ ¬ Leaks f fs r := by
  cases r <;> simp only [leftOpen, Leaks, not_false_iff, lockLeaves_eq_nil]
  case rename arg =>
    rw [renameLeaves_eq_nil, renameFirst]
    split
    · next hv => simp [hv]
    · next hv => simp [hv]
  case write arg =>
    split
    · next hrole => rw [writeLeaves_eq_nil, and_iff_right hrole]
    · next hrole => exact iff_of_true rfl fun h => hrole h.1

/-! ## Runs -/

/-- The requests that hand no descriptor out and take none back, but use some of their own. -/
def Request.borrowsFds : Request → Bool
  | .mkdir _ | .rmdir _ | .mknod _ | .unlink _ | .rename _ | .write _ => true
  | _ => false

/-- What should hold after every request: nothing is open but what was open at the start and what
is handed out; and a request that only works with descriptors of its own leaves the table as it
found it. -/
def Balanced (h₀ : Host) (past : List (Event Disturbance Reply Host))
    (e : Event Disturbance Reply Host) : Prop :=
  e.post.os.fds.count = h₀.os.fds.count + (handles (past ++ [e])).length ∧
  (e.input.arrival.request.borrowsFds = true → Descriptors.Same e.pre.os.fds e.post.os.fds)

/-- The request does not leak, and closes nothing that was not handed out. -/
def KeepsBalance (past : List (Event Disturbance Reply Host))
    (e : Event Disturbance Reply Host) : Prop :=
  ¬ Leaks e.input.faults e.pre.os.fs e.input.arrival.request ∧
  ∀ fd, closing e.input.faults e.pre.os e.input.arrival.request = some fd → fd ∈ handles past

/-- A request that hands out a handle leaves no other descriptor behind. -/
theorem leftOpen_of_opens {f : Faults} {fs : FS} {r : Request} {reply : Reply} {fd : Int}
    (h : opens r reply = some fd) : leftOpen f fs r = [] ∧ r.borrowsFds = false := by
  cases r <;> first
    | exact ⟨rfl, rfl⟩
    | cases h

/-- A request that gives a handle back leaves none behind. -/
theorem leftOpen_of_closing {f : Faults} {os : OS} {fs : FS} {r : Request} {fd : Int}
    (h : closing f os r = some fd) : leftOpen f fs r = [] ∧ r.borrowsFds = false := by
  cases r <;> first
    | exact ⟨rfl, rfl⟩
    | cases h

/-- **One request.**  The handed-out descriptors stay open, and the balance is kept exactly when
the request keeps it. -/
theorem balance_step {past : List (Event Disturbance Reply Host)}
    {e : Event Disturbance Reply Host} {n : ℕ} (hopen : HandlesOpen (handles past) e.pre.os.fds)
    (hn : e.pre.os.fds.count = n + (handles past).length)
    (hs : answer e.input e.pre = .ok (e.output, e.post)) :
    HandlesOpen (handles (past ++ [e])) e.post.os.fds ∧
    ((e.post.os.fds.count = n + (handles (past ++ [e])).length ∧
      (e.input.arrival.request.borrowsFds = true →
        Descriptors.Same e.pre.os.fds e.post.os.fds)) ↔ KeepsBalance past e) := by
  have htable := serveUnder_table hs
  unfold KeepsBalance
  rw [← leftOpen_eq_nil]
  generalize e.post.os.fds = t at htable ⊢
  cases htable with
  | left ho hc hcl ht =>
      have hkeys : handles (past ++ [e]) = handles past := Ledger.keys_neither ho hc
      rw [hkeys, hcl]
      refine ⟨(hopen.addFiles _).same ht.1, ?_⟩
      have hcount := ht.1.count_eq
      rw [Descriptors.count_addFiles] at hcount
      constructor
      · rintro ⟨hbal, -⟩
        exact ⟨List.eq_nil_of_length_eq_zero (by omega), fun fd hfd => nomatch hfd⟩
      · rintro ⟨hleft, -⟩
        rw [hleft] at hcount ht
        exact ⟨by simp only [List.length_nil] at hcount; omega, fun _ => ht.1⟩
  | @opened flags i ho hc hcl _ =>
      have hkeys : handles (past ++ [e]) = (e.pre.os.fds.nextFd : Int) :: handles past :=
        Ledger.keys_gives ho hc
      obtain ⟨hleft, hborrow⟩ := @leftOpen_of_opens e.input.faults e.pre.os.fs _ _ _ ho
      rw [hkeys, hcl, hleft, hborrow]
      refine ⟨hopen.give _, iff_of_true ⟨?_, fun h => nomatch h⟩ ⟨rfl, fun fd hfd => nomatch hfd⟩⟩
      rw [Descriptors.count_addFile, List.length_cons]
      omega
  | @closed fd g ho hc hcl hg =>
      have hkeys : handles (past ++ [e]) = (handles past).filter (· ≠ fd) :=
        Ledger.keys_takes ho hc
      obtain ⟨hleft, hborrow⟩ := @leftOpen_of_closing _ _ e.pre.os.fs _ _ hcl
      have hlength : (handles (past ++ [e])).length + (if fd ∈ handles past then 1 else 0) =
          (handles past).length := Ledger.length_keys_takes ho hc hopen.nodup
      have hcount := Descriptors.count_dropFile hg
      rw [hborrow, hcl, hleft]
      refine ⟨hkeys ▸ hopen.take fd, ?_⟩
      constructor
      · rintro ⟨hbal, -⟩
        refine ⟨rfl, fun fd' hfd' => ?_⟩
        cases hfd'
        by_contra hnot
        rw [if_neg hnot] at hlength
        omega
      · rintro ⟨-, hmem⟩
        rw [if_pos (hmem fd rfl)] at hlength
        exact ⟨by omega, fun h => nomatch h⟩

/-- **No descriptor leaks, exactly when no request of the run leaks one.** -/
theorem descriptors_balanced_iff {h₀ h : Host} {tr : List (Event Disturbance Reply Host)}
    (hrun : Runs answer h₀ tr h) :
    Runs.Along (Balanced h₀) tr ↔ Runs.Along KeepsBalance tr := by
  refine hrun.along_iff (J := fun past h => HandlesOpen (handles past) h.os.fds ∧
    h.os.fds.count = h₀.os.fds.count + (handles past).length) ⟨.nil _, rfl⟩
    fun past e hJ hs => ?_
  obtain ⟨hopen, hiff⟩ := balance_step hJ.1 hJ.2 hs
  exact ⟨hiff, fun hbal => ⟨hopen, hbal.1⟩⟩

/-- The root directory `/DFS` with one file in it that everybody may read. -/
def publicFile : FS := .ofNodes [
  .plain (.dir 0 [("DFS".toList, 1)]) 0 0o755,
  .plain (.dir 0 [("f".toList, 2)]) 0 0o777,
  .plain (.reg []) 1 0o644]

/-- An open that hands out its descriptor. -/
theorem descriptors_balanced_iff_open : ∃ reply h,
    answer ⟨.alone (.openFile ⟨"2".toList, "/f".toList, O_RDONLY⟩), []⟩ (.start publicFile) =
      .ok (reply, h) ∧ reply.ret = 0 ∧
    let e : Event Disturbance Reply Host := ⟨.start publicFile,
      ⟨.alone (.openFile ⟨"2".toList, "/f".toList, O_RDONLY⟩), []⟩, reply, h⟩
    Runs.Along (Balanced (.start publicFile)) [e] ↔ Runs.Along KeepsBalance [e] := by
  have hrun : (answer ⟨.alone (.openFile ⟨"2".toList, "/f".toList, O_RDONLY⟩), []⟩
      (.start publicFile)).map (fun r => r.1.ret) = .ok 0 := by rfl
  obtain ⟨⟨reply, h⟩, hs, hret⟩ := map_eq_ok.mp hrun
  exact ⟨reply, h, hs, hret, descriptors_balanced_iff (.single hs)⟩

/-- Making a directory leaves the descriptor of its parent open. -/
theorem mkdir_leaks : ¬ ∀ (h₀ h : Host) (tr : List (Event Disturbance Reply Host)),
    Runs answer h₀ tr h → Runs.Along (Balanced h₀) tr := by
  intro hall
  have hrun : (answer ⟨.alone (.mkdir ⟨"2".toList, ⟨1, 1⟩, "/d".toList, 0o755⟩), []⟩
      (.start publicFile)).map (fun r => r.2.os.fds.count) =
      .ok ((Host.start publicFile).os.fds.count + 1) := by rfl
  obtain ⟨⟨reply, h⟩, hs, hcount⟩ := map_eq_ok.mp hrun
  have hbal := (hall _ _ _ (.single hs) [] _ [] rfl).1
  have hkeys : handles [⟨Host.start publicFile,
      ⟨.alone (.mkdir ⟨"2".toList, ⟨1, 1⟩, "/d".toList, 0o755⟩), []⟩, reply, h⟩] = [] := rfl
  rw [List.nil_append, hkeys] at hbal
  change h.os.fds.count = _ at hbal
  change h.os.fds.count = _ at hcount
  rw [hcount] at hbal
  simp at hbal

end DFS
