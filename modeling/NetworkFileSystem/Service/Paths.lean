import NetworkFileSystem.Replication.Forwarding
import NetworkFileSystem.Server.Buffers

/-!
# Paths that do not fit

Every handler that gets a path translates it into a buffer of `MAX_PATH_LEN` characters before it
does anything with it, and none of them looks at the length of the path first: each goes on to a
system call (`issues_os`), so that no request is refused for its path.  The buffers are kept within
their bounds exactly for paths that are short enough (**`paths_safe_iff`**).
-/

namespace DFS

open Effects Posix Prog Strings

/-- The paths that the handler of a request passes to `translate_abspath`; a write translates its
path on the secondary only. -/
def Request.translated : Request → List CStr
  | .initRootdir argp => [argp.rootdir]
  | .getattr argp => [argp.path]
  | .access argp => [argp.path]
  | .mkdir argp => [argp.path]
  | .rmdir argp => [argp.path]
  | .opendir argp => [argp.path]
  | .rename argp => [argp.path, argp.newpath]
  | .symlink argp => [argp.link]
  | .link argp => [argp.path, argp.newpath]
  | .readlink argp => [argp.path]
  | .mknod argp => [argp.path]
  | .truncate argp => [argp.path]
  | .unlink argp => [argp.path]
  | .utime argp => [argp.path]
  | .chmod argp => [argp.path]
  | .chown argp => [argp.path]
  | .openFile argp => [argp.path]
  | .write argp =>
    if argp.serverInfo.isMaster = 0 ∧ argp.serverInfo.isDegraded = 0 then [argp.path] else []
  | .statfs argp => [argp.path]
  | .readdir _ | .releasedir _ | .release _ | .read _ => []

/-- The path is written into its buffer, whatever the buffer held before, and ends with a NUL
there. -/
def WellTranslated (p : CStr) : Prop :=
  ∀ buf : Buffer.PathBuf, ∃ f, Buffer.translateAbspath buf p = some f ∧ Terminated f

/-- What is in the buffer then has a last slash, and the parent is written into its buffer and
ends with a NUL there. -/
def WellSplit (p : CStr) : Prop :=
  ∀ (buf buf' : Buffer.PathBuf) (fpath : CStr), Buffer.translated buf p = some fpath →
    0 ≤ getLastSlash fpath ∧ getLastSlash fpath < maxPathLen ∧
      ∃ g, Buffer.getParentPath buf' fpath = some g ∧ Terminated g

/-- The handler replies with an error and issues no system call. -/
def Refuses (stale : Stale) (peer : Peer) (r : Request) (h : Host) : Prop :=
  (compute6 stale r).Each (server peer) (fun e _ => ¬ e.IsOs) h ∧
    (compute6 stale r).wp (server peer) (fun reply _ => reply.ret < 0) (fun _ => False) h

/-- The buffers of paths are safe when a server answers the request. -/
def PathsSafe (stale : Stale) (peer : Peer) (h : Host) (r : Request) : Prop :=
  ∀ p ∈ r.translated, (WellTranslated p ∨ Refuses stale peer r h) ∧ WellSplit p

/-! ## Every handler issues a system call -/

section

variable {α : Type} {peer : Peer} {h : Host}

/-- A program that starts with a system call. -/
theorem issues_sys {β : Type} (c : Sys β) (k : β → Server α) :
    (sys c >>= k).Issues (server peer) (fun e _ => e.IsOs) h := .inl trivial

theorem issues_lstat {p ip : CStr} {flags : UInt32} (k : Int → Server α) :
    (isOpValid p ip flags >>= k).Issues (server peer) (fun e _ => e.IsOs) h := .inl trivial

theorem issues_isOwner {p ip : CStr} (k : Bool → Server α) :
    (isOwner p ip >>= k).Issues (server peer) (fun e _ => e.IsOs) h := .inl trivial

/-- Forwarding comes first, and then the rest. -/
theorem issues_transmit {info : Identity} {slaveArg : Identity → Request} {rest : Server α}
    (hrest : ∀ h, rest.Issues (server peer) (fun e _ => e.IsOs) h) :
    (transmitToSecondaty info slaveArg >>= fun _ => rest).Issues (server peer)
      (fun e _ => e.IsOs) h := by
  obtain ⟨sent, hrun⟩ := @run_transmit peer h info slaveArg
  exact issues_bind.mpr (.inr ⟨(), _, hrun, hrest _⟩)

/-- The check of a parent directory looks at a file, or leaves everything to the rest. -/
theorem issues_checkParent {p q ip : CStr} {op : OpName} {rest : Server StatusRet}
    (hrest : ∀ h, rest.Issues (server peer) (fun e _ => e.IsOs) h) :
    (checkParentDirectoryValid p q ip op rest).Issues (server peer) (fun e _ => e.IsOs) h := by
  unfold checkParentDirectoryValid isParentDirValid
  by_cases hroot : p = dfsRoot
  · by_cases hop : op = .rmdir ∨ op = .unlink
    · simp only [if_pos hroot, if_pos hop]
      exact .inl trivial
    · simp only [if_pos hroot, if_neg hop]
      exact hrest h
  · simp only [if_neg hroot]
    exact .inl trivial

theorem issues_lockDirectory {parentPath : CStr} (rest : Int → Server StatusRet) :
    (lockDirectory parentPath rest).Issues (server peer) (fun e _ => e.IsOs) h := .inl trivial

/-- No request is answered without a system call. -/
theorem issues_os (stale : Stale) (peer : Peer) (r : Request) (h : Host) :
    (compute6 stale r).Issues (server peer) (fun e _ => e.IsOs) h := by
  cases r <;> refine issues_map.mpr ?_
  case initRootdir argp => exact issues_transmit fun _ => issues_sys _ _
  case getattr argp => exact issues_sys _ _
  case access argp => exact issues_sys _ _
  case mkdir argp =>
    exact issues_transmit fun _ => issues_checkParent fun _ => issues_lockDirectory _
  case rmdir argp =>
    exact issues_transmit fun _ => issues_checkParent fun _ => issues_lockDirectory _
  case opendir argp => exact issues_lstat _
  case readdir argp => exact issues_sys _ _
  case releasedir argp => exact issues_sys _ _
  case rename argp =>
    exact issues_transmit fun _ => issues_checkParent fun _ => issues_checkParent fun _ =>
      issues_lockDirectory _
  case symlink argp => exact issues_transmit fun _ => issues_checkParent fun _ => issues_sys _ _
  case link argp =>
    exact issues_transmit fun _ => issues_checkParent fun _ => issues_checkParent fun _ =>
      issues_sys _ _
  case readlink argp => exact issues_sys _ _
  case mknod argp =>
    exact issues_transmit fun _ => issues_checkParent fun _ => issues_lockDirectory _
  case truncate argp => exact issues_transmit fun _ => issues_sys _ _
  case unlink argp =>
    exact issues_transmit fun _ => issues_checkParent fun _ => issues_lockDirectory _
  case utime argp => exact issues_transmit fun _ => issues_isOwner _
  case chmod argp => exact issues_transmit fun _ => issues_isOwner _
  case chown argp => exact issues_transmit fun _ => issues_sys _ _
  case openFile argp => exact issues_lstat _
  case release argp => exact issues_sys _ _
  case read argp => exact issues_sys _ _
  case write argp =>
    refine issues_transmit fun h' => ?_
    dsimp only
    split
    · exact issues_sys _ _
    · exact issues_sys _ _
  case statfs argp => exact issues_sys _ _

theorem not_refuses (stale : Stale) (peer : Peer) (r : Request) (h : Host) :
    ¬ Refuses stale peer r h := by
  intro hr
  exact not_issues_iff.mpr hr.1 (issues_os stale peer r h)

end

/-! ## The bound -/

variable {p : CStr}

/-- How long a translation is. -/
theorem translate_length (p : CStr) : (translateAbspath p).length < maxPathLen ↔
    p.length + (if p.head? = some '/' then 4 else 5) < maxPathLen := by
  rw [translateAbspath]
  by_cases hroot : p = ['/']
  · subst hroot
    decide
  · by_cases hslash : p.head? = some '/'
    · rw [if_neg hroot, if_neg (not_not_intro hslash), if_pos hslash, List.length_append,
        Nat.add_comm]
      rfl
    · rw [if_neg hroot, if_pos hslash, if_neg hslash, List.length_append, List.length_cons,
        show dfsRoot.length = 4 from rfl]
      omega

theorem wellTranslated_iff : WellTranslated p ↔ (translateAbspath p).length < maxPathLen := by
  constructor
  · intro h
    obtain ⟨f, hf, -⟩ := h (padded maxPathLen [])
    rw [Buffer.translateAbspath_eq] at hf
    by_contra hlong
    rw [if_neg hlong] at hf
    cases hf
  · intro h buf
    exact ⟨_, (Buffer.translateAbspath_eq buf p).trans (if_pos h), terminated_padded h⟩

/-- A translation starts with a slash. -/
theorem translate_slash (p : CStr) : ∃ t, translateAbspath p = '/' :: t := by
  rw [translateAbspath]
  split
  · exact ⟨_, rfl⟩
  · split <;> exact ⟨_, rfl⟩

/-- Splitting what was translated within bounds stays within bounds. -/
theorem wellSplit (p : CStr) : WellSplit p := by
  intro buf buf' fpath hf
  rw [Buffer.translated, Buffer.translateAbspath_eq] at hf
  split at hf
  · next hshort =>
    change string (padded maxPathLen (translateAbspath p)) = some fpath at hf
    have hlen := string_length hf
    have hmem : '/' ∈ fpath := by
      obtain ⟨t, ht⟩ := translate_slash p
      rw [string, if_pos (terminated_padded hshort), toList_padded (Nat.le_of_lt hshort), ht] at hf
      rw [← Option.some.inj hf]
      simp
    obtain ⟨d, b, rfl, hb⟩ := Buffer.exists_last_slash hmem
    have hd : d.length < maxPathLen := by
      rw [List.length_append] at hlen
      omega
    rw [Buffer.getLastSlash_eq hb]
    exact ⟨Int.natCast_nonneg _, Int.ofNat_lt.mpr hd, _,
      Buffer.getParentPath_eq buf' hb (Nat.le_of_lt hd), terminated_padded hd⟩
  · cases hf

/-- **Path buffers.**  The buffers stay within their bounds exactly when every path that the
handler translates is short enough for the root in front of it, a slash where one is added, and
the NUL. -/
theorem paths_safe_iff (stale : Stale) (peer : Peer) (h : Host) (r : Request) :
    PathsSafe stale peer h r ↔ ∀ p ∈ r.translated,
      p.length + (if p.head? = some '/' then 4 else 5) < maxPathLen := by
  refine forall₂_congr fun p _ => ?_
  rw [or_iff_left (not_refuses stale peer r h), and_iff_left (wellSplit p), wellTranslated_iff]
  exact translate_length p

/-- A path of 196 characters. -/
def longPath : CStr := '/' :: List.replicate 195 'a'

theorem longPath_length : longPath.length = 196 := by
  rw [longPath, List.length_cons, List.length_replicate]

/-- The client sends the path as it is, and the server writes the NUL behind its buffer. -/
theorem paths_overrun :
    Buffer.bbFullpath (padded Buffer.pathMax []) longPath =
      some (padded Buffer.pathMax longPath) ∧
    ¬ PathsSafe .zero .absent (.start (.ofNodes [])) (.getattr ⟨"1".toList, longPath⟩) := by
  refine ⟨Buffer.bbFullpath_eq _ (by rw [longPath_length]; decide), ?_⟩
  intro hsafe
  have hmem : longPath ∈ (Request.getattr ⟨"1".toList, longPath⟩).translated :=
    List.mem_singleton.mpr rfl
  have hshort := wellTranslated_iff.mp ((hsafe longPath hmem).1.resolve_right
    (not_refuses _ _ _ _))
  have hbound := (translate_length longPath).mp hshort
  rw [longPath_length] at hbound
  exact absurd hbound (by decide)

end DFS
