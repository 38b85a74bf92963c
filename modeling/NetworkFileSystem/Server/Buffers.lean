import NetworkFileSystem.Formats.Strings
import NetworkFileSystem.Formats.Words
import NetworkFileSystem.Server.Access

/-!
# The buffers of paths (`fuse_rpc_server.c`, lines 132-148 and 240-256, `tweakfs.c`, 155-173)

`translate_abspath` and `get_parent_path` as the source writes them, on buffers of `MAX_PATH_LEN`
characters whose old content is arbitrary, and `bb_fullpath` on one of `PATH_MAX`.  Each of them
leaves the string that the function of the same name over strings yields, or writes outside the
buffer (`translateAbspath_eq`, `getParentPath_eq`, `bbFullpath_eq`).

The path that is translated is split at its last slash: **`translation_exact`**.
-/

namespace DFS

namespace Buffer

open Posix Strings

/-- `char buf[MAX_PATH_LEN]`. -/
abbrev PathBuf := Chars maxPathLen

/-- `translate_abspath`. -/
def translateAbspath (buf : PathBuf) (path : CStr) : Option PathBuf := do
  let buf ← memset buf '\x00' maxPathLen
  let buf ← strncpy buf dfsRoot dfsRoot.length
  -- Path from client is root '/'.
  if path = ['/'] then return buf
  else
    let buf ← if path.head? ≠ some '/' then put buf 4 ['/'] else pure buf
    strncat buf path path.length

/-- `get_parent_path`: the index of the last slash is converted to a `size_t`. -/
def getParentPath (buf : PathBuf) (fpath : CStr) : Option PathBuf := do
  let buf ← memset buf '\x00' maxPathLen
  let lastSlashIdx := getLastSlash fpath
  strncpy buf fpath (UInt64.ofInt lastSlashIdx).toNat

/-- `PATH_MAX`. -/
abbrev pathMax : ℕ := 4096

/-- `bb_fullpath` of the client. -/
def bbFullpath (fpath : Chars pathMax) (path : CStr) : Option (Chars pathMax) := do
  let fpath ← memset fpath '\x00' pathMax
  strncpy fpath path path.length

/-- The string that `translate_abspath` leaves in its buffer. -/
def translated (buf : PathBuf) (path : CStr) : Option CStr := translateAbspath buf path >>= string

/-- The string that `get_parent_path` leaves in its buffer. -/
def parentOf (buf : PathBuf) (fpath : CStr) : Option CStr := getParentPath buf fpath >>= string

variable {buf buf' : PathBuf} {p q d b d' b' : CStr}

/-! ## The last slash -/

theorem getLastSlashFrom_append (d t : CStr) (i idx : Int) :
    getLastSlashFrom (d ++ t) i idx =
      getLastSlashFrom t (i + d.length) (getLastSlashFrom d i idx) := by
  induction d generalizing i idx with
  | nil => simp [getLastSlashFrom]
  | cons c d ih =>
      rw [List.cons_append, getLastSlashFrom, ih, getLastSlashFrom, List.length_cons]
      congr 1
      push_cast
      omega

/-- Nothing is found where there is no slash. -/
theorem getLastSlashFrom_of_not_mem (h : '/' ∉ b) (i idx : Int) :
    getLastSlashFrom b i idx = idx := by
  induction b generalizing i with
  | nil => rfl
  | cons c b ih =>
      rw [List.mem_cons, not_or] at h
      rw [getLastSlashFrom, if_neg (Ne.symm h.1)]
      exact ih h.2 (i + 1)

/-- The last slash is the one before the name. -/
theorem getLastSlash_eq (h : '/' ∉ b) : getLastSlash (d ++ '/' :: b) = d.length := by
  rw [getLastSlash, getLastSlashFrom_append, getLastSlashFrom, if_pos rfl,
    getLastSlashFrom_of_not_mem h, zero_add]

/-- A string with a slash has a last one. -/
theorem exists_last_slash (h : '/' ∈ p) : ∃ d b, p = d ++ '/' :: b ∧ '/' ∉ b := by
  induction p with
  | nil => cases h
  | cons c p ih =>
      by_cases hp : '/' ∈ p
      · obtain ⟨d, b, rfl, hb⟩ := ih hp
        exact ⟨c :: d, b, rfl, hb⟩
      · have hc : '/' = c := (List.mem_cons.mp h).resolve_right hp
        exact ⟨[], p, by rw [hc]; rfl, hp⟩

/-- There is one way only to split a string at its last slash. -/
theorem last_slash_unique (h : d ++ '/' :: b = d' ++ '/' :: b') (hb : '/' ∉ b) (hb' : '/' ∉ b') :
    d = d' ∧ b = b' := by
  have hlen : (d.length : Int) = d'.length := by
    rw [← getLastSlash_eq hb, h, getLastSlash_eq hb']
  have hsplit := List.append_inj h (Int.ofNat.inj hlen)
  exact ⟨hsplit.1, (List.cons.inj hsplit.2).2⟩

/-- The parent of a string with a slash is what stands before the last one. -/
theorem parent_eq (h : '/' ∉ b) : DFS.getParentPath (d ++ '/' :: b) = d := by
  rw [DFS.getParentPath, getLastSlash_eq h]
  simp

/-- What follows the root holds the last slash, unless that is the one behind the root. -/
theorem split_root_iff (h : dfsRoot ++ '/' :: p = d ++ '/' :: b) (hb : '/' ∉ b) :
    d = dfsRoot ↔ '/' ∉ p := by
  constructor
  · rintro rfl
    rw [(List.cons.inj (List.append_cancel_left h)).2]
    exact hb
  · intro hp
    exact (last_slash_unique h.symm hb hp).1

/-! ## What the two routines leave -/

/-- The part of a path behind one slash at its start. -/
def withoutSlash (p : CStr) : CStr := if p.head? = some '/' then p.tail else p

theorem translate_root : DFS.translateAbspath ['/'] = dfsRoot := rfl

/-- Every path but `/` goes behind `/DFS`, without its first slash. -/
theorem translate_eq (h : p ≠ ['/']) :
    DFS.translateAbspath p = dfsRoot ++ '/' :: withoutSlash p := by
  rw [DFS.translateAbspath, if_neg h, withoutSlash]
  cases p with
  | nil => rfl
  | cons c p =>
      by_cases hc : c = '/'
      · subst hc
        simp
      · simp [hc]

/-- The parent is the root exactly for a path that is a single name, with one slash before it or
none. -/
theorem parent_eq_root_iff : DFS.getParentPath (DFS.translateAbspath p) = dfsRoot ↔
    p ≠ ['/'] ∧ '/' ∉ withoutSlash p := by
  by_cases hroot : p = ['/']
  · subst hroot
    decide
  · have hmem : '/' ∈ DFS.translateAbspath p := by simp [translate_eq hroot]
    obtain ⟨d, b, hsplit, hb⟩ := exists_last_slash hmem
    rw [hsplit, parent_eq hb, and_iff_right hroot]
    rw [translate_eq hroot] at hsplit
    exact split_root_iff hsplit hb

/-- **`translate_abspath`.**  The path of the file on the server, where there is room for it and a
NUL. -/
theorem translateAbspath_eq (buf : PathBuf) (p : CStr) : translateAbspath buf p =
    if (DFS.translateAbspath p).length < maxPathLen then
      some (padded maxPathLen (DFS.translateAbspath p))
    else none := by
  have hroot : strncpy (padded maxPathLen []) dfsRoot dfsRoot.length =
      some (padded maxPathLen dfsRoot) := strncpy_padded (by decide) (by decide)
  have hslash : put (padded maxPathLen dfsRoot) 4 ['/'] =
      some (padded maxPathLen (dfsRoot ++ ['/'])) := put_padded (by decide)
  simp only [translateAbspath, memset_zero, Option.bind_eq_bind, Option.bind_some, hroot]
  by_cases hp : p = ['/']
  · subst hp
    rw [if_pos rfl, translate_root]
    rfl
  · rw [if_neg hp]
    by_cases hh : p.head? = some '/'
    · have hnul : '\x00' ∉ dfsRoot := by decide
      have hcat := strncat_padded (t := p) (m := p.length) hnul
        (show dfsRoot.length < maxPathLen by decide)
      have htrans : DFS.translateAbspath p = dfsRoot ++ p := by
        rw [DFS.translateAbspath, if_neg hp, if_neg (not_not_intro hh)]
      rw [List.take_length] at hcat
      rw [if_neg (not_not_intro hh), htrans, List.length_append]
      exact hcat
    · have hnul : '\x00' ∉ dfsRoot ++ ['/'] := by decide
      have hcat := strncat_padded (t := p) (m := p.length) hnul
        (show (dfsRoot ++ ['/']).length < maxPathLen by decide)
      have htrans : DFS.translateAbspath p = dfsRoot ++ ['/'] ++ p := by
        rw [DFS.translateAbspath, if_neg hp, if_pos hh, List.append_assoc, List.singleton_append]
      rw [List.take_length] at hcat
      rw [if_pos hh, hslash, htrans, List.length_append]
      exact hcat

theorem getParentPath_eq (buf : PathBuf) (hb : '/' ∉ b) (hd : d.length ≤ maxPathLen) :
    getParentPath buf (d ++ '/' :: b) = some (padded maxPathLen d) := by
  have hsize : (UInt64.ofInt (d.length : Int)).toNat = d.length := by
    have hlt : d.length ≤ 200 := hd
    rw [Words.toNat_ofInt64]
    omega
  rw [getParentPath, memset_zero, getLastSlash_eq hb]
  change strncpy _ _ (UInt64.ofInt (d.length : Int)).toNat = _
  rw [hsize, strncpy_padded hd (by simp), List.take_left]

/-- The client sends a path as it is. -/
theorem bbFullpath_eq (fpath : Chars pathMax) (hp : p.length ≤ pathMax) :
    bbFullpath fpath p = some (padded pathMax p) := by
  rw [bbFullpath, memset_zero]
  change strncpy _ _ _ = _
  rw [strncpy_padded hp (Nat.le_refl _), List.take_length]

/-! ## Translation and splitting -/

/-- A string whose translation fits its buffer. -/
structure Fits (p : CStr) : Prop where
  nul : '\x00' ∉ p
  short : (DFS.translateAbspath p).length < maxPathLen

theorem Fits.translate_nul (h : Fits p) : '\x00' ∉ DFS.translateAbspath p := by
  have hroot : '\x00' ∉ dfsRoot := by decide
  have hnul := h.nul
  rw [DFS.translateAbspath]
  split
  · exact hroot
  · split <;> simp [hroot, hnul]

theorem Fits.translated_eq (h : Fits p) (buf : PathBuf) :
    translated buf p = some (DFS.translateAbspath p) := by
  rw [translated, translateAbspath_eq, if_pos h.short]
  exact string_padded h.translate_nul h.short

/-- On paths that start with a slash nothing is lost. -/
theorem translate_injective (hp : p.head? = some '/') (hq : q.head? = some '/')
    (h : DFS.translateAbspath p = DFS.translateAbspath q) : p = q := by
  -- A path that starts with a slash stands behind the root as it is, unless it is the root.
  have hform : ∀ {r : CStr}, r.head? = some '/' → r ≠ ['/'] →
      DFS.translateAbspath r = dfsRoot ++ r := by
    intro r hr hne
    rw [DFS.translateAbspath, if_neg hne, if_neg (by simp [hr])]
  have hroot : ∀ {r : CStr}, r.head? = some '/' → r ≠ ['/'] → dfsRoot ≠ dfsRoot ++ r := by
    intro r hr _ heq
    rw [List.self_eq_append_right.mp heq] at hr
    cases hr
  by_cases hp1 : p = ['/']
  · by_cases hq1 : q = ['/']
    · rw [hp1, hq1]
    · rw [hp1, translate_root, hform hq hq1] at h
      exact absurd h (hroot hq hq1)
  · by_cases hq1 : q = ['/']
    · rw [hq1, translate_root, hform hp hp1] at h
      exact absurd h.symm (hroot hp hp1)
    · rw [hform hp hp1, hform hq hq1] at h
      exact List.append_cancel_left h

/-- The parent directory of a path other than the root. -/
theorem Fits.parentOf_eq (h : Fits p) (hsplit : DFS.translateAbspath p = d ++ '/' :: b)
    (hb : '/' ∉ b) (buf : PathBuf) : parentOf buf (DFS.translateAbspath p) = some d := by
  have hshort := h.short
  have hnul := h.translate_nul
  rw [hsplit, List.length_append] at hshort
  rw [hsplit, List.mem_append, not_or] at hnul
  have hd : d.length < maxPathLen := by omega
  rw [parentOf, hsplit, getParentPath_eq buf hb (Nat.le_of_lt hd)]
  exact string_padded hnul.1 hd

/-- **Translation and splitting are exact.**  Whatever the buffers held before: the translation is
`/DFS` for the root and otherwise `/DFS`, a slash unless the path starts with one, and the path; it
loses nothing of a path that starts with a slash; and the parent is what stands before the last
slash, which is `/DFS` exactly for the names directly below the root. -/
theorem translation_exact (hp : Fits p) (hq : Fits q) :
    translated buf p = some (if p = ['/'] then dfsRoot
      else dfsRoot ++ (if p.head? = some '/' then [] else ['/']) ++ p) ∧
    (p.head? = some '/' → q.head? = some '/' → translated buf p = translated buf' q → p = q) ∧
    (p ≠ ['/'] → ∃ f d, translated buf p = some f ∧ parentOf buf' f = some d ∧
      (∃ b, f = d ++ '/' :: b ∧ '/' ∉ b) ∧
      (∀ d' b', f = d' ++ '/' :: b' → '/' ∉ b' → d' = d) ∧
      (d = dfsRoot ↔ '/' ∉ withoutSlash p)) := by
  refine ⟨?_, ?_, ?_⟩
  · rw [hp.translated_eq, DFS.translateAbspath]
    by_cases hroot : p = ['/']
    · rw [if_pos hroot, if_pos hroot]
    · by_cases hslash : p.head? = some '/' <;> simp [hroot, hslash]
  · intro hps hqs h
    rw [hp.translated_eq, hq.translated_eq] at h
    exact translate_injective hps hqs (Option.some.inj h)
  · intro hroot
    have hform := translate_eq hroot
    have hmem : '/' ∈ DFS.translateAbspath p := by simp [hform]
    obtain ⟨d, b, hsplit, hb⟩ := exists_last_slash hmem
    refine ⟨DFS.translateAbspath p, d, hp.translated_eq buf, hp.parentOf_eq hsplit hb buf',
      ⟨b, hsplit, hb⟩, ?_, ?_⟩
    · intro d' b' h hb'
      rw [hsplit] at h
      exact (last_slash_unique h.symm hb' hb).1
    · rw [hform] at hsplit
      exact split_root_iff hsplit hb

/-- A path that does not start with a slash. -/
theorem translation_exact_relative :
    translated (padded maxPathLen []) "a/b".toList = some "/DFS/a/b".toList ∧
      parentOf (padded maxPathLen []) "/DFS/a/b".toList = some "/DFS/a".toList := by
  have hp : Fits "a/b".toList := ⟨by decide, by decide⟩
  have hq : Fits "/a/b".toList := ⟨by decide, by decide⟩
  obtain ⟨htranslated, -, hparent⟩ :=
    @translation_exact (padded maxPathLen []) (padded maxPathLen []) _ _ hp hq
  obtain ⟨f, d, hf, hd, ⟨b, hsplit, hb⟩, -, -⟩ := hparent (by decide)
  have hfe : f = "/DFS/a/b".toList := by
    rw [htranslated] at hf
    exact (Option.some.inj hf).symm
  refine ⟨htranslated, ?_⟩
  have hde : d = "/DFS/a".toList := by
    rw [hfe] at hsplit
    have hname : "/DFS/a/b".toList = "/DFS/a".toList ++ '/' :: "b".toList := rfl
    exact (last_slash_unique (hsplit.symm.trans hname) hb (by decide)).1
  rw [← hfe, hd, hde]

end Buffer

end DFS
