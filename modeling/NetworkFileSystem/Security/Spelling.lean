import NetworkFileSystem.Posix.Links
import NetworkFileSystem.Security.SharedRoot
import NetworkFileSystem.Server.Buffers
import NetworkFileSystem.Service.Checks

/-!
# How a path is spelled (`is_parent_dir_valid`)

The check of the parent directory takes the parent from the text of the path.  A parent that is
spelled `/DFS` is the shared root, where the owner of the entry decides about a removal; any other
spelling of the same directory is judged by the permission bits of what `lstat` finds there.

Two paths that name the same entry are therefore judged alike when both are spelled as a single
name, or neither is and neither parent ends in a symbolic link or a slash of its own; otherwise
only where the two rules happen to agree (**`spelling_iff`**).
-/

namespace Posix

open Effects

namespace FS

variable {fs : FS} {p : CStr} {d i : Ino} {x : Name}

/-- The slot of a path that does not end in a slash, by the part before the last slash. -/
theorem slot_split {front : CStr} {b : Name} (hb : '/' ∉ b) (hne : b ≠ [])
    (h : fs.slot (front ++ '/' :: b) = .ok (d, x)) : x = b ∧
      getname (front ++ '/' :: b) = .ok () ∧
      fs.walk maxSymlinks fs.root (components front) = .ok d ∧ ∃ r, fs.dir d = .ok r := by
  have hcomps : components (front ++ '/' :: b) = components front ++ [b] := by
    rw [components_append_slash, components_name hne hb]
  have hx : x = b := by
    unfold slot at h
    rw [hcomps] at h
    simp only [List.getLast?_append, List.getLast?_singleton, Option.some_or, bind_eq_ok,
      pure_eq_ok, Prod.mk.injEq] at h
    obtain ⟨-, -, -, -, -, -, -, rfl⟩ := h
    rfl
  obtain ⟨hg, -, way, hway, hw, hr⟩ := slot_eq_ok.mp ⟨h, hx ▸ hne⟩
  rw [hcomps] at hway
  rw [(List.append_inj' hway rfl).1]
  exact ⟨hx, hg, hw, hr⟩

/-- The part before the last slash leads to the directory of the entry. -/
theorem resolve_front {front : CStr} {b : Name} (hb : '/' ∉ b) (hne : b ≠ []) (hf : front ≠ [])
    (h : fs.slot (front ++ '/' :: b) = .ok (d, x)) : fs.resolve front = .ok d := by
  obtain ⟨-, hg, hw, r, hr⟩ := slot_split hb hne h
  have hlen : (front ++ '/' :: b).length < 4096 := (getname_eq_ok.mp hg).2
  refine resolve_eq_ok.mpr ⟨getname_eq_ok.mpr ⟨hf, ?_⟩, walk_append hw fun m => ?_⟩
  · rw [List.length_append] at hlen
    omega
  · split
    · -- A slash at the end: one more step, to the directory itself.
      obtain ⟨n, hn, hb⟩ := dir_eq_ok.mp hr
      refine walk_cons_eq_ok.mpr ⟨d, ?_, .inl ⟨linkTarget_of_dir hr, walk_nil⟩⟩
      exact child_eq_ok.mpr ⟨r.1, r.2, hr, by decide, by simp [pick], by rw [hn]; rfl⟩
    · exact walk_nil

/-- `lstat` finds something wherever a lookup that follows links does. -/
theorem lresolve_of_resolve (h : fs.resolve p = .ok i) : ∃ j, fs.lresolve p = .ok j := by
  obtain ⟨hg, hw⟩ := resolve_eq_ok.mp h
  have hne : walkComps p ≠ [] := fun hnil => (getname_eq_ok.mp hg).1 (walkComps_eq_nil.mp hnil)
  rw [← List.dropLast_append_getLast hne] at hw
  obtain ⟨e, m, -, he, hlast⟩ := walk_split hw
  obtain ⟨j, hj, -⟩ := walk_cons_eq_ok.mp hlast
  exact ⟨j, lresolve_eq_ok.mpr ⟨hg, _, _, e, (List.dropLast_append_getLast hne).symm, he, hj⟩⟩

/-- `lstat` on a path that does not end in a slash looks the entry up. -/
theorem lresolve_split {front : CStr} {b : Name} (hb : '/' ∉ b) (hne : b ≠ [])
    (h : fs.slot (front ++ '/' :: b) = .ok (d, x)) :
    fs.lresolve (front ++ '/' :: b) = fs.child d x := by
  obtain ⟨rfl, hg, hw, -⟩ := slot_split hb hne h
  have htrail : trailing (front ++ '/' :: x) = false := by
    have hlast : x.getLast hne ≠ '/' := fun hc => hb (hc ▸ List.getLast_mem hne)
    simp [trailing, List.getLast?_append, List.getLast?_cons, List.getLast?_eq_some_getLast hne,
      hlast]
  unfold lresolve walkComps
  rw [hg, ok_bind, htrail, components_append_slash, components_name hne hb]
  simp [hw]

end FS

end Posix

namespace DFS

open Effects Posix Prog

/-- `is_parent_dir_valid`, called as the handlers call it. -/
def parentCheck (p ip : CStr) (op : OpName) : Server Bool :=
  let fpath := translateAbspath p
  isParentDirValid (getParentPath fpath) fpath ip op

/-- The check gives the same answer for both paths. -/
def SameAnswer (peer : Peer) (h : Host) (ip : CStr) (op : OpName) (p q : CStr) : Prop :=
  ((parentCheck p ip op).run (server peer) h).map (·.1) =
    ((parentCheck q ip op).run (server peer) h).map (·.1)

/-- The path names the entry `x` of the directory `d`. -/
def Names (fs : FS) (p : CStr) (d : Ino) (x : Name) : Prop :=
  fs.slot (translateAbspath p) = .ok (d, x)

/-- A single name, with one slash before it or none. -/
def Top (p : CStr) : Prop := p ≠ ['/'] ∧ '/' ∉ Buffer.withoutSlash p

instance (p : CStr) : Decidable (Top p) := inferInstanceAs (Decidable (_ ∧ _))

/-- The operations that remove an entry. -/
def OpName.deletes : OpName → Bool
  | .rmdir | .unlink => true
  | _ => false

/-- The path does not end in a slash, and what stands before its last slash does not end in a
symbolic link. -/
structure PlainPath (fs : FS) (p : CStr) : Prop where
  ends : trailing (translateAbspath p) = false
  front : p ≠ ['/']
  link : ∀ j, fs.lresolve (getParentPath (translateAbspath p)) = .ok j → fs.linkTarget j = none

/-- What there is under the name belongs to the client, if anything is there. -/
def EntryHeld (fs : FS) (d : Ino) (x : Name) (id : Int32) : Prop :=
  ∀ n, fs.child d x >>= (fun i => orElse ENOENT (fs.node i)) = .ok n → id = n.uid.toInt32

/-- The bits of the directory grant the client everything. -/
def DirGrants (fs : FS) (d : Ino) (id : Int32) : Prop :=
  ∃ n, fs.node d = some n ∧ grants n id (R_REQ ||| W_REQ ||| X_REQ) = true

/-- What decides about a path: below the root, for a removal, the owner of what `lstat` finds at
the path; anywhere else the bits of what it finds at the parent. -/
def Ruling (fs : FS) (id : Int32) (op : OpName) (p : CStr) : Prop :=
  if Top p then op.deletes = true → ∀ n, attrs fs (translateAbspath p) = .ok n → id = n.uid.toInt32
  else ∃ n, attrs fs (getParentPath (translateAbspath p)) = .ok n ∧
    grants n id (R_REQ ||| W_REQ ||| X_REQ) = true

section

variable {fs : FS} {peer : Peer} {h : Host} {id : Int32} {ip p q : CStr} {op : OpName} {d : Ino}
  {x : Name}

/-! ## The two rules -/

/-- The two operations for which the owner decides. -/
theorem OpName.deletes_iff : op.deletes = true ↔ op = .rmdir ∨ op = .unlink := by
  cases op <;> decide

/-- The owner rule: nothing is there, or it belongs to the client. -/
theorem rootdirOp_ne_zero : rootdirOpValidToDelete fs p id ≠ 0 ↔
    ∀ n, attrs fs p = .ok n → id = n.uid.toInt32 := by
  unfold rootdirOpValidToDelete
  cases attrs fs p with
  | error e => simp
  | ok n => simp

/-- The rule of the bits: all three are granted. -/
theorem opValid_one : opValid fs p id (R_REQ ||| W_REQ ||| X_REQ) = 1 ↔
    ∃ n, attrs fs p = .ok n ∧ grants n id (R_REQ ||| W_REQ ||| X_REQ) = true := by
  unfold opValid
  cases attrs fs p with
  | error e => simp
  | ok n => simp

/-- The verdict is the ruling. -/
theorem parentDirValid_iff : parentDirValid fs (getParentPath (translateAbspath p))
    (translateAbspath p) id op = true ↔ Ruling fs id op p := by
  unfold parentDirValid Ruling
  by_cases htop : Top p
  · rw [if_pos (Buffer.parent_eq_root_iff.mpr htop), if_pos htop]
    by_cases hop : op = .rmdir ∨ op = .unlink
    · rw [if_pos hop, decide_eq_true_iff, rootdirOp_ne_zero,
        imp_iff_right (OpName.deletes_iff.mpr hop)]
    · rw [if_neg hop]
      exact iff_of_true rfl fun hdel => absurd (OpName.deletes_iff.mp hdel) hop
  · rw [if_neg fun heq => htop (Buffer.parent_eq_root_iff.mp heq), if_neg htop,
      decide_eq_true_iff, opValid_one]

/-- Two paths are judged alike exactly when their rulings are. -/
theorem sameAnswer_iff : SameAnswer peer h ip op p q ↔
    (Ruling h.os.fs (atoi ip) op p ↔ Ruling h.os.fs (atoi ip) op q) := by
  have hrun : ∀ r, ((parentCheck r ip op).run (server peer) h).map (·.1) =
      .ok (parentDirValid h.os.fs (getParentPath (translateAbspath r)) (translateAbspath r)
        (atoi ip) op) := by
    intro r
    obtain ⟨e, he⟩ := @looks_isParentDirValid peer h
      (getParentPath (translateAbspath r)) (translateAbspath r) ip op
    rw [parentCheck, he]
    rfl
  rw [SameAnswer, hrun, hrun, Except.ok.injEq, Bool.eq_iff_iff, parentDirValid_iff,
    parentDirValid_iff]

/-! ## Plain paths -/

/-- One look at the parent tells that a path is plain. -/
theorem PlainPath.of_parent {j : Ino} (hends : trailing (translateAbspath p) = false)
    (hfront : p ≠ ['/']) (hj : fs.lresolve (getParentPath (translateAbspath p)) = .ok j)
    (hlink : fs.linkTarget j = none) : PlainPath fs p where
  ends := hends
  front := hfront
  link k hk := by
    cases hj.symm.trans hk
    exact hlink

/-- A plain path is its parent, a slash and the name. -/
theorem PlainPath.split (hp : PlainPath fs p) : ∃ front b, translateAbspath p = front ++ '/' :: b ∧
    '/' ∉ b ∧ b ≠ [] ∧ front ≠ [] ∧ getParentPath (translateAbspath p) = front := by
  have hform := Buffer.translate_eq hp.front
  obtain ⟨front, b, hsplit, hb⟩ := Buffer.exists_last_slash (p := translateAbspath p)
    (by simp [hform])
  refine ⟨front, b, hsplit, hb, ?_, ?_, by rw [hsplit, Buffer.parent_eq hb]⟩
  · rintro rfl
    have hends := hp.ends
    rw [hsplit] at hends
    simp [trailing] at hends
  · rintro rfl
    have hmem : '/' ∈ b := by
      have hb' : b = ['D', 'F', 'S'] ++ '/' :: Buffer.withoutSlash p :=
        (List.cons.inj (hsplit.symm.trans hform)).2
      simp [hb']
    exact hb hmem

/-- On a plain path the ruling looks at the entry and at its directory. -/
theorem PlainPath.ruling_iff (hp : PlainPath fs p) (hn : Names fs p d x) : Ruling fs id op p ↔
    if Top p then op.deletes = true → EntryHeld fs d x id else DirGrants fs d id := by
  obtain ⟨front, b, hsplit, hb, hne, hfront, hparent⟩ := hp.split
  have hslot : fs.slot (front ++ '/' :: b) = .ok (d, x) := by rw [← hsplit]; exact hn
  have hentry : fs.lresolve (translateAbspath p) = fs.child d x := by
    rw [hsplit]
    exact FS.lresolve_split hb hne hslot
  have hdir : fs.lresolve (getParentPath (translateAbspath p)) = .ok d := by
    have hres := FS.resolve_front hb hne hfront hslot
    obtain ⟨j, hj⟩ := FS.lresolve_of_resolve hres
    rw [← hparent] at hj hres
    have hlink := hp.link j hj
    rw [← (FS.resolve_eq_lresolve_iff hj hres).mpr hlink]
    exact hj
  unfold Ruling
  by_cases htop : Top p
  · rw [if_pos htop, if_pos htop]
    unfold attrs EntryHeld
    rw [hentry]
  · rw [if_neg htop, if_neg htop]
    unfold attrs DirGrants
    simp only [hdir, ok_bind, orElse_eq_ok]

/-- **Spelling.**  Two paths that name the same entry, in any state and for any client and
operation.  Plain paths are judged alike exactly when both or neither of them are spelled as a
single name, or when the owner of the entry and the bits of the directory come out alike.  Any two
paths are judged alike exactly when what decides about them comes out alike. -/
theorem spelling_iff (hp : Names h.os.fs p d x) (hq : Names h.os.fs q d x) :
    (PlainPath h.os.fs p → PlainPath h.os.fs q → (SameAnswer peer h ip op p q ↔ (Top p ↔ Top q) ∨
      ((op.deletes = true → EntryHeld h.os.fs d x (atoi ip)) ↔ DirGrants h.os.fs d (atoi ip)))) ∧
    (SameAnswer peer h ip op p q ↔
      (Ruling h.os.fs (atoi ip) op p ↔ Ruling h.os.fs (atoi ip) op q)) := by
  refine ⟨?_, sameAnswer_iff⟩
  intro hpp hpq
  rw [sameAnswer_iff, hpp.ruling_iff hp, hpq.ruling_iff hq]
  by_cases htp : Top p <;> by_cases htq : Top q <;> simp [htp, htq, iff_comm]

end

/-- The removal of somebody else's file in the shared root, refused under one spelling and allowed
under another: both are plain, only one is a single name, and the owner of the entry says no where
the bits of the directory say yes. -/
theorem spelling_iff_shared :
    (SameAnswer .absent (.start sharedFile) "2".toList .unlink "/f".toList "//f".toList ↔
      (Top "/f".toList ↔ Top "//f".toList) ∨ ((OpName.unlink.deletes = true →
        EntryHeld sharedFile 1 "f".toList 2) ↔ DirGrants sharedFile 1 2)) ∧
    (SameAnswer .absent (.start sharedFile) "2".toList .unlink "/f".toList "//f".toList ↔
      (Ruling sharedFile 2 .unlink "/f".toList ↔ Ruling sharedFile 2 .unlink "//f".toList)) := by
  have hone : PlainPath sharedFile "/f".toList := .of_parent (j := 1) rfl (by decide) rfl rfl
  have htwo : PlainPath sharedFile "//f".toList := .of_parent (j := 1) rfl (by decide) rfl rfl
  have hboth := @spelling_iff .absent (.start sharedFile) "2".toList "/f".toList "//f".toList
    .unlink 1 "f".toList (by rfl) (by rfl)
  exact ⟨hboth.1 hone htwo, hboth.2⟩

/-- One more slash and the shared root is judged as any other directory. -/
theorem slash_decides : Names sharedFile "/f".toList 1 "f".toList ∧
    Names sharedFile "//f".toList 1 "f".toList ∧
    ¬ SameAnswer .absent (.start sharedFile) "2".toList .unlink "/f".toList "//f".toList := by
  refine ⟨by rfl, by rfl, ?_⟩
  intro hsame
  have hrefused : ((parentCheck "/f".toList "2".toList .unlink).run (server .absent)
      (.start sharedFile)).map (·.1) = .ok false := by rfl
  have hallowed : ((parentCheck "//f".toList "2".toList .unlink).run (server .absent)
      (.start sharedFile)).map (·.1) = .ok true := by rfl
  cases hrefused.symm.trans (hsame.trans hallowed)

end DFS
