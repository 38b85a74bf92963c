import NetworkFileSystem.Posix.Persistence
import NetworkFileSystem.Service.Files

/-!
# Whose content can change

Three requests reach the content of a file by its path: `truncate`, `open`, and `write` in the
role of the secondary.  `Rewrites` says, of the state before such a request, which file it
changes (**`changed_iff_rewrites`**), `Uncovered` where the check of `open` does not apply, and
**`content_guarded_iff`** that the mode bits guard the content exactly when they grant writing to
the client wherever both hold.

Nothing in the handlers makes sure of that: `bb_truncate_6_svc` checks nothing,
`bb_open_6_svc` checks the access mode but passes `O_TRUNC` on, and looks at a symbolic link where
`open` looks behind it, and `bb_write_6_svc` opens the path unchecked.
-/

namespace DFS

open Effects Posix

/-- The content of a regular file. -/
def content (fs : FS) (i : Ino) : Option (List UInt8) := (fs.node i).bind Inode.data?

/-- A regular file and its content. -/
theorem content_eq_some {fs : FS} {i : Ino} {d : List UInt8} :
    content fs i = some d ↔ ∃ n, fs.node i = some n ∧ n.body = .reg d := by
  unfold content
  rw [Option.bind_eq_some_iff]
  constructor
  · rintro ⟨n, hn, hd⟩
    refine ⟨n, hn, ?_⟩
    unfold Inode.data? at hd
    split at hd
    · next d' hb =>
      cases hd
      exact hb
    · cases hd
  · rintro ⟨n, hn, hb⟩
    exact ⟨n, hn, by simp [Inode.data?, hb]⟩

/-- The inodes at and below `/DFS`. -/
inductive InDFS (fs : FS) : Ino → Prop
  | root {i : Ino} (h : fs.resolve dfsRoot = .ok i) : InDFS fs i
  | child {d i : Ino} {x : Name} (hd : InDFS fs d) (hx : FS.special x = false)
      (h : fs.child d x = .ok i) : InDFS fs i

/-- Whether the mode bits grant writing. -/
def writable (fs : FS) (i : Ino) (id : Int32) : Prop :=
  ∃ n, fs.node i = some n ∧ permits n id S_IWUSR S_IWOTH = true

/-- A regular file that was there has got another content. -/
def ContentChanged (fs fs' : FS) (i : Ino) : Prop :=
  ∃ d, content fs i = some d ∧ content fs' i ≠ some d

/-- Every file below `/DFS` whose content has changed granted writing to `id`. -/
def ContentGuarded (fs fs' : FS) (id : Int32) : Prop :=
  ∀ i, InDFS fs i → ContentChanged fs fs' i → writable fs i id

/-- The client of a request that changes content by path. -/
def Request.contentClient : Request → Option CStr
  | .truncate arg => some arg.ip
  | .openFile arg => some arg.ip
  | .write arg => if arg.byPath then some arg.ip else none
  | _ => none

/-- Which file a request is about to change: `truncate` to another length, `open` with `O_TRUNC`
of a file that is not empty, `write` of at least one byte. -/
def Rewrites (a : Arrival) (os : OS) (i : Ino) : Prop :=
  match a.request with
  | .truncate arg => os.fs.resolve (translateAbspath arg.path) = .ok i ∧ 0 ≤ arg.newsize ∧
      ∃ d, content os.fs i = some d ∧ arg.newsize ≠ d.length
  | .openFile arg =>
      opValid os.fs (translateAbspath arg.path) (atoi arg.ip) (openFlagToCheck arg.flags) = 1 ∧
      hasBit arg.flags O_TRUNC = true ∧ hasBit arg.flags O_PATH = false ∧
      (∃ fs', os.fs.openAt os.umask (translateAbspath arg.path) arg.flags a.stale.openMode =
        .ok (i, fs')) ∧
      ∃ d, content os.fs i = some d ∧ d ≠ []
  | .write arg => arg.byPath ∧ os.fs.resolve (translateAbspath arg.path) = .ok i ∧
      arg.size ≠ 0 ∧ ∃ d, content os.fs i = some d
  | _ => False

/-- What the check of `open` does not cover: an access mode that asks for no writing, and a path
that `lstat` and `open` take to different inodes. -/
def Uncovered (r : Request) (fs : FS) (i : Ino) : Prop :=
  ∀ arg, r = .openFile arg →
    hasBit (openFlagToCheck arg.flags) W_REQ = false ∨
    fs.lresolve (translateAbspath arg.path) ≠ .ok i

/-! ## What changes a content -/

theorem not_changed_refl (fs : FS) (i : Ino) : ¬ ContentChanged fs fs i := by
  rintro ⟨d, hd, hne⟩
  exact hne hd

/-- The contents after one file was rewritten. -/
theorem content_setData {fs : FS} {k i : Ino} {d d' : List UInt8} (hk : content fs k = some d) :
    content (fs.modify k (Inode.setData d')) i = if i = k then some d' else content fs i := by
  obtain ⟨n, hn, -⟩ := content_eq_some.mp hk
  by_cases hi : i = k
  · subst hi
    rw [if_pos rfl]
    exact content_eq_some.mpr ⟨n.setData d', by rw [FS.modify_node_self, hn]; rfl, rfl⟩
  · rw [if_neg hi, content, content, FS.modify_node_ne _ hi]

/-- Rewriting one file changes that file, if the content is another one. -/
theorem changed_setData_iff {fs : FS} {k i : Ino} {d d' : List UInt8}
    (hk : content fs k = some d) :
    ContentChanged fs (fs.modify k (Inode.setData d')) i ↔ i = k ∧ d' ≠ d := by
  unfold ContentChanged
  constructor
  · rintro ⟨c, hc, hne⟩
    rw [content_setData hk] at hne
    by_cases hi : i = k
    · subst hi
      obtain rfl : d = c := by simpa [hk] using hc
      exact ⟨rfl, by simpa using hne⟩
    · rw [if_neg hi] at hne
      exact absurd hc hne
  · rintro ⟨rfl, hne⟩
    exact ⟨d, hk, by rw [content_setData hk, if_pos rfl]; simpa using hne⟩

/-- New inodes and new names change no content. -/
theorem not_changed_of_persists {fs fs' : FS} {i : Ino}
    (h : FS.Persists (fun n n' => n'.data? = n.data?) fs fs') : ¬ ContentChanged fs fs' i := by
  rintro ⟨d, hd, hne⟩
  refine hne ?_
  unfold content at hd ⊢
  obtain ⟨n, hn, hnd⟩ := Option.bind_eq_some_iff.mp hd
  obtain ⟨n', hn', heq⟩ := h i n hn
  rw [hn', Option.bind_some, heq, hnd]

theorem sameData_stable : Stable fun n n' => n'.data? = n.data? :=
  Stable.of_field Inode.data? (fun n f l => by simp) (fun _ _ => rfl) fun n d => by
    unfold Inode.setParent
    split
    · next hb => simp [Inode.data?, hb]
    · rfl

theorem sameKind_stable : Stable fun n n' => n'.kind = n.kind :=
  Stable.of_field Inode.kind (fun n f l => by simp) (fun _ _ => rfl) fun n d => by
    unfold Inode.setParent
    split
    · next hb => simp [Inode.kind, Body.kind, hb]
    · rfl

/-- Cutting a file to its own length changes nothing. -/
theorem resize_eq_self_iff {d : List UInt8} {len : ℕ} : resize d len = d ↔ len = d.length := by
  constructor
  · intro h
    have hlen := congrArg List.length h
    simp only [resize, List.length_append, List.length_take, List.length_replicate] at hlen
    omega
  · rintro rfl
    simp [resize]

/-- A write moves no bytes exactly when it asks for none. -/
theorem payload_eq_nil_iff {os : OS} {arg : WriteArg} : payload os arg = [] ↔ arg.size = 0 := by
  have hbuf := arg.buffer.length_eq
  have hsize : arg.size = 0 ↔ arg.size.toNat = 0 := by
    rw [← UInt32.toNat_inj]
    rfl
  unfold payload
  rw [hsize, List.take_eq_nil_iff, Nat.min_eq_zero_iff]
  constructor
  · rintro ((h | h) | h)
    · exact h
    · cases h
    · rw [List.append_eq_nil_iff] at h
      rw [h.1] at hbuf
      cases hbuf
  · intro h
    exact .inl (.inl h)

/-- **What a request changes.**  A request that reaches contents by path changes the content of
exactly the files that `Rewrites` names. -/
theorem changed_iff_rewrites {a : Arrival} {h h' : Host} {reply : Reply} {ip : CStr}
    (hip : a.request.contentClient = some ip) (hr : serve a h = .ok (reply, h')) (i : Ino) :
    ContentChanged h.os.fs h'.os.fs i ↔ Rewrites a h.os i := by
  unfold Rewrites
  cases hreq : a.request <;> rw [hreq] at hip <;>
    simp only [Request.contentClient, reduceCtorEq] at hip
  case truncate arg =>
    have ho : treeOp h.os.umask h.os.fs a.request = some (truncateOp h.os.fs arg) := by
      rw [hreq]
      rfl
    obtain ⟨-, hfs, -⟩ := compute6_treeOp ho hr
    rw [hfs]
    simp only [truncateOp, report]
    cases ht : h.os.fs.truncate (translateAbspath arg.path) arg.newsize with
    | error e =>
        refine iff_of_false (not_changed_refl _ _) ?_
        rintro ⟨hi, hlen, d, hd, -⟩
        obtain ⟨n, hn, hb⟩ := content_eq_some.mp hd
        rw [FS.truncate_eq_ok.mpr ⟨i, n, d, hlen, hi, hn, hb, rfl⟩] at ht
        cases ht
    | ok fs₁ =>
        obtain ⟨k, n, d, hlen, hk, hn, hb, rfl⟩ := FS.truncate_eq_ok.mp ht
        have hd : content h.os.fs k = some d := content_eq_some.mpr ⟨n, hn, hb⟩
        rw [changed_setData_iff hd, Ne, resize_eq_self_iff, hk]
        constructor
        · rintro ⟨rfl, hne⟩
          exact ⟨rfl, hlen, d, hd, fun h => hne (by omega)⟩
        · rintro ⟨hki, -, d', hd', hne⟩
          obtain rfl : k = i := by simpa using hki
          obtain rfl : d = d' := by simpa [hd] using hd'
          exact ⟨rfl, fun h => hne (by omega)⟩
  case openFile arg =>
    rcases serve_open hreq hr with ⟨hv, k, ho⟩ | ⟨hfs, hfail⟩
    · -- Only a truncation changes a content.
      generalize h'.os.fs = fs' at ho ⊢
      cases FS.openAt_effect ho with
      | same hkeep =>
          refine iff_of_false (not_changed_refl _ _) ?_
          rintro ⟨-, ht, hp, ⟨fs'', ho'⟩, d, hd, -⟩
          obtain ⟨n, hn, hb⟩ := content_eq_some.mp hd
          obtain ⟨rfl, -⟩ : k = i ∧ _ := by simpa [ho] using ho'
          rw [hkeep hp n hn (by simp [Inode.kind, hb, Body.kind])] at ht
          cases ht
      | unnamed m hk =>
          refine iff_of_false (not_changed_of_persists
            (FS.persists_alloc sameData_stable.refl m)) ?_
          rintro ⟨-, -, -, ⟨fs'', ho'⟩, d, hd, -⟩
          obtain ⟨n, hn, -⟩ := content_eq_some.mp hd
          obtain ⟨rfl, -⟩ : k = i ∧ _ := by simpa [ho] using ho'
          exact FS.ne_next hn hk
      | made dir x m hk =>
          refine iff_of_false (not_changed_of_persists
            (FS.persists_created sameData_stable _ _)) ?_
          rintro ⟨-, -, -, ⟨fs'', ho'⟩, d, hd, -⟩
          obtain ⟨n, hn, -⟩ := content_eq_some.mp hd
          obtain ⟨rfl, -⟩ : k = i ∧ _ := by simpa [ho] using ho'
          exact FS.ne_next hn hk
      | truncated n hn hreg hp ht =>
          obtain ⟨d, hb⟩ : ∃ d, n.body = .reg d := by
            cases hb : n.body <;> simp_all [Inode.kind, Body.kind]
          have hd : content h.os.fs k = some d := content_eq_some.mpr ⟨n, hn, hb⟩
          rw [changed_setData_iff hd]
          constructor
          · rintro ⟨rfl, hne⟩
            exact ⟨hv, ht, hp, ⟨_, ho⟩, d, hd, Ne.symm hne⟩
          · rintro ⟨-, -, -, ⟨fs'', ho'⟩, d', hd', hne⟩
            obtain ⟨rfl, -⟩ : k = i ∧ _ := by simpa [ho] using ho'
            obtain rfl : d = d' := by simpa [hd] using hd'
            exact ⟨rfl, Ne.symm hne⟩
    · rw [hfs]
      refine iff_of_false (not_changed_refl _ _) ?_
      rintro ⟨hv, ht, hp, ⟨fs'', ho⟩, d, hd, -⟩
      -- The open that would have truncated a regular file does not meet a pipe.
      obtain ⟨n, hn, hb⟩ := content_eq_some.mp hd
      obtain ⟨n₁, hn₁, hkind⟩ := FS.persists_openAt sameKind_stable
        (fun n hreg => by simpa [Inode.setData, Inode.kind, Body.kind] using hreg.symm) ho i n hn
      obtain ⟨n₂, hn₂, hfifo⟩ := hfail hv i fs'' ho
      obtain rfl : n₁ = n₂ := by simpa [hn₁] using hn₂
      rw [hfifo] at hkind
      simp [Inode.kind, hb, Body.kind] at hkind
  case write arg =>
    have hrole : arg.byPath := by
      by_contra hno
      rw [if_neg hno] at hip
      cases hip
    change _ ↔ arg.byPath ∧ h.os.fs.resolve (translateAbspath arg.path) = .ok i ∧
      arg.size ≠ 0 ∧ ∃ d, content h.os.fs i = some d
    rcases serve_write_byPath hreq hrole hr with ⟨k, n, d, hk, hn, hb, hfs⟩ | ⟨hfs, hfail⟩
    · have hd : content h.os.fs k = some d := content_eq_some.mpr ⟨n, hn, hb⟩
      rw [hfs, appended, changed_setData_iff hd, splice_end, hk, Ne, List.append_right_eq_self,
        payload_eq_nil_iff]
      constructor
      · rintro ⟨rfl, hne⟩
        exact ⟨hrole, rfl, hne, d, hd⟩
      · rintro ⟨-, hki, hne, -⟩
        obtain rfl : k = i := by simpa using hki
        exact ⟨rfl, hne⟩
    · rw [hfs]
      refine iff_of_false (not_changed_refl _ _) ?_
      rintro ⟨-, hi, -, d, hd⟩
      obtain ⟨n, hn, hb⟩ := content_eq_some.mp hd
      exact hfail i n hi hn (by simp [Inode.kind, hb, Body.kind])

/-! ## The guard -/

/-- The check of `open` covers the inode that `lstat` finds, when writing is asked for. -/
theorem writable_of_opValid {fs : FS} {p : CStr} {i : Ino} {id : Int32} {flags : UInt32}
    (hv : opValid fs p id flags = 1) (hw : hasBit flags W_REQ = true)
    (hi : fs.lresolve p = .ok i) : writable fs i id := by
  unfold opValid at hv
  split at hv
  · next n hn =>
    simp only [attrs, hi, ok_bind, orElse_eq_ok] at hn
    refine ⟨n, hn, ?_⟩
    have hg : grants n id flags = true := by
      by_contra hg
      rw [if_neg hg] at hv
      exact absurd hv (by decide)
    simp only [grants, hw, Bool.not_true, Bool.false_or, Bool.and_eq_true] at hg
    exact hg.1.2
  · exact absurd hv (by decide)

/-- **When the mode bits guard the content.**  After a request that reaches contents by path,
every change below `/DFS` is one the mode bits granted exactly when the mode bits grant writing
to every file there that the request is about to change unchecked. -/
theorem content_guarded_iff {a : Arrival} {h h' : Host} {reply : Reply} {ip : CStr}
    (hip : a.request.contentClient = some ip) (hr : serve a h = .ok (reply, h')) :
    ContentGuarded h.os.fs h'.os.fs (atoi ip) ↔
      ∀ i, InDFS h.os.fs i → Rewrites a h.os i → Uncovered a.request h.os.fs i →
        writable h.os.fs i (atoi ip) := by
  unfold ContentGuarded
  constructor
  · intro hall i hi hw _
    exact hall i hi ((changed_iff_rewrites hip hr i).mpr hw)
  · intro hall i hi hc
    have hw := (changed_iff_rewrites hip hr i).mp hc
    by_cases hu : Uncovered a.request h.os.fs i
    · exact hall i hi hw hu
    · -- The check of `open` has passed for this very inode.
      simp only [Uncovered, not_forall, not_or, ne_eq, not_not, exists_prop] at hu
      obtain ⟨arg, harg, hflag, hl⟩ := hu
      unfold Rewrites at hw
      rw [harg] at hw hip
      cases hip
      exact writable_of_opValid hw.1 (by simpa using hflag) hl

/-- `/DFS` with a file `f` in it that holds three bytes and is for its owner, client 1, only. -/
def guardedFile : FS := .ofNodes [
  .plain (.dir 0 [("DFS".toList, 1)]) 0 0o755,
  .plain (.dir 0 [("f".toList, 2)]) 0 0o777,
  .plain (.reg [1, 2, 3]) 1 0o600]

/-- A client cuts its own file. -/
theorem content_guarded_iff_truncate : ∃ reply h,
    serve (.alone (.truncate ⟨"1".toList, ⟨1, 1⟩, "/f".toList, 0⟩)) (.start guardedFile) =
      .ok (reply, h) ∧
    (ContentGuarded guardedFile h.os.fs 1 ↔ ∀ i, InDFS guardedFile i →
      Rewrites (.alone (.truncate ⟨"1".toList, ⟨1, 1⟩, "/f".toList, 0⟩)) (.start guardedFile) i →
      Uncovered (.truncate ⟨"1".toList, ⟨1, 1⟩, "/f".toList, 0⟩) guardedFile i →
      writable guardedFile i 1) := by
  have hrun : (serve (.alone (.truncate ⟨"1".toList, ⟨1, 1⟩, "/f".toList, 0⟩))
      (.start guardedFile)).map (fun r => r.1.ret) = .ok 0 := by rfl
  obtain ⟨⟨reply, h⟩, hs, -⟩ := map_eq_ok.mp hrun
  exact ⟨reply, h, hs, @content_guarded_iff _ _ _ _ "1".toList rfl hs⟩

/-- `truncate` checks nothing: client 2 empties client 1's file. -/
theorem truncate_unguarded : ¬ ∀ (a : Arrival) (h h' : Host) (reply : Reply) (ip : CStr),
    a.request.contentClient = some ip → serve a h = .ok (reply, h') →
    ContentGuarded h.os.fs h'.os.fs (atoi ip) := by
  intro hall
  have hrun : (serve (.alone (.truncate ⟨"2".toList, ⟨1, 1⟩, "/f".toList, 0⟩))
      (.start guardedFile)).map (fun r => content r.2.os.fs 2) = .ok (some []) := by rfl
  obtain ⟨⟨reply, h⟩, hs, hc⟩ := map_eq_ok.mp hrun
  have hroot : InDFS guardedFile 1 := .root (by rfl)
  have hfile : InDFS guardedFile 2 := hroot.child (x := "f".toList) (by rfl) (by rfl)
  obtain ⟨n, hn, hw⟩ := hall _ _ _ _ "2".toList rfl hs 2 hfile
    ⟨[1, 2, 3], rfl, by rw [hc]; decide⟩
  obtain rfl : Inode.plain (.reg [1, 2, 3]) 1 0o600 = n := Option.some.inj hn
  exact absurd hw (by decide)

end DFS
