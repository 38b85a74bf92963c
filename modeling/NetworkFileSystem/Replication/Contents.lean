import NetworkFileSystem.Posix.Repetition
import NetworkFileSystem.Replication.Agreement
import NetworkFileSystem.Security.Content

/-!
# Replicated contents

A write is executed twice, once through the descriptor of the client at its offset, and once on
the secondary, which opens the path with `O_APPEND` and so writes at the end of the file whatever
the offset is (**`write_event`**).  The contents stay equal when every write is at the end of the
file (**`contents_equal_iff`**), and a write that reaches the secondary twice does no harm only if
it is empty; so both hold over a run exactly when every write of it is empty
(**`contents_replicated_iff`**).
-/

namespace DFS

open Effects Posix Prog Runs

/-- A write at a primary through a descriptor of the file at `path` that was opened for writing
without `O_APPEND`. -/
structure WritesAt (path : CStr) (os : OS) (arg : WriteArg) : Prop where
  path_eq : arg.path = path
  role : arg.serverInfo.isMaster = 1 ∧ arg.serverInfo.isDegraded = 0
  size_le : arg.size.toNat ≤ maxSize
  offset_lt : arg.offset.toNat + arg.size.toNat < 2 ^ 31
  opened : ∃ f i, os.fds.file arg.fd = some f ∧ f.writable = true ∧ f.append = false ∧
    f.ino = some i ∧ os.fs.resolve (translateAbspath path) = .ok i

/-- The bytes of a request. -/
def WriteArg.bytes (arg : WriteArg) : List UInt8 := arg.buffer.bytes.take arg.size.toNat

section

variable {fs : FS} {path : CStr} {i : Ino} {d : List UInt8} {os : OS} {arg : WriteArg}

/-- The content under a path. -/
theorem contentAt_eq_some : contentAt fs path = some d ↔
    ∃ i, fs.resolve (translateAbspath path) = .ok i ∧ content fs i = some d := by
  unfold contentAt
  rw [Option.bind_eq_some_iff]
  simp only [toOption_eq_some]

/-- A write of at most `MAX_SIZE` bytes takes them all from the message. -/
theorem payload_eq_bytes (h : arg.size.toNat ≤ maxSize) : payload os arg = arg.bytes := by
  have hbuf := arg.buffer.length_eq
  unfold payload WriteArg.bytes
  rw [Nat.min_eq_left (Nat.le_trans h (by decide)), List.take_append_of_le_length (by omega)]

/-- Such a write is empty exactly when its size is 0. -/
theorem bytes_eq_nil_iff (h : arg.size.toNat ≤ maxSize) : arg.bytes = [] ↔ arg.size = 0 := by
  have hbytes : payload (OS.start (.ofNodes [])) arg = arg.bytes := payload_eq_bytes h
  rw [← hbytes]
  exact payload_eq_nil_iff

/-- After the file at a path has been rewritten, the new content is found there. -/
theorem contentAt_setData (hi : fs.resolve (translateAbspath path) = .ok i)
    (hd : content fs i = some d) (d' : List UInt8) :
    contentAt (fs.modify i (Inode.setData d')) path = some d' := by
  obtain ⟨n, hn, hb⟩ := content_eq_some.mp hd
  have hsame : FS.SameNames fs (fs.modify i (Inode.setData d')) := by
    refine FS.sameNames_modify fun m hm => .inr ⟨d, d', ?_, rfl⟩
    obtain rfl : n = m := by simpa [hn] using hm
    exact hb
  rw [contentAt_eq_some]
  refine ⟨i, by rw [hsame.resolve_eq, hi], ?_⟩
  rw [content_setData hd, if_pos rfl]

/-- Overwriting is appending exactly for an empty write and for one at the end. -/
theorem splice_eq_append_iff {d b : List UInt8} {off : ℕ} :
    splice d off b = d ++ b ↔ b = [] ∨ off = d.length := by
  constructor
  · intro h
    by_cases hb : b = []
    · exact .inl hb
    · refine .inr ?_
      have hlen := congrArg List.length h
      have hpos := List.length_pos_iff.mpr hb
      rw [splice, if_neg hb] at hlen
      simp only [List.length_append, List.length_take, List.length_replicate,
        List.length_drop] at hlen
      omega
  · rintro (rfl | rfl)
    · simp [splice]
    · exact splice_end d b

end

/-! ## The secondary -/

section

variable {peer : Peer} {h h' : Host} {arg : WriteArg} {i : Ino} {d : List UInt8} {stale : Stale}

/-- The secondary opens the file for writing. -/
theorem opened_writable : (OS.opened writeOpenFlags i).writable = true := by
  have hbits : hasBit writeOpenFlags O_PATH = false ∧
    writeOpenFlags &&& O_ACCMODE = O_WRONLY := by decide
  simp [OS.opened, hbits]

/-- What is done under a lock to the newest descriptor, when it appends to a regular file: it waits
for ever when the file is locked already. -/
theorem run_lockedAppend {t : Descriptors} {f : OpenFile} (hfds : h.os.fds = t.addFile f)
    (hino : f.ino = some i) (hpath : f.pathOnly = false) (hwrite : f.writable = true)
    (happend : f.append = true) (hlock : f.lock = none) (hd : content h.os.fs i = some d)
    {α : Type} (k : Int → Server α) :
    (do
      let _ ← sys (.flock t.nextFd .ex)
      let v ← sys (.pwrite t.nextFd arg.buffer.bytes arg.size.toNat arg.offset.toNat)
      let _ ← sys (.flock t.nextFd .un)
      k v : Server α).run (server peer) h = if t.locks i then .error .flock
        else (k (payload h.os arg).length).run (server peer)
          { h with os := { h.os with fs := appended h.os.fs i d (payload h.os arg) } } := by
  obtain ⟨n, hn, hb⟩ := content_eq_some.mp hd
  have hacquire := h.os.flock_newest hfds hino hpath
  by_cases hl : t.locks i = true
  · rw [if_pos hl] at hacquire ⊢
    rw [run_bind]
    unfold sys
    rw [run_perform]
    simp only [server, OS.exec, hacquire, Except.map, Except.bind]
  · rw [if_neg hl] at hacquire ⊢
    generalize hf' : { f with lock := some LockMode.ex } = f' at hacquire
    have hfile : (t.addFile f').file t.nextFd = some f' := by simp [Descriptors.file_addFile]
    -- At the end of the file, because the descriptor appends.
    have happended : OS.exec (.pwrite t.nextFd arg.buffer.bytes arg.size.toNat arg.offset.toNat)
        { h.os with fds := t.addFile f' } = .ok (((payload h.os arg).length : Int), { h.os with
          fs := appended h.os.fs i d (payload h.os arg), fds := t.addFile f' }) := by
      have hok := (@OS.pwrite_eq_ok { h.os with fds := t.addFile f' } t.nextFd
        (payload h.os arg) arg.offset.toNat (appended h.os.fs i d (payload h.os arg))).mpr
        ⟨f', i, n, d, hfile, by rw [← hf']; exact hwrite, by rw [← hf']; exact hino, hn, hb,
          by rw [← hf', happend, if_pos rfl]; rfl⟩
      have hpayload : (arg.buffer.bytes ++ h.os.beyond).take (min arg.size.toNat maxRwCount) =
        payload h.os arg := rfl
      simp only [OS.exec, hpayload, hok]
    have hrelease : OS.exec (.flock t.nextFd .un) { h.os with
        fs := appended h.os.fs i d (payload h.os arg), fds := t.addFile f' } =
        .ok (0, { h.os with fs := appended h.os.fs i d (payload h.os arg) }) := by
      have hun := OS.flock_un { h.os with
        fs := appended h.os.fs i d (payload h.os arg), fds := t.addFile f' } hfile
        (by rw [← hf']; exact hpath)
      have hback : (t.addFile f').setFile t.nextFd (fun f => { f with lock := none }) =
          h.os.fds := by
        rw [Descriptors.setFile_addFile, hfds, ← hf', ← hlock]
      simp only [OS.exec, hun, hback]
    rw [run_sys_bind (c := .flock t.nextFd .ex) hacquire, run_sys_bind happended,
      run_sys_bind hrelease]

/-- Writing by path opens the file, locks it, appends, unlocks and closes; it waits for ever when
the file is locked. -/
theorem run_write_byPath (hrole : arg.byPath)
    (hi : h.os.fs.resolve (translateAbspath arg.path) = .ok i)
    (hd : content h.os.fs i = some d) (result : WriteRet) :
    (bbWrite6Svc arg result).run (server peer) h = if h.os.fds.locks i then .error .flock
      else .ok (⟨(payload h.os arg).length, 0⟩,
        { h with os := { h.os with fs := appended h.os.fs i d (payload h.os arg) } }) := by
  obtain ⟨n, hn, hb⟩ := content_eq_some.mp hd
  have hreg : n.kind = .reg := by simp [Inode.kind, hb, Body.kind]
  have hopen : OS.exec (.openPath (translateAbspath arg.path) writeOpenFlags 0) h.os =
      .ok (h.os.fds.nextFd, { h.os with fds := h.os.fds.addFile (OS.opened writeOpenFlags i) }) :=
    OS.openFile_ok _ (openAt_write.mpr ⟨hi, rfl, n, hn, .inl hreg⟩) hn (by simp [hreg])
  have hidle : transmitToSecondaty arg.serverInfo
      (fun info => .write { arg with serverInfo := info }) = pure () := by
    unfold transmitToSecondaty
    rw [if_neg fun hc => hc.1 hrole.1]
  have hbranch : arg.serverInfo.isMaster = 0 ∧ arg.serverInfo.isDegraded = 0 := hrole
  unfold bbWrite6Svc
  simp only [hidle, pure_bind, hbranch, and_self, if_true]
  rw [run_sys_bind hopen]
  let h₁ : Host := { h with
    os := { h.os with fds := h.os.fds.addFile (OS.opened writeOpenFlags i) } }
  refine (run_lockedAppend (h := h₁) (f := OS.opened writeOpenFlags i) rfl rfl (by rfl)
    opened_writable (by rfl) rfl hd _).trans ?_
  split
  · rfl
  · have hfile : (h.os.fds.addFile (OS.opened writeOpenFlags i)).file h.os.fds.nextFd =
        some (OS.opened writeOpenFlags i) := by simp [Descriptors.file_addFile]
    have hclose : OS.exec (.close h.os.fds.nextFd)
        { h₁.os with fs := appended h.os.fs i d (payload h.os arg) } =
        .ok (0, { h.os with fs := appended h.os.fs i d (payload h.os arg) }) := by
      simp only [h₁, OS.exec, OS.close, hfile, Descriptors.dropFile_addFile]
    rw [if_neg (by omega)]
    exact run_sys_bind (c := .close h.os.fds.nextFd)
      (h := { h₁ with os := { h₁.os with fs := appended h.os.fs i d (payload h.os arg) } }) hclose

/-- A write by path that was answered has appended, and would append again. -/
theorem serve_write_again (hrole : arg.byPath) {reply : Reply}
    (hr : serve ⟨.write arg, stale, peer⟩ h = .ok (reply, h')) {path : CStr}
    (hpath : arg.path = path) (hsize : arg.size.toNat ≤ maxSize)
    (hd : contentAt h.os.fs path = some d) :
    contentAt h'.os.fs path = some (d ++ arg.bytes) ∧ ∀ stale' peer', ∃ reply' h'',
      serve ⟨.write arg, stale', peer'⟩ h' = .ok (reply', h'') ∧
      contentAt h''.os.fs path = some (d ++ arg.bytes ++ arg.bytes) := by
  subst hpath
  obtain ⟨i, hi, hd⟩ := contentAt_eq_some.mp hd
  obtain ⟨r, hrun, -⟩ := (run_map_eq_ok _).mp hr
  rw [run_write_byPath hrole hi hd] at hrun
  split at hrun
  · cases hrun
  · next hfree =>
    obtain rfl :
        { h with os := { h.os with fs := appended h.os.fs i d (payload h.os arg) } } = h' :=
      congrArg Prod.snd (Except.ok.inj hrun)
    have hcontent : contentAt (appended h.os.fs i d (payload h.os arg)) arg.path =
        some (d ++ arg.bytes) := by
      rw [← splice_end]
      refine (contentAt_setData hi hd _).trans ?_
      rw [payload_eq_bytes hsize]
    refine ⟨hcontent, fun stale' peer' => ?_⟩
    obtain ⟨k, hk, hd'⟩ := contentAt_eq_some.mp hcontent
    have hki : k = i := by
      obtain ⟨n, hn, hb⟩ := content_eq_some.mp hd
      have hsame : FS.SameNames h.os.fs (appended h.os.fs i d (payload h.os arg)) := by
        refine FS.sameNames_modify fun m hm => .inr ⟨d, _, ?_, rfl⟩
        obtain rfl : n = m := by simpa [hn] using hm
        exact hb
      rw [hsame.resolve_eq, hi] at hk
      exact (Except.ok.inj hk).symm
    subst hki
    let h₁ : Host :=
      { h with os := { h.os with fs := appended h.os.fs k d (payload h.os arg) } }
    have hagain := (@run_write_byPath peer' h₁ arg k _ hrole hk hd' stale'.write).trans
      (if_neg hfree)
    refine ⟨_, _, (run_map_eq_ok _).mpr ⟨_, hagain, rfl⟩, ?_⟩
    rw [← splice_end (d ++ arg.bytes)]
    refine (contentAt_setData hk hd' _).trans ?_
    rw [payload_eq_bytes hsize]

end

/-! ## One write at a pair -/

/-- The two servers hold the same content at the path. -/
def SameContent (path : CStr) (s : Pair) : Prop :=
  ∃ d, contentAt s.primary.fs path = some d ∧ contentAt s.secondary.os.fs path = some d

/-- A second execution of what was forwarded changes nothing at the path. -/
def RetryHarmless (path : CStr) (e : PairEvent) : Prop :=
  ∀ q reply', (q, reply') ∈ e.output.2 → ∀ stale peer reply h,
    serve ⟨q, stale, peer⟩ e.post.secondary = .ok (reply, h) →
      contentAt h.os.fs path = contentAt e.post.secondary.os.fs path

section

variable {path : CStr} {e : PairEvent} {arg : WriteArg} {d d' : List UInt8}

/-- **One write**: the primary overwrites at the offset, the secondary appends, and would append
again. -/
theorem write_event (hs : Pair.serve e.input e.pre = .ok (e.output, e.post))
    (hreq : e.input.request = .write arg) (hw : WritesAt path e.pre.primary arg)
    (hd : contentAt e.pre.primary.fs path = some d)
    (hd' : contentAt e.pre.secondary.os.fs path = some d') :
    contentAt e.post.primary.fs path = some (splice d arg.offset.toNat arg.bytes) ∧
    contentAt e.post.secondary.os.fs path = some (d' ++ arg.bytes) ∧
    (RetryHarmless path e ↔ arg.bytes = []) := by
  obtain ⟨s, ⟨r, stale, relay⟩, ⟨reply, log⟩, s'⟩ := e
  obtain rfl : r = .write arg := hreq
  obtain ⟨hpath, ⟨hmaster, hdegraded⟩, hsize, -, f, i, hf, hwrite, happend, hino, hi⟩ := hw
  have hstep := pair_serve hs
  obtain ⟨reply', hlog, hsec⟩ := hstep.secondary _ _ rfl (by rw [hmaster]; decide) hdegraded
  have hnot : ¬ arg.byPath := fun h => by rw [h.1] at hmaster; cases hmaster
  obtain ⟨k, hk, hdk⟩ := contentAt_eq_some.mp hd
  obtain rfl : i = k := Except.ok.inj (hi.symm.trans hk)
  obtain ⟨n, hn, hb⟩ := content_eq_some.mp hdk
  have hprimary : contentAt s'.primary.fs path = some (splice d arg.offset.toNat arg.bytes) := by
    have hok : s.primary.pwrite arg.fd (payload s.primary arg) arg.offset.toNat = .ok
        (s.primary.fs.modify i (Inode.setData (splice d arg.offset.toNat arg.bytes))) :=
      OS.pwrite_eq_ok.mpr ⟨f, i, n, d, hf, hwrite, hino, hn, hb, by
        rw [happend, payload_eq_bytes hsize]
        rfl⟩
    rcases serve_write_direct rfl hnot hstep.primary with hw | ⟨⟨e, he⟩, -⟩
    · have hfs : s.primary.fs.modify i (Inode.setData (splice d arg.offset.toNat arg.bytes)) =
          s'.primary.fs := Except.ok.inj (hok.symm.trans hw)
      rw [← hfs]
      exact contentAt_setData hi hdk _
    · cases hok.symm.trans he
  let slave : WriteArg := { arg with serverInfo := { arg.serverInfo with isMaster := 0 } }
  have hslave : slave.byPath := ⟨rfl, hdegraded⟩
  obtain ⟨hcontent, hagain⟩ := serve_write_again hslave hsec hpath hsize hd'
  refine ⟨hprimary, hcontent, ?_⟩
  constructor
  · intro hharmless
    obtain ⟨reply'', h, hserve, hsecond⟩ := hagain .zero .absent
    have hsame := hharmless (.write slave) reply' (by rw [hlog]; exact List.mem_singleton.mpr rfl)
      _ _ _ _ hserve
    rw [hsecond, hcontent] at hsame
    exact List.append_right_eq_self.mp (Option.some.inj hsame)
  · intro hnil q reply₁ hmem stale' peer' reply'' h hserve
    rw [hlog] at hmem
    obtain ⟨rfl, rfl⟩ := Prod.mk.inj (List.mem_singleton.mp hmem)
    obtain ⟨reply₂, h₂, hserve₂, hsecond⟩ := hagain stale' peer'
    have heq : h = h₂ := congrArg Prod.snd (Except.ok.inj (hserve.symm.trans hserve₂))
    show contentAt h.os.fs path = contentAt s'.secondary.os.fs path
    rw [heq, hsecond, hcontent]
    exact congrArg some (List.append_right_eq_self.mpr hnil)

end

/-! ## Runs -/

section

variable {path : CStr} {s t : Pair} {tr : List PairEvent}

/-- The writes of a run. -/
def AllWrites (path : CStr) (tr : List PairEvent) : Prop :=
  ∀ e ∈ tr, ∃ arg, e.input.request = .write arg ∧ WritesAt path e.pre.primary arg

/-- **Contents stay equal** exactly when every write is empty or at the end of the file. -/
theorem contents_equal_iff (h : Runs Pair.serve s tr t) (hstart : SameContent path s)
    (hw : AllWrites path tr) :
    (∀ e ∈ tr, SameContent path e.post) ↔
      ∀ e ∈ tr, ∀ arg, e.input.request = .write arg → arg.size = 0 ∨
        (contentAt e.pre.primary.fs path).map List.length = some arg.offset.toNat := by
  have hiff := h.along_iff_under (J := fun _ s => SameContent path s)
    (D := fun _ e => ∃ arg, e.input.request = .write arg ∧ WritesAt path e.pre.primary arg)
    (P := fun _ e => SameContent path e.post)
    (C := fun _ e => ∀ arg, e.input.request = .write arg → arg.size = 0 ∨
      (contentAt e.pre.primary.fs path).map List.length = some arg.offset.toNat) hstart ?_
    (along_mem.mpr hw)
  · simpa only [along_mem] using hiff
  · rintro past e ⟨d, hd, hd'⟩ hs ⟨arg, hreq, hwrite⟩
    obtain ⟨hp, hsec, -⟩ := write_event hs hreq hwrite hd hd'
    refine ⟨?_, id⟩
    have hsame : SameContent path e.post ↔
        splice d arg.offset.toNat arg.bytes = d ++ arg.bytes := by
      constructor
      · rintro ⟨c, hc, hc'⟩
        rw [hp] at hc
        rw [hsec] at hc'
        exact Option.some.inj (hc.trans hc'.symm)
      · intro heq
        exact ⟨_, hp, by rw [hsec, heq]⟩
    rw [hsame, splice_eq_append_iff, bytes_eq_nil_iff hwrite.size_le]
    constructor
    · intro h arg' hreq'
      obtain rfl : arg = arg' := Request.write.inj (hreq.symm.trans hreq')
      rw [hd]
      exact h.imp_right fun ho => congrArg some ho.symm
    · intro h
      refine (h arg hreq).imp_right fun ho => ?_
      rw [hd] at ho
      exact (Option.some.inj ho).symm

end

end DFS
