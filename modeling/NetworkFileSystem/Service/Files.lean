import NetworkFileSystem.Service.Checks

/-!
# The requests on open files

One theorem for each handler that opens, closes or writes through a descriptor: the reply it
gives and the state of the process it leaves, for every run that returns.  Writing has two: the
primary writes through the descriptor of the request (`bbWrite6Svc_direct`), the secondary opens
the path and appends (`bbWrite6Svc_byPath`).
-/

namespace Posix

open Effects

namespace OS

variable {os os' : OS}

/-- Writing goes by the inode and the mode of an open file only. -/
theorem Same.pwrite (h : OS.Same os os') (fd : Int) (bytes : List UInt8) (offset : ℕ) :
    os'.pwrite fd bytes offset = os.pwrite fd bytes offset := by
  unfold OS.pwrite
  cases hf : os.fds.file fd with
  | none => rw [h.fds.file_none hf]
  | some f =>
      obtain ⟨f', hf', hb⟩ := h.fds.file hf
      obtain ⟨hino, -, hw, ha, -⟩ : f'.ino = f.ino ∧ f'.readable = f.readable ∧
          f'.writable = f.writable ∧ f'.append = f.append ∧ f'.pathOnly = f.pathOnly := by
        simpa [OpenFile.base] using hb
      simp only [hf', hino, hw, ha, bodyOf, h.fs_eq]

theorem Same.pread (h : OS.Same os os') (fd : Int) (size offset : ℕ) :
    os'.pread fd size offset = os.pread fd size offset := by
  unfold OS.pread
  cases hf : os.fds.file fd with
  | none => rw [h.fds.file_none hf]
  | some f =>
      obtain ⟨f', hf', hb⟩ := h.fds.file hf
      obtain ⟨hino, hr, -⟩ : f'.ino = f.ino ∧ f'.readable = f.readable ∧
          f'.writable = f.writable ∧ f'.append = f.append ∧ f'.pathOnly = f.pathOnly := by
        simpa [OpenFile.base] using hb
      simp only [hf', hino, hr, bodyOf, h.fs_eq]

/-- A write that succeeds rewrites the regular file behind a descriptor open for writing. -/
theorem pwrite_eq_ok {fd : Int} {bytes : List UInt8} {offset : ℕ} {fs : FS} :
    os.pwrite fd bytes offset = .ok fs ↔ ∃ f i n d, os.fds.file fd = some f ∧
      f.writable = true ∧ f.ino = some i ∧ os.fs.node i = some n ∧ n.body = .reg d ∧
      fs = os.fs.modify i
        (Inode.setData (splice d (if f.append then d.length else offset) bytes)) := by
  constructor
  · intro h
    unfold OS.pwrite at h
    split at h
    · cases h
    · next f hf =>
      split at h
      · cases h
      · next hw =>
        split at h
        · next i d hi hd =>
          cases h
          unfold bodyOf at hd
          rw [hi] at hd
          obtain ⟨n, hn, hb⟩ : ∃ n, os.fs.node i = some n ∧ n.body = .reg d := by
            simpa [Option.bind_eq_some_iff] using hd
          exact ⟨f, i, n, d, hf, by simpa using hw, hi, hn, hb, rfl⟩
        · cases h
  · rintro ⟨f, i, n, d, hf, hw, hi, hn, hb, rfl⟩
    simp [OS.pwrite, hf, hw, hi, bodyOf, hn, hb]

/-- A read that succeeds finds a regular file behind a descriptor open for reading. -/
theorem pread_eq_ok {fd : Int} {size offset : ℕ} {data : List UInt8} :
    os.pread fd size offset = .ok data ↔ ∃ f i n d, os.fds.file fd = some f ∧
      f.readable = true ∧ f.ino = some i ∧ os.fs.node i = some n ∧ n.body = .reg d ∧
      data = (d.drop offset).take (min size maxRwCount) := by
  constructor
  · intro h
    unfold OS.pread at h
    split at h
    · cases h
    · next f hf =>
      split at h
      · cases h
      · next hr =>
        split at h
        · next d hd =>
          cases h
          unfold bodyOf at hd
          obtain ⟨i, hi, n, hn, hb⟩ : ∃ i, f.ino = some i ∧ ∃ n, os.fs.node i = some n ∧
              n.body = .reg d := by
            simpa [Option.bind_eq_some_iff] using hd
          exact ⟨f, i, n, d, hf, by simpa using hr, hi, hn, hb, rfl⟩
        · cases h
        · cases h
  · rintro ⟨f, i, n, d, hf, hr, hi, hn, hb, rfl⟩
    simp [OS.pread, hf, hr, hi, bodyOf, hn, hb]

/-- The error numbers of reading and writing. -/
theorem pwrite_error {fd : Int} {bytes : List UInt8} {offset : ℕ} {e : Errno}
    (h : os.pwrite fd bytes offset = .error e) : e = EBADF ∨ e = ESPIPE := by
  unfold OS.pwrite at h
  split at h
  · cases h
    exact .inl rfl
  · split at h
    · cases h
      exact .inl rfl
    · split at h
      · cases h
      · cases h
        exact .inr rfl

theorem pread_error {fd : Int} {size offset : ℕ} {e : Errno}
    (h : os.pread fd size offset = .error e) : 0 < e := by
  unfold OS.pread at h
  repeat' split at h
  all_goals cases h
  all_goals decide

/-- Locking leaves no error number of zero behind. -/
theorem flock_errno {os' : OS} {fd : Int} {op : LockOp} {r : Int}
    (h : os.flock fd op = .ok (r, os')) (he : 0 < os.errno) : 0 < os'.errno := by
  unfold OS.flock at h
  repeat' split at h
  all_goals cases h
  all_goals first
    | exact he
    | exact (by decide : 0 < EBADF)

end OS

end Posix

namespace DFS

open Effects Posix Prog

section

variable {peer : Peer} {h h' : Host}

/-- `bb_open_6_svc` opened the file: the check passed, and the reply carries the descriptor. -/
structure Opened (argp : OpenArg) (mode : UInt32) (os : OS) (r : OpenRet) (os' : OS) : Prop where
  valid : opValid os.fs (translateAbspath argp.path) (atoi argp.ip)
    (openFlagToCheck argp.flags) = 1
  ret_eq : r = ⟨os.fds.nextFd, 0⟩
  opened : ∃ i e, os.fs.openAt os.umask (translateAbspath argp.path) argp.flags mode =
      .ok (i, os'.fs) ∧
    os' = { os with fs := os'.fs, fds := os.fds.addFile (OS.opened argp.flags i), errno := e }

/-- `bb_open_6_svc` opens the file, or changes nothing because it is refused, fails or meets a
pipe. -/
theorem bbOpen6Svc_rule (argp : OpenArg) (mode : UInt32) (result : OpenRet) :
    (bbOpen6Svc argp mode result).wp (server peer)
      (fun r h' => Opened argp mode h.os r h'.os ∨ (OS.Same h.os h'.os ∧
        (opValid h.os.fs (translateAbspath argp.path) (atoi argp.ip)
          (openFlagToCheck argp.flags) = 1 → ∀ i fs,
          h.os.fs.openAt h.os.umask (translateAbspath argp.path) argp.flags mode = .ok (i, fs) →
          ∃ n, fs.node i = some n ∧ n.kind = .fifo))) (fun _ => True) h := by
  unfold bbOpen6Svc
  obtain ⟨e, he⟩ := @looks_isOpValid peer h (translateAbspath argp.path) argp.ip
    (openFlagToCheck argp.flags)
  rw [wp_bind, wp_of_run_eq he]
  split
  · next hv => exact .inr ⟨OS.Same.fail _ _, fun hv' => absurd hv' hv⟩
  · next hv =>
    rw [not_not] at hv
    rw [wp_bind, wp_sys]
    simp only [OS.exec]
    rcases (h.os.fail e).openFile_cases (translateAbspath argp.path) argp.flags mode with
      ⟨e', -, ho, hfifo⟩ | ⟨i, fs, ha, ho⟩ | ho
    · rw [ho]
      simp only [if_true]
      rw [wp_bind]
      refine wp_negErrno ?_
      exact .inr ⟨(OS.Same.fail _ _).trans (OS.Same.fail _ _), fun _ => hfifo⟩
    · rw [ho]
      simp only
      rw [if_neg (by omega)]
      exact .inl ⟨hv, rfl, i, e, ha, rfl⟩
    · rw [ho]
      trivial

/-! ## Writing -/

/-- The bytes that `pwrite` takes from the message buffer and what lies behind it. -/
def payload (os : OS) (argp : WriteArg) : List UInt8 :=
  (argp.buffer.bytes ++ os.beyond).take (min argp.size.toNat maxRwCount)

/-- A lock call returns with another lock or another `errno`. -/
theorem wp_flock {fd : Int} {op : LockOp} {Q : Int → Host → Prop}
    (hQ : ∀ r os, OS.Same h.os os → (os.errno = h.os.errno ∨ os.errno = EBADF) →
      Q r { h with os := os }) :
    (sys (.flock fd op)).wp (server peer) Q (fun _ => True) h := by
  rw [wp_sys]
  simp only [OS.exec]
  cases hf : h.os.flock fd op with
  | error w => trivial
  | ok r =>
      refine hQ _ _ (OS.Same.flock hf) ?_
      unfold OS.flock at hf
      split at hf
      · cases hf
        exact .inr rfl
      · split at hf
        · cases hf
          exact .inr rfl
        · split at hf
          · split at hf
            · cases hf
            · cases hf
              exact .inl rfl
          · cases hf
            exact .inl rfl

/-- What writing under a lock does: `pwrite` on the descriptor, whatever the lock calls answer. -/
def Written (os : OS) (fd : Int) (bytes : List UInt8) (offset : ℕ) (ret : Int) (os' : OS) : Prop :=
  (∃ fs, os.pwrite fd bytes offset = .ok fs ∧ ret = bytes.length ∧
    OS.Same { os with fs := fs } os') ∨
  ((∃ e, os.pwrite fd bytes offset = .error e) ∧ ret = -1 ∧ OS.Same os os' ∧ 0 < os'.errno)

/-- **Lock, `pwrite`**: what the rest of the handler can rely on. -/
theorem wp_lockedWrite {fd : Int} {argp : WriteArg} {α : Type} {k : Int → Server α}
    {Q : α → Host → Prop}
    (hk : ∀ ret os', Written h.os fd (payload h.os argp) argp.offset.toNat ret os' →
      (k ret).wp (server peer) Q (fun _ => True) { h with os := os' }) :
    (do
      let _ ← sys (.flock fd .ex)
      let writeRet ← sys (.pwrite fd argp.buffer.bytes argp.size.toNat argp.offset.toNat)
      let _ ← sys (.flock fd .un)
      k writeRet : Server α).wp (server peer) Q (fun _ => True) h := by
  rw [wp_bind]
  refine wp_flock fun _ os₁ hs₁ _ => ?_
  rw [wp_bind, wp_sys]
  have hbytes : (argp.buffer.bytes ++ os₁.beyond).take (min argp.size.toNat maxRwCount) =
      payload h.os argp := by rw [hs₁.beyond_eq]; rfl
  simp only [OS.exec, hbytes, hs₁.pwrite]
  cases hw : h.os.pwrite fd (payload h.os argp) argp.offset.toNat with
  | ok fs =>
      simp only
      rw [wp_bind]
      refine wp_flock fun _ os₂ hs₂ _ => hk _ _ (.inl ⟨fs, hw, rfl, ?_⟩)
      have hs : OS.Same { h.os with fs := fs } { os₁ with fs := fs } :=
        ⟨rfl, hs₁.umask_eq, hs₁.beyond_eq, hs₁.fds⟩
      exact hs.trans hs₂
  | error e =>
      simp only
      rw [wp_bind]
      refine wp_flock fun _ os₂ hs₂ he₂ => hk _ _ (.inr ⟨⟨e, hw⟩, rfl, ?_, ?_⟩)
      · exact hs₁.trans ((OS.Same.fail _ _).trans hs₂)
      · rcases he₂ with he₂ | he₂
        · rw [he₂]
          rcases OS.pwrite_error hw with rfl | rfl
          · exact (by decide : 0 < EBADF)
          · exact (by decide : 0 < ESPIPE)
        · rw [he₂]
          exact (by decide : 0 < EBADF)

/-- **Writing through the descriptor of the request.** -/
theorem bbWrite6Svc_direct (argp : WriteArg) (result : WriteRet)
    (hrole : ¬(argp.serverInfo.isMaster = 0 ∧ argp.serverInfo.isDegraded = 0)) :
    (bbWrite6Svc argp result).wp (server peer) (fun r h' =>
      (∃ fs, h.os.pwrite argp.fd (payload h.os argp) argp.offset.toNat = .ok fs ∧
        r = ⟨(payload h.os argp).length, 0⟩ ∧ OS.Same { h.os with fs := fs } h'.os) ∨
      ((∃ e, h.os.pwrite argp.fd (payload h.os argp) argp.offset.toNat = .error e) ∧
        r.ret < 0 ∧ OS.Same h.os h'.os)) (fun _ => True) h := by
  unfold bbWrite6Svc
  rw [wp_bind]
  refine wp_transmit fun h₁ h₁os => ?_
  simp only [hrole, if_false, pure_bind]
  rw [← h₁os]
  refine wp_lockedWrite fun ret os' hw => ?_
  rcases hw with ⟨fs, hw, rfl, hs⟩ | ⟨he, rfl, hs, hpos⟩
  · rw [if_neg (by omega)]
    exact .inl ⟨fs, hw, rfl, hs⟩
  · rw [if_pos rfl, wp_bind]
    exact wp_negErrno (.inr ⟨he, Int.neg_neg_of_pos (Int.natCast_pos.mpr hpos), hs⟩)

/-- `open` with the flags of the secondary finds a regular file or a pipe, and changes nothing. -/
theorem openAt_write {fs fs' : FS} {umask : UInt32} {p : CStr} {i : Ino} :
    fs.openAt umask p writeOpenFlags 0 = .ok (i, fs') ↔
      fs.resolve p = .ok i ∧ fs' = fs ∧ ∃ n, fs.node i = some n ∧
        (n.kind = .reg ∨ n.kind = .fifo) := by
  have h1 : hasBit writeOpenFlags O_PATH = false := by decide
  have h2 : hasBit writeOpenFlags O_TMPFILE_BIT = false := by decide
  have h3 : hasBit writeOpenFlags O_CREAT = false := by decide
  have h4 : hasBit writeOpenFlags O_NOFOLLOW = false := by decide
  have h5 : hasBit writeOpenFlags O_TRUNC = false := by decide
  have h6 : hasBit writeOpenFlags O_DIRECTORY = false := by decide
  have h7 : ¬ writeOpenFlags &&& O_ACCMODE = O_RDONLY := by decide
  simp only [FS.openAt, h1, h2, h3, h4, Bool.false_eq_true, if_false]
  unfold FS.openExisting
  simp only [bind_eq_ok, need_eq_ok, orElse_eq_ok, exists_const, h5, h6, h7, and_false,
    false_and, or_false, true_or, true_and, Bool.false_eq_true, if_false, pure_eq_ok,
    Prod.mk.injEq]
  constructor
  · rintro ⟨k, hk, n, hn, hlink, hdir, hspecial, rfl, rfl⟩
    refine ⟨hk, rfl, n, hn, ?_⟩
    cases hkind : n.kind <;> simp_all
  · rintro ⟨hi, rfl, n, hn, hkind⟩
    refine ⟨i, hi, n, hn, ?_⟩
    rcases hkind with hk | hk <;> simp [hk]

theorem splice_end (d bytes : List UInt8) : splice d d.length bytes = d ++ bytes := by
  unfold splice
  split
  · next h => simp [h]
  · simp

/-- The tree after bytes have been appended to the regular file `i` with the content `d`. -/
def appended (fs : FS) (i : Ino) (d bytes : List UInt8) : FS :=
  fs.modify i (Inode.setData (splice d d.length bytes))

/-- **Writing on the secondary.**  The path is opened and written at the end of the file; if it
leads to a pipe, the descriptor stays open. -/
theorem bbWrite6Svc_byPath (argp : WriteArg) (result : WriteRet)
    (hrole : argp.serverInfo.isMaster = 0 ∧ argp.serverInfo.isDegraded = 0) :
    (bbWrite6Svc argp result).wp (server peer) (fun r h' =>
      (∃ i n d, h.os.fs.resolve (translateAbspath argp.path) = .ok i ∧
        h.os.fs.node i = some n ∧ n.body = .reg d ∧ r = ⟨(payload h.os argp).length, 0⟩ ∧
        OS.Same { h.os with fs := appended h.os.fs i d (payload h.os argp) } h'.os) ∨
      (r.ret < 0 ∧ OS.Same h.os h'.os ∧ ∀ i n,
        h.os.fs.resolve (translateAbspath argp.path) = .ok i → h.os.fs.node i = some n →
        n.kind ≠ .reg) ∨
      (∃ i n, h.os.fs.resolve (translateAbspath argp.path) = .ok i ∧ h.os.fs.node i = some n ∧
        n.kind = .fifo ∧ r.ret < 0 ∧
        OS.Same { h.os with fds := h.os.fds.addFile (OS.opened writeOpenFlags i) } h'.os))
      (fun _ => True) h := by
  unfold bbWrite6Svc
  rw [wp_bind]
  refine wp_transmit fun h₁ h₁os => ?_
  simp only [hrole, and_self, if_true]
  rw [wp_bind, wp_sys, ← h₁os]
  simp only [OS.exec]
  rcases h₁.os.openFile_cases (translateAbspath argp.path) writeOpenFlags 0 with
    ⟨e, -, ho, hfifo⟩ | ⟨i, fs, ha, ho⟩ | ho
  · rw [ho]
    refine wp_lockedWrite fun ret os' hw => ?_
    rcases hw with ⟨fs, hw, -⟩ | ⟨-, rfl, hs, hpos⟩
    · obtain ⟨f, -, -, -, hf, -⟩ := OS.pwrite_eq_ok.mp hw
      rw [Descriptors.file_of_neg (by omega)] at hf
      cases hf
    · rw [if_pos rfl, wp_bind]
      refine wp_negErrno (.inr (.inl ⟨Int.neg_neg_of_pos (Int.natCast_pos.mpr hpos),
        (OS.Same.fail _ _).trans hs, fun i n hi hn hreg => ?_⟩))
      obtain ⟨n', hn', hk⟩ := hfifo i _ (openAt_write.mpr ⟨hi, rfl, n, hn, .inl hreg⟩)
      obtain rfl : n = n' := by simpa [hn] using hn'
      rw [hreg] at hk
      cases hk
  · rw [ho]
    obtain ⟨hi, rfl, n, hn, hkind⟩ := openAt_write.mp ha
    refine wp_lockedWrite fun ret os' hw => ?_
    have hfile : (h₁.os.fds.addFile (OS.opened writeOpenFlags i)).file h₁.os.fds.nextFd =
        some (OS.opened writeOpenFlags i) := by simp [Descriptors.file_addFile]
    rcases hw with ⟨fs, hw, rfl, hs⟩ | ⟨⟨e, he⟩, rfl, hs, hpos⟩
    · -- A regular file: written at its end, and closed again.
      obtain ⟨f, j, m, d, hf, -, hj, hm, hd, rfl⟩ := OS.pwrite_eq_ok.mp hw
      obtain rfl : OS.opened writeOpenFlags i = f := by simpa [hfile] using hf
      obtain rfl : i = j := by simpa [OS.opened] using hj
      obtain ⟨g, hg, -⟩ := hs.fds.file hfile
      rw [if_neg (by omega), wp_bind]
      refine wp_sys_ok (by simp only [OS.exec, OS.close, hg]; rfl) ?_
      refine .inl ⟨i, m, d, hi, hm, hd, rfl, hs.fs_eq, hs.umask_eq, hs.beyond_eq, fun k => ?_⟩
      rw [Descriptors.file_dropFile]
      by_cases hk : k = h₁.os.fds.nextFd
      · rw [if_pos hk, hk, Descriptors.file_nextFd]
      · rw [if_neg hk, hs.fds k, Descriptors.file_addFile, if_neg hk]
    · -- Not a regular file.
      rw [if_pos rfl, wp_bind]
      refine wp_negErrno (.inr (.inr ⟨i, n, hi, hn, ?_,
        Int.neg_neg_of_pos (Int.natCast_pos.mpr hpos), hs⟩))
      rcases hkind with hreg | hfifo
      · obtain ⟨d, hd⟩ : ∃ d, n.body = .reg d := by
          cases hb : n.body <;> simp_all [Inode.kind, Body.kind]
        have hwritable : (OS.opened writeOpenFlags i).writable = true := by
          have hbits : hasBit writeOpenFlags O_PATH = false ∧
            writeOpenFlags &&& O_ACCMODE = O_WRONLY := by decide
          simp [OS.opened, hbits]
        have hok := (@OS.pwrite_eq_ok
          { h₁.os with fds := h₁.os.fds.addFile (OS.opened writeOpenFlags i) } h₁.os.fds.nextFd
          (payload h₁.os argp) argp.offset.toNat _).mpr
          ⟨OS.opened writeOpenFlags i, i, n, d, hfile, hwritable, rfl, hn, hd, rfl⟩
        cases hok.symm.trans he
      · exact hfifo
  · rw [ho]
    trivial

end

/-! ## What a request can do to the tree -/

/-- The request writes through the path, in the role of the secondary. -/
def WriteArg.byPath (argp : WriteArg) : Prop :=
  argp.serverInfo.isMaster = 0 ∧ argp.serverInfo.isDegraded = 0

instance (argp : WriteArg) : Decidable argp.byPath := inferInstanceAs (Decidable (_ ∧ _))

/-- The ways from the tree before a request to the tree after it. -/
inductive TreeStep (a : Arrival) (os : OS) (reply : Reply) : FS → Prop
  | outcome {o : Outcome} (ho : treeOp os.umask os.fs a.request = some o)
      (hret : reply.ret = o.ret) : TreeStep a os reply o.fs
  | kept (hk : a.request.keepsTree = true) : TreeStep a os reply os.fs
  | opened {argp : OpenArg} {i : Ino} {fs : FS} (hr : a.request = .openFile argp)
      (hv : opValid os.fs (translateAbspath argp.path) (atoi argp.ip)
        (openFlagToCheck argp.flags) = 1)
      (ho : os.fs.openAt os.umask (translateAbspath argp.path) argp.flags a.stale.openMode =
        .ok (i, fs)) : TreeStep a os reply fs
  | unopened {argp : OpenArg} (hr : a.request = .openFile argp)
      (hfail : opValid os.fs (translateAbspath argp.path) (atoi argp.ip)
          (openFlagToCheck argp.flags) = 1 → ∀ i fs,
        os.fs.openAt os.umask (translateAbspath argp.path) argp.flags a.stale.openMode =
          .ok (i, fs) → ∃ n, fs.node i = some n ∧ n.kind = .fifo) : TreeStep a os reply os.fs
  | written {argp : WriteArg} {fs : FS} (hr : a.request = .write argp) (hrole : ¬ argp.byPath)
      (hw : os.pwrite argp.fd (payload os argp) argp.offset.toNat = .ok fs) :
      TreeStep a os reply fs
  | unwritten {argp : WriteArg} (hr : a.request = .write argp) (hrole : ¬ argp.byPath)
      (hfail : ∃ e, os.pwrite argp.fd (payload os argp) argp.offset.toNat = .error e) :
      TreeStep a os reply os.fs
  | appended {argp : WriteArg} {i : Ino} {n : Inode} {d : List UInt8}
      (hr : a.request = .write argp) (hrole : argp.byPath)
      (hi : os.fs.resolve (translateAbspath argp.path) = .ok i)
      (hn : os.fs.node i = some n) (hd : n.body = .reg d) :
      TreeStep a os reply (DFS.appended os.fs i d (payload os argp))
  | unappended {argp : WriteArg} (hr : a.request = .write argp) (hrole : argp.byPath)
      (hfail : ∀ i n, os.fs.resolve (translateAbspath argp.path) = .ok i →
        os.fs.node i = some n → n.kind ≠ .reg) : TreeStep a os reply os.fs

/-- **What one request does to the tree.** -/
theorem serve_treeStep {a : Arrival} {h h' : Host} {reply : Reply}
    (hr : serve a h = .ok (reply, h')) : TreeStep a h.os reply h'.os.fs := by
  obtain ⟨r, stale, peer⟩ := a
  cases ho : treeOp h.os.umask h.os.fs r with
  | some o =>
      obtain ⟨hret, hfs, -⟩ := compute6_treeOp ho hr
      rw [hfs]
      exact .outcome ho hret
  | none =>
      by_cases hk : r.keepsTree = true
      · rw [(compute6_keepsTree hk hr).1]
        exact .kept hk
      · cases r <;> simp only [treeOp, reduceCtorEq, Request.keepsTree, Request.quiet,
          not_true_eq_false] at ho hk
        case openFile argp =>
          obtain ⟨r, hrun, -⟩ := (run_map_eq_ok _).mp hr
          rcases (bbOpen6Svc_rule argp stale.openMode stale.openFile).of_run hrun with
            hop | ⟨hs, hfail⟩
          · obtain ⟨hv, -, i, e, ho, -⟩ := hop
            exact .opened rfl hv ho
          · rw [hs.fs_eq]
            exact .unopened rfl hfail
        case write argp =>
          obtain ⟨r, hrun, -⟩ := (run_map_eq_ok _).mp hr
          by_cases hrole : argp.byPath
          · rcases (bbWrite6Svc_byPath argp stale.write hrole).of_run hrun with
              ⟨i, n, d, hi, hn, hd, -, hs⟩ | ⟨-, hs, hfail⟩ | ⟨i, n, hi, hn, hk, -, hs⟩
            · rw [hs.fs_eq]
              exact .appended rfl hrole hi hn hd
            · rw [hs.fs_eq]
              exact .unappended rfl hrole hfail
            · rw [hs.fs_eq]
              refine .unappended rfl hrole fun i' n' hi' hn' hreg => ?_
              obtain rfl : i = i' := by simpa [hi] using hi'
              obtain rfl : n = n' := by simpa [hn] using hn'
              rw [hreg] at hk
              cases hk
          · rcases (bbWrite6Svc_direct argp stale.write hrole).of_run hrun with
              ⟨fs, hw, -, hs⟩ | ⟨he, -, hs⟩
            · rw [hs.fs_eq]
              exact .written rfl hrole hw
            · rw [hs.fs_eq]
              exact .unwritten rfl hrole he

section

variable {a : Arrival} {h h' : Host} {reply : Reply}

/-- The trees around an `open`. -/
theorem serve_open {argp : OpenArg} (hreq : a.request = .openFile argp)
    (hr : serve a h = .ok (reply, h')) :
    (opValid h.os.fs (translateAbspath argp.path) (atoi argp.ip)
        (openFlagToCheck argp.flags) = 1 ∧
      ∃ i, h.os.fs.openAt h.os.umask (translateAbspath argp.path) argp.flags a.stale.openMode =
        .ok (i, h'.os.fs)) ∨
    (h'.os.fs = h.os.fs ∧
      (opValid h.os.fs (translateAbspath argp.path) (atoi argp.ip)
        (openFlagToCheck argp.flags) = 1 → ∀ i fs,
      h.os.fs.openAt h.os.umask (translateAbspath argp.path) argp.flags a.stale.openMode =
        .ok (i, fs) → ∃ n, fs.node i = some n ∧ n.kind = .fifo)) := by
  have hstep := serve_treeStep hr
  generalize h'.os.fs = fs' at hstep ⊢
  cases hstep with
  | opened hr' hv ho =>
      cases hreq.symm.trans hr'
      exact .inl ⟨hv, _, ho⟩
  | unopened hr' hfail =>
      cases hreq.symm.trans hr'
      exact .inr ⟨rfl, hfail⟩
  | outcome ho => rw [hreq] at ho; cases ho
  | kept hk => rw [hreq] at hk; cases hk
  | written hr' | unwritten hr' | appended hr' | unappended hr' =>
      cases hreq.symm.trans hr'

/-- The trees around a `write` through a descriptor. -/
theorem serve_write_direct {argp : WriteArg} (hreq : a.request = .write argp)
    (hrole : ¬ argp.byPath) (hr : serve a h = .ok (reply, h')) :
    h.os.pwrite argp.fd (payload h.os argp) argp.offset.toNat = .ok h'.os.fs ∨
    ((∃ e, h.os.pwrite argp.fd (payload h.os argp) argp.offset.toNat = .error e) ∧
      h'.os.fs = h.os.fs) := by
  have hstep := serve_treeStep hr
  generalize h'.os.fs = fs' at hstep ⊢
  cases hstep with
  | written hr' _ hw =>
      cases hreq.symm.trans hr'
      exact .inl hw
  | unwritten hr' _ hfail =>
      cases hreq.symm.trans hr'
      exact .inr ⟨hfail, rfl⟩
  | outcome ho => rw [hreq] at ho; cases ho
  | kept hk => rw [hreq] at hk; cases hk
  | opened hr' | unopened hr' => cases hreq.symm.trans hr'
  | appended hr' hrole' | unappended hr' hrole' =>
      cases hreq.symm.trans hr'
      exact absurd hrole' hrole

/-- The trees around a `write` in the role of the secondary. -/
theorem serve_write_byPath {argp : WriteArg} (hreq : a.request = .write argp)
    (hrole : argp.byPath) (hr : serve a h = .ok (reply, h')) :
    (∃ i n d, h.os.fs.resolve (translateAbspath argp.path) = .ok i ∧ h.os.fs.node i = some n ∧
      n.body = .reg d ∧ h'.os.fs = appended h.os.fs i d (payload h.os argp)) ∨
    (h'.os.fs = h.os.fs ∧ ∀ i n, h.os.fs.resolve (translateAbspath argp.path) = .ok i →
      h.os.fs.node i = some n → n.kind ≠ .reg) := by
  have hstep := serve_treeStep hr
  generalize h'.os.fs = fs' at hstep ⊢
  cases hstep with
  | appended hr' _ hi hn hd =>
      cases hreq.symm.trans hr'
      exact .inl ⟨_, _, _, hi, hn, hd, rfl⟩
  | unappended hr' _ hfail =>
      cases hreq.symm.trans hr'
      exact .inr ⟨rfl, hfail⟩
  | outcome ho => rw [hreq] at ho; cases ho
  | kept hk => rw [hreq] at hk; cases hk
  | opened hr' | unopened hr' => cases hreq.symm.trans hr'
  | written hr' hrole' | unwritten hr' hrole' =>
      cases hreq.symm.trans hr'
      exact absurd hrole hrole'

end

end DFS
