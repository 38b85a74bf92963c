import NetworkFileSystem.Service.Bounds
import NetworkFileSystem.Store.Model

/-!
# The server is a store

Whatever requests come, in whatever order, as long as they keep within bounds, the server does to
its tree and its open files what `Store.step` says and replies accordingly (**`store_refined`**).
The messages that it prints on the way then change nothing.
-/

namespace Posix

/-! ## Tables with the same open files -/

theorem leastFree_congr {used used' : List ℕ} (hlength : used'.length = used.length)
    (hmem : ∀ n, n ∈ used' ↔ n ∈ used) : leastFree used' = leastFree used := by
  unfold leastFree
  rw [hlength]
  congr 2
  funext n
  simp [hmem]

namespace Descriptors.Same

variable {t t' : Descriptors}

theorem mem_numbers (h : Same t t') (n : ℕ) :
    n ∈ t'.entries.map (·.1) ↔ n ∈ t.entries.map (·.1) := by
  have hsub : ∀ {t t' : Descriptors}, Same t t' → n ∈ t.entries.map (·.1) →
      n ∈ t'.entries.map (·.1) := by
    intro t t' h hn
    obtain ⟨⟨m, f⟩, hmem, rfl⟩ := List.mem_map.mp hn
    obtain ⟨f', hf', -⟩ := @Same.file _ _ h m _ (file_eq_some.mpr ⟨m, hmem, rfl⟩)
    obtain ⟨m', hmem', hm'⟩ := file_eq_some.mp hf'
    exact List.mem_map.mpr ⟨(m', f'), hmem', by exact_mod_cast hm'⟩
  exact ⟨hsub h.symm, hsub h⟩

theorem nextFd_eq (h : Same t t') : t'.nextFd = t.nextFd :=
  leastFree_congr (by simpa [Descriptors.count] using h.count_eq) h.mem_numbers

theorem addFile (h : Same t t') (f : OpenFile) : Same (t.addFile f) (t'.addFile f) := by
  intro k
  rw [file_addFile, file_addFile, h.nextFd_eq]
  split
  · rfl
  · exact h k

theorem addFiles (h : Same t t') (l : List OpenFile) : Same (t.addFiles l) (t'.addFiles l) := by
  induction l with
  | nil => exact h
  | cons f l ih => exact ih.addFile f

theorem dropFile (h : Same t t') (fd : Int) : Same (t.dropFile fd) (t'.dropFile fd) := by
  intro k
  rw [file_dropFile, file_dropFile]
  split
  · rfl
  · exact h k

end Descriptors.Same

/-- No system call of the signature reaches the memory behind a message. -/
theorem exec_beyond {β : Type} {c : Sys β} {os : OS} {r : β × OS} (h : OS.exec c os = .ok r) :
    r.2.beyond = os.beyond := by
  have htry : ∀ x : Except Errno FS, (os.tryFS x).2.beyond = os.beyond := by
    intro x
    cases x <;> rfl
  by_cases hq : c.quiet = true
  · exact (OS.exec_quiet hq h).beyond_eq
  · cases c <;> simp only [Sys.quiet, not_true_eq_false] at hq <;> simp only [OS.exec] at h
    case openPath p flags mode =>
      rcases os.openFile_cases p flags mode with ⟨e, -, hr, -⟩ | ⟨i, fs, -, hr⟩ | hr
      · rw [hr] at h
        cases h
        rfl
      · rw [hr] at h
        cases h
        rfl
      · rw [hr] at h
        cases h
    case opendir p =>
      cases h
      unfold OS.opendir
      split <;> rfl
    case pwrite fd buf size offset =>
      split at h
      · cases h
        rfl
      · cases h
        rfl
    case exit => cases h
    case close | closedir =>
      cases h
      unfold OS.close
      split <;> rfl
    all_goals
      cases h
      exact htry _

end Posix

namespace DFS

open Effects Posix Prog

/-- No request changes the memory behind the message buffer. -/
theorem serve_beyond {a : Arrival} {h h' : Host} {reply : Reply}
    (hr : serve a h = .ok (reply, h')) : h'.os.beyond = h.os.beyond :=
  server_run_rel (P := fun _ => true) (R := fun os os' => os'.beyond = os.beyond) (fun _ => rfl)
    (fun _ _ _ h h' => h'.trans h) (fun _ {_ _} => exec_beyond)
    ((calls_true _).mono fun e _ => by cases e <;> trivial) hr

/-- The process holds the store. -/
structure Store.Kept (v : Setting) (st : Store) (os : OS) : Prop where
  fs_eq : os.fs = st.fs
  fds : Descriptors.Same st.fds os.fds
  umask_eq : os.umask = v.umask
  beyond_eq : os.beyond = v.beyond

/-! ## Reading and writing -/

section

variable {v : Setting} {st : Store} {os : OS} {f f' : OpenFile}

theorem regular_eq_some {i : Ino} {d : List UInt8} :
    st.regular f = some (i, d) ↔ f.ino = some i ∧ content st.fs i = some d := by
  simp only [Store.regular, Option.bind_eq_bind, Option.bind_eq_some_iff, Option.pure_def,
    Option.some.injEq, Prod.mk.injEq]
  constructor
  · rintro ⟨j, hj, d', hd, rfl, rfl⟩
    exact ⟨hj, hd⟩
  · rintro ⟨hi, hd⟩
    exact ⟨i, hi, d, hd, rfl, rfl⟩

theorem base_eq (h : f'.base = f.base) : f'.ino = f.ino ∧ f'.readable = f.readable ∧
    f'.writable = f.writable ∧ f'.append = f.append ∧ f'.pathOnly = f.pathOnly := by
  simpa [OpenFile.base] using h

/-- Reading through a descriptor is reading from the store. -/
theorem Store.Kept.read_cases (hk : st.Kept v os) (arg : ReadArg) :
    (∃ d, os.pread arg.fd arg.size.toNat arg.offset.toNat = .ok d ∧
      st.read arg = (.data d, st)) ∨
    ((∃ e, os.pread arg.fd arg.size.toNat arg.offset.toNat = .error e) ∧
      st.read arg = (.refused, st)) := by
  cases hp : os.pread arg.fd arg.size.toNat arg.offset.toNat with
  | ok d =>
      obtain ⟨f', i, n, d', hf', hr, hi, hn, hd, rfl⟩ := OS.pread_eq_ok.mp hp
      obtain ⟨f, hf, hb⟩ := hk.fds.symm.file hf'
      obtain ⟨hino, hread, -⟩ := base_eq hb
      have hreg : st.regular f = some (i, d') :=
        regular_eq_some.mpr ⟨hino.trans hi, hk.fs_eq ▸ content_eq_some.mpr ⟨n, hn, hd⟩⟩
      refine .inl ⟨_, rfl, ?_⟩
      simp only [Store.read, hf, hreg, hread, hr, if_true]
  | error e =>
      refine .inr ⟨⟨e, rfl⟩, ?_⟩
      unfold Store.read
      split
      · next f hf =>
        split
        · next i d hreg =>
          split
          · next hr =>
            obtain ⟨hi, hd⟩ := regular_eq_some.mp hreg
            obtain ⟨f', hf', hb⟩ := hk.fds.file hf
            obtain ⟨hino, hread, -⟩ := base_eq hb
            obtain ⟨n, hn, hbody⟩ := content_eq_some.mp (hk.fs_eq ▸ hd)
            cases hp.symm.trans (OS.pread_eq_ok.mpr
              ⟨f', i, n, d, hf', hread.trans hr, hino.trans hi, hn, hbody, rfl⟩)
          · rfl
        · rfl
      · rfl

/-- Writing through a descriptor is writing to the store. -/
theorem Store.Kept.write_cases (hk : st.Kept v os) (arg : WriteArg) :
    (∃ fs, os.pwrite arg.fd (payload os arg) arg.offset.toNat = .ok fs ∧
      st.write v arg = (.taken (payload os arg).length, { st with fs := fs })) ∨
    ((∃ e, os.pwrite arg.fd (payload os arg) arg.offset.toNat = .error e) ∧
      st.write v arg = (.refused, st)) := by
  have hbytes : v.taken arg = payload os arg := by
    unfold Setting.taken payload
    rw [hk.beyond_eq]
  cases hp : os.pwrite arg.fd (payload os arg) arg.offset.toNat with
  | ok fs =>
      obtain ⟨f', i, n, d, hf', hw, hi, hn, hd, rfl⟩ := OS.pwrite_eq_ok.mp hp
      obtain ⟨f, hf, hb⟩ := hk.fds.symm.file hf'
      obtain ⟨hino, -, hwrite, happend, -⟩ := base_eq hb
      have hreg : st.regular f = some (i, d) :=
        regular_eq_some.mpr ⟨hino.trans hi, hk.fs_eq ▸ content_eq_some.mpr ⟨n, hn, hd⟩⟩
      refine .inl ⟨_, rfl, ?_⟩
      simp only [Store.write, hf, hreg, hwrite, hw, happend, hbytes, hk.fs_eq, if_true]
  | error e =>
      refine .inr ⟨⟨e, rfl⟩, ?_⟩
      unfold Store.write
      split
      · next f hf =>
        split
        · next i d hreg =>
          split
          · next hw =>
            obtain ⟨hi, hd⟩ := regular_eq_some.mp hreg
            obtain ⟨f', hf', hb⟩ := hk.fds.file hf
            obtain ⟨hino, -, hwrite, -⟩ := base_eq hb
            obtain ⟨n, hn, hbody⟩ := content_eq_some.mp (hk.fs_eq ▸ hd)
            cases hp.symm.trans (OS.pwrite_eq_ok.mpr
              ⟨f', i, n, d, hf', hwrite.trans hw, hino.trans hi, hn, hbody, rfl⟩)
          · rfl
        · rfl
      · rfl

end

/-! ## Handlers -/

section

variable {peer : Peer} {h : Host}

/-- `bb_read_6_svc` returns what `pread` does. -/
theorem bbRead6Svc_rule (argp : ReadArg) (result : ReadRet) :
    (bbRead6Svc argp result).wp (server peer) (fun r h' => OS.Same h.os h'.os ∧
      ((∃ d, h.os.pread argp.fd argp.size.toNat argp.offset.toNat = .ok d ∧
        r = ⟨(Opaque.ofBytes d).bytes, d.length, 0⟩) ∨
      ((∃ e, h.os.pread argp.fd argp.size.toNat argp.offset.toNat = .error e) ∧ r.ret < 0)))
      (fun _ => True) h := by
  unfold bbRead6Svc
  rw [wp_bind]
  refine wp_flock fun _ os₁ hs₁ _ => ?_
  rw [wp_bind, wp_sys]
  simp only [OS.exec, hs₁.pread]
  cases hp : h.os.pread argp.fd argp.size.toNat argp.offset.toNat with
  | ok d =>
      simp only [OS.tryGet]
      rw [wp_bind]
      exact wp_flock fun _ os₂ hs₂ _ => ⟨hs₁.trans hs₂, .inl ⟨d, rfl, rfl⟩⟩
  | error e =>
      simp only [OS.tryGet]
      rw [wp_bind]
      refine wp_flock fun _ os₂ hs₂ he₂ => ?_
      rw [wp_bind]
      refine wp_negErrno ⟨hs₁.trans ((OS.Same.fail _ _).trans hs₂), .inr ⟨⟨e, rfl⟩, ?_⟩⟩
      have hpos : (0 : ℕ) < os₂.errno := by
        rcases he₂ with he₂ | he₂
        · rw [he₂]
          exact OS.pread_error hp
        · rw [he₂]
          exact (by decide : 0 < EBADF)
      exact Int.neg_neg_of_pos (Int.natCast_pos.mpr hpos)

/-- `bb_opendir_6_svc` opens the directory, or changes nothing because it is refused or fails. -/
theorem bbOpendir6Svc_rule (argp : OpendirArg) (result : OpendirRet) :
    (bbOpendir6Svc argp result).wp (server peer) (fun r h' =>
      (opValid h.os.fs (translateAbspath argp.path) (atoi argp.ip) (R_REQ ||| X_REQ) = 1 ∧
        ∃ i e, dirOf h.os.fs (translateAbspath argp.path) = some i ∧ r = ⟨h.os.fds.nextFd, 0⟩ ∧
        h'.os = { h.os with fds := h.os.fds.addFile (dirFile i), errno := e }) ∨
      (OS.Same h.os h'.os ∧ r.ret < 0 ∧
        (opValid h.os.fs (translateAbspath argp.path) (atoi argp.ip) (R_REQ ||| X_REQ) = 1 →
          dirOf h.os.fs (translateAbspath argp.path) = none))) (fun _ => True) h := by
  unfold bbOpendir6Svc
  obtain ⟨e, he⟩ := @looks_isOpValid peer h (translateAbspath argp.path) argp.ip (R_REQ ||| X_REQ)
  rw [wp_bind, wp_of_run_eq he]
  split
  · next hv =>
    exact .inr ⟨OS.Same.fail _ _, (by decide : -(EACCES : Int) < 0), fun hv' => absurd hv' hv⟩
  · next hv =>
    rw [not_not] at hv
    rw [wp_bind, wp_sys]
    simp only [OS.exec]
    rcases opendir_cases (h.os.fail e) (translateAbspath argp.path) with
      ⟨i, hi, ho⟩ | ⟨e', he', hi, ho⟩
    · rw [ho]
      exact .inl ⟨hv, i, e, hi, rfl, rfl⟩
    · rw [ho]
      simp only
      rw [wp_bind]
      refine wp_negErrno (.inr ⟨(OS.Same.fail _ _).trans (OS.Same.fail _ _), ?_, fun _ => hi⟩)
      exact Int.neg_neg_of_pos (Int.natCast_pos.mpr he')

end

/-! ## One request -/

section

variable {v : Setting} {st : Store} {os os' : OS} {h h' : Host} {stale : Stale} {peer : Peer}
  {reply : Reply}

/-- What the reply carries and what the process holds are what a step of the store says. -/
structure Follows (v : Setting) (r : Yield × Store) (reply : Reply) (os' : OS) : Prop where
  yield : r.1.In reply
  kept : r.2.Kept v os'

theorem Store.Kept.same (hk : st.Kept v os) (h : OS.Same os os') : st.Kept v os' where
  fs_eq := h.fs_eq.trans hk.fs_eq
  fds := hk.fds.trans h.fds
  umask_eq := h.umask_eq.trans hk.umask_eq
  beyond_eq := h.beyond_eq.trans hk.beyond_eq

theorem serve_table {a : Arrival} (hr : serve a h = .ok (reply, h')) :
    TableStep [] a.request h.os reply h'.os.fds :=
  serveUnder_table (by rw [serveUnder_nil]; exact hr)

/-- The store after a request, by the tree and the table after it. -/
theorem Store.Kept.after {a : Arrival} (hk : st.Kept v h.os) (hr : serve a h = .ok (reply, h'))
    {st' : Store} (hfs : h'.os.fs = st'.fs) (hfds : Descriptors.Same st'.fds h'.os.fds) :
    st'.Kept v h'.os where
  fs_eq := hfs
  fds := hfds
  umask_eq := (serve_umask hr).trans hk.umask_eq
  beyond_eq := (serve_beyond hr).trans hk.beyond_eq

/-- **A read** is one of the store. -/
theorem follows_read {arg : ReadArg} (hk : st.Kept v h.os)
    (hr : serve ⟨.read arg, stale, peer⟩ h = .ok (reply, h')) :
    Follows v (st.read arg) reply h'.os := by
  obtain ⟨ret, hrun, rfl⟩ := (run_map_eq_ok _).mp hr
  obtain ⟨hs, hret⟩ := (bbRead6Svc_rule arg stale.read).of_run hrun
  rcases hk.read_cases arg with ⟨d, hd, hst⟩ | ⟨⟨e, he⟩, hst⟩
  · rcases hret with ⟨d', hd', rfl⟩ | ⟨⟨e, he⟩, -⟩
    · obtain rfl := Except.ok.inj (hd.symm.trans hd')
      rw [hst]
      exact ⟨rfl, hk.same hs⟩
    · cases hd.symm.trans he
  · rcases hret with ⟨d', hd', -⟩ | ⟨-, hneg⟩
    · cases he.symm.trans hd'
    · rw [hst]
      exact ⟨hneg, hk.same hs⟩

/-- **A write** is one of the store. -/
theorem follows_write {arg : WriteArg} (hk : st.Kept v h.os) (hrole : ¬ arg.byPath)
    (hr : serve ⟨.write arg, stale, peer⟩ h = .ok (reply, h')) :
    Follows v (st.write v arg) reply h'.os := by
  obtain ⟨ret, hrun, rfl⟩ := (run_map_eq_ok _).mp hr
  have hret := (bbWrite6Svc_direct arg stale.write hrole).of_run hrun
  rcases hk.write_cases arg with ⟨fs, hfs, hst⟩ | ⟨⟨e, he⟩, hst⟩
  · rcases hret with ⟨fs', hfs', rfl, hs⟩ | ⟨⟨e, he⟩, -⟩
    · obtain rfl := Except.ok.inj (hfs.symm.trans hfs')
      rw [hst]
      exact ⟨rfl, hk.after hr hs.fs_eq (hk.fds.trans hs.fds)⟩
    · cases hfs.symm.trans he
  · rcases hret with ⟨fs', hfs', -⟩ | ⟨-, hneg, hs⟩
    · cases he.symm.trans hfs'
    · rw [hst]
      exact ⟨hneg, hk.same hs⟩

/-- What the table keeps besides what a request was asked to open or close. -/
theorem fds_left {a : Arrival} (hk : st.Kept v h.os) (hr : serve a h = .ok (reply, h'))
    (ho : opens a.request reply = none) (hc : closes a.request reply = none) :
    Descriptors.Same (st.fds.addFiles (leftOpen [] st.fs a.request)) h'.os.fds := by
  have htable := serve_table hr
  generalize h'.os.fds = t at htable
  cases htable with
  | left _ _ _ ht =>
      rw [hk.fs_eq] at ht
      exact (hk.fds.addFiles _).trans ht.1
  | opened ho' => cases ho.symm.trans ho'
  | closed _ hc' => cases hc.symm.trans hc'

/-- A write in the role of the secondary is an append to the store. -/
theorem follows_append {arg : WriteArg} (hk : st.Kept v h.os) (hrole : arg.byPath)
    (hr : serve ⟨.write arg, stale, peer⟩ h = .ok (reply, h')) :
    Follows v (st.append v arg) reply h'.os := by
  have hfds : Descriptors.Same (st.fds.addFiles (leftOpen [] st.fs (.write arg))) h'.os.fds :=
    fds_left hk hr rfl rfl
  have hbytes : v.taken arg = payload h.os arg := by
    unfold Setting.taken payload
    rw [hk.beyond_eq]
  obtain ⟨ret, hrun, rfl⟩ := (run_map_eq_ok _).mp hr
  have hrefused : ret.ret < 0 → h'.os.fs = h.os.fs →
      (∀ i n, h.os.fs.resolve (translateAbspath arg.path) = .ok i → h.os.fs.node i = some n →
        n.kind ≠ .reg) → Follows v (st.append v arg) (.write ret) h'.os := by
    intro hneg hs hno
    have hst : st.append v arg =
        (.refused, { st with fds := st.fds.addFiles (leftOpen [] st.fs (.write arg)) }) := by
      unfold Store.append
      cases hi : st.fs.resolve (translateAbspath arg.path) with
      | error e => rfl
      | ok i =>
          cases hd : content st.fs i with
          | none => simp only [hd]
          | some d =>
              obtain ⟨n, hn, hbody⟩ := content_eq_some.mp hd
              refine absurd ?_ (hno i n (hk.fs_eq ▸ hi) (hk.fs_eq ▸ hn))
              simp [Inode.kind, Body.kind, hbody]
    rw [hst]
    exact ⟨hneg, hk.after hr (hs.trans hk.fs_eq) hfds⟩
  rcases (bbWrite6Svc_byPath arg stale.write hrole).of_run hrun with
    ⟨i, n, d, hi, hn, hd, rfl, hs⟩ | ⟨hneg, hs, hno⟩ | ⟨i, n, hi, hn, hkind, hneg, hs⟩
  · have hcontent : content st.fs i = some d := hk.fs_eq ▸ content_eq_some.mpr ⟨n, hn, hd⟩
    have hst : st.append v arg = (.taken (payload h.os arg).length,
        ⟨appended st.fs i d (payload h.os arg),
          st.fds.addFiles (leftOpen [] st.fs (.write arg))⟩) := by
      simp only [Store.append, ← hk.fs_eq, hi]
      rw [hk.fs_eq, hcontent, hbytes]
    rw [hst]
    refine ⟨rfl, hk.after hr ?_ hfds⟩
    rw [hs.fs_eq, hk.fs_eq]
  · exact hrefused hneg hs.fs_eq hno
  · refine hrefused hneg hs.fs_eq fun i' n' hi' hn' hreg => ?_
    obtain rfl := Except.ok.inj (hi.symm.trans hi')
    obtain rfl := Option.some.inj (hn.symm.trans hn')
    rw [hreg] at hkind
    cases hkind

/-- `bb_open_6_svc` answers with no positive status. -/
theorem gives_open (argp : OpenArg) (mode : UInt32) (result : OpenRet) :
    (bbOpen6Svc argp mode result).Gives fun r => r.ret ≤ 0 := by
  refine gives_bind (gives_true _) fun v _ => ?_
  split
  · exact (by decide : -(EACCES : Int) ≤ 0)
  · refine gives_bind (gives_true _) fun fd _ => ?_
    split
    · exact gives_errno fun _ hv => hv
    · exact Int.le_refl 0

/-- An `open` that has opened nothing reports an error. -/
theorem refused_open {arg : OpenArg} {ret : OpenRet} (hs : OS.Same h.os h'.os)
    (htable : TableStep [] (.openFile arg) h.os (.openFile ret) h'.os.fds) (hle : ret.ret ≤ 0) :
    ret.ret < 0 := by
  have hfds := hs.fds
  generalize h'.os.fds = t at htable hfds
  cases htable with
  | left ho =>
      refine lt_of_le_of_ne hle fun hzero => ?_
      simp [opens, hzero] at ho
  | opened =>
      have hnew := hfds h.os.fds.nextFd
      rw [Descriptors.file_addFile, if_pos rfl, Descriptors.file_nextFd] at hnew
      cases hnew
  | closed _ hc => cases hc

/-- A file is opened when the store opens it; a pipe may have to be ready. -/
theorem follows_open {arg : OpenArg} (hk : st.Kept v h.os)
    (hr : serve ⟨.openFile arg, stale, peer⟩ h = .ok (reply, h')) :
    ∃ ready, Follows v (st.openFile v arg stale.openMode ready) reply h'.os := by
  have htable := serve_table hr
  obtain ⟨ret, hrun, rfl⟩ := (run_map_eq_ok _).mp hr
  rcases (bbOpen6Svc_rule arg stale.openMode stale.openFile).of_run hrun with
    ⟨hv, hret, i, e, ho, hos⟩ | ⟨hs, hno⟩
  · have hst : st.openFile v arg stale.openMode true =
        (.opened st.fds.nextFd, ⟨h'.os.fs, st.fds.addFile (OS.opened arg.flags i)⟩) := by
      rw [hk.fs_eq] at hv ho
      rw [hk.umask_eq] at ho
      simp [Store.openFile, hv, ho]
    refine ⟨true, ?_⟩
    rw [hst]
    refine ⟨.inl ?_, hk.after hr rfl ?_⟩
    · rw [hret, hk.fds.nextFd_eq]
    · rw [hos]
      exact hk.fds.addFile _
  · have hneg : ret.ret < 0 := refused_open hs htable ((gives_open arg _ _).of_run hrun)
    have hst : st.openFile v arg stale.openMode false = (.refused, st) := by
      unfold Store.openFile
      dsimp only
      split
      · next hv =>
        split
        · next i fs ho =>
          rw [← hk.fs_eq] at hv ho
          rw [← hk.umask_eq] at ho
          obtain ⟨n, hn, hkind⟩ := hno hv i fs ho
          rw [hn, if_pos ⟨congrArg some hkind, rfl⟩]
        · rfl
      · rfl
    refine ⟨false, ?_⟩
    rw [hst]
    exact ⟨hneg, hk.same hs⟩

theorem follows_opendir {arg : OpendirArg} (hk : st.Kept v h.os)
    (hr : serve ⟨.opendir arg, stale, peer⟩ h = .ok (reply, h')) :
    Follows v (st.opendir arg) reply h'.os := by
  obtain ⟨ret, hrun, rfl⟩ := (run_map_eq_ok _).mp hr
  rcases (bbOpendir6Svc_rule arg stale.opendir).of_run hrun with
    ⟨hv, i, e, hi, rfl, hos⟩ | ⟨hs, hneg, hno⟩
  · have hst : st.opendir arg =
        (.opened st.fds.nextFd, { st with fds := st.fds.addFile (dirFile i) }) := by
      rw [hk.fs_eq] at hv hi
      simp [Store.opendir, hv, hi]
    rw [hst]
    refine ⟨.inr ?_, hk.after hr ?_ ?_⟩
    · rw [hk.fds.nextFd_eq]
    · rw [hos]
      exact hk.fs_eq
    · rw [hos]
      exact hk.fds.addFile _
  · have hst : st.opendir arg = (.refused, st) := by
      unfold Store.opendir
      dsimp only
      split
      · next hv =>
        rw [← hk.fs_eq] at hv
        rw [← hk.fs_eq, hno hv]
      · rfl
    rw [hst]
    exact ⟨hneg, hk.same hs⟩

theorem isDir_iff {fs : FS} {i : Ino} :
    fs.isDir i = true ↔ ∃ p es n, fs.node i = some n ∧ n.body = .dir p es := by
  unfold FS.isDir
  constructor
  · intro hd
    split at hd
    · next n hn =>
      have hkind : n.body.kind = .dir := of_decide_eq_true hd
      cases hb : n.body <;> rw [hb] at hkind <;> cases hkind
      exact ⟨_, _, n, hn, hb⟩
    · cases hd
  · rintro ⟨p, es, n, hn, hb⟩
    simp [hn, Inode.kind, hb, Body.kind]

/-- A stream can be made of what the store can list. -/
theorem Store.Kept.listable_iff (hk : st.Kept v os) {f f' : OpenFile} (hb : f'.base = f.base) :
    st.listable f = true ↔ os.Listable f' := by
  obtain ⟨hino, hread, -, -, hpath⟩ := base_eq hb
  simp only [Store.listable, OS.Listable, Bool.and_eq_true, Bool.not_eq_true', and_assoc, hpath,
    hread, OS.bodyOf, hino, hk.fs_eq]
  refine and_congr_right fun _ => and_congr_right fun _ => ?_
  cases f.ino with
  | none => simp
  | some i => simp [isDir_iff, Option.bind_eq_some_iff]

/-- Closing a descriptor that can be closed. -/
theorem follows_close {a : Arrival} {fd : Int} (hk : st.Kept v h.os)
    (hr : serve a h = .ok (reply, h')) (hkeeps : a.request.keepsTree = true)
    (ho : opens a.request reply = none)
    (hc : closes a.request reply = if reply.ret = 0 then some fd else none)
    (hret : reply.ret = 0) :
    Follows v (.closed, { st with fds := st.fds.dropFile fd }) reply h'.os := by
  have hfs : h'.os.fs = st.fs := (compute6_keepsTree hkeeps hr).1.trans hk.fs_eq
  rw [if_pos hret] at hc
  refine ⟨hret, hk.after hr hfs ?_⟩
  have htable := serve_table hr
  generalize h'.os.fds = t at htable
  cases htable with
  | left _ hc' => cases hc.symm.trans hc'
  | opened ho' => cases ho.symm.trans ho'
  | closed _ hc' =>
      obtain rfl := Option.some.inj (hc.symm.trans hc')
      exact hk.fds.dropFile _

theorem follows_release {arg : ReleaseArg} (hk : st.Kept v h.os)
    (hr : serve ⟨.release arg, stale, peer⟩ h = .ok (reply, h')) :
    Follows v (st.release arg) reply h'.os := by
  cases serve_handle rfl hr with
  | used hg _ hret =>
      obtain ⟨f, hf, -⟩ := hk.fds.symm.file hg
      have hst : st.release arg = (.closed, { st with fds := st.fds.dropFile arg.fd }) := by
        simp [Store.release, hf]
      rw [hst]
      exact follows_close hk hr rfl rfl rfl hret
  | refused hu hneg hs =>
      have hst : st.release arg = (.refused, st) := by
        unfold Store.release
        split
        · next f hf =>
          obtain ⟨f', hf', -⟩ := hk.fds.file hf
          exact absurd trivial (hu f' hf')
        · rfl
      rw [hst]
      exact ⟨hneg, hk.same hs⟩

theorem follows_releasedir {arg : ReleasedirArg} (hk : st.Kept v h.os)
    (hr : serve ⟨.releasedir arg, stale, peer⟩ h = .ok (reply, h')) :
    Follows v (st.releasedir arg) reply h'.os := by
  cases serve_handle rfl hr with
  | used hg hl hret =>
      obtain ⟨f, hf, hb⟩ := hk.fds.symm.file hg
      have hst : st.releasedir arg = (.closed, { st with fds := st.fds.dropFile arg.fd }) := by
        simp [Store.releasedir, hf, (hk.listable_iff hb.symm).mpr hl]
      rw [hst]
      exact follows_close hk hr rfl rfl rfl hret
  | refused hu hneg hs =>
      have hst : st.releasedir arg = (.refused, st) := by
        unfold Store.releasedir
        split
        · next f hf =>
          obtain ⟨f', hf', hb⟩ := hk.fds.file hf
          rw [if_neg fun hl => hu f' hf' ((hk.listable_iff hb).mp hl)]
        · rfl
      rw [hst]
      exact ⟨hneg, hk.same hs⟩

/-- **A listing** is one of the store. -/
theorem follows_readdir {arg : ReaddirArg} (hk : st.Kept v h.os)
    (hr : serve ⟨.readdir arg, stale, peer⟩ h = .ok (reply, h')) :
    Follows v (st.readdir arg) reply h'.os := by
  cases serve_handle rfl hr with
  | used hg hl hret =>
      obtain ⟨f, hf, hb⟩ := hk.fds.symm.file hg
      have hst : st.readdir arg = (.listed, st) := by
        simp [Store.readdir, hf, (hk.listable_iff hb.symm).mpr hl]
      rw [hst]
      exact ⟨hret, hk.same (compute6_quiet (r := .readdir arg) rfl hr)⟩
  | refused hu hneg hs =>
      have hst : st.readdir arg = (.refused, st) := by
        unfold Store.readdir
        split
        · next f hf =>
          obtain ⟨f', hf', hb⟩ := hk.fds.file hf
          rw [if_neg fun hl => hu f' hf' ((hk.listable_iff hb).mp hl)]
        · rfl
      rw [hst]
      exact ⟨hneg, hk.same hs⟩

/-- A request that goes by path is answered by the tree. -/
theorem follows_byPath {a : Arrival} (hk : st.Kept v h.os) (hr : serve a h = .ok (reply, h'))
    {x : Answer} (hx : answerOf v.umask st.fs a.request = some x) :
    Follows v (.answer x.ret x.shown, ⟨x.fs, st.fds.addFiles (leftOpen [] st.fs a.request)⟩)
      reply h'.os := by
  have hpath : a.request.goesByPath = true := by
    rw [← answerOf_isSome v.umask st.fs, hx]
    rfl
  have hgiven : x.Given reply h' := serve_answer (by rw [hk.umask_eq, hk.fs_eq]; exact hx) hr
  refine ⟨⟨hgiven.ret_eq, hgiven.shown⟩, hk.after hr hgiven.fs_eq (fds_left hk hr ?_ ?_)⟩
  · cases hreq : a.request <;> rw [hreq] at hpath <;> first | rfl | cases hpath
  · cases hreq : a.request <;> rw [hreq] at hpath <;> first | rfl | cases hpath

/-- **One request.**  The server does what the store does. -/
theorem follows_step {a : Arrival} (hk : st.Kept v h.os) (hr : serve a h = .ok (reply, h')) :
    ∃ ready, Follows v (st.step v ⟨a.request, a.stale.openMode, ready⟩) reply h'.os := by
  obtain ⟨r, stale, peer⟩ := a
  cases r with
  | openFile arg => exact follows_open hk hr
  | opendir arg => exact ⟨false, follows_opendir hk hr⟩
  | release arg => exact ⟨false, follows_release hk hr⟩
  | releasedir arg => exact ⟨false, follows_releasedir hk hr⟩
  | readdir arg => exact ⟨false, follows_readdir hk hr⟩
  | read arg => exact ⟨false, follows_read hk hr⟩
  | write arg =>
      refine ⟨false, ?_⟩
      by_cases hrole : arg.byPath
      · simp only [Store.step, if_pos hrole]
        exact follows_append hk hrole hr
      · simp only [Store.step, if_neg hrole]
        exact follows_write hk hrole hr
  | _ => exact ⟨false, follows_byPath hk hr rfl⟩

end

/-! ## Runs -/

/-- The store as a system that carries out commands. -/
def Store.run (v : Setting) (c : Command) (st : Store) : Except Empty (Yield × Store) :=
  .ok (st.step v c)

/-- An event of the server is one of the store. -/
structure Obeys (v : Setting) (e : Event Arrival Reply Host) (d : Event Command Yield Store) :
    Prop where
  request_eq : d.input.request = e.input.request
  mode_eq : d.input.openMode = e.input.stale.openMode
  yield : d.output.In e.output
  pre : d.pre.Kept v e.pre.os
  post : d.post.Kept v e.post.os

/-- A server that prints nothing is a store. -/
theorem serve_refined {v : Setting} {st : Store} {s t : Host}
    {tr : List (Event Arrival Reply Host)} (h : Runs serve s tr t) (hk : st.Kept v s.os) :
    ∃ tr' st', Runs (Store.run v) st tr' st' ∧ st'.Kept v t.os ∧
      Reads (Obeys v) (fun _ => False) tr tr' := by
  refine h.simulated (H := fun s (st : Store) => st.Kept v s.os) (C := fun _ => True) ?_ hk
    fun _ _ => trivial
  intro e st hk hs _
  obtain ⟨ready, hyield, hkept⟩ := follows_step hk hs
  exact .inl ⟨⟨e.input.request, e.input.stale.openMode, ready⟩, _, _, rfl, hkept,
    ⟨rfl, rfl, hyield, hk, hkept⟩⟩

/-- **The server is a store.**  Every run of requests within bounds, from a process whose standard
error is in place, is a run of the store that it holds, and every reply carries what comes of the
request there. -/
theorem store_refined {lib : Verbose.RpcTexts} {v : Setting} {st : Store} {s t : Host}
    {tr : List (Event Arrival Reply Host)} (h : Runs (Verbose.serve lib) s tr t)
    (hin : s.os.StderrInPlace) (hbounds : ∀ e ∈ tr, e.input.request.InBounds e.pre.os)
    (hk : st.Kept v s.os) :
    ∃ tr' st', Runs (Store.run v) st tr' st' ∧ st'.Kept v t.os ∧
      Reads (Obeys v) (fun _ => False) tr tr' := by
  have hquiet : Runs serve s tr t :=
    (Verbose.serve_runs_unheard lib h hin fun e he => (hbounds e he).leavesOwn).1
  exact serve_refined hquiet hk

theorem kept_self (os : OS) : Store.Kept ⟨os.umask, os.beyond⟩ ⟨os.fs, os.fds⟩ os :=
  ⟨rfl, .refl _, rfl, rfl⟩

/-- A server that has been started. -/
def launched : Host := ⟨OS.launch oneFile, []⟩

def openOwn : Arrival := .alone (.openFile ⟨"1".toList, "/f".toList, O_RDWR⟩)

def writeOwn : Arrival :=
  .alone (.write ⟨"1".toList, ⟨1, 1⟩, 5, "/f".toList, 2, 0, .ofBytes [1, 2]⟩)

def readOwn : Arrival := .alone (.read ⟨"1".toList, 5, 2, 0⟩)

/-- The file is opened, written and read. -/
theorem store_refined_file : ∃ tr t tr' st', Runs (Verbose.serve .none) launched tr t ∧
    tr.map (·.output.ret) = [0, 0, 0] ∧
    Runs (Store.run ⟨launched.os.umask, []⟩) ⟨oneFile, launched.os.fds⟩ tr' st' ∧
    st'.fs = t.os.fs ∧ ∀ d ∈ tr', ∃ e ∈ tr, d.output.In e.output := by
  have hrun : (Verbose.serve .none openOwn launched >>= fun r => Verbose.serve .none writeOwn r.2
      >>= fun r' => (Verbose.serve .none readOwn r'.2).map fun r'' =>
        (([r.1.ret, r'.1.ret, r''.1.ret]),
          [(r.2.os.fds.file 5).map (·.ino.isSome), (r'.2.os.fds.file 5).map (·.ino.isSome)])) =
      .ok ([0, 0, 0], [some true, some true]) := by decide +kernel
  obtain ⟨⟨reply, h₁⟩, hs₁, hrun⟩ := bind_eq_ok.mp hrun
  obtain ⟨⟨reply', h₂⟩, hs₂, hrun⟩ := bind_eq_ok.mp hrun
  obtain ⟨⟨reply'', h₃⟩, hs₃, hvalues⟩ := map_eq_ok.mp hrun
  simp only [Prod.mk.injEq, List.cons.injEq, and_true] at hvalues
  obtain ⟨⟨hret, hret', hret''⟩, hfile, hfile'⟩ := hvalues
  have hruns := ((Runs.single hs₁).snoc (e := ⟨h₁, _, reply', h₂⟩) hs₂).snoc
    (e := ⟨h₂, _, reply'', h₃⟩) hs₃
  have hino : ∀ {os : OS} {fd : Int}, (os.fds.file fd).map (·.ino.isSome) = some true →
      ∀ f, os.fds.file fd = some f → f.ino ≠ none := by
    intro os fd hfile f hf hnone
    rw [hf, Option.map_some, hnone] at hfile
    cases hfile
  obtain ⟨tr', st', hrun', hkept, hreads⟩ := store_refined hruns (launch_stderr _) (by
    simp only [List.mem_append, List.mem_singleton]
    rintro e ((rfl | rfl) | rfl)
    · have hfits : Buffer.Fits "/f".toList := ⟨by decide, by decide⟩
      exact .of_paths (List.forall_mem_singleton.mpr hfits) rfl fun _ h => by cases h
    · refine ⟨fun p hp => ?_, fun _ h => ?_, fun _ h => ?_, fun _ h => ?_, fun _ h => ?_⟩
      · cases hp
      all_goals cases h
      · decide
      · exact hino hfile
    · refine ⟨fun p hp => ?_, fun _ h => ?_, fun _ h => ?_, fun _ h => ?_, fun _ h => ?_⟩
      · cases hp
      all_goals cases h
      · decide
      · exact hino hfile') (kept_self _)
  refine ⟨_, h₃, tr', st', hruns, by simp [hret, hret', hret''], hrun',
    hkept.fs_eq.symm, fun d hd => ?_⟩
  obtain ⟨e, he, hobeys⟩ := hreads.exists_of_mem hd
  exact ⟨e, he, hobeys.yield⟩

end DFS
