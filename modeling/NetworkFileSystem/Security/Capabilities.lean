import NetworkFileSystem.Resources.Balance

/-!
# Descriptors as capabilities

Permissions are checked in `open`; the requests that follow carry a bare number, which the server
uses whoever sends it.  So a client may read, write or close through a number only if it has got
that number from an `open` of its own that passed the check.  **`entitled_of_own`** says that this
is so in every run in which clients use their own numbers only; nothing in the server makes them.
-/

namespace DFS

open Effects Posix Prog

/-! ## What a request uses a descriptor for -/

section

variable {peer : Peer} {h : Host} {f : Faults} {P : Prop}

/-- The descriptor is open, with a property of its open file. -/
def OpenWith (p : OpenFile → Bool) (t : Descriptors) (fd : Int) : Prop :=
  ∃ g, t.file fd = some g ∧ p g = true

/-- Descriptors that differ in locks and positions are open in the same way. -/
theorem OpenWith.of_same {p : OpenFile → Bool} (hp : ∀ g, p g.base = p g) {t t' : Descriptors}
    {fd : Int} (h : OpenWith p t' fd) (hs : Descriptors.Same t t') : OpenWith p t fd := by
  obtain ⟨g, hg, hr⟩ := h
  obtain ⟨g', hg', hb⟩ := hs.symm.file hg
  exact ⟨g', hg', by rw [← hp, hb, hp, hr]⟩

theorem execUnder_pread (fault : Option Fault) (os : OS) (fd : Int) (size offset : ℕ) :
    ∃ v os', OS.execUnder fault (.pread fd size offset) os = .ok (v, os') ∧ os'.fds = os.fds ∧
      (v = none → 0 < os'.errno) ∧ (v.isSome → OpenWith OpenFile.readable os.fds fd) := by
  have hexec : ∀ n, ∃ v os', OS.exec (.pread fd n offset) os = .ok (v, os') ∧ os'.fds = os.fds ∧
      (v = none → 0 < os'.errno) ∧ (v.isSome → OpenWith OpenFile.readable os.fds fd) := by
    intro n
    simp only [OS.exec]
    cases hp : os.pread fd n offset with
    | ok d =>
        obtain ⟨g, i, n, d', hg, hr, -⟩ := OS.pread_eq_ok.mp hp
        exact ⟨_, _, rfl, rfl, fun h => (by cases h), fun _ => ⟨g, hg, hr⟩⟩
    | error e =>
        refine ⟨_, _, rfl, rfl, fun _ => ?_, fun h => by cases h⟩
        exact OS.pread_error hp
  cases fault with
  | none => exact hexec size
  | some fault =>
      cases fault with
      | short n => exact hexec (min size n)
      | fail e he => exact ⟨none, os.fail e, rfl, rfl, fun _ => he, fun h => by cases h⟩

theorem execUnder_pwrite_fs (fault : Option Fault) (os : OS) (fd : Int) (buf : List UInt8)
    (size offset : ℕ) : ∀ r, OS.execUnder fault (.pwrite fd buf size offset) os = .ok r →
      r.2.fs ≠ os.fs → OpenWith OpenFile.writable os.fds fd := by
  have hexec : ∀ n r, OS.exec (.pwrite fd buf n offset) os = .ok r → r.2.fs ≠ os.fs →
      OpenWith OpenFile.writable os.fds fd := by
    intro n r hr hne
    simp only [OS.exec] at hr
    split at hr
    · next fs hw =>
      obtain ⟨g, i, n, d, hg, hwr, -⟩ := OS.pwrite_eq_ok.mp hw
      exact ⟨g, hg, hwr⟩
    · cases hr
      exact absurd rfl hne
  intro r hr hne
  cases fault with
  | none => exact hexec size r hr hne
  | some fault =>
      cases fault with
      | short n => exact hexec (min size n) r hr hne
      | fail e he =>
          cases hr
          exact absurd rfl hne

/-- A read that succeeds went through a descriptor that is open for reading. -/
theorem wp_readNeeds (argp : ReadArg) (result : ReadRet) :
    (bbRead6Svc argp result).wp (disturbed peer)
      (fun r _ => r.ret = 0 → OpenWith OpenFile.readable h.os.fds argp.fd) (fun _ => True)
      (h, f) := by
  unfold bbRead6Svc
  rw [wp_bind]
  refine (wp_lockUnder (P := True) rfl (fun _ _ => trivial) fun _ h₁ hheld _ => ?_).mono
    (fun _ _ h => h) fun _ _ => trivial
  rw [wp_bind, wp_sysUnder]
  obtain ⟨v, os', hx, -, hnone, hsome⟩ :=
    execUnder_pread (f.drop 1).head?.join h₁.os argp.fd argp.size.toNat argp.offset.toNat
  rw [hx]
  simp only
  rw [wp_bind, wp_steady rfl fun _ => rfl]
  simp only [OS.exec]
  cases hl : os'.flock argp.fd .un with
  | error w => trivial
  | ok r =>
      cases v with
      | none =>
          -- The error number is positive, so the reply is no success.
          simp only
          rw [wp_bind]
          refine wp_negErrnoUnder fun h0 => ?_
          have hpos : (0 : ℕ) < r.2.errno := OS.flock_errno hl (hnone rfl)
          change -(r.2.errno : Int) = 0 at h0
          omega
      | some d => exact fun _ => (hsome rfl).of_same (fun _ => rfl) hheld.1

/-- A write of the primary that changes the tree went through a descriptor that is open for
writing. -/
theorem wp_writeNeeds (argp : WriteArg) (result : WriteRet) (hrole : ¬ argp.byPath) :
    (bbWrite6Svc argp result).wp (disturbed peer)
      (fun _ s => s.1.os.fs ≠ h.os.fs → OpenWith OpenFile.writable h.os.fds argp.fd)
      (fun _ => True) (h, f) := by
  unfold bbWrite6Svc
  rw [wp_bind]
  refine wp_transmitUnder fun h₀ h₀os => ?_
  unfold WriteArg.byPath at hrole
  simp only [hrole, if_false, pure_bind]
  rw [← h₀os, wp_bind]
  refine (wp_lockUnder (P := True) rfl (fun _ _ => trivial) fun _ h₁ hheld hfs => ?_).mono
    (fun _ _ h => h) fun _ _ => trivial
  rw [wp_bind, wp_sysUnder]
  have hwrite := execUnder_pwrite_fs (f.drop 1).head?.join h₁.os argp.fd argp.buffer.bytes
    argp.size.toNat argp.offset.toNat
  split
  · next r hx =>
    have hneeds := hwrite r hx
    rw [wp_bind, wp_steady rfl fun _ => rfl]
    simp only [OS.exec]
    cases hl : r.2.flock argp.fd .un with
    | error w => trivial
    | ok u =>
        have hkept : ∀ h₃ : Host, h₃.os.fs = u.2.fs → h₃.os.fs ≠ h₀.os.fs →
            OpenWith OpenFile.writable h₀.os.fds argp.fd := by
          intro h₃ h₃fs hne
          rw [h₃fs, (OS.Same.flock hl).fs_eq, ← hfs] at hne
          exact (hneeds hne).of_same (fun _ => rfl) hheld.1
        simp only
        split
        · rw [wp_bind]
          exact wp_negErrnoUnder (hkept _ rfl)
        · exact hkept _ rfl
  · trivial

variable {d : Disturbance} {h' : Host} {reply : Reply}

/-- A read that succeeds has had a descriptor open for reading. -/
theorem answer_read {arg : ReadArg} (hreq : d.arrival.request = .read arg)
    (hs : answer d h = .ok (reply, h')) (hret : reply.ret = 0) :
    OpenWith OpenFile.readable h.os.fds arg.fd := by
  obtain ⟨⟨reply', s⟩, hrun, heq⟩ := map_eq_ok.mp hs
  cases heq
  rw [hreq, compute6, run_map_eq_ok] at hrun
  obtain ⟨r, hrun, rfl⟩ := hrun
  exact (wp_readNeeds arg d.arrival.stale.read).of_run hrun hret

/-- A write that changes something has had a descriptor open for writing. -/
theorem answer_write {arg : WriteArg} (hreq : d.arrival.request = .write arg)
    (hs : answer d h = .ok (reply, h')) (hrole : ¬ arg.byPath) (hne : h'.os.fs ≠ h.os.fs) :
    OpenWith OpenFile.writable h.os.fds arg.fd := by
  obtain ⟨⟨reply', s⟩, hrun, heq⟩ := map_eq_ok.mp hs
  cases heq
  rw [hreq, compute6, run_map_eq_ok] at hrun
  obtain ⟨r, hrun, rfl⟩ := hrun
  exact (wp_writeNeeds arg d.arrival.stale.write hrole).of_run hrun hne

/-- A release that succeeds has had an open descriptor. -/
theorem answer_release {arg : ReleaseArg} (hreq : d.arrival.request = .release arg)
    (hs : answer d h = .ok (reply, h')) (hret : reply.ret = 0) :
    (h.os.fds.file arg.fd).isSome := by
  have hcloses : closes d.arrival.request reply = some arg.fd := by
    rw [hreq]
    exact if_pos hret
  have htable := serveUnder_table hs
  generalize h'.os.fds = t at htable
  cases htable with
  | left _ hc _ _ => cases hc.symm.trans hcloses
  | opened _ hc _ _ => cases hc.symm.trans hcloses
  | closed _ hc _ hg =>
      cases hc.symm.trans hcloses
      rw [hg]
      rfl

end

/-! ## Whose descriptor it is -/

/-- The client has opened the descriptor, and nobody has closed it since. -/
def Owns (past : List (Event Disturbance Reply Host)) (ip : CStr) (fd : Int) : Prop :=
  ∃ e arg, (fd, e) ∈ (handleLedger fun d : Disturbance => d.arrival.request).out past ∧
    e.input.arrival.request = .openFile arg ∧ arg.ip = ip

/-- There is an earlier `open` by the client that returned the descriptor with `ret = 0`; nobody
has closed it since; and the check that it passed covered the permissions `need`. -/
def Entitled (past : List (Event Disturbance Reply Host)) (ip : CStr) (fd : Int)
    (need : UInt32) : Prop :=
  ∃ before e after arg r, past = before ++ e :: after ∧
    e.input.arrival.request = .openFile arg ∧ arg.ip = ip ∧
    e.output = .openFile r ∧ r.fd = fd ∧ r.ret = 0 ∧
    (∀ x ∈ after, closes x.input.arrival.request x.output ≠ some fd) ∧
    opValid e.pre.os.fs (translateAbspath arg.path) (atoi arg.ip) (openFlagToCheck arg.flags) = 1 ∧
    openFlagToCheck arg.flags &&& need = need

/-- What should hold of every request: file bytes are returned, a file is changed by the primary,
and a descriptor is closed only for a client that is entitled to it. -/
def Capable (past : List (Event Disturbance Reply Host)) (e : Event Disturbance Reply Host) :
    Prop :=
  match e.input.arrival.request with
  | .read arg => e.output.ret = 0 → Entitled past arg.ip arg.fd R_REQ
  | .write arg =>
    ¬ arg.byPath → e.post.os.fs ≠ e.pre.os.fs → Entitled past arg.ip arg.fd W_REQ
  | .release arg => e.output.ret = 0 → Entitled past arg.ip arg.fd 0
  | _ => True

/-- The client uses descriptors of its own, where the number is good for what it asks for. -/
def UsesOwn (past : List (Event Disturbance Reply Host)) (e : Event Disturbance Reply Host) :
    Prop :=
  match e.input.arrival.request with
  | .read arg => OpenWith OpenFile.readable e.pre.os.fds arg.fd → Owns past arg.ip arg.fd
  | .write arg =>
    ¬ arg.byPath → OpenWith OpenFile.writable e.pre.os.fds arg.fd → Owns past arg.ip arg.fd
  | .release arg => (e.pre.os.fds.file arg.fd).isSome → Owns past arg.ip arg.fd
  | _ => True

/-! ## What is behind a descriptor -/

/-- A descriptor that `open` has handed out leads to a file that was opened with the flags of the
request, after they had been checked. -/
def Backed (past : List (Event Disturbance Reply Host)) (h : Host) : Prop :=
  ∀ fd e arg, (fd, e) ∈ (handleLedger fun d : Disturbance => d.arrival.request).out past →
    e.input.arrival.request = .openFile arg →
    opValid e.pre.os.fs (translateAbspath arg.path) (atoi arg.ip) (openFlagToCheck arg.flags) = 1 ∧
    ∃ i g, h.os.fds.file fd = some g ∧ g.base = OS.opened arg.flags i

/-- **One request** keeps what is behind the descriptors. -/
theorem backed_step {past : List (Event Disturbance Reply Host)}
    {e : Event Disturbance Reply Host} (hb : Backed past e.pre)
    (hs : answer e.input e.pre = .ok (e.output, e.post)) : Backed (past ++ [e]) e.post := by
  intro fd e' arg hmem harg
  have htable := serveUnder_table hs
  rw [Ledger.mem_out_snoc] at hmem
  generalize e.post.os.fds = t at htable ⊢
  cases htable with
  | left ho _ _ ht =>
      rcases hmem with ⟨hg, -⟩ | ⟨hmem, -⟩
      · cases ho.symm.trans hg
      · obtain ⟨hv, i, g, hg, hbase⟩ := hb fd e' arg hmem harg
        obtain ⟨g', hg', hbase'⟩ := ht.1.file (Descriptors.file_addFiles hg _)
        exact ⟨hv, i, g', hg', hbase'.trans hbase⟩
  | @opened flags i ho _ _ hv =>
      rcases hmem with ⟨hg, heq⟩ | ⟨hmem, -⟩
      · have hfd : (e.pre.os.fds.nextFd : Int) = fd := Option.some.inj (ho.symm.trans hg)
        obtain rfl : e' = e := heq
        subst hfd
        obtain ⟨rfl, hvalid⟩ := hv arg harg
        exact ⟨hvalid, i, _, by rw [Descriptors.file_addFile, if_pos rfl], rfl⟩
      · obtain ⟨hv, i', g, hg, hbase⟩ := hb fd e' arg hmem harg
        exact ⟨hv, i', g, Descriptors.file_addFiles hg [_], hbase⟩
  | @closed fd' g' ho hc _ _ =>
      rcases hmem with ⟨hg, -⟩ | ⟨hmem, hne⟩
      · cases ho.symm.trans hg
      · obtain ⟨hv, i, g, hg, hbase⟩ := hb fd e' arg hmem harg
        have hfd : fd ≠ fd' := fun h => hne (h ▸ hc)
        exact ⟨hv, i, g, by rw [Descriptors.file_dropFile, if_neg hfd, hg], hbase⟩

/-- A file that is open for reading was checked for reading. -/
theorem checked_of_readable {flags : UInt32} {i : Ino} (h : (OS.opened flags i).readable = true) :
    openFlagToCheck flags &&& R_REQ = R_REQ := by
  have hacc : flags &&& O_ACCMODE = O_RDONLY ∨ flags &&& O_ACCMODE = O_RDWR := by
    simp only [OS.opened, Bool.and_eq_true, Bool.or_eq_true, decide_eq_true_eq] at h
    exact h.2
  unfold openFlagToCheck
  rcases hacc with h | h <;> rw [h] <;> decide

/-- A descriptor that is open for writing has been checked for writing. -/
theorem checked_of_writable {flags : UInt32} {i : Ino} (h : (OS.opened flags i).writable = true) :
    openFlagToCheck flags &&& W_REQ = W_REQ := by
  have hacc : flags &&& O_ACCMODE = O_WRONLY ∨ flags &&& O_ACCMODE = O_RDWR := by
    simp only [OS.opened, Bool.and_eq_true, Bool.or_eq_true, decide_eq_true_eq] at h
    exact h.2
  unfold openFlagToCheck
  rcases hacc with h | h <;> rw [h] <;> decide

/-- Owning a descriptor is being entitled to what its flags were checked for. -/
theorem Owns.entitled {past : List (Event Disturbance Reply Host)} {h : Host} {ip : CStr}
    {fd : Int} {need : UInt32} (hown : Owns past ip fd) (hb : Backed past h)
    (hneed : ∀ g flags i, h.os.fds.file fd = some g → g.base = OS.opened flags i →
      openFlagToCheck flags &&& need = need) : Entitled past ip fd need := by
  obtain ⟨e, arg, hmem, harg, hip⟩ := hown
  obtain ⟨hv, i, g, hg, hbase⟩ := hb fd e arg hmem harg
  obtain ⟨before, after, rfl, hgives, hafter⟩ := Ledger.mem_out.mp hmem
  have hopens : opens (.openFile arg) e.output = some fd := harg ▸ hgives
  obtain ⟨r, hr, hret, hfd⟩ := opens_openFile.mp hopens
  exact ⟨before, e, after, arg, r, rfl, harg, hip, hr, hfd, hret, hafter, hv,
    hneed g _ i hg hbase⟩

/-- **Own descriptors only.**  In every run in which clients use descriptors of their own, a
request has an effect through a descriptor only for a client that is entitled to it. -/
theorem entitled_of_own {h₀ h : Host} {tr : List (Event Disturbance Reply Host)}
    (hrun : Runs answer h₀ tr h) (hown : Runs.Along UsesOwn tr) : Runs.Along Capable tr := by
  refine hrun.along_of_invariant (I := Backed) (fun _ _ _ hmem => nomatch hmem)
    (fun past e hb hs hc => ⟨backed_step hb hs, ?_⟩) hown
  unfold UsesOwn at hc
  unfold Capable
  -- A file opened with the flags is good for what the open file is good for.
  have hbits : ∀ {p : OpenFile → Bool} {need : UInt32} {fd : Int},
      (∀ g, p g.base = p g) →
      (∀ flags i, p (OS.opened flags i) = true → openFlagToCheck flags &&& need = need) →
      OpenWith p e.pre.os.fds fd → ∀ g flags i, e.pre.os.fds.file fd = some g →
      g.base = OS.opened flags i → openFlagToCheck flags &&& need = need := by
    rintro p need fd hp hchecked ⟨g', hg', hpg⟩ g flags i hg hbase
    rw [hg, Option.some.injEq] at hg'
    exact hchecked flags i (by rw [← hbase, hp, hg', hpg])
  split at hc
  · next arg hreq =>
    intro hret
    have hopen : OpenWith OpenFile.readable e.pre.os.fds arg.fd := answer_read hreq hs hret
    exact (hc hopen).entitled hb
      (hbits (fun _ => rfl) (fun _ _ => checked_of_readable) hopen)
  · next arg hreq =>
    intro hrole hne
    have hopen : OpenWith OpenFile.writable e.pre.os.fds arg.fd := answer_write hreq hs hrole hne
    exact (hc hrole hopen).entitled hb
      (hbits (fun _ => rfl) (fun _ _ => checked_of_writable) hopen)
  · next arg hreq =>
    intro hret
    exact (hc (answer_release hreq hs hret)).entitled hb fun g flags i _ _ => UInt32.and_zero
  · trivial

/-- The root directory `/DFS` with a file of the client with number 1 that nobody else may read. -/
def secretFile : FS := .ofNodes [
  .plain (.dir 0 [("DFS".toList, 1)]) 0 0o755,
  .plain (.dir 0 [("f".toList, 2)]) 0 0o777,
  .plain (.reg [1, 2, 3]) 1 0o600]

/-- Client 1 opens the file. -/
def openSecret : Disturbance := ⟨.alone (.openFile ⟨"1".toList, "/f".toList, O_RDONLY⟩), []⟩

/-- Somebody reads from descriptor 0. -/
def readZero (ip : CStr) : Disturbance := ⟨.alone (.read ⟨ip, 0, 10, 0⟩), []⟩

/-- The run of the two requests, when its outcome is known. -/
theorem run_openRead {ip : CStr} (hrun : ((answer openSecret (.start secretFile)).bind fun r =>
      (answer (readZero ip) r.2).map fun r' => (opens openSecret.arrival.request r.1, r'.1.ret)) =
      .ok (some 0, 0)) :
    ∃ r₁ h₁ r₂ h₂, Runs answer (.start secretFile)
        ([⟨.start secretFile, openSecret, r₁, h₁⟩] ++ [⟨h₁, readZero ip, r₂, h₂⟩]) h₂ ∧
      opens openSecret.arrival.request r₁ = some 0 ∧ r₂.ret = 0 := by
  cases hs₁ : answer openSecret (.start secretFile) with
  | error w => rw [hs₁] at hrun; cases hrun
  | ok r =>
      rw [hs₁] at hrun
      obtain ⟨r', hs₂, heq⟩ := map_eq_ok.mp hrun
      obtain ⟨hopens, hret⟩ := Prod.mk.inj heq
      exact ⟨r.1, r.2, r'.1, r'.2,
        .snoc (e := ⟨r.2, readZero ip, r'.1, r'.2⟩) (.single hs₁) hs₂, hopens, hret⟩

/-- The owner opens its file and reads it. -/
theorem entitled_of_own_read : ∃ r₁ h₁ r₂ h₂, Runs answer (.start secretFile)
      ([⟨.start secretFile, openSecret, r₁, h₁⟩] ++ [⟨h₁, readZero "1".toList, r₂, h₂⟩]) h₂ ∧
    r₂.ret = 0 ∧ Entitled [⟨.start secretFile, openSecret, r₁, h₁⟩] "1".toList 0 R_REQ := by
  obtain ⟨r₁, h₁, r₂, h₂, hrun, hopens, hret⟩ := @run_openRead "1".toList (by rfl)
  have hown : Runs.Along UsesOwn ([⟨.start secretFile, openSecret, r₁, h₁⟩] ++
      [⟨h₁, readZero "1".toList, r₂, h₂⟩]) := by
    refine Runs.along_snoc.mpr
      ⟨Runs.along_single.mpr trivial, fun _ => ?_⟩
    have hout : (0, ⟨.start secretFile, openSecret, r₁, h₁⟩) ∈
        (handleLedger fun d : Disturbance => d.arrival.request).out
          ([] ++ [⟨.start secretFile, openSecret, r₁, h₁⟩]) :=
      Ledger.mem_out_snoc.mpr (.inl ⟨hopens, rfl⟩)
    exact ⟨⟨.start secretFile, openSecret, r₁, h₁⟩, _, hout, rfl, rfl⟩
  exact ⟨r₁, h₁, r₂, h₂, hrun, hret, entitled_of_own hrun hown _ _ [] rfl hret⟩

/-- Client 2 reads through the descriptor of client 1. -/
theorem reads_foreign_descriptor : ¬ ∀ (h₀ h : Host) (tr : List (Event Disturbance Reply Host)),
    Runs answer h₀ tr h → Runs.Along Capable tr := by
  intro hall
  obtain ⟨r₁, h₁, r₂, h₂, hrun, hopens, hret⟩ := @run_openRead "2".toList (by rfl)
  obtain ⟨before, e, after, arg, r, hpast, hreq, hip, -⟩ := hall _ _ _ hrun _ _ [] rfl hret
  -- The only earlier request is the one of client 1.
  have hmem : e ∈ [(⟨.start secretFile, openSecret, r₁, h₁⟩ : Event Disturbance Reply Host)] := by
    rw [hpast]
    simp
  rw [List.mem_singleton.mp hmem] at hreq
  cases hreq
  exact absurd hip (by decide)

end DFS
