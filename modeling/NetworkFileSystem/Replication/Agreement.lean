import NetworkFileSystem.Posix.Agreement
import NetworkFileSystem.Replication.Duplicates
import NetworkFileSystem.Replication.Forwarding
import NetworkFileSystem.Security.Content
import NetworkFileSystem.Server.Stderr

/-!
# The replicas agree on names and attributes

The outcome of a request depends on the tree, the `umask` and the request only, and not on the
numbers of inodes: on trees that agree it gives the same status and trees that agree
(**`treeOp_agree`**).  Both servers of a pair compute it, so the trees agree again after every
request that does not write, and the status that comes back from the secondary is the one that the
client gets.

What the handlers print is no part of that.  Once a client has had the primary close descriptor 2
and open a file, the messages go into this file, and the secondary's copy stays as it is
(**`messages_diverge`**).  In every run in which the servers keep the descriptors they have for
themselves the trees agree (**`replicas_agree`**).
-/

namespace DFS

open Effects Posix Runs

variable {R : Ino → Ino → Prop} {fs fs' : FS} {p q : CStr} {id : Int32}

/-! ## Verdicts -/

/-- `lstat` finds related inodes. -/
theorem attrs_related (h : Iso R fs fs') (p : CStr) :
    Related (NodeRel R) (attrs fs p) (attrs fs' p) := by
  refine (h.lresolve p).bind fun i i' hi => ?_
  obtain ⟨n, n', hn, hn', hrel⟩ := h.node i i' hi
  rw [hn, hn']
  exact Related.ok hrel

/-- Related inodes grant the same. -/
theorem grants_eq {n n' : Inode} (h : NodeRel R n n') (flags : UInt32) :
    grants n' id flags = grants n id flags := by
  simp only [grants, permits, h.perm_eq, h.uid_eq]

/-- A verdict on the attributes of what a path leads to. -/
theorem verdict_eq {α : Type} (h : Agree fs fs') (p : CStr) {f : Inode → α} {a : α}
    (hf : ∀ (R : Ino → Ino → Prop) n n', NodeRel R n n' → f n' = f n) :
    (match attrs fs' p with
      | .ok n => f n
      | .error _ => a) =
    match attrs fs p with
      | .ok n => f n
      | .error _ => a := by
  obtain ⟨R, h⟩ := h
  have hattrs := attrs_related h p
  revert hattrs
  cases attrs fs p <;> cases attrs fs' p <;> intro hattrs
  · rfl
  · exact hattrs.elim
  · exact hattrs.elim
  · exact hf R _ _ hattrs

/-- On trees that agree a client owns the same. -/
theorem owns_agree (h : Agree fs fs') : owns fs' p id = owns fs p id :=
  verdict_eq h p fun _ _ _ hn => by rw [hn.uid_eq]

/-- On trees that agree the check of the bits answers the same. -/
theorem opValid_agree (h : Agree fs fs') (flags : UInt32) :
    opValid fs' p id flags = opValid fs p id flags :=
  verdict_eq h p fun _ _ _ hn => by rw [grants_eq hn]

/-- So does the check of the owner. -/
theorem rootdirOpValid_agree (h : Agree fs fs') :
    rootdirOpValidToDelete fs' p id = rootdirOpValidToDelete fs p id :=
  verdict_eq h p fun _ _ _ hn => by rw [hn.uid_eq]

/-- **The check of the parent** answers the same. -/
theorem parentDirValid_agree (h : Agree fs fs') (op : OpName) :
    parentDirValid fs' p q id op = parentDirValid fs p q id op := by
  simp only [parentDirValid, rootdirOpValid_agree h, opValid_agree h]

/-- The same parents can be opened and locked. -/
theorem lockable_agree (h : Agree fs fs') : lockable fs' p = lockable fs p := by
  obtain ⟨R, h⟩ := h
  have hres := h.resolve p
  unfold lockable
  revert hres
  cases fs.resolve p <;> cases fs'.resolve p <;> intro hres
  · rfl
  · exact hres.elim
  · exact hres.elim
  · exact h.isDir_eq hres

/-! ## Outcomes -/

/-- The same status, and trees that agree. -/
structure Outcome.Agrees (o o' : Outcome) : Prop where
  ret_eq : o'.ret = o.ret
  fs : Agree o.fs o'.fs

/-- A check that comes out the same on both sides. -/
theorem check_agree {b b' : Bool} {err : Int} {rest rest' : Outcome} (h : Agree fs fs')
    (hb : b' = b) (hrest : rest.Agrees rest') :
    (check fs b err rest).Agrees (check fs' b' err rest') := by
  subst hb
  unfold check
  split
  · exact hrest
  · exact ⟨rfl, h⟩

/-- A change that succeeds on both sides or on neither. -/
theorem attempt_agree {r r' : Except Errno FS} {rest rest' : FS → Outcome} (h : Agree fs fs')
    (hr : Related Agree r r') (hrest : ∀ g g', Agree g g' → (rest g).Agrees (rest' g')) :
    (attempt fs r rest).Agrees (attempt fs' r' rest') := by
  cases r <;> cases r'
  · exact ⟨rfl, h⟩
  · exact hr.elim
  · exact hr.elim
  · exact hrest _ _ hr

/-- A change with its status. -/
theorem report_agree {r r' : Except Errno FS} (h : Agree fs fs') (hr : Related Agree r r') :
    (report fs r).Agrees (report fs' r') := by
  cases r <;> cases r'
  · obtain rfl := hr
    exact ⟨rfl, h⟩
  · exact hr.elim
  · exact hr.elim
  · exact ⟨rfl, hr⟩

theorem kept_agree {r r' : Except Errno FS} (h : Agree fs fs') (hr : Related Agree r r') :
    Agree (kept fs r) (kept fs' r') := by
  cases r <;> cases r'
  · exact h
  · exact hr.elim
  · exact hr.elim
  · exact hr

/-- The end of most operations. -/
theorem done_agree (g g' : FS) (h : Agree g g') : (Outcome.mk 0 g).Agrees ⟨0, g'⟩ := ⟨rfl, h⟩

/-- `mknod` by kind makes the same on both sides. -/
theorem makeNode_agree {umask mode : UInt32} {dev : Int} (h : Agree fs fs') :
    Related Agree (makeNode umask fs p mode dev) (makeNode umask fs' p mode dev) := by
  unfold makeNode
  split
  · have hopen : Related (fun r r' => Agree r.2 r'.2)
        (fs.openAt umask p (O_CREAT ||| O_EXCL ||| O_WRONLY) mode)
        (fs'.openAt umask p (O_CREAT ||| O_EXCL ||| O_WRONLY) mode) := h.openAt_excl
    revert hopen
    cases fs.openAt umask p (O_CREAT ||| O_EXCL ||| O_WRONLY) mode <;>
      cases fs'.openAt umask p (O_CREAT ||| O_EXCL ||| O_WRONLY) mode <;> exact id
  · split
    · exact h.mkfifo
    · exact h.mknod dev

/-- `init_rootdir` keeps the agreement. -/
theorem initOp_agree {umask : UInt32} (h : Agree fs fs') :
    (initOp umask fs).Agrees (initOp umask fs') := by
  unfold initOp
  have hmade : ∀ {g g' : FS}, Agree g g' →
      Agree (kept g (g.chmod dfsRoot 0o777)) (kept g' (g'.chmod dfsRoot 0o777)) :=
    fun hg => kept_agree hg hg.chmod
  have hacc := h.access (p := dfsRoot) 0
  revert hacc
  cases fs.access dfsRoot 0 <;> cases fs'.access dfsRoot 0 <;> intro hacc
  · exact ⟨rfl, hmade (kept_agree h h.mkdir)⟩
  · exact hacc.elim
  · exact hacc.elim
  · exact ⟨rfl, hmade h⟩

/-- **Outcomes do not depend on the numbers of inodes.** -/
theorem treeOp_agree {umask : UInt32} {r : Request} {o : Outcome} (h : Agree fs fs')
    (ho : treeOp umask fs r = some o) : ∃ o', treeOp umask fs' r = some o' ∧ o.Agrees o' := by
  cases r <;> simp only [treeOp, Option.some.injEq, reduceCtorEq] at ho <;> subst ho <;>
    refine ⟨_, rfl, ?_⟩
  case initRootdir arg => exact initOp_agree h
  case mkdir arg =>
    refine check_agree h (parentDirValid_agree h _) (check_agree h (lockable_agree h) ?_)
    refine attempt_agree h h.mkdir fun g g' hg => ?_
    exact attempt_agree hg (hg.chown _ _) done_agree
  case rmdir arg =>
    refine check_agree h (parentDirValid_agree h _) (check_agree h (lockable_agree h) ?_)
    exact attempt_agree h h.rmdir done_agree
  case rename arg =>
    refine check_agree h (parentDirValid_agree h _) (check_agree h (parentDirValid_agree h _) ?_)
    refine check_agree h (lockable_agree h) (check_agree h (by rw [lockable_agree h]) ?_)
    exact attempt_agree h (h.rename _) done_agree
  case symlink arg =>
    refine check_agree h (parentDirValid_agree h _) ?_
    refine attempt_agree h (h.symlink _) fun g g' hg => ?_
    exact attempt_agree hg (hg.lchown _ _) done_agree
  case link arg =>
    refine check_agree h (parentDirValid_agree h _) (check_agree h (parentDirValid_agree h _) ?_)
    refine attempt_agree h (h.link _) fun g g' hg => ?_
    exact attempt_agree hg (hg.chown _ _) done_agree
  case mknod arg =>
    refine check_agree h (parentDirValid_agree h _) (check_agree h (lockable_agree h) ?_)
    refine attempt_agree h (makeNode_agree h) fun g g' hg => ?_
    exact attempt_agree hg (hg.chown _ _) done_agree
  case truncate arg => exact report_agree h (h.truncate _)
  case unlink arg =>
    refine check_agree h (parentDirValid_agree h _) (check_agree h (lockable_agree h) ?_)
    exact attempt_agree h h.unlink done_agree
  case utime arg =>
    refine check_agree h (owns_agree h) ?_
    exact attempt_agree h (h.utime _ _) done_agree
  case chmod arg =>
    refine check_agree h (owns_agree h) ?_
    exact attempt_agree h h.chmod done_agree
  case chown arg => exact report_agree h (h.chown _ _)

/-- The role in which a request is executed does not change its outcome. -/
theorem treeOp_forwarding {umask : UInt32} {r : Request} {info info' : Identity}
    {slaveArg : Identity → Request} (hr : r.forwarding = some (info, slaveArg)) :
    treeOp umask fs (slaveArg info') = treeOp umask fs r := by
  cases r <;> simp only [Request.forwarding, Option.some.injEq, Prod.mk.injEq, reduceCtorEq] at hr
    <;> obtain ⟨rfl, rfl⟩ := hr <;> rfl

/-! ## Runs -/

/-- Any request but a write; a file is opened without being made or emptied. -/
def Request.writesNothing : Request → Bool
  | .write _ => false
  | .openFile arg =>
    !hasBit arg.flags O_CREAT && !hasBit arg.flags O_EXCL && !hasBit arg.flags O_TRUNC
  | _ => true

/-- What is forwarded and is no write has an outcome. -/
theorem treeOp_forwarded (umask : UInt32) (fs : FS) {r : Request} {info : Identity}
    {slaveArg : Identity → Request} (hf : r.forwarding = some (info, slaveArg))
    (hw : r.writesNothing = true) : ∃ o, treeOp umask fs r = some o := by
  cases r <;> simp [Request.forwarding, Request.writesNothing, treeOp] at hf hw ⊢

/-- What is not forwarded has none. -/
theorem treeOp_local {umask : UInt32} {r : Request} (hf : r.forwarding = none) :
    treeOp umask fs r = none := by
  cases r <;> simp [Request.forwarding, treeOp] at hf ⊢

/-- A request that names a primary with a secondary, if it names any servers at all. -/
def Request.ToPrimary (r : Request) : Prop := ∀ info slaveArg,
  r.forwarding = some (info, slaveArg) → info.isMaster = 1 ∧ info.isDegraded = 0

/-- Opening a file without these flags leaves the tree as it is, apart from a file without a
name. -/
theorem openAt_keeps {umask flags mode : UInt32} {i : Ino} (hcreat : hasBit flags O_CREAT = false)
    (htrunc : hasBit flags O_TRUNC = false) (ho : fs.openAt umask p flags mode = .ok (i, fs')) :
    fs' = fs ∨ ∃ m, fs' = fs.alloc m := by
  unfold FS.openAt at ho
  simp only [hcreat, Bool.false_eq_true, if_false] at ho
  split at ho
  · simp only [bind_eq_ok, pure_eq_ok, Prod.mk.injEq] at ho
    obtain ⟨_, -, _, -, -, hfs⟩ := ho
    exact .inl hfs.symm
  · split at ho
    · simp only [bind_eq_ok, pure_eq_ok, Prod.mk.injEq] at ho
      obtain ⟨_, -, _, -, _, -, parent, -, -, hfs⟩ := ho
      exact .inr ⟨_, hfs.symm⟩
    · unfold FS.openExisting at ho
      simp only [htrunc, Bool.false_eq_true, and_false, if_false, bind_eq_ok, pure_eq_ok,
        Prod.mk.injEq] at ho
      obtain ⟨_, -, _, -, _, -, _, -, _, -, _, -, -, hfs⟩ := ho
      exact .inl hfs.symm

/-- A request that is not forwarded keeps the agreement with another tree. -/
theorem serve_keeps_agree {a : Arrival} {h h' : Host} {reply : Reply} {g : FS}
    (hr : serve a h = .ok (reply, h')) (hw : a.request.writesNothing = true)
    (hf : a.request.forwarding = none) (hg : Agree h.os.fs g) : Agree h'.os.fs g := by
  have hstep := serve_treeStep hr
  generalize h'.os.fs = fs' at hstep ⊢
  cases hstep with
  | outcome ho => simp [treeOp_local hf] at ho
  | kept | unopened | unwritten | unappended => exact hg
  | opened hreq hv ho =>
      rw [hreq] at hw
      simp only [Request.writesNothing, Bool.and_eq_true, Bool.not_eq_true'] at hw
      rcases openAt_keeps hw.1.1 hw.2 ho with rfl | ⟨m, rfl⟩
      · exact hg
      · obtain ⟨R, hiso⟩ := hg
        exact ⟨R, hiso.alloc_left m⟩
  | written hreq | appended hreq => rw [hreq] at hw; cases hw

/-- A server that is not told to be a primary forwards nothing. -/
theorem serve_sent {a : Arrival} {h h' : Host} {reply : Reply} {info : Identity}
    {slaveArg : Identity → Request} (hf : a.request.forwarding = some (info, slaveArg))
    (hrole : info.isMaster = 0) (hr : serve a h = .ok (reply, h')) : h'.sent = h.sent := by
  obtain ⟨rest, hcompute, hrest⟩ := compute6_forwards hf a.stale
  have hidle : transmitToSecondaty info slaveArg = pure () := by
    unfold transmitToSecondaty
    rw [if_neg fun hc => hc.1 hrole]
  unfold serve at hr
  rw [hcompute, hidle] at hr
  refine hrest.run_rel (R := fun h h' : Host => h'.sent = h.sent) (fun _ => rfl)
    (fun _ _ _ h h' => h'.trans h) (fun e he s b t hs => ?_) hr
  cases e with
  | os c =>
      obtain ⟨r, -, hrt⟩ := map_eq_ok.mp hs
      cases hrt
      rfl
  | rpc c => exact he.elim

/-- The forwarded request is one for a secondary. -/
theorem forwarding_slave {r : Request} {info info' : Identity} {slaveArg : Identity → Request}
    (hr : r.forwarding = some (info, slaveArg)) :
    (slaveArg info').forwarding = some (info', slaveArg) := by
  cases r <;> simp only [Request.forwarding, Option.some.injEq, Prod.mk.injEq, reduceCtorEq] at hr
    <;> obtain ⟨rfl, rfl⟩ := hr <;> rfl

/-- The trees agree, and new files get the same permission bits. -/
structure Pair.Agrees (s : Pair) : Prop where
  fs : Agree s.primary.fs s.secondary.os.fs
  umask_eq : s.secondary.os.umask = s.primary.umask

/-- An event at the primary of a pair. -/
abbrev PairEvent := Event PairArrival (Reply × Forwarded) Pair

/-- The replies to what was forwarded have the sign of the primary's reply, and the secondary has
forwarded nothing. -/
structure InStep (e : PairEvent) : Prop where
  sign_eq : ∀ q reply, (q, reply) ∈ e.output.2 → Int.sign reply.ret = Int.sign e.output.1.ret
  once : e.output.2.length ≤ 1
  sent_eq : e.post.secondary.sent = e.pre.secondary.sent

/-- **One request keeps the agreement.** -/
theorem agrees_step {e : PairEvent} (hpre : e.pre.Agrees)
    (hs : Pair.serve e.input e.pre = .ok (e.output, e.post))
    (hw : e.input.request.writesNothing = true) (hrole : e.input.request.ToPrimary) :
    e.post.Agrees ∧ InStep e := by
  obtain ⟨s, a, ⟨reply, log⟩, s'⟩ := e
  have hstep := pair_serve hs
  have humask : s'.primary.umask = s.primary.umask := serve_umask hstep.primary
  cases hf : a.request.forwarding with
  | none =>
      obtain ⟨rfl, hsec⟩ := hstep.alone fun info f h => by rw [hf] at h; cases h
      refine ⟨⟨?_, ?_⟩, ⟨?_, Nat.zero_le 1, congrArg Host.sent hsec⟩⟩
      · rw [hsec]
        exact serve_keeps_agree hstep.primary hw hf hpre.fs
      · rw [hsec, humask]
        exact hpre.umask_eq
      · intro q reply' hmem
        cases hmem
  | some r =>
      obtain ⟨info, slaveArg⟩ := r
      obtain ⟨hmaster, hdegraded⟩ := hrole info slaveArg hf
      obtain ⟨reply', rfl, hsec⟩ := hstep.secondary info slaveArg hf
        (by rw [hmaster]; decide) hdegraded
      obtain ⟨o, ho⟩ := treeOp_forwarded s.primary.umask s.primary.fs hf hw
      obtain ⟨hret, hfs, -⟩ := compute6_treeOp (h := ⟨s.primary, []⟩) ho hstep.primary
      obtain ⟨o', ho', hagree⟩ := treeOp_agree hpre.fs ho
      have hrequest : treeOp s.secondary.os.umask s.secondary.os.fs
          (slaveArg { info with isMaster := 0 }) = some o' := by
        rw [treeOp_forwarding hf, hpre.umask_eq]
        exact ho'
      obtain ⟨hret', hfs', humask'⟩ := compute6_treeOp hrequest hsec
      have hslave : (slaveArg { info with isMaster := 0 }).forwarding =
          some ({ info with isMaster := 0 }, slaveArg) := forwarding_slave hf
      have hsent : s'.secondary.sent = s.secondary.sent := serve_sent hslave rfl hsec
      refine ⟨⟨?_, ?_⟩, ⟨?_, Nat.le_refl 1, hsent⟩⟩
      · show Agree s'.primary.fs s'.secondary.os.fs
        rw [hfs, hfs']
        exact hagree.fs
      · rw [humask', humask]
        exact hpre.umask_eq
      · intro q reply₁ hmem
        obtain ⟨rfl, rfl⟩ := Prod.mk.inj (List.mem_singleton.mp hmem)
        rw [hret, hret', hagree.ret_eq]

/-- Over any run of requests that write no contents, at a primary that prints nothing, the trees
agree after every request. -/
theorem pair_agrees {s t : Pair} {tr : List PairEvent} (h : Runs Pair.serve s tr t)
    (hstart : s.Agrees) (hw : ∀ e ∈ tr, e.input.request.writesNothing = true)
    (hrole : ∀ e ∈ tr, e.input.request.ToPrimary) :
    ∀ e ∈ tr, Agree e.post.primary.fs e.post.secondary.os.fs ∧ InStep e := by
  have halong := h.along_of_invariant (I := fun _ s => s.Agrees)
    (C := fun _ e => e.input.request.writesNothing = true ∧ e.input.request.ToPrimary)
    (P := fun _ e => Agree e.post.primary.fs e.post.secondary.os.fs ∧ InStep e) hstart
    (fun past e hpre hs hc => by
      obtain ⟨hpost, hin⟩ := agrees_step hpre hs hc.1 hc.2
      exact ⟨hpost, hpost.fs, hin⟩)
    (along_mem.mpr fun e he => ⟨hw e he, hrole e he⟩)
  exact along_mem.mp halong

/-- **Replica agreement.**  Over any run of requests at the primary that write no contents and
close none of its own descriptors the trees agree after every request, the secondary's statuses
have the signs of the primary's, and nothing that was forwarded is forwarded again. -/
theorem replicas_agree {lib : Verbose.RpcTexts} {s t : Pair} {tr : List PairEvent}
    (h : Runs (Verbose.servePair lib) s tr t) (hin : Verbose.InPlace s) (hstart : s.Agrees)
    (hw : ∀ e ∈ tr, e.input.request.writesNothing = true)
    (hrole : ∀ e ∈ tr, e.input.request.ToPrimary)
    (hown : ∀ e ∈ tr, e.input.request.LeavesOwn e.pre.primary) :
    ∀ e ∈ tr, Agree e.post.primary.fs e.post.secondary.os.fs ∧ InStep e :=
  pair_agrees (Verbose.runs_unheard lib h hin hown).1 hstart hw hrole

/-! ## Two servers that have been started -/

/-- Two servers that have been started over the same tree. -/
def Pair.launch (fs : FS) : Pair := ⟨OS.launch fs, ⟨OS.launch fs, []⟩⟩

/-- Both servers start with their standard errors. -/
theorem launch_inPlace (fs : FS) : Verbose.InPlace (.launch fs) :=
  ⟨launch_stderr fs, launch_stderr fs⟩

/-- Both servers start with the same tree. -/
theorem launch_agrees : (Pair.launch oneFile).Agrees :=
  ⟨.refl (FS.closed_ofNodes (by decide) (by decide)), rfl⟩

/-- Two servers that have been started over the same tree, without descriptors of their own. -/
def Pair.start (fs : FS) : Pair := ⟨OS.start fs, .start fs⟩

/-- A request at the primary of a pair, whose secondary has no other server. -/
def PairArrival.direct (r : Request) : PairArrival := ⟨r, .zero, ⟨.zero, .absent⟩⟩

/-- A request to remove the file. -/
def removeF : PairArrival := .direct (.unlink ⟨"1".toList, ⟨1, 0⟩, "/f".toList⟩)

/-- A file is removed on both servers. -/
theorem replicas_agree_unlink : ∃ reply reply' s',
    Verbose.servePair .none removeF (.launch oneFile) =
      .ok ((reply, [(.unlink ⟨"1".toList, ⟨0, 0⟩, "/f".toList⟩, reply')]), s') ∧
    reply.ret = 0 ∧ Agree s'.primary.fs s'.secondary.os.fs ∧ reply'.ret.sign = 0 := by
  have hrun : ((Verbose.servePair .none removeF (.launch oneFile)).map fun r => r.1.1.ret) =
      .ok 0 := by decide +kernel
  obtain ⟨⟨⟨reply, log⟩, s'⟩, hserve, hret⟩ := map_eq_ok.mp hrun
  have hquiet : Pair.serve removeF (.launch oneFile) = .ok ((reply, log), s') :=
    (Verbose.servePair_unheard .none (a := removeF) (launch_inPlace oneFile) trivial).1.symm.trans
      hserve
  obtain ⟨reply', rfl, -⟩ := (pair_serve hquiet).secondary _ _ rfl (by decide) rfl
  have hrole : removeF.request.ToPrimary := by
    intro info slaveArg hf
    cases hf
    exact ⟨rfl, rfl⟩
  have hown : removeF.request.LeavesOwn (Pair.launch oneFile).primary := by
    intro argp hreq
    cases hreq
  have hone : ∀ {o : Reply × Forwarded} {P : PairEvent → Prop},
      P ⟨.launch oneFile, removeF, o, s'⟩ →
        ∀ e ∈ [(⟨.launch oneFile, removeF, o, s'⟩ : PairEvent)], P e :=
    fun hP e he => (List.mem_singleton.mp he) ▸ hP
  obtain ⟨hagree, hstep⟩ := replicas_agree (Runs.single hserve) (launch_inPlace oneFile)
    launch_agrees (hone rfl) (hone hrole) (hone hown) _ (List.mem_singleton.mpr rfl)
  have hsign := hstep.sign_eq _ reply' (List.mem_singleton.mpr rfl)
  refine ⟨reply, reply', s', hserve, hret, hagree, ?_⟩
  rw [hsign]
  exact congrArg Int.sign hret

/-! ## Messages in a file -/

/-- The content of the regular file that a path leads to. -/
def contentAt (fs : FS) (path : CStr) : Option (List UInt8) :=
  (fs.resolve (translateAbspath path)).toOption.bind (content fs)

/-- Related inodes have the same content. -/
theorem content_iso {i j : Ino} (h : Iso R fs fs') (hij : R i j) :
    content fs' j = content fs i := by
  obtain ⟨n, n', hn, hn', hrel⟩ := h.node i j hij
  simp only [content, hn, hn', Option.bind_some, Inode.data?]
  have hb := hrel.body
  revert hb
  generalize n.body = b
  generalize n'.body = b'
  intro hb
  cases hb <;> rfl

/-- Trees that agree have the same contents under the same paths. -/
theorem contentAt_agree (h : Agree fs fs') (path : CStr) :
    contentAt fs' path = contentAt fs path := by
  obtain ⟨R, hiso⟩ := h
  have hres := hiso.resolve (translateAbspath path)
  unfold contentAt
  revert hres
  cases fs.resolve (translateAbspath path) <;> cases fs'.resolve (translateAbspath path) <;>
    intro hres
  · rfl
  · exact hres.elim
  · exact hres.elim
  · exact content_iso hiso hres

/-- A client has descriptor 2 closed. -/
def closeStderr : PairArrival := .direct (.release ⟨"2".toList, 2⟩)

/-- It opens its file, which gets the number. -/
def reopenF : PairArrival := .direct (.openFile ⟨"1".toList, "/f".toList, O_WRONLY⟩)

/-- Anybody asks for anything. -/
def getattrRoot : PairArrival := .direct (.getattr ⟨"3".toList, "/".toList⟩)

/-- The text that the primary prints on the last of these requests is the content of the file, at
the primary only. -/
theorem messages_diverge : ¬ ∀ (lib : Verbose.RpcTexts) (s t : Pair) (tr : List PairEvent),
    Runs (Verbose.servePair lib) s tr t → Verbose.InPlace s → s.Agrees →
    (∀ e ∈ tr, e.input.request.writesNothing = true) →
    (∀ e ∈ tr, e.input.request.ToPrimary) →
    ∀ e ∈ tr, Agree e.post.primary.fs e.post.secondary.os.fs ∧ InStep e := by
  intro hall
  have hcontents : (do
      let (_, s₁) ← Verbose.servePair .none closeStderr (.launch oneFile)
      let (_, s₂) ← Verbose.servePair .none reopenF s₁
      let (_, s₃) ← Verbose.servePair .none getattrRoot s₂
      pure (contentAt s₃.primary.fs "/f".toList, contentAt s₃.secondary.os.fs "/f".toList)
        : Except Halt _) =
      .ok (some ("Get attribute for path = /DFS\n".toList.map Char.toUInt8), some [7]) := by
    decide +kernel
  simp only [bind_eq_ok, pure_eq_ok, Prod.mk.injEq] at hcontents
  obtain ⟨⟨o₁, s₁⟩, h₁, ⟨o₂, s₂⟩, h₂, ⟨o₃, s₃⟩, h₃, hprimary, hsecondary⟩ := hcontents
  have hruns : Runs (Verbose.servePair .none) (.launch oneFile)
      ([⟨.launch oneFile, closeStderr, o₁, s₁⟩] ++ [⟨s₁, reopenF, o₂, s₂⟩] ++
        [⟨s₂, getattrRoot, o₃, s₃⟩]) s₃ :=
    .snoc (.snoc (.single h₁) h₂) h₃
  obtain ⟨hagree, -⟩ := hall _ _ _ _ hruns (launch_inPlace oneFile) launch_agrees (by
      simp only [List.mem_append, List.mem_singleton]
      rintro e ((rfl | rfl) | rfl) <;> rfl) (by
      simp only [List.mem_append, List.mem_singleton]
      rintro e ((rfl | rfl) | rfl) info slaveArg hf <;> cases hf)
    ⟨s₂, getattrRoot, o₃, s₃⟩ (by simp)
  have hsame := contentAt_agree hagree "/f".toList
  rw [hprimary, hsecondary] at hsame
  exact absurd hsame (by decide)

end DFS
