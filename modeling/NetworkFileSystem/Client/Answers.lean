import NetworkFileSystem.Client.Attributes
import NetworkFileSystem.Client.Links
import NetworkFileSystem.Replication.Agreement

/-!
# What requests by path answer

A request that names files by their paths is a function of the tree, as far as the tree, the status
and what it shows of the tree are concerned: `answerOf umask fs r`.  The handlers compute it
(**`serve_answer`**), and on trees that agree it is the same but for the numbers of inodes
(**`answerOf_agree`**).
-/

namespace DFS

open Effects Posix Prog Client

/-! ## Answers -/

/-- What a request shows of the tree besides its status. -/
inductive Shown
  | nothing
  | attributes (n : Inode)
  | target (t : CStr)

/-- The status of a request, what it shows and the tree that it leaves. -/
structure Answer where
  ret : Int
  shown : Shown
  fs : FS

/-- The answer to a request that looks something up. -/
def Answer.looked {α : Type} (fs : FS) (shows : α → Shown) : Except Errno α → Answer
  | .ok a => ⟨0, shows a, fs⟩
  | .error e => ⟨-(e : Int), .nothing, fs⟩

/-- The answer to a request that changes the tree. -/
def Outcome.answer (o : Outcome) : Answer := ⟨o.ret, .nothing, o.fs⟩

/-- The target of a link, cut to the size that the caller has room for. -/
def linkAt (fs : FS) (p : CStr) (size : Int) : Except Errno CStr := do
  need (0 < size) EINVAL
  let i ← fs.lresolve p
  let t ← orElse EINVAL (fs.linkTarget i)
  pure (t.take size.toNat)

/-- A request that names files by their paths, and neither opens one nor acts on an open
one. -/
def Request.goesByPath : Request → Bool
  | .opendir _ | .readdir _ | .releasedir _ | .openFile _ | .release _ | .read _ | .write _ => false
  | _ => true

/-- The answer to a request that goes by path; none for the others. -/
def answerOf (umask : UInt32) (fs : FS) : Request → Option Answer
  | .getattr arg => some (.looked fs .attributes (attrs fs (translateAbspath arg.path)))
  | .access arg => some ⟨if isOk (fs.access (translateAbspath arg.path) arg.mask) then 0 else -1,
      .nothing, fs⟩
  | .readlink arg =>
    some (.looked fs .target (linkAt fs (translateAbspath arg.path) (callSize arg.size)))
  | .statfs arg =>
    some (.looked fs (fun _ => .nothing) (fs.resolve (translateAbspath arg.path)))
  | r => (treeOp umask fs r).map Outcome.answer

/-- The requests with an answer that the tree alone decides are those that go by path. -/
theorem answerOf_isSome (umask : UInt32) (fs : FS) (r : Request) :
    (answerOf umask fs r).isSome = r.goesByPath := by
  cases r <;> rfl

/-- A request that is not forwarded leaves the tree as it is. -/
theorem answerOf_local {umask : UInt32} {fs : FS} {r : Request} {x : Answer}
    (hf : r.forwarding = none) (hx : answerOf umask fs r = some x) : x.fs = fs := by
  have hlooked : ∀ {α : Type} {shows : α → Shown} {u : Except Errno α},
      (Answer.looked fs shows u).fs = fs := by
    intro α shows u
    cases u <;> rfl
  cases r <;> cases hf <;> cases hx
  · exact hlooked
  · rfl
  · exact hlooked
  · exact hlooked

/-! ## What is shown -/

/-- A number as an `int` of a message carries it. -/
def carried (n : Int) : ℕ := (UInt64.ofInt (toInt n)).toNat

/-- The attributes of an inode, apart from its number and from what depends on the volume. -/
structure Describes (n : Inode) (st : Stat) : Prop where
  mode : st.st_mode = n.kind.typeBits ||| n.perm
  nlink : st.st_nlink = carried n.nlink
  uid : st.st_uid = n.uid
  gid : st.st_gid = n.gid
  size : ∀ d, n.body = .reg d → st.st_size = d.length
  length : ∀ t, n.body = .symlink t → st.st_size = t.length
  char : ∀ dev, n.body = .chr dev → st.st_rdev = carried dev
  block : ∀ dev, n.body = .blk dev → st.st_rdev = carried dev
  times : n.stamped = true → st.st_atime = n.atime ∧ st.st_mtime = n.mtime

/-- What a reply carries. -/
def Shown.In : Shown → Reply → Prop
  | .nothing, _ => True
  | .attributes n, reply => ∃ ret, reply = .getattr ret ∧ Describes n (statOf ret)
  | .target t, reply => ∃ old e, reply = .readlink (readlinkResult old e (some t))

/-- The same things are shown, up to the numbers of inodes. -/
inductive Shown.Alike : Shown → Shown → Prop
  | nothing : Alike .nothing .nothing
  | attributes {R : Ino → Ino → Prop} {n n' : Inode} (h : NodeRel R n n') :
      Alike (.attributes n) (.attributes n')
  | target (t : CStr) : Alike (.target t) (.target t)

/-- What `bb_getattr` makes of the attributes of an inode describes that inode. -/
theorem describes_stat (vol : Volume) (i : Ino) (n : Inode) :
    Describes n (statOf (getattrRetOf (n.stat vol i))) where
  mode := Words.ofInt_int _
  nlink := rfl
  uid := Words.ofInt_int _
  gid := Words.ofInt_int _
  size d hd := by simp [statOf, getattrRetOf, Inode.stat, Inode.size, hd]
  length t ht := by simp [statOf, getattrRetOf, Inode.stat, Inode.size, ht]
  char dev hdev := by simp [statOf, getattrRetOf, Inode.stat, hdev, carried]
  block dev hdev := by simp [statOf, getattrRetOf, Inode.stat, hdev, carried]
  times _ := ⟨rfl, rfl⟩

/-- Matched inodes have the same attributes. -/
theorem Describes.alike {R : Ino → Ino → Prop} {n n' : Inode} {st : Stat} (h : Describes n st)
    (hn : NodeRel R n n') : Describes n' st := by
  have hb := hn.body
  have hbody : ∀ b, n'.body = b → (∀ p es, b ≠ .dir p es) → n.body = b := by
    intro b hb' hdir
    rw [hb'] at hb
    generalize n.body = c at hb
    cases hb with
    | dir hp hes => exact absurd rfl (hdir _ _)
    | _ => rfl
  refine ⟨?_, ?_, ?_, ?_, ?_, ?_, ?_, ?_, ?_⟩
  · rw [h.mode, ← hn.kind_eq, hn.perm_eq]
  · rw [h.nlink, hn.nlink_eq]
  · rw [h.uid, hn.uid_eq]
  · rw [h.gid, hn.gid_eq]
  · exact fun d hd => h.size d (hbody _ hd (by simp))
  · exact fun t ht => h.length t (hbody _ ht (by simp))
  · exact fun dev hdev => h.char dev (hbody _ hdev (by simp))
  · exact fun dev hdev => h.block dev (hbody _ hdev (by simp))
  · intro hs
    rw [hn.stamped_eq] at hs
    obtain ⟨ha, hm⟩ := hn.times_eq hs
    rw [ha, hm]
    exact h.times hs

/-- A reply that shows one thing shows everything that cannot be told from it. -/
theorem Shown.In.alike {x y : Shown} {reply : Reply} (h : x.In reply) (hxy : x.Alike y) :
    y.In reply := by
  cases hxy with
  | nothing => trivial
  | attributes hn =>
      obtain ⟨ret, hret, hd⟩ := h
      exact ⟨ret, hret, hd.alike hn⟩
  | target t => exact h

/-! ## The handlers -/

/-- A handler answers `x` and leaves its tree. -/
structure Answer.Given (x : Answer) (reply : Reply) (h' : Host) : Prop where
  ret_eq : reply.ret = x.ret
  shown : x.shown.In reply
  fs_eq : h'.os.fs = x.fs

section

variable {a : Arrival} {h h' : Host} {reply : Reply} {x : Answer}

/-- `bb_getattr_6_svc` answers with the attributes of what the path leads to. -/
theorem getattr_answer {arg : GetattrArg} {stale : Stale} {peer : Peer}
    (hr : (compute6 stale (.getattr arg)).run (server peer) h = .ok (reply, h')) :
    (Answer.looked h.os.fs .attributes (attrs h.os.fs (translateAbspath arg.path))).Given
      reply h' := by
  have hfs := (compute6_quiet (r := .getattr arg) rfl hr).fs_eq
  obtain ⟨ret, hrun, rfl⟩ := (run_map_eq_ok _).mp hr
  have hcall : OS.exec (.lstat (translateAbspath arg.path)) h.os =
      .ok (h.os.tryGet (h.os.lstat (translateAbspath arg.path))) := rfl
  rw [bbGetattr6Svc, run_sys_bind hcall] at hrun
  rcases lstat_cases h.os (translateAbspath arg.path) with ⟨n, i, hn, hl⟩ | ⟨e, he, hl⟩
  · rw [hl] at hrun
    obtain ⟨rfl, rfl⟩ := Prod.mk.inj (Except.ok.inj hrun)
    rw [hn]
    exact ⟨rfl, ⟨_, rfl, describes_stat h.os.vol i n⟩, hfs⟩
  · rw [hl] at hrun
    obtain ⟨rfl, rfl⟩ := Prod.mk.inj (Except.ok.inj hrun)
    rw [he]
    exact ⟨rfl, trivial, hfs⟩

/-- `bb_access_6_svc` answers with a bare `-1` when access is refused, whatever `errno` is. -/
theorem access_answer {arg : AccessArg} {stale : Stale} {peer : Peer}
    (hr : (compute6 stale (.access arg)).run (server peer) h = .ok (reply, h')) :
    (Answer.mk (if isOk (h.os.fs.access (translateAbspath arg.path) arg.mask) then 0 else -1)
      .nothing h.os.fs).Given reply h' := by
  have hfs := (compute6_quiet (r := .access arg) rfl hr).fs_eq
  obtain ⟨ret, hrun, rfl⟩ := (run_map_eq_ok _).mp hr
  have hcall : OS.exec (.access (translateAbspath arg.path) arg.mask) h.os = .ok (h.os.tryFS
      ((fun _ => h.os.fs) <$> h.os.fs.access (translateAbspath arg.path) arg.mask)) := rfl
  rw [bbAccess6Svc, run_sys_bind hcall] at hrun
  cases hacc : h.os.fs.access (translateAbspath arg.path) arg.mask with
  | ok u =>
      rw [hacc] at hrun
      obtain ⟨rfl, rfl⟩ := Prod.mk.inj (Except.ok.inj hrun)
      exact ⟨rfl, trivial, hfs⟩
  | error e =>
      rw [hacc] at hrun
      obtain ⟨rfl, rfl⟩ := Prod.mk.inj (Except.ok.inj hrun)
      exact ⟨rfl, trivial, hfs⟩

/-- `bb_readlink_6_svc` answers with the target of the link, cut at the size. -/
theorem readlink_answer {arg : ReadlinkArg} {stale : Stale} {peer : Peer}
    (hr : (compute6 stale (.readlink arg)).run (server peer) h = .ok (reply, h')) :
    (Answer.looked h.os.fs .target
      (linkAt h.os.fs (translateAbspath arg.path) (callSize arg.size))).Given reply h' := by
  have hfs := (compute6_quiet (r := .readlink arg) rfl hr).fs_eq
  obtain ⟨ret, hrun, rfl⟩ := (run_map_eq_ok _).mp hr
  have hcall : OS.exec (.readlink (translateAbspath arg.path) arg.size.toInt32.toInt) h.os =
      .ok (h.os.tryGet (linkAt h.os.fs (translateAbspath arg.path) (callSize arg.size))) := rfl
  rw [bbReadlink6Svc, run_sys_bind hcall] at hrun
  cases hl : linkAt h.os.fs (translateAbspath arg.path) (callSize arg.size) with
  | ok t =>
      rw [hl] at hrun
      obtain ⟨rfl, rfl⟩ := Prod.mk.inj (Except.ok.inj hrun)
      exact ⟨rfl, ⟨stale.readlink, 0, rfl⟩, hfs⟩
  | error e =>
      rw [hl] at hrun
      obtain ⟨rfl, rfl⟩ := Prod.mk.inj (Except.ok.inj hrun)
      exact ⟨rfl, trivial, hfs⟩

/-- `bb_statfs_6_svc` fails exactly when the path leads nowhere. -/
theorem statfs_answer {arg : StatfsArg} {stale : Stale} {peer : Peer}
    (hr : (compute6 stale (.statfs arg)).run (server peer) h = .ok (reply, h')) :
    (Answer.looked h.os.fs (fun _ => .nothing)
      (h.os.fs.resolve (translateAbspath arg.path))).Given reply h' := by
  have hfs := (compute6_quiet (r := .statfs arg) rfl hr).fs_eq
  obtain ⟨ret, hrun, rfl⟩ := (run_map_eq_ok _).mp hr
  have hcall : OS.exec (.statvfs (translateAbspath arg.path)) h.os = .ok (h.os.tryGet
      ((fun _ => h.os.statvfs) <$> h.os.fs.resolve (translateAbspath arg.path))) := rfl
  rw [bbStatfs6Svc, run_sys_bind hcall] at hrun
  cases hl : h.os.fs.resolve (translateAbspath arg.path) with
  | ok i =>
      rw [hl] at hrun
      obtain ⟨rfl, rfl⟩ := Prod.mk.inj (Except.ok.inj hrun)
      exact ⟨rfl, trivial, hfs⟩
  | error e =>
      rw [hl] at hrun
      obtain ⟨rfl, rfl⟩ := Prod.mk.inj (Except.ok.inj hrun)
      exact ⟨rfl, trivial, hfs⟩

/-- **The handlers answer what the tree says.** -/
theorem serve_answer (hx : answerOf h.os.umask h.os.fs a.request = some x)
    (hr : serve a h = .ok (reply, h')) : x.Given reply h' := by
  obtain ⟨r, stale, peer⟩ := a
  have htree : (treeOp h.os.umask h.os.fs r).map Outcome.answer = some x →
      x.Given reply h' := by
    intro hx
    obtain ⟨o, ho, rfl⟩ := Option.map_eq_some_iff.mp hx
    obtain ⟨hret, hfs, -⟩ := compute6_treeOp ho hr
    exact ⟨hret, trivial, hfs⟩
  cases r with
  | getattr arg =>
      obtain rfl := Option.some.inj hx
      exact getattr_answer hr
  | access arg =>
      obtain rfl := Option.some.inj hx
      exact access_answer hr
  | readlink arg =>
      obtain rfl := Option.some.inj hx
      exact readlink_answer hr
  | statfs arg =>
      obtain rfl := Option.some.inj hx
      exact statfs_answer hr
  | _ => exact htree hx

end

/-! ## Trees that agree -/

/-- Answers that are the same but for the numbers of inodes. -/
structure Answer.Alike (x y : Answer) : Prop where
  ret_eq : y.ret = x.ret
  shown : x.shown.Alike y.shown
  fs : Agree x.fs y.fs

section

variable {fs fs' : FS} {p : CStr} {umask : UInt32} {r : Request} {x : Answer}

/-- Two lookups that come out alike show the same. -/
theorem looked_alike {α β : Type} {T : α → β → Prop} {s : α → Shown} {s' : β → Shown}
    {u : Except Errno α} {v : Except Errno β} (h : Agree fs fs') (huv : Related T u v)
    (hs : ∀ a b, T a b → (s a).Alike (s' b)) :
    (Answer.looked fs s u).Alike (.looked fs' s' v) := by
  cases u <;> cases v
  · obtain rfl := huv
    exact ⟨rfl, .nothing, h⟩
  · exact huv.elim
  · exact huv.elim
  · exact ⟨rfl, hs _ _ huv, h⟩

/-- Trees that agree have the same link targets, cut at the same size. -/
theorem linkAt_agree (h : Agree fs fs') (size : Int) :
    Related Eq (linkAt fs p size) (linkAt fs' p size) := by
  obtain ⟨R, h⟩ := h
  refine Related.need_bind Iff.rfl _ fun _ => (h.lresolve p).bind fun i i' hi => ?_
  rw [h.linkTarget_eq hi]
  cases fs.linkTarget i with
  | none => exact Related.error _
  | some t => exact Related.ok rfl

/-- **Answers do not depend on the numbers of inodes.** -/
theorem answerOf_agree (h : Agree fs fs') (hx : answerOf umask fs r = some x) :
    ∃ y, answerOf umask fs' r = some y ∧ x.Alike y := by
  have htree : (treeOp umask fs r).map Outcome.answer = some x → ∃ y,
      (treeOp umask fs' r).map Outcome.answer = some y ∧ x.Alike y := by
    intro hx
    obtain ⟨o, ho, rfl⟩ := Option.map_eq_some_iff.mp hx
    obtain ⟨o', ho', hagree⟩ := treeOp_agree h ho
    exact ⟨o'.answer, by rw [ho']; rfl, hagree.ret_eq, .nothing, hagree.fs⟩
  cases r with
  | getattr arg =>
      obtain rfl := Option.some.inj hx
      obtain ⟨R, hiso⟩ := h
      exact ⟨_, rfl, looked_alike ⟨R, hiso⟩ (attrs_related hiso _) fun _ _ hn => .attributes hn⟩
  | access arg =>
      obtain rfl := Option.some.inj hx
      refine ⟨_, rfl, ?_, .nothing, h⟩
      rw [(h.access arg.mask).isOk_eq]
  | readlink arg =>
      obtain rfl := Option.some.inj hx
      refine ⟨_, rfl, looked_alike h (linkAt_agree h _) fun t t' ht => ?_⟩
      obtain rfl := ht
      exact .target t
  | statfs arg =>
      obtain rfl := Option.some.inj hx
      obtain ⟨R, hiso⟩ := h
      exact ⟨_, rfl, looked_alike ⟨R, hiso⟩ (hiso.resolve _) fun _ _ _ => .nothing⟩
  | _ => exact htree hx

/-- The role in which a request is executed does not change its answer. -/
theorem answerOf_forwarding {info info' : Identity} {slaveArg : Identity → Request}
    (hr : r.forwarding = some (info, slaveArg)) :
    answerOf umask fs (slaveArg info') = answerOf umask fs r := by
  cases r <;> simp only [Request.forwarding, Option.some.injEq, Prod.mk.injEq, reduceCtorEq] at hr
    <;> obtain ⟨rfl, rfl⟩ := hr <;> rfl

/-- The request as it goes to a primary with a secondary. -/
def Request.anywhere (r : Request) : Request :=
  match r.forwarding with
  | some (_, slaveArg) => slaveArg ⟨1, 0⟩
  | none => r

/-- The answer does not depend on the identity that a request carries. -/
theorem answerOf_anywhere : answerOf umask fs r.anywhere = answerOf umask fs r := by
  unfold Request.anywhere
  split
  · next hf => exact answerOf_forwarding hf
  · rfl

end

end DFS
