import NetworkFileSystem.Replication.Forwarding
import NetworkFileSystem.Wire.Formats

/-!
# Calls in bytes (`fuse_rpc_clnt.c`, `fuse_rpc_svc.c`)

A stub sends the number of its procedure and the arguments; `compute_6` reads the arguments for
that number, runs the handler and sends the result.  The number and the arguments may come from
anyone.

The requests that `compute_6` can read are those that a stub can send, and it reads them however
the arguments are filled up and whatever stands behind them (**`request_round_trip`**); a result
arrives as the handler has filled it in (**`result_round_trip`**).
-/

namespace DFS

open Client Effects Posix Prog

/-! ## The procedures of the program -/

@[match_pattern] abbrev INIT_ROOTDIR : ℕ := 0
@[match_pattern] abbrev BB_GETATTR : ℕ := 1
@[match_pattern] abbrev BB_ACCESS : ℕ := 2
@[match_pattern] abbrev BB_MKDIR : ℕ := 3
@[match_pattern] abbrev BB_RMDIR : ℕ := 4
@[match_pattern] abbrev BB_OPENDIR : ℕ := 5
@[match_pattern] abbrev BB_READDIR : ℕ := 6
@[match_pattern] abbrev BB_RELEASEDIR : ℕ := 7
@[match_pattern] abbrev BB_RENAME : ℕ := 8
@[match_pattern] abbrev BB_SYMLINK : ℕ := 9
@[match_pattern] abbrev BB_LINK : ℕ := 10
@[match_pattern] abbrev BB_READLINK : ℕ := 11
@[match_pattern] abbrev BB_MKNOD : ℕ := 12
@[match_pattern] abbrev BB_TRUNCATE : ℕ := 13
@[match_pattern] abbrev BB_UNLINK : ℕ := 14
@[match_pattern] abbrev BB_UTIME : ℕ := 15
@[match_pattern] abbrev BB_CHMOD : ℕ := 16
@[match_pattern] abbrev BB_CHOWN : ℕ := 17
@[match_pattern] abbrev BB_OPEN : ℕ := 18
@[match_pattern] abbrev BB_RELEASE : ℕ := 19
@[match_pattern] abbrev BB_READ : ℕ := 20
@[match_pattern] abbrev BB_WRITE : ℕ := 21
@[match_pattern] abbrev BB_STATFS : ℕ := 22

/-- A call as it is sent to a server. -/
structure Message where
  proc : ℕ
  args : List UInt8

/-- A call as a server reads it, with what stands behind it in the buffer of the library.  That is
nothing for a record of a stream; behind a datagram there is what older ones have left. -/
def Message.followedBy (m : Message) (behind : List UInt8) : Message where
  proc := m.proc
  args := m.args ++ behind

/-- How a server answers a call: with the bytes of a result, or with one of the errors of
`compute_6`. -/
inductive Accepted
  | results (bytes : List UInt8)
  | noproc
  | decode
  | systemerr
  deriving DecidableEq

/-- The procedures for a result: one of them writes it, the other reads it. -/
structure ResultProc where
  put : Reply → Option (List UInt8)
  get : List UInt8 → Option Reply

/-- The procedures for one kind of result. -/
def ResultProc.of {α : Type} (c : Codec α) (wrap : α → Reply) (unwrap : Reply → Option α) :
    ResultProc where
  put reply := (unwrap reply).bind c.put
  get bytes := (c.get bytes).map fun r => wrap r.1

namespace Library

variable (lib : Library)

/-! ## The stubs -/

/-- The procedure that a stub calls, and the arguments that it sends. -/
def sent : Request → ℕ × Option (List UInt8)
  | .initRootdir argp => (INIT_ROOTDIR, xdrInitArg.put argp)
  | .getattr argp => (BB_GETATTR, xdrGetattrArg.put argp)
  | .access argp => (BB_ACCESS, xdrAccessArg.put argp)
  | .mkdir argp => (BB_MKDIR, xdrMkdirArg.put argp)
  | .rmdir argp => (BB_RMDIR, xdrRmdirArg.put argp)
  | .opendir argp => (BB_OPENDIR, xdrOpendirArg.put argp)
  | .readdir argp => (BB_READDIR, xdrReaddirArg.put argp)
  | .releasedir argp => (BB_RELEASEDIR, xdrReleasedirArg.put argp)
  | .rename argp => (BB_RENAME, xdrRenameArg.put argp)
  | .symlink argp => (BB_SYMLINK, xdrSymlinkArg.put argp)
  | .link argp => (BB_LINK, xdrLinkArg.put argp)
  | .readlink argp => (BB_READLINK, xdrReadlinkArg.put argp)
  | .mknod argp => (BB_MKNOD, xdrMknodArg.put argp)
  | .truncate argp => (BB_TRUNCATE, xdrTruncateArg.put argp)
  | .unlink argp => (BB_UNLINK, xdrUnlinkArg.put argp)
  | .utime argp => (BB_UTIME, lib.xdrUtimeArg.put argp)
  | .chmod argp => (BB_CHMOD, xdrChmodArg.put argp)
  | .chown argp => (BB_CHOWN, xdrChownArg.put argp)
  | .openFile argp => (BB_OPEN, xdrOpenArg.put argp)
  | .release argp => (BB_RELEASE, xdrReleaseArg.put argp)
  | .read argp => (BB_READ, xdrReadArg.put argp)
  | .write argp => (BB_WRITE, xdrWriteArg.put argp)
  | .statfs argp => (BB_STATFS, xdrStatfsArg.put argp)

/-- What a stub sends; nothing, when the arguments cannot be written. -/
def message (r : Request) : Option Message := (lib.sent r).2.map fun args => ⟨(lib.sent r).1, args⟩

/-- What the stub of a procedure reads, and what `compute_6` writes for it. -/
def result : Request → ResultProc
  | .getattr _ => ⟨
      fun reply => reply.getattr?.bind fun r => (Xdr.words 14).put (encodeGetattrRet r),
      fun bytes => ((Xdr.words 14).get bytes).bind fun r => (lib.decodeGetattrRet r.1).map .getattr⟩
  | .opendir _ => .of xdrOpendirRet .opendir Reply.opendir?
  | .readdir _ => .of xdrReaddirRet .readdir Reply.readdir?
  | .readlink _ => .of xdrReadlinkRet .readlink Reply.readlink?
  | .openFile _ => .of xdrOpenRet .openFile Reply.openFile?
  | .read _ => .of xdrReadRet .read Reply.read?
  | .write _ => .of xdrWriteRet .write Reply.write?
  | .statfs _ => ⟨
      fun reply => reply.statfs?.bind fun r => (Xdr.words 12).put (encodeStatfsRet r),
      fun bytes => ((Xdr.words 12).get bytes).bind fun r => (lib.decodeStatfsRet r.1).map .statfs⟩
  | _ => .of xdrStatusRet .status Reply.status?

/-- What the stub of a procedure makes of an answer. -/
def received (r : Request) : Accepted → Option Reply
  | .results bytes => (lib.result r).get bytes
  | _ => none

/-! ## The dispatcher -/

/-- Reading the arguments of a procedure. -/
def reading {α : Type} (c : Codec α) (call : α → Request) (args : List UInt8) : Option Request :=
  (c.get args).map fun r => call r.1

/-- The `switch` of `compute_6`. -/
def xdrArgument : ℕ → Option (List UInt8 → Option Request)
  | INIT_ROOTDIR => some (reading xdrInitArg .initRootdir)
  | BB_GETATTR => some (reading xdrGetattrArg .getattr)
  | BB_ACCESS => some (reading xdrAccessArg .access)
  | BB_MKDIR => some (reading xdrMkdirArg .mkdir)
  | BB_RMDIR => some (reading xdrRmdirArg .rmdir)
  | BB_OPENDIR => some (reading xdrOpendirArg .opendir)
  | BB_READDIR => some (reading xdrReaddirArg .readdir)
  | BB_RELEASEDIR => some (reading xdrReleasedirArg .releasedir)
  | BB_RENAME => some (reading xdrRenameArg .rename)
  | BB_SYMLINK => some (reading xdrSymlinkArg .symlink)
  | BB_LINK => some (reading xdrLinkArg .link)
  | BB_READLINK => some (reading xdrReadlinkArg .readlink)
  | BB_MKNOD => some (reading xdrMknodArg .mknod)
  | BB_TRUNCATE => some (reading xdrTruncateArg .truncate)
  | BB_UNLINK => some (reading xdrUnlinkArg .unlink)
  | BB_UTIME => some (reading lib.xdrUtimeArg .utime)
  | BB_CHMOD => some (reading xdrChmodArg .chmod)
  | BB_CHOWN => some (reading xdrChownArg .chown)
  | BB_OPEN => some (reading xdrOpenArg .openFile)
  | BB_RELEASE => some (reading xdrReleaseArg .release)
  | BB_READ => some (reading xdrReadArg .read)
  | BB_WRITE => some (reading xdrWriteArg .write)
  | BB_STATFS => some (reading xdrStatfsArg .statfs)
  | _ => none

/-- `svc_sendreply`. -/
def sendreply (r : Request) (result : Reply) : Accepted :=
  match (lib.result r).put result with
  | none => .systemerr
  | some bytes => .results bytes

/-- `compute_6`. -/
def compute6 (stale : Stale) (m : Message) : Verbose.Server Accepted :=
  match lib.xdrArgument m.proc with
  | none => return .noproc
  | some xdrArgument =>
    match xdrArgument m.args with
    | none => return .decode
    | some r => do
      let result ← Verbose.compute6 stale r
      return lib.sendreply r result

/-- The request in a message. -/
def understand (m : Message) : Option Request := (lib.xdrArgument m.proc).bind fun f => f m.args

/-- The error for a message without one. -/
def refusal (m : Message) : Accepted :=
  if (lib.xdrArgument m.proc).isNone then .noproc else .decode

end Library

/-! ## Requests -/

/-- A message can hold the request. -/
def Request.Fits (lib : Library) : Request → Prop
  | .initRootdir argp => xdrInitArg.fits argp
  | .getattr argp => xdrGetattrArg.fits argp
  | .access argp => xdrAccessArg.fits argp
  | .mkdir argp => xdrMkdirArg.fits argp
  | .rmdir argp => xdrRmdirArg.fits argp
  | .opendir argp => xdrOpendirArg.fits argp
  | .readdir argp => xdrReaddirArg.fits argp
  | .releasedir argp => xdrReleasedirArg.fits argp
  | .rename argp => xdrRenameArg.fits argp
  | .symlink argp => xdrSymlinkArg.fits argp
  | .link argp => xdrLinkArg.fits argp
  | .readlink argp => xdrReadlinkArg.fits argp
  | .mknod argp => xdrMknodArg.fits argp
  | .truncate argp => xdrTruncateArg.fits argp
  | .unlink argp => xdrUnlinkArg.fits argp
  | .utime argp => lib.xdrUtimeArg.fits argp
  | .chmod argp => xdrChmodArg.fits argp
  | .chown argp => xdrChownArg.fits argp
  | .openFile argp => xdrOpenArg.fits argp
  | .release argp => xdrReleaseArg.fits argp
  | .read argp => xdrReadArg.fits argp
  | .write argp => xdrWriteArg.fits argp
  | .statfs argp => xdrStatfsArg.fits argp

/-- The strings of a request. -/
def Request.texts : Request → List CStr
  | .initRootdir argp => [argp.ip, argp.rootdir]
  | .getattr argp => [argp.ip, argp.path]
  | .access argp => [argp.ip, argp.path]
  | .mkdir argp => [argp.ip, argp.path]
  | .rmdir argp => [argp.ip, argp.path]
  | .opendir argp => [argp.ip, argp.path]
  | .readdir _ => []
  | .releasedir _ => []
  | .rename argp => [argp.ip, argp.path, argp.newpath]
  | .symlink argp => [argp.ip, argp.path, argp.link]
  | .link argp => [argp.ip, argp.path, argp.newpath]
  | .readlink argp => [argp.ip, argp.path]
  | .mknod argp => [argp.ip, argp.path]
  | .truncate argp => [argp.ip, argp.path]
  | .unlink argp => [argp.ip, argp.path]
  | .utime argp => [argp.ip, argp.path]
  | .chmod argp => [argp.ip, argp.path]
  | .chown argp => [argp.ip, argp.path]
  | .openFile argp => [argp.ip, argp.path]
  | .release argp => [argp.ip]
  | .read argp => [argp.ip]
  | .write argp => [argp.ip, argp.path]
  | .statfs argp => [argp.path]

/-- Its members of type `int`, beside the `server_info`. -/
def Request.ints : Request → List Int
  | .readdir argp => [argp.fd]
  | .releasedir argp => [argp.fd]
  | .mknod argp => [argp.dev]
  | .truncate argp => [argp.newsize]
  | .release argp => [argp.fd]
  | .read argp => [argp.fd]
  | .write argp => [argp.fd]
  | _ => []

/-- Its members of type `long`. -/
def Request.longs : Request → List Int
  | .utime argp => [argp.actime, argp.modtime]
  | _ => []

/-- The two words of a `server_info`. -/
def Identity.items (info : Identity) : List Xdr.Item :=
  [.word (.ofInt info.isMaster), .word (.ofInt info.isDegraded)]

/-- The arguments of a request as they stand in a message. -/
def Request.items : Request → List Xdr.Item
  | .initRootdir argp => argp.serverInfo.items ++ [.string argp.ip, .string argp.rootdir]
  | .getattr argp => [.string argp.ip, .string argp.path]
  | .access argp => [.string argp.ip, .string argp.path, .word argp.mask]
  | .mkdir argp =>
    [.string argp.ip] ++ argp.serverInfo.items ++ [.string argp.path, .word argp.mode]
  | .rmdir argp => [.string argp.ip] ++ argp.serverInfo.items ++ [.string argp.path]
  | .opendir argp => [.string argp.ip, .string argp.path]
  | .readdir argp => [.word (.ofInt argp.fd)]
  | .releasedir argp => [.word (.ofInt argp.fd)]
  | .rename argp =>
    [.string argp.ip] ++ argp.serverInfo.items ++ [.string argp.path, .string argp.newpath]
  | .symlink argp =>
    [.string argp.ip] ++ argp.serverInfo.items ++ [.string argp.path, .string argp.link]
  | .link argp =>
    [.string argp.ip] ++ argp.serverInfo.items ++ [.string argp.path, .string argp.newpath]
  | .readlink argp => [.string argp.ip, .string argp.path, .word argp.size]
  | .mknod argp =>
    [.string argp.ip] ++ argp.serverInfo.items ++
      [.string argp.path, .word argp.mode, .word (.ofInt argp.dev)]
  | .truncate argp =>
    [.string argp.ip] ++ argp.serverInfo.items ++ [.string argp.path, .word (.ofInt argp.newsize)]
  | .unlink argp => [.string argp.ip] ++ argp.serverInfo.items ++ [.string argp.path]
  | .utime argp =>
    [.string argp.ip] ++ argp.serverInfo.items ++
      [.string argp.path, .word (.ofInt argp.actime), .word (.ofInt argp.modtime)]
  | .chmod argp =>
    [.string argp.ip] ++ argp.serverInfo.items ++ [.string argp.path, .word argp.mode]
  | .chown argp =>
    [.string argp.ip] ++ argp.serverInfo.items ++
      [.string argp.path, .word argp.uid, .word argp.gid]
  | .openFile argp => [.string argp.ip, .string argp.path, .word argp.flags]
  | .release argp => [.string argp.ip, .word (.ofInt argp.fd)]
  | .read argp =>
    [.string argp.ip, .word (.ofInt argp.fd), .word argp.size, .word argp.offset]
  | .write argp =>
    [.string argp.ip] ++ argp.serverInfo.items ++
      [.word (.ofInt argp.fd), .string argp.path, .word argp.size, .word argp.offset,
        .bytes argp.buffer.bytes]
  | .statfs argp => [.string argp.path]

/-- What the stub sends stands as the items of the request; and however these are filled up and
whatever stands behind them, a server reads the request. -/
structure Request.Arrives (lib : Library) (r : Request) : Prop where
  sent : ∃ args, lib.message r = some ⟨(lib.sent r).1, args⟩ ∧ Xdr.Written r.items args
  read : ∀ args, Xdr.Written r.items args → ∀ behind,
    lib.understand (Message.followedBy ⟨(lib.sent r).1, args⟩ behind) = some r

section

variable {lib : Library} {r : Request} {m : Message}

/-- What a message can hold: strings of the C language, numbers of 32 bits. -/
theorem fits_iff : r.Fits lib ↔ (∀ s ∈ r.texts, Xdr.IsString s) ∧
    (∀ f ∈ r.forwarding, Words.IsInt f.1.isMaster ∧ Words.IsInt f.1.isDegraded) ∧
    (∀ x ∈ r.ints, Words.IsInt x) ∧ ∀ x ∈ r.longs, lib.longs.IsLong x := by
  cases r <;> simp [Request.Fits, Request.texts, Request.forwarding, Request.ints, Request.longs,
    xdrIdentity, xdrInitArg, xdrGetattrArg, xdrAccessArg, xdrMkdirArg, xdrRmdirArg, xdrOpendirArg,
    xdrReaddirArg, xdrReleasedirArg, xdrRenameArg, xdrSymlinkArg, xdrLinkArg, xdrReadlinkArg,
    xdrMknodArg, Library.xdrUtimeArg, xdrTruncateArg, xdrChmodArg, xdrChownArg, xdrUnlinkArg,
    xdrOpenArg, xdrReleaseArg, xdrReadArg, xdrWriteArg, xdrStatfsArg] <;> tauto

/-- A request whose arguments stand in the layout of its procedure arrives. -/
theorem arrives_of_stands {α : Type} (c : Codec α) (call : α → Request) (a : α)
    {items : List Xdr.Item} (h : Xdr.Stands c a items) (hitems : (call a).items = items)
    (hsent : (lib.sent (call a)).2 = c.put a)
    (harg : lib.xdrArgument (lib.sent (call a)).1 = some (Library.reading c call)) :
    (call a).Arrives lib where
  sent := by
    obtain ⟨args, hput, hargs⟩ := h.put
    rw [← hitems] at hargs
    exact ⟨args, by rw [Library.message, hsent, hput]; rfl, hargs⟩
  read args hargs behind := by
    rw [hitems] at hargs
    simp only [Library.understand, Message.followedBy, harg, Option.bind_some, Library.reading,
      h.get args hargs behind]
    rfl

/-- **Sent and read.**  What a message can hold arrives. -/
theorem arrives_of_fits (hr : r.Fits lib) : r.Arrives lib := by
  obtain ⟨htexts, hinfo, hints, hlongs⟩ := fits_iff.mp hr
  -- which strings and numbers these are is found out where they are used
  have text : ∀ {s} (_ : s ∈ r.texts := by simp [Request.texts]),
      Xdr.Stands xdrString s [.string s] := fun {_} hs => Xdr.stands_string (htexts _ hs)
  have num : ∀ {x} (_ : x ∈ r.ints := by simp [Request.ints]),
      Xdr.Stands xdrInt x [.word (.ofInt x)] := fun {_} hx => Xdr.stands_int (hints _ hx)
  have long : ∀ {x} (_ : x ∈ r.longs := by simp [Request.longs]),
      Xdr.Stands lib.xdrLong x [.word (.ofInt x)] := fun {_} hx => Xdr.stands_long (hlongs _ hx)
  have info : ∀ {serverInfo slaveArg} (_ : r.forwarding = some (serverInfo, slaveArg) := by rfl),
      Xdr.Stands xdrIdentity serverInfo _ := fun {serverInfo slaveArg} hf =>
    .as (.and (Xdr.stands_int (hinfo (serverInfo, slaveArg) hf).1)
      (Xdr.stands_int (hinfo (serverInfo, slaveArg) hf).2)) rfl
  have word : ∀ {w}, Xdr.Stands Xdr.word w [.word w] := fun {w} => Xdr.stands_word w
  cases r with
  | initRootdir argp =>
      exact arrives_of_stands xdrInitArg .initRootdir argp
        (.as (.and info (.and text text)) rfl) rfl rfl rfl
  | getattr argp =>
      exact arrives_of_stands xdrGetattrArg .getattr argp (.as (.and text text) rfl) rfl rfl rfl
  | access argp =>
      exact arrives_of_stands xdrAccessArg .access argp
        (.as (.and text (.and text word)) rfl) rfl rfl rfl
  | mkdir argp =>
      exact arrives_of_stands xdrMkdirArg .mkdir argp
        (.as (.and text (.and info (.and text word))) rfl) rfl rfl rfl
  | rmdir argp =>
      exact arrives_of_stands xdrRmdirArg .rmdir argp
        (.as (.and text (.and info text)) rfl) rfl rfl rfl
  | opendir argp =>
      exact arrives_of_stands xdrOpendirArg .opendir argp (.as (.and text text) rfl) rfl rfl rfl
  | readdir argp =>
      exact arrives_of_stands xdrReaddirArg .readdir argp (.as num rfl) rfl rfl rfl
  | releasedir argp =>
      exact arrives_of_stands xdrReleasedirArg .releasedir argp (.as num rfl) rfl rfl rfl
  | rename argp =>
      exact arrives_of_stands xdrRenameArg .rename argp
        (.as (.and text (.and info (.and text text))) rfl) rfl rfl rfl
  | symlink argp =>
      exact arrives_of_stands xdrSymlinkArg .symlink argp
        (.as (.and text (.and info (.and text text))) rfl) rfl rfl rfl
  | link argp =>
      exact arrives_of_stands xdrLinkArg .link argp
        (.as (.and text (.and info (.and text text))) rfl) rfl rfl rfl
  | readlink argp =>
      exact arrives_of_stands xdrReadlinkArg .readlink argp
        (.as (.and text (.and text word)) rfl) rfl rfl rfl
  | mknod argp =>
      exact arrives_of_stands xdrMknodArg .mknod argp
        (.as (.and text (.and info (.and text (.and word num)))) rfl) rfl rfl rfl
  | truncate argp =>
      exact arrives_of_stands xdrTruncateArg .truncate argp
        (.as (.and text (.and info (.and text num))) rfl) rfl rfl rfl
  | unlink argp =>
      exact arrives_of_stands xdrUnlinkArg .unlink argp
        (.as (.and text (.and info text)) rfl) rfl rfl rfl
  | utime argp =>
      exact arrives_of_stands lib.xdrUtimeArg .utime argp
        (.as (.and text (.and info (.and text (.and long long)))) rfl) rfl rfl rfl
  | chmod argp =>
      exact arrives_of_stands xdrChmodArg .chmod argp
        (.as (.and text (.and info (.and text word))) rfl) rfl rfl rfl
  | chown argp =>
      exact arrives_of_stands xdrChownArg .chown argp
        (.as (.and text (.and info (.and text (.and word word)))) rfl) rfl rfl rfl
  | openFile argp =>
      exact arrives_of_stands xdrOpenArg .openFile argp
        (.as (.and text (.and text word)) rfl) rfl rfl rfl
  | release argp =>
      exact arrives_of_stands xdrReleaseArg .release argp (.as (.and text num) rfl) rfl rfl rfl
  | read argp =>
      exact arrives_of_stands xdrReadArg .read argp
        (.as (.and text (.and num (.and word word))) rfl) rfl rfl rfl
  | write argp =>
      exact arrives_of_stands xdrWriteArg .write argp
        (.as (.and text (.and info
          (.and num (.and text (.and word (.and word (stands_xdrOpaque _))))))) rfl) rfl rfl rfl
  | statfs argp =>
      exact arrives_of_stands xdrStatfsArg .statfs argp (.as text rfl) rfl rfl rfl

theorem fits_of_reading {α : Type} {c : Codec α} {call : α → Request} {args : List UInt8}
    {P : Request → Prop} (hP : ∀ a, c.fits a → P (call a))
    (h : Library.reading c call args = some r) : P r := by
  obtain ⟨v, hv, rfl⟩ := Option.map_eq_some_iff.mp h
  exact hP v.1 (c.fits_of_get args v.1 v.2 hv)

/-- A server reads the request that a stub has sent. -/
theorem understand_sent (hr : r.Fits lib) : ∃ m, lib.message r = some m ∧
    ∀ behind, lib.understand (m.followedBy behind) = some r := by
  obtain ⟨⟨args, hmessage, hargs⟩, hread⟩ := arrives_of_fits hr
  exact ⟨_, hmessage, hread args hargs⟩

/-- **What is read could have been sent.** -/
theorem fits_of_understand (h : lib.understand m = some r) : r.Fits lib := by
  obtain ⟨f, hf, h⟩ := Option.bind_eq_some_iff.mp h
  unfold Library.xdrArgument at hf
  split at hf <;> cases hf <;> exact fits_of_reading (P := Request.Fits lib) (fun _ ha => ha) h

end

/-- **Requests in bytes.**  The requests that can come out of a message are those whose strings are
strings of the C language and whose numbers have 32 bits.  Each of them stands in what its stub
sends, argument by argument, and comes out of it however the arguments are filled up and whatever
stands behind them. -/
theorem request_round_trip (lib : Library) (r : Request) :
    ((∃ m, lib.understand m = some r) ↔ (∀ s ∈ r.texts, Xdr.IsString s) ∧
      (∀ f ∈ r.forwarding, Words.IsInt f.1.isMaster ∧ Words.IsInt f.1.isDegraded) ∧
      (∀ x ∈ r.ints, Words.IsInt x) ∧ ∀ x ∈ r.longs, lib.longs.IsLong x) ∧
    ((∃ m, lib.understand m = some r) → r.Arrives lib) := by
  have hfits : (∃ m, lib.understand m = some r) ↔ r.Fits lib := by
    constructor
    · rintro ⟨m, hread⟩
      exact fits_of_understand hread
    · intro hr
      obtain ⟨m, -, hread⟩ := understand_sent hr
      exact ⟨_, hread []⟩
  exact ⟨hfits.trans fits_iff, fun hr => arrives_of_fits (hfits.mp hr)⟩

/-- A library that writes the low word of a `long` and reads it without a sign. -/
def looseLibrary : Library := ⟨⟨.sign, .sign⟩, ⟨id, id⟩, .zero, false, 8760⟩

/-- `rmdir` of `/d`, from the client `1`. -/
def rmdirRequest : Request := .rmdir ⟨"1".toList, ⟨1, 0⟩, "/d".toList⟩

/-- The same in bytes, the strings filled up with something. -/
def rmdirMessage : Message := ⟨BB_RMDIR,
  [0, 0, 0, 1, 49, 7, 7, 7, 0, 0, 0, 1, 0, 0, 0, 0, 0, 0, 0, 2, 47, 100, 8, 9]⟩

/-- The message of the example is a layout of the request. -/
theorem written_rmdirMessage : Xdr.Written rmdirRequest.items rmdirMessage.args :=
  ⟨[0, 0, 0, 1, 49, 7, 7, 7], _, ⟨[7, 7, 7], rfl, rfl⟩,
    ⟨[0, 0, 0, 1], _, rfl, ⟨[0, 0, 0, 0], _, rfl,
      ⟨[0, 0, 0, 2, 47, 100, 8, 9], [], ⟨[8, 9], rfl, rfl⟩, rfl, rfl⟩, rfl⟩, rfl⟩, rfl⟩

theorem isString_of_check {s : List Char} (hlen : s.length < 4096)
    (h : s.all (fun c => decide (Xdr.IsByte c ∧ c ≠ '\x00')) = true) : Xdr.IsString s := by
  have hall : ∀ c ∈ s, Xdr.IsByte c ∧ c ≠ '\x00' := fun c hc =>
    of_decide_eq_true (List.all_eq_true.mp h c hc)
  exact ⟨by omega, fun c hc => (hall c hc).1, fun hzero => (hall _ hzero).2 rfl⟩

/-- The request comes out of these bytes. -/
theorem request_round_trip_rmdir :
    looseLibrary.understand (rmdirMessage.followedBy [1, 2, 3]) = some rmdirRequest := by
  have htrip := request_round_trip looseLibrary rmdirRequest
  have htexts : ∀ s ∈ rmdirRequest.texts, Xdr.IsString s := by
    intro s hs
    simp only [rmdirRequest, Request.texts, List.mem_cons, List.not_mem_nil, or_false] at hs
    rcases hs with rfl | rfl <;> exact isString_of_check (by decide) (by rfl)
  have hinfo : ∀ f ∈ rmdirRequest.forwarding,
      Words.IsInt f.1.isMaster ∧ Words.IsInt f.1.isDegraded := by
    rintro f ⟨⟩
    exact ⟨by decide, by decide⟩
  have hread := htrip.1.mpr ⟨htexts, hinfo, fun x hx => absurd hx List.not_mem_nil,
    fun x hx => absurd hx List.not_mem_nil⟩
  exact (htrip.2 hread).read _ written_rmdirMessage [1, 2, 3]

/-! ## Results -/

/-- A buffer of text as a message has it. -/
def IsText (s : List Char) : Prop := s.length = maxSize ∧ ∀ c ∈ s, Xdr.IsByte c

/-- A message can hold the result.  The results of `getattr` and `statfs` arrive as their words
allow. -/
def Reply.Fits : Reply → Prop
  | .status r => Words.IsInt r.ret
  | .getattr _ => True
  | .opendir r => Words.IsInt r.fd ∧ Words.IsInt r.ret
  | .readdir r => Words.IsInt r.count ∧ IsText r.entries ∧ Words.IsInt r.ret
  | .readlink r => IsText r.buffer ∧ Words.IsInt r.len ∧ Words.IsInt r.ret
  | .openFile r => Words.IsInt r.fd ∧ Words.IsInt r.ret
  | .read r => r.buffer.length = maxSize ∧ Words.IsInt r.len ∧ Words.IsInt r.ret
  | .write r => Words.IsInt r.len ∧ Words.IsInt r.ret
  | .statfs _ => True

section

variable {lib : Library} {r : Request} {reply : Reply}

/-- A result that can always be written is written. -/
theorem put_of_total {α : Type} {c : Codec α} (hc : c.Total) {wrap : α → Reply}
    {unwrap : Reply → Option α} {a : α} (ha : unwrap reply = some a) :
    ∃ bytes, (ResultProc.of c wrap unwrap).put reply = some bytes := by
  obtain ⟨bytes, hput⟩ := hc a
  exact ⟨bytes, by simp [ResultProc.of, ha, hput]⟩

/-- A result can always be written. -/
theorem result_put (lib : Library) (h : reply.answers r = true) :
    ∃ bytes, (lib.result r).put reply = some bytes := by
  have hnum := Xdr.total_int
  have hstatus : xdrStatusRet.Total := hnum.as
  cases reply with
  | status s =>
      cases r <;> first
        | exact put_of_total hstatus rfl
        | cases h
  | getattr s => cases r <;> cases h; exact Xdr.total_words 14 (encodeGetattrRet s)
  | opendir s => cases r <;> cases h; exact put_of_total (hnum.and hnum).as rfl
  | readdir s =>
      cases r <;> cases h
      exact put_of_total (hnum.and ((Xdr.total_chars maxSize).and hnum)).as rfl
  | readlink s =>
      cases r <;> cases h
      exact put_of_total ((Xdr.total_chars maxSize).and (hnum.and hnum)).as rfl
  | openFile s => cases r <;> cases h; exact put_of_total (hnum.and hnum).as rfl
  | read s =>
      cases r <;> cases h
      exact put_of_total ((Xdr.total_fixed maxSize).and (hnum.and hnum)).as rfl
  | write s => cases r <;> cases h; exact put_of_total (hnum.and hnum).as rfl
  | statfs s => cases r <;> cases h; exact Xdr.total_words 12 (encodeStatfsRet s)

/-- A result that fits is read back by the stub. -/
theorem get_of_fits {α : Type} {c : Codec α} {wrap : α → Reply} {unwrap : Reply → Option α} {a : α}
    (hc : c.fits a) (ha : unwrap reply = some a) {bytes : List UInt8}
    (h : (ResultProc.of c wrap unwrap).put reply = some bytes) :
    (ResultProc.of c wrap unwrap).get bytes = some (wrap a) := by
  have hput : c.put a = some bytes := by simpa [ResultProc.of, ha] using h
  simp [ResultProc.of, c.get_of_put hc hput]

/-- **Results in bytes.**  A result that a message can hold arrives as it was, those of `getattr`
and `statfs` as the macros for their words let them. -/
theorem result_round_trip (h : reply.answers r = true) (hfits : reply.Fits) :
    lib.received r (lib.sendreply r reply) = lib.carry reply := by
  obtain ⟨bytes, hput⟩ := result_put lib h
  rw [Library.sendreply, hput]
  show (lib.result r).get bytes = _
  cases reply with
  | status s =>
      have hs : xdrStatusRet.fits s := by simpa [xdrStatusRet, Reply.Fits] using hfits
      cases r <;> first
        | exact get_of_fits hs rfl hput
        | cases h
  | getattr s =>
      cases r <;> cases h
      have hget := (Xdr.words 14).get_of_put ((Xdr.fits_words 14 _).mpr rfl) hput
      simp [Library.result, hget, Xdr.carry]
  | opendir s =>
      have hs : xdrOpendirRet.fits s := by simpa [xdrOpendirRet, Reply.Fits] using hfits
      cases r <;> cases h
      exact get_of_fits hs rfl hput
  | readdir s =>
      have hs : xdrReaddirRet.fits s := by simpa [xdrReaddirRet, Reply.Fits, IsText] using hfits
      cases r <;> cases h
      exact get_of_fits hs rfl hput
  | readlink s =>
      have hs : xdrReadlinkRet.fits s := by simpa [xdrReadlinkRet, Reply.Fits, IsText] using hfits
      cases r <;> cases h
      exact get_of_fits hs rfl hput
  | openFile s =>
      have hs : xdrOpenRet.fits s := by simpa [xdrOpenRet, Reply.Fits] using hfits
      cases r <;> cases h
      exact get_of_fits hs rfl hput
  | read s =>
      have hs : xdrReadRet.fits s := by simpa [xdrReadRet, Reply.Fits] using hfits
      cases r <;> cases h
      exact get_of_fits hs rfl hput
  | write s =>
      have hs : xdrWriteRet.fits s := by simpa [xdrWriteRet, Reply.Fits] using hfits
      cases r <;> cases h
      exact get_of_fits hs rfl hput
  | statfs s =>
      cases r <;> cases h
      have hget := (Xdr.words 12).get_of_put ((Xdr.fits_words 12 _).mpr rfl) hput
      simp [Library.result, hget, Xdr.carry]

end

/-- The end of a read comes back. -/
theorem result_round_trip_read : looseLibrary.received (.read ⟨"1".toList, 3, 4096, 0⟩)
    (looseLibrary.sendreply (.read ⟨"1".toList, 3, 4096, 0⟩)
      (.read ⟨(Opaque.ofBytes [65]).bytes, 1, 0⟩)) =
    some (.read ⟨(Opaque.ofBytes [65]).bytes, 1, 0⟩) :=
  result_round_trip rfl ⟨(Opaque.ofBytes [65]).length_eq, by decide, by decide⟩

end DFS
