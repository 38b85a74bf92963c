import NetworkFileSystem.Client.Attributes
import NetworkFileSystem.Formats.Xdr
import NetworkFileSystem.Server.Stderr

/-!
# The messages in bytes (`fuse_rpc_xdr.c`)

One codec for each `xdr` procedure; the same description writes the arguments and reads them.  The
results of `getattr` and `statfs` go through the macros for whole words instead.
-/

namespace DFS

open Client Posix

/-! ## What the procedures are made of -/

/-- The library beneath: how its macros widen a word, what it prints about its own errors, what its
procedure for a `long` does, and how much it sends in a datagram. -/
structure Library extends Client.Xdr, Verbose.RpcTexts where
  longs : Words.Extension
  /-- Whether a `long` that would not arrive is refused. -/
  strict : Bool
  /-- The most bytes of arguments in a datagram. -/
  datagram : ℕ

/-- `xdr_int`. -/
abbrev xdrInt : Codec Int := Xdr.int

/-- `xdr_int` where the `int` only carries bits. -/
abbrev xdrBits : Codec UInt32 := Xdr.word

/-- `xdr_u_int`. -/
abbrev xdrUInt : Codec UInt32 := Xdr.word

/-- `xdr_long`. -/
abbrev Library.xdrLong (lib : Library) : Codec Int := Xdr.long lib.longs lib.strict

/-- `xdr_string`, for every length. -/
abbrev xdrString : Codec CStr := Xdr.string

/-- `xdr_opaque` for text. -/
abbrev xdrText : Codec (List Char) := Xdr.chars maxSize

/-- `xdr_opaque` for bytes. -/
abbrev xdrBytes : Codec (List UInt8) := Xdr.fixed maxSize

theorem Opaque.bytes_ofBytes {l : List UInt8} (h : l.length = maxSize) : (ofBytes l).bytes = l := by
  have hzeros : maxSize - l.length = 0 := by omega
  show l.take maxSize ++ List.replicate (maxSize - l.length) 0 = l
  rw [hzeros, List.replicate_zero, List.append_nil, ← h, List.take_length]

/-- `xdr_opaque` for a buffer of bytes. -/
def xdrOpaque : Codec Opaque :=
  xdrBytes.as Opaque.bytes Opaque.ofBytes fun _ h => Opaque.bytes_ofBytes h

@[simp] theorem fits_xdrOpaque (b : Opaque) : xdrOpaque.fits b := by
  obtain ⟨bytes, hlen⟩ := b
  refine ⟨hlen, ?_⟩
  rw [Opaque.ofBytes, Opaque.mk.injEq]
  exact Opaque.bytes_ofBytes hlen

/-- A data buffer stands as its bytes. -/
theorem stands_xdrOpaque (b : Opaque) : Xdr.Stands xdrOpaque b [.bytes b.bytes] := by
  obtain ⟨bytes, hlen⟩ := b
  have hfixed := Xdr.stands_fixed bytes
  rw [hlen] at hfixed
  exact hfixed.as (fits_xdrOpaque ⟨bytes, hlen⟩).2

/-! ## The arguments -/

def xdrIdentity : Codec Identity :=
  (xdrInt.and xdrInt).as (fun objp => (objp.isMaster, objp.isDegraded))
    (fun v => ⟨v.1, v.2⟩) fun _ _ => by rfl

def xdrInitArg : Codec InitArg :=
  (xdrIdentity.and (xdrString.and xdrString)).as
    (fun objp => (objp.serverInfo, objp.ip, objp.rootdir))
    (fun v => ⟨v.1, v.2.1, v.2.2⟩) fun _ _ => by rfl

def xdrGetattrArg : Codec GetattrArg :=
  (xdrString.and xdrString).as (fun objp => (objp.ip, objp.path))
    (fun v => ⟨v.1, v.2⟩) fun _ _ => by rfl

def xdrAccessArg : Codec AccessArg :=
  (xdrString.and (xdrString.and xdrBits)).as (fun objp => (objp.ip, objp.path, objp.mask))
    (fun v => ⟨v.1, v.2.1, v.2.2⟩) fun _ _ => by rfl

def xdrMkdirArg : Codec MkdirArg :=
  (xdrString.and (xdrIdentity.and (xdrString.and xdrBits))).as
    (fun objp => (objp.ip, objp.serverInfo, objp.path, objp.mode))
    (fun v => ⟨v.1, v.2.1, v.2.2.1, v.2.2.2⟩) fun _ _ => by rfl

def xdrRmdirArg : Codec RmdirArg :=
  (xdrString.and (xdrIdentity.and xdrString)).as (fun objp => (objp.ip, objp.serverInfo, objp.path))
    (fun v => ⟨v.1, v.2.1, v.2.2⟩) fun _ _ => by rfl

def xdrOpendirArg : Codec OpendirArg :=
  (xdrString.and xdrString).as (fun objp => (objp.ip, objp.path))
    (fun v => ⟨v.1, v.2⟩) fun _ _ => by rfl

def xdrReaddirArg : Codec ReaddirArg := xdrInt.as (·.fd) (fun v => ⟨v⟩) fun _ _ => by rfl

def xdrReleasedirArg : Codec ReleasedirArg := xdrInt.as (·.fd) (fun v => ⟨v⟩) fun _ _ => by rfl

def xdrRenameArg : Codec RenameArg :=
  (xdrString.and (xdrIdentity.and (xdrString.and xdrString))).as
    (fun objp => (objp.ip, objp.serverInfo, objp.path, objp.newpath))
    (fun v => ⟨v.1, v.2.1, v.2.2.1, v.2.2.2⟩) fun _ _ => by rfl

def xdrSymlinkArg : Codec SymlinkArg :=
  (xdrString.and (xdrIdentity.and (xdrString.and xdrString))).as
    (fun objp => (objp.ip, objp.serverInfo, objp.path, objp.link))
    (fun v => ⟨v.1, v.2.1, v.2.2.1, v.2.2.2⟩) fun _ _ => by rfl

def xdrLinkArg : Codec LinkArg :=
  (xdrString.and (xdrIdentity.and (xdrString.and xdrString))).as
    (fun objp => (objp.ip, objp.serverInfo, objp.path, objp.newpath))
    (fun v => ⟨v.1, v.2.1, v.2.2.1, v.2.2.2⟩) fun _ _ => by rfl

def xdrReadlinkArg : Codec ReadlinkArg :=
  (xdrString.and (xdrString.and xdrUInt)).as (fun objp => (objp.ip, objp.path, objp.size))
    (fun v => ⟨v.1, v.2.1, v.2.2⟩) fun _ _ => by rfl

def xdrMknodArg : Codec MknodArg :=
  (xdrString.and (xdrIdentity.and (xdrString.and (xdrBits.and xdrInt)))).as
    (fun objp => (objp.ip, objp.serverInfo, objp.path, objp.mode, objp.dev))
    (fun v => ⟨v.1, v.2.1, v.2.2.1, v.2.2.2.1, v.2.2.2.2⟩) fun _ _ => by rfl

def Library.xdrUtimeArg (lib : Library) : Codec UtimeArg :=
  (xdrString.and (xdrIdentity.and (xdrString.and (lib.xdrLong.and lib.xdrLong)))).as
    (fun objp => (objp.ip, objp.serverInfo, objp.path, objp.actime, objp.modtime))
    (fun v => ⟨v.1, v.2.1, v.2.2.1, v.2.2.2.1, v.2.2.2.2⟩) fun _ _ => by rfl

def xdrTruncateArg : Codec TruncateArg :=
  (xdrString.and (xdrIdentity.and (xdrString.and xdrInt))).as
    (fun objp => (objp.ip, objp.serverInfo, objp.path, objp.newsize))
    (fun v => ⟨v.1, v.2.1, v.2.2.1, v.2.2.2⟩) fun _ _ => by rfl

def xdrChmodArg : Codec ChmodArg :=
  (xdrString.and (xdrIdentity.and (xdrString.and xdrBits))).as
    (fun objp => (objp.ip, objp.serverInfo, objp.path, objp.mode))
    (fun v => ⟨v.1, v.2.1, v.2.2.1, v.2.2.2⟩) fun _ _ => by rfl

def xdrChownArg : Codec ChownArg :=
  (xdrString.and (xdrIdentity.and (xdrString.and (xdrUInt.and xdrUInt)))).as
    (fun objp => (objp.ip, objp.serverInfo, objp.path, objp.uid, objp.gid))
    (fun v => ⟨v.1, v.2.1, v.2.2.1, v.2.2.2.1, v.2.2.2.2⟩) fun _ _ => by rfl

def xdrUnlinkArg : Codec UnlinkArg :=
  (xdrString.and (xdrIdentity.and xdrString)).as (fun objp => (objp.ip, objp.serverInfo, objp.path))
    (fun v => ⟨v.1, v.2.1, v.2.2⟩) fun _ _ => by rfl

def xdrOpenArg : Codec OpenArg :=
  (xdrString.and (xdrString.and xdrBits)).as (fun objp => (objp.ip, objp.path, objp.flags))
    (fun v => ⟨v.1, v.2.1, v.2.2⟩) fun _ _ => by rfl

def xdrReleaseArg : Codec ReleaseArg :=
  (xdrString.and xdrInt).as (fun objp => (objp.ip, objp.fd)) (fun v => ⟨v.1, v.2⟩) fun _ _ => by rfl

def xdrReadArg : Codec ReadArg :=
  (xdrString.and (xdrInt.and (xdrUInt.and xdrUInt))).as
    (fun objp => (objp.ip, objp.fd, objp.size, objp.offset))
    (fun v => ⟨v.1, v.2.1, v.2.2.1, v.2.2.2⟩) fun _ _ => by rfl

def xdrWriteArg : Codec WriteArg :=
  (xdrString.and (xdrIdentity.and (xdrInt.and (xdrString.and
    (xdrUInt.and (xdrUInt.and xdrOpaque)))))).as
    (fun objp =>
      (objp.ip, objp.serverInfo, objp.fd, objp.path, objp.size, objp.offset, objp.buffer))
    (fun v => ⟨v.1, v.2.1, v.2.2.1, v.2.2.2.1, v.2.2.2.2.1, v.2.2.2.2.2.1, v.2.2.2.2.2.2⟩)
    fun _ _ => by rfl

def xdrStatfsArg : Codec StatfsArg := xdrString.as (·.path) (fun v => ⟨v⟩) fun _ _ => by rfl

/-! ## The results -/

/-- A result that is a status only: `xdr_init_ret`, `xdr_access_ret` and so on. -/
def xdrStatusRet : Codec StatusRet := xdrInt.as (·.ret) (fun v => ⟨v⟩) fun _ _ => by rfl

def xdrOpendirRet : Codec OpendirRet :=
  (xdrInt.and xdrInt).as (fun objp => (objp.fd, objp.ret)) (fun v => ⟨v.1, v.2⟩) fun _ _ => by rfl

def xdrReaddirRet : Codec ReaddirRet :=
  (xdrInt.and (xdrText.and xdrInt)).as (fun objp => (objp.count, objp.entries, objp.ret))
    (fun v => ⟨v.1, v.2.1, v.2.2⟩) fun _ _ => by rfl

def xdrReadlinkRet : Codec ReadlinkRet :=
  (xdrText.and (xdrInt.and xdrInt)).as (fun objp => (objp.buffer, objp.len, objp.ret))
    (fun v => ⟨v.1, v.2.1, v.2.2⟩) fun _ _ => by rfl

def xdrOpenRet : Codec OpenRet :=
  (xdrInt.and xdrInt).as (fun objp => (objp.fd, objp.ret)) (fun v => ⟨v.1, v.2⟩) fun _ _ => by rfl

def xdrReadRet : Codec ReadRet :=
  (xdrBytes.and (xdrInt.and xdrInt)).as (fun objp => (objp.buffer, objp.len, objp.ret))
    (fun v => ⟨v.1, v.2.1, v.2.2⟩) fun _ _ => by rfl

def xdrWriteRet : Codec WriteRet :=
  (xdrInt.and xdrInt).as (fun objp => (objp.len, objp.ret)) (fun v => ⟨v.1, v.2⟩) fun _ _ => by rfl

end DFS
