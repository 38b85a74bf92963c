import NetworkFileSystem.Client.Rounds
import NetworkFileSystem.Formats.Words

/-!
# Attributes on their way to FUSE (`bb_getattr`, `bb_statfs`)

What `lstat` and `statvfs` report is copied into the result of the procedure, put into words of 32
bits, read back and copied out.  The results of the other procedures have no member that is wider
than a word.

**`attributes_kept_iff`** says which values come out as they went in.
-/

namespace DFS

open Effects Posix Prog Words

namespace Client

/-! ## The results in words (`fuse_rpc_xdr.c`) -/

/-- The macros that take a word off the stream: how they widen it. -/
structure Xdr where
  getLong : Extension
  getULong : Extension

/-- `IXDR_PUT_LONG`. -/
def ixdrPutLong (n : Int) : UInt32 := UInt32.ofInt n

/-- `IXDR_PUT_U_LONG`. -/
def ixdrPutULong (n : ℕ) : UInt32 := UInt32.ofNat n

namespace Xdr

variable (x : Xdr)

/-- `IXDR_GET_LONG`. -/
def ixdrGetLong (w : UInt32) : Int := x.getLong.long w

/-- `IXDR_GET_U_LONG`. -/
def ixdrGetULong (w : UInt32) : ℕ := x.getULong.ulong w

/-- `IXDR_GET_LONG`, assigned to an `int`. -/
def ixdrGetInt (w : UInt32) : Int := toInt (x.ixdrGetLong w)

end Xdr

/-- `xdr_getattr_ret` for `XDR_ENCODE`. -/
def encodeGetattrRet (objp : GetattrRet) : List UInt32 := [
  ixdrPutLong objp.st_dev,
  ixdrPutLong objp.st_ino,
  ixdrPutLong objp.st_mode,
  ixdrPutLong objp.st_nlink,
  ixdrPutLong objp.st_uid,
  ixdrPutLong objp.st_gid,
  ixdrPutLong objp.st_rdev,
  ixdrPutULong objp.st_size,
  ixdrPutULong objp.st_blksize,
  ixdrPutULong objp.st_blocks,
  ixdrPutLong objp.st_acc_time,
  ixdrPutLong objp.st_mod_time,
  ixdrPutLong objp.st_chg_time,
  ixdrPutLong objp.ret]

/-- `xdr_getattr_ret` for `XDR_DECODE`. -/
def Xdr.decodeGetattrRet (x : Xdr) : List UInt32 → Option GetattrRet
  | [dev, ino, mode, nlink, uid, gid, rdev, size, blksize, blocks, acc, mod, chg, status] => some {
      st_dev := x.ixdrGetInt dev
      st_ino := x.ixdrGetInt ino
      st_mode := x.ixdrGetInt mode
      st_nlink := x.ixdrGetInt nlink
      st_uid := x.ixdrGetInt uid
      st_gid := x.ixdrGetInt gid
      st_rdev := x.ixdrGetInt rdev
      st_size := x.ixdrGetULong size
      st_blksize := x.ixdrGetULong blksize
      st_blocks := x.ixdrGetULong blocks
      st_acc_time := x.ixdrGetLong acc
      st_mod_time := x.ixdrGetLong mod
      st_chg_time := x.ixdrGetLong chg
      ret := x.ixdrGetInt status }
  | _ => none

/-- `xdr_statfs_ret` for `XDR_ENCODE`. -/
def encodeStatfsRet (objp : StatfsRet) : List UInt32 := [
  ixdrPutULong objp.vfs.f_bsize,
  ixdrPutULong objp.vfs.f_frsize,
  ixdrPutULong objp.vfs.f_blocks,
  ixdrPutULong objp.vfs.f_bfree,
  ixdrPutULong objp.vfs.f_bavail,
  ixdrPutULong objp.vfs.f_files,
  ixdrPutULong objp.vfs.f_ffree,
  ixdrPutULong objp.vfs.f_favail,
  ixdrPutULong objp.vfs.f_fsid,
  ixdrPutULong objp.vfs.f_flag,
  ixdrPutULong objp.vfs.f_namemax,
  ixdrPutLong objp.ret]

/-- `xdr_statfs_ret` for `XDR_DECODE`. -/
def Xdr.decodeStatfsRet (x : Xdr) : List UInt32 → Option StatfsRet
  | [bsize, frsize, blocks, bfree, bavail, files, ffree, favail, fsid, flag, namemax, status] =>
    some {
      vfs := {
        f_bsize := x.ixdrGetULong bsize
        f_frsize := x.ixdrGetULong frsize
        f_blocks := x.ixdrGetULong blocks
        f_bfree := x.ixdrGetULong bfree
        f_bavail := x.ixdrGetULong bavail
        f_files := x.ixdrGetULong files
        f_ffree := x.ixdrGetULong ffree
        f_favail := x.ixdrGetULong favail
        f_fsid := x.ixdrGetULong fsid
        f_flag := x.ixdrGetULong flag
        f_namemax := x.ixdrGetULong namemax }
      ret := x.ixdrGetInt status }
  | _ => none

/-- A result as the other side finds it. -/
def Xdr.carry (x : Xdr) : Reply → Option Reply
  | .getattr r => (x.decodeGetattrRet (encodeGetattrRet r)).map .getattr
  | .statfs r => (x.decodeStatfsRet (encodeStatfsRet r)).map .statfs
  | r => some r

/-- A network whose replies travel in words. -/
def Network.over {σ : Type} (x : Xdr) (w : Network σ) : Network σ where
  up := w.up
  call host r s := ((w.call host r s).1.bind x.carry, (w.call host r s).2)
  filler := w.filler

/-! ## What arrives -/

theorem toInt_eq_int (n : Int) : toInt n = int (UInt32.ofInt n) := by
  have hsize : (Int32.size : Int) = 2 ^ 32 := rfl
  rw [int_eq, toNat_ofInt32, toInt, Int32.toInt_ofInt, Int.bmod_def, hsize]
  split <;> split <;> omega

/-- Whichever way the word is widened, an `int` gets its value with a sign. -/
theorem ixdrGetInt_eq (x : Xdr) (w : UInt32) : x.ixdrGetInt w = int w := by
  rw [Xdr.ixdrGetInt, Xdr.ixdrGetLong, toInt_eq_int, ofInt_long]

/-- What `bb_getattr_6_svc` copies. -/
def getattrRetOf (statbuf : Stat) : GetattrRet where
  st_dev := toInt statbuf.st_dev
  st_ino := toInt statbuf.st_ino
  st_mode := statbuf.st_mode.toInt32.toInt
  st_nlink := toInt statbuf.st_nlink
  st_uid := statbuf.st_uid.toInt32.toInt
  st_gid := statbuf.st_gid.toInt32.toInt
  st_rdev := toInt statbuf.st_rdev
  st_size := statbuf.st_size
  st_blksize := statbuf.st_blksize
  st_blocks := statbuf.st_blocks
  st_acc_time := statbuf.st_atime
  st_mod_time := statbuf.st_mtime
  st_chg_time := statbuf.st_ctime
  ret := 0

/-- The result of `bb_getattr_6_svc`, by what `lstat` finds. -/
def getattrResult (result : GetattrRet) : Except Errno Stat → GetattrRet
  | .ok statbuf => getattrRetOf statbuf
  | .error e => { result with ret := -(e : Int) }

/-- The result of `bb_statfs_6_svc`, by what `statvfs` finds. -/
def statfsResult (result : StatfsRet) : Except Errno StatVfs → StatfsRet
  | .ok statv => ⟨statv, 0⟩
  | .error e => { result with ret := -(e : Int) }

/-- The structure that comes out for one that goes in. -/
def Xdr.stat (x : Xdr) (st : Stat) : Option Stat :=
  (x.decodeGetattrRet (encodeGetattrRet (getattrRetOf st))).map statOf

/-- The structure that comes out for one that goes in. -/
def Xdr.statv (x : Xdr) (statv : StatVfs) : Option StatVfs :=
  (x.decodeStatfsRet (encodeStatfsRet ⟨statv, 0⟩)).map StatfsRet.vfs

/-- Every member is one of the values that can come out. -/
structure Xdr.KeepsStat (x : Xdr) (st : Stat) : Prop where
  st_dev : IsWide st.st_dev
  st_ino : IsWide st.st_ino
  st_nlink : IsWide st.st_nlink
  st_rdev : IsWide st.st_rdev
  st_size : x.getULong.IsUlong st.st_size
  st_blksize : x.getULong.IsUlong st.st_blksize
  st_blocks : x.getULong.IsUlong st.st_blocks
  st_atime : x.getLong.IsLong st.st_atime
  st_mtime : x.getLong.IsLong st.st_mtime
  st_ctime : x.getLong.IsLong st.st_ctime

/-- Every member is one of the values that can come out. -/
structure Xdr.KeepsStatVfs (x : Xdr) (statv : StatVfs) : Prop where
  f_bsize : x.getULong.IsUlong statv.f_bsize
  f_frsize : x.getULong.IsUlong statv.f_frsize
  f_blocks : x.getULong.IsUlong statv.f_blocks
  f_bfree : x.getULong.IsUlong statv.f_bfree
  f_bavail : x.getULong.IsUlong statv.f_bavail
  f_files : x.getULong.IsUlong statv.f_files
  f_ffree : x.getULong.IsUlong statv.f_ffree
  f_favail : x.getULong.IsUlong statv.f_favail
  f_fsid : x.getULong.IsUlong statv.f_fsid
  f_flag : x.getULong.IsUlong statv.f_flag
  f_namemax : x.getULong.IsUlong statv.f_namemax

section

variable (x : Xdr)

/-- A member of 64 bits that travels as an `int`. -/
theorem wide_kept_iff (n : Int) :
    ((UInt64.ofInt (x.ixdrGetInt (ixdrPutLong (toInt n)))).toNat : Int) = n ↔ IsWide n := by
  rw [ixdrGetInt_eq, ixdrPutLong, toInt_eq_int, ofInt_int]
  exact wide_int_iff n

theorem wide_kept_iff' (n : ℕ) :
    (UInt64.ofInt (x.ixdrGetInt (ixdrPutLong (toInt n)))).toNat = n ↔ IsWide n := by
  rw [← wide_kept_iff x n]
  omega

/-- A member of 32 bits is kept. -/
theorem bits_kept (w : UInt32) :
    UInt32.ofInt (x.ixdrGetInt (ixdrPutLong w.toInt32.toInt)) = w := by
  have hput : ixdrPutLong w.toInt32.toInt = w := ofInt_int w
  rw [ixdrGetInt_eq, hput, ofInt_int]

/-- An `unsigned long` arrives exactly when the reader's macro widens its 32 bits back to it. -/
theorem ulong_kept_iff (n : ℕ) :
    x.ixdrGetULong (ixdrPutULong n) = n ↔ x.getULong.IsUlong n := ulong_ofNat_iff _ n

/-- A `long` arrives exactly when the reader's macro widens its 32 bits back to it. -/
theorem long_kept_iff (n : Int) :
    x.ixdrGetLong (ixdrPutLong n) = n ↔ x.getLong.IsLong n := long_ofInt_iff _ n

/-- **One structure**, through the three conversions. -/
theorem stat_kept_iff (st : Stat) : x.stat st = some st ↔ x.KeepsStat st := by
  obtain ⟨dev, ino, mode, nlink, uid, gid, rdev, size, blksize, blocks, atime, mtime, ctime⟩ := st
  simp only [Xdr.stat, encodeGetattrRet, Xdr.decodeGetattrRet, getattrRetOf, Option.map_some,
    Option.some.injEq, statOf, Stat.mk.injEq, wide_kept_iff, wide_kept_iff', bits_kept,
    ulong_kept_iff, long_kept_iff]
  constructor
  · rintro ⟨h1, h2, -, h3, -, -, h4, h5, h6, h7, h8, h9, h10⟩
    exact ⟨h1, h2, h3, h4, h5, h6, h7, h8, h9, h10⟩
  · rintro ⟨h1, h2, h3, h4, h5, h6, h7, h8, h9, h10⟩
    exact ⟨h1, h2, trivial, h3, trivial, trivial, h4, h5, h6, h7, h8, h9, h10⟩

/-- A `struct statvfs` arrives exactly when each of its members does. -/
theorem statv_kept_iff (statv : StatVfs) : x.statv statv = some statv ↔ x.KeepsStatVfs statv := by
  simp only [Xdr.statv, encodeStatfsRet, Xdr.decodeStatfsRet, Option.map_some, Option.some.injEq]
  obtain ⟨bsize, frsize, blocks, bfree, bavail, files, ffree, favail, fsid, flag, namemax⟩ := statv
  simp only [StatVfs.mk.injEq, ulong_kept_iff]
  constructor
  · rintro ⟨h1, h2, h3, h4, h5, h6, h7, h8, h9, h10, h11⟩
    exact ⟨h1, h2, h3, h4, h5, h6, h7, h8, h9, h10, h11⟩
  · rintro ⟨h1, h2, h3, h4, h5, h6, h7, h8, h9, h10, h11⟩
    exact ⟨h1, h2, h3, h4, h5, h6, h7, h8, h9, h10, h11⟩

end

/-! ## The server -/

/-- `lstat` fails with a proper error number. -/
theorem reports_lstat (os : OS) (p : CStr) : Posix.Reports (os.lstat p) :=
  errorsIn_bind (os.fs.reports_lresolve p) fun _ =>
    errorsIn_bind (errorsIn_orElse (by decide) _) fun _ => errorsIn_pure _

/-- What `statvfs` finds. -/
def statvfsAt (os : OS) (p : CStr) : Except Errno StatVfs :=
  (fun _ => os.statvfs) <$> os.fs.resolve p

/-- `statvfs` fails with a proper error number. -/
theorem reports_statvfs (os : OS) (p : CStr) : Posix.Reports (statvfsAt os p) := by
  intro e h
  unfold statvfsAt at h
  cases hp : os.fs.resolve p with
  | ok i =>
      rw [hp] at h
      cases h
  | error e' =>
      rw [hp] at h
      cases h
      exact os.fs.reports_resolve p e hp

/-- `bb_getattr_6_svc` returns whatever the disturbances, with what `lstat` found. -/
theorem getattr_run (arg : GetattrArg) (result : GetattrRet) (peer : Peer) (n : ℕ) (h : Host) :
    ∃ t, (bbGetattr6Svc arg result).run (disturbed peer) (h, cutShort n) =
      .ok (getattrResult result (h.os.lstat (translateAbspath arg.path)), t) := by
  have hcall : OS.execUnder (cutShort n).head?.join (.lstat (translateAbspath arg.path)) h.os =
      .ok (h.os.tryGet (h.os.lstat (translateAbspath arg.path))) := rfl
  simp only [bbGetattr6Svc, run_sysUnder_bind hcall]
  cases h.os.lstat (translateAbspath arg.path) with
  | ok statbuf => exact ⟨_, rfl⟩
  | error e => exact ⟨_, rfl⟩

/-- `bb_statfs_6_svc` returns whatever the disturbances, with what `statvfs` found. -/
theorem statfs_run (arg : StatfsArg) (result : StatfsRet) (peer : Peer) (n : ℕ) (h : Host) :
    ∃ t, (bbStatfs6Svc arg result).run (disturbed peer) (h, cutShort n) =
      .ok (statfsResult result (statvfsAt h.os (translateAbspath arg.path)), t) := by
  have hcall : OS.execUnder (cutShort n).head?.join (.statvfs (translateAbspath arg.path)) h.os =
      .ok (h.os.tryGet (statvfsAt h.os (translateAbspath arg.path))) := rfl
  simp only [bbStatfs6Svc, run_sysUnder_bind hcall]
  cases statvfsAt h.os (translateAbspath arg.path) with
  | ok statv => exact ⟨_, rfl⟩
  | error e => exact ⟨_, rfl⟩

/-- The reply to a getattr message is what `lstat` found, in the memory that was there. -/
theorem serve_getattr (arg : GetattrArg) (stale : Stale) (peer : Peer) (n : ℕ) (h : Host) : ∃ h',
    serveUnder (cutShort n) ⟨.getattr arg, stale, peer⟩ h =
      .ok (.getattr (getattrResult stale.getattr (h.os.lstat (translateAbspath arg.path))),
        h') := by
  obtain ⟨t, ht⟩ := getattr_run arg stale.getattr peer n h
  refine ⟨t.1, ?_⟩
  show ((Reply.getattr <$> bbGetattr6Svc arg stale.getattr).run _ _).map _ = _
  rw [← bind_pure_comp, run_bind, ht]
  rfl

/-- The reply to a statfs message is what `statvfs` found, in the memory that was there. -/
theorem serve_statfs (arg : StatfsArg) (stale : Stale) (peer : Peer) (n : ℕ) (h : Host) : ∃ h',
    serveUnder (cutShort n) ⟨.statfs arg, stale, peer⟩ h =
      .ok (.statfs (statfsResult stale.statfs (statvfsAt h.os (translateAbspath arg.path))),
        h') := by
  obtain ⟨t, ht⟩ := statfs_run arg stale.statfs peer n h
  refine ⟨t.1, ?_⟩
  show ((Reply.statfs <$> bbStatfs6Svc arg stale.statfs).run _ _).map _ = _
  rw [← bind_pure_comp, run_bind, ht]
  rfl

/-! ## The operations -/

/-- What the server finds when a request of the client arrives. -/
def Course.found (c : Course) (w : Host × ℕ) : OS := (c.meanwhile w.2 w.1).os

/-- An operation returns with an error, or hands over what the server has found. -/
def HandsOver {σ α : Type} (w : Network σ) (s : Station σ) (p : Operation Int) (look : Caller → α)
    (found : Except Errno α) : Prop :=
  ∃ v t, p.run w.machine s = .ok (v, t) ∧ (v < 0 ∨ found = .ok (look t.caller))

variable {x : Xdr} {c : Course} {s u : Station (Host × ℕ)} {m : Mount} {unset : Unset}
  {path : CStr} {host : HostName}

/-- An error number survives. -/
theorem errno_kept {α : Type} {r : Except Errno α} {e : Errno} (hr : Posix.Reports r)
    (he : r = .error e) : x.ixdrGetInt (ixdrPutLong (-(e : Int))) < 0 := by
  let n : ℕ := e
  have hpos : 0 < n := (hr e he).1
  have hle : n ≤ 4095 := (hr e he).2
  show x.ixdrGetInt (ixdrPutLong (-(n : Int))) < 0
  have hkept : int (UInt32.ofInt (-(n : Int))) = -(n : Int) :=
    (int_ofInt_iff _).mpr ⟨by omega, by omega⟩
  rw [ixdrGetInt_eq, ixdrPutLong, hkept]
  omega

theorem zero_kept : x.ixdrGetInt (ixdrPutLong 0) = 0 := by
  rw [ixdrGetInt_eq]
  rfl

/-- What the client gets for `lstat`. -/
theorem over_getattr (arg : GetattrArg) (w : Host × ℕ) :
    ∃ ret, (c.network.over x).answer host (.getattr arg) w = some (.getattr ret) ∧
      (∀ e, (c.found w).lstat (translateAbspath arg.path) = .error e → ret.ret < 0) ∧
      ∀ st, (c.found w).lstat (translateAbspath arg.path) = .ok st →
        ret.ret = 0 ∧ x.stat st = some (statOf ret) := by
  obtain ⟨h', hserve⟩ := serve_getattr arg (c.around w.2).stale (c.around w.2).peer (c.limit w.2)
    (c.meanwhile w.2 w.1)
  have hserve' : serveUnder (cutShort (c.limit w.2)) (c.arrival (.getattr arg) w.2)
    (c.meanwhile w.2 w.1) = _ := hserve
  unfold Network.answer Course.found
  simp only [Network.over, Course.network, hserve']
  cases hl : (c.meanwhile w.2 w.1).os.lstat (translateAbspath arg.path) with
  | error e =>
      refine ⟨_, rfl, fun _ _ => ?_, fun st h => by cases h⟩
      exact errno_kept (reports_lstat _ _) hl
  | ok st =>
      refine ⟨_, rfl, fun e h => (by cases h), ?_⟩
      rintro st' hst'
      cases hst'
      exact ⟨zero_kept, rfl⟩

/-- What the client gets for `statvfs`. -/
theorem over_statfs (arg : StatfsArg) (w : Host × ℕ) :
    ∃ ret, (c.network.over x).answer host (.statfs arg) w = some (.statfs ret) ∧
      (∀ e, statvfsAt (c.found w) (translateAbspath arg.path) = .error e → ret.ret < 0) ∧
      ∀ statv, statvfsAt (c.found w) (translateAbspath arg.path) = .ok statv →
        ret.ret = 0 ∧ x.statv statv = some ret.vfs := by
  obtain ⟨h', hserve⟩ := serve_statfs arg (c.around w.2).stale (c.around w.2).peer (c.limit w.2)
    (c.meanwhile w.2 w.1)
  have hserve' : serveUnder (cutShort (c.limit w.2)) (c.arrival (.statfs arg) w.2)
    (c.meanwhile w.2 w.1) = _ := hserve
  unfold Network.answer Course.found
  simp only [Network.over, Course.network, hserve']
  cases hl : statvfsAt (c.meanwhile w.2 w.1).os (translateAbspath arg.path) with
  | error e =>
      refine ⟨_, rfl, fun _ _ => ?_, fun st h => by cases h⟩
      exact errno_kept (reports_statvfs _ _) hl
  | ok statv =>
      refine ⟨_, rfl, fun e h => (by cases h), ?_⟩
      rintro statv' hstatv'
      cases hstatv'
      exact ⟨zero_kept, rfl⟩

/-- What an operation hands over comes out of the conversions. -/
theorem handsOver_iff {σ α : Type} {w : Network σ} {s t : Station σ} {p : Operation Int} {v : Int}
    {look : Caller → α} {found : Except Errno α} {out : α → Option α}
    (hrun : p.run w.machine s = .ok (v, t)) (hbad : ∀ e, found = .error e → v < 0)
    (hgood : ∀ a, found = .ok a → v = 0 ∧ out a = some (look t.caller)) :
    HandsOver w s p look found ↔ ∀ a, found = .ok a → out a = some a := by
  constructor
  · rintro ⟨v', t', hrun', h⟩ a ha
    obtain ⟨rfl, rfl⟩ := Prod.mk.inj (Except.ok.inj (hrun.symm.trans hrun'))
    obtain ⟨hv, hout⟩ := hgood a ha
    have hlook : found = .ok (look t.caller) := h.resolve_left (by omega)
    rw [hout, Except.ok.inj (ha.symm.trans hlook)]
  · intro h
    refine ⟨v, t, hrun, ?_⟩
    cases hf : found with
    | error e => exact .inl (hbad e hf)
    | ok a =>
        obtain ⟨-, hout⟩ := hgood a hf
        rw [Option.some.inj ((h a hf).symm.trans hout)]
        exact .inr rfl

/-- The conversion of the numbers has no part in which server answers. -/
theorem over_chosen (s : Station (Host × ℕ)) :
    ∃ isDegraded, (c.network.over x).chosen s = some (c.here, isDegraded) := course_chosen s

/-- `bb_getattr` fills the caller's structure with what `lstat` finds exactly when those attributes
survive the two conversions. -/
theorem getattr_handsOver
    (hinit : (initializeOnce m unset).run (c.network.over x).machine s = .ok ((), u)) :
    HandsOver (c.network.over x) s (bbGetattr m unset path) Caller.stat
        ((c.found u.world).lstat (translateAbspath path)) ↔
      ∀ st, (c.found u.world).lstat (translateAbspath path) = .ok st → x.stat st = some st := by
  obtain ⟨isDegraded, hc⟩ := @over_chosen x c u
  obtain ⟨ret, hans, hbad, hgood⟩ := @over_getattr x c c.here ⟨m.ip, path⟩ u.world
  let r : Request := .getattr ⟨m.ip, path⟩
  let t : Station (Host × ℕ) :=
    ((c.network.over x).called ⟨u.made, c.here⟩ r (u.connected c.here)).dropped ⟨u.made, c.here⟩
  have hcall : (callOnce (fun _ => r) Reply.getattr? unset.getattr).run
      (c.network.over x).machine u = .ok (ret, t) := by
    unfold callOnce
    rw [connected_run hc, stub_run]
    show Except.ok ((((c.network.over x).answer c.here r u.world).bind Reply.getattr?).getD _, _) =
      _
    rw [hans]
    rfl
  have hrun : (bbGetattr m unset path).run (c.network.over x).machine s = if ret.ret < 0 then
      .ok (ret.ret, t) else .ok (0, { t with caller := { t.caller with stat := statOf ret } }) := by
    rw [bbGetattr, run_bind, hinit]
    show ((callOnce (fun _ => r) Reply.getattr? unset.getattr) >>= _).run _ u = _
    rw [run_bind, hcall]
    simp only [Except.bind]
    split <;> rfl
  by_cases hret : ret.ret < 0
  · rw [if_pos hret] at hrun
    refine handsOver_iff hrun (fun _ _ => hret) fun st hst => ?_
    have hzero := (hgood st hst).1
    omega
  · rw [if_neg hret] at hrun
    exact handsOver_iff hrun (fun e he => absurd (hbad e he) hret)
      fun st hst => ⟨rfl, (hgood st hst).2⟩

/-- `bb_statfs` fills the caller's structure with what `statvfs` finds exactly when those numbers
survive the two conversions. -/
theorem statfs_handsOver :
    HandsOver (c.network.over x) s (bbStatfs m unset path) Caller.statv
        (statvfsAt (c.found s.world) (translateAbspath path)) ↔
      ∀ statv, statvfsAt (c.found s.world) (translateAbspath path) = .ok statv →
        x.statv statv = some statv := by
  obtain ⟨isDegraded, hc⟩ := @over_chosen x c s
  obtain ⟨ret, hans, hbad, hgood⟩ := @over_statfs x c c.here ⟨path⟩ s.world
  let clnt : Clnt := ⟨s.made, c.here⟩
  let t : Station (Host × ℕ) :=
    (c.network.over x).called clnt (.statfs ⟨path⟩) (s.connected c.here)
  have hcall : (stub clnt (.statfs ⟨path⟩) Reply.statfs? unset.statfs).run
      (c.network.over x).machine (s.connected c.here) = .ok (ret, t) := by
    show Except.ok ((((c.network.over x).answer c.here (.statfs ⟨path⟩) s.world).bind
      Reply.statfs?).getD _, _) = _
    rw [hans]
    rfl
  have hrun : (bbStatfs m unset path).run (c.network.over x).machine s = if ret.ret < 0 then
      .ok (-1, t.dropped clnt)
      else .ok (0, { t with caller := { t.caller with statv := ret.vfs } }.dropped clnt) := by
    unfold bbStatfs
    rw [connected_run hc]
    show ((stub clnt (.statfs ⟨path⟩) Reply.statfs? unset.statfs) >>= _).run _ _ = _
    rw [run_bind, hcall]
    simp only [Except.bind]
    split <;> rfl
  by_cases hret : ret.ret < 0
  · rw [if_pos hret] at hrun
    refine handsOver_iff hrun (fun _ _ => by decide) fun statv hstatv => ?_
    have hzero := (hgood statv hstatv).1
    omega
  · rw [if_neg hret] at hrun
    exact handsOver_iff hrun (fun e he => absurd (hbad e he) hret)
      fun statv hstatv => ⟨rfl, (hgood statv hstatv).2⟩

/-- **Attributes.**  Both operations hand over what the server finds, or return an error, exactly
when every member is one of the values that a word of 32 bits comes back as. -/
theorem attributes_kept_iff
    (hinit : (initializeOnce m unset).run (c.network.over x).machine s = .ok ((), u)) :
    (HandsOver (c.network.over x) s (bbGetattr m unset path) Caller.stat
        ((c.found u.world).lstat (translateAbspath path)) ↔
      ∀ st, (c.found u.world).lstat (translateAbspath path) = .ok st → x.KeepsStat st) ∧
    (HandsOver (c.network.over x) s (bbStatfs m unset path) Caller.statv
        (statvfsAt (c.found s.world) (translateAbspath path)) ↔
      ∀ statv, statvfsAt (c.found s.world) (translateAbspath path) = .ok statv →
        x.KeepsStatVfs statv) := by
  simp only [getattr_handsOver hinit, statfs_handsOver, stat_kept_iff, statv_kept_iff, and_self]

/-- A server on a volume that takes `blocks` blocks, as does each of its files. -/
def volumeOf (blocks : ℕ) : Host where
  os := { (serving [65] []).os with
    vol := ⟨1, 4096, 4096, fun _ => blocks⟩
    statvfs := ⟨4096, 4096, blocks, 0, 0, 0, 0, 0, 0, 0, 255⟩ }
  sent := []

/-- A client at this server. -/
def atVolume (blocks : ℕ) : Station (Host × ℕ) := atServer (volumeOf blocks) fun _ => 0

/-- What the server reports of its file. -/
def reported (blocks : ℕ) : Stat := ⟨1, 2, 0o100600, 1, 1, 1, 0, 1, 4096, blocks, 0, 0, 0⟩

/-- A network that widens by the sign what is signed. -/
def volumeNetwork : Network (Host × ℕ) :=
  (Course.quiet fun _ => maxSize).network.over ⟨.sign, .zero⟩

theorem reported_eq (blocks : ℕ) : ((Course.quiet fun _ => maxSize).found
    (atVolume blocks).world).lstat (translateAbspath "/f".toList) = .ok (reported blocks) := rfl

/-- A small file on a small volume. -/
theorem attributes_kept_small :
    HandsOver volumeNetwork (atVolume 8) (bbGetattr ⟨[], []⟩ .zero "/f".toList) Caller.stat
      (.ok (reported 8)) ∧
    HandsOver volumeNetwork (atVolume 8) (bbStatfs ⟨[], []⟩ .zero "/f".toList) Caller.statv
      (.ok (volumeOf 8).os.statvfs) := by
  obtain ⟨hstat, hstatv⟩ := @attributes_kept_iff ⟨.sign, .zero⟩ (.quiet fun _ => maxSize)
    (atVolume 8) (atVolume 8) ⟨[], []⟩ .zero "/f".toList rfl
  refine ⟨hstat.mpr fun st hst => ?_, hstatv.mpr fun statv hstatv => ?_⟩
  · obtain rfl := Except.ok.inj ((reported_eq 8).symm.trans hst)
    constructor <;> decide
  · obtain rfl : (volumeOf 8).os.statvfs = statv := Except.ok.inj hstatv
    constructor <;> decide

/-- A file of 2 TiB, and a volume of 16 TiB: the client is told that they take no blocks. -/
theorem blocks_vanish : ¬ ∀ (x : Xdr) (c : Course) (s u : Station (Host × ℕ)) (m : Mount)
    (unset : Unset) (path : CStr),
    (initializeOnce m unset).run (c.network.over x).machine s = .ok ((), u) →
    HandsOver (c.network.over x) s (bbGetattr m unset path) Caller.stat
        ((c.found u.world).lstat (translateAbspath path)) ∧
      HandsOver (c.network.over x) s (bbStatfs m unset path) Caller.statv
        (statvfsAt (c.found s.world) (translateAbspath path)) := by
  intro hall
  obtain ⟨hstat, -⟩ := hall ⟨.sign, .zero⟩ (.quiet fun _ => maxSize) (atVolume (2 ^ 32))
    (atVolume (2 ^ 32)) ⟨[], []⟩ .zero "/f".toList rfl
  have hkept := (stat_kept_iff _ _).mp
    ((@getattr_handsOver _ _ (atVolume (2 ^ 32)) _ _ _ _ rfl).mp hstat _ (reported_eq (2 ^ 32)))
  exact absurd hkept.st_blocks (by decide)

end Client

end DFS
