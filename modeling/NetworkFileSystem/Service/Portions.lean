import NetworkFileSystem.Security.Content
import NetworkFileSystem.Service.Locking

/-!
# Transfers that are cut short (`bb_read_6_svc`, `bb_write_6_svc`)

One request on an open regular file whose lock is free, while `pread` or `pwrite` moves only a part
of what it was asked to.  The lock that the handler takes is given back before the reply, so the
requests of several clients follow each other one at a time.
-/

namespace Posix

theorem Descriptors.setFile_setFile (t : Descriptors) (fd : Int) (f g : OpenFile → OpenFile) :
    (t.setFile fd f).setFile fd g = t.setFile fd fun e => g (f e) := by
  ext1
  simp only [setFile, List.map_map]
  refine List.map_congr_left fun e he => ?_
  by_cases h : (e.1 : Int) = fd <;> simp [h]

namespace OS

variable {os : OS} {fd k : Int} {f : OpenFile} {i : Ino} {mode : LockMode}

/-- A descriptor with its lock given up. -/
def released (os : OS) (fd : Int) : OS :=
  { os with fds := os.fds.setFile fd fun f => { f with lock := none } }

/-- The content of a file replaced. -/
def rewritten (os : OS) (i : Ino) (d : List UInt8) : OS :=
  { os with fs := os.fs.modify i (Inode.setData d) }

/-- Fewer locks, fewer conflicts. -/
theorem conflict_released (h : os.conflict fd i mode = false) :
    (os.released k).conflict fd i mode = false := by
  unfold conflict released Descriptors.setFile at *
  rw [List.any_eq_false] at h ⊢
  intro e he
  obtain ⟨e', he', rfl⟩ := List.mem_map.mp he
  have hold := h e' he'
  by_cases hk : (e'.1 : Int) = k <;> simp_all

theorem flock_granted {op : LockOp} (hf : os.fds.file fd = some f) (hp : f.pathOnly = false)
    (hi : f.ino = some i) (hmode : lockMode op = some mode)
    (hfree : os.conflict fd i mode = false) :
    os.flock fd op = .ok (0, { os with
      fds := os.fds.setFile fd fun f => { f with lock := some mode } }) := by
  unfold flock
  simp [hf, hp, hi, hmode, hfree]

end OS

end Posix

namespace DFS

open Effects Posix Prog

/-- The descriptor stands for the regular file `i` with the content `d`, is open in some way, and
the lock that a request wants is free. -/
structure HasOpen (right : OpenFile → Prop) (mode : LockMode) (fd : Int) (i : Ino)
    (d : List UInt8) (os : OS) : Prop where
  file : ∃ f, os.fds.file fd = some f ∧ f.pathOnly = false ∧ f.ino = some i ∧ right f
  content_eq : content os.fs i = some d
  free : os.conflict fd i mode = false

/-- Open for reading. -/
abbrev ReadsFrom : Int → Ino → List UInt8 → OS → Prop := HasOpen (fun f => f.readable = true) .sh

/-- Open for writing, with `O_APPEND` or without. -/
abbrev WritesAs (append : Bool) : Int → Ino → List UInt8 → OS → Prop :=
  HasOpen (fun f => f.writable = true ∧ f.append = append) .ex

/-- Open for writing at an offset.  A writer that opened the file with `O_APPEND` is left out: what
it writes lands at the end, whatever offset its messages name. -/
abbrev WritesTo : Int → Ino → List UInt8 → OS → Prop := WritesAs false

/-- Where `pwrite` puts the bytes: with `O_APPEND` at the end, and else at the offset. -/
def landing (append : Bool) (d : List UInt8) (offset : ℕ) : ℕ :=
  if append then d.length else offset

/-- What happens to the calls of a read or a write that moves `n` bytes at most. -/
def cutShort (n : ℕ) : Faults := [none, some (.short n)]

section

variable {right : OpenFile → Prop} {mode : LockMode} {append : Bool} {fd k : Int} {i : Ino}
  {d : List UInt8} {os : OS} {peer : Peer} {h : Host} {f : Faults}

/-- Giving up a lock takes nothing away. -/
theorem HasOpen.released (h : HasOpen right mode fd i d os)
    (hright : ∀ f : OpenFile, right f → right { f with lock := none }) (k : Int) :
    HasOpen right mode fd i d (os.released k) where
  file := by
    obtain ⟨f, hf, hp, hi, hr⟩ := h.file
    by_cases hk : fd = k
    · refine ⟨{ f with lock := none }, ?_, hp, hi, hright f hr⟩
      simp [OS.released, Descriptors.file_setFile, ← hk, hf]
    · refine ⟨f, ?_, hp, hi, hr⟩
      simp [OS.released, Descriptors.file_setFile, hk, hf]
  content_eq := h.content_eq
  free := OS.conflict_released h.free

/-- Another content of the same file. -/
theorem HasOpen.rewritten (h : HasOpen right mode fd i d os) (d' : List UInt8) :
    HasOpen right mode fd i d' (os.rewritten i d') where
  file := h.file
  content_eq := (content_setData h.content_eq).trans (if_pos rfl)
  free := h.free

theorem ReadsFrom.released (h : ReadsFrom fd i d os) (k : Int) : ReadsFrom fd i d (os.released k) :=
  HasOpen.released h (fun _ hr => hr) k

theorem WritesAs.released (h : WritesAs append fd i d os) (k : Int) :
    WritesAs append fd i d (os.released k) :=
  HasOpen.released h (fun _ hr => hr) k

/-- What comes after a call that returns while it is disturbed. -/
theorem run_sysUnder_bind {α β : Type} {c : Sys β} {k : β → Server α} {r : β × OS}
    (hr : OS.execUnder f.head?.join c h.os = .ok r) :
    (sys c >>= k).run (disturbed peer) (h, f) =
      (k r.1).run (disturbed peer) ({ h with os := r.2 }, f.tail) := by
  rw [run_bind]
  unfold sys
  rw [run_perform]
  simp only [disturbed, hr, Except.map, Except.bind]

/-- The bytes that a read moves. -/
def piece (d : List UInt8) (offset size n : ℕ) : List UInt8 :=
  (d.drop offset).take (min (min size n) maxRwCount)

/-- **One read** returns what it has moved, and gives up the lock. -/
theorem serve_read_short {stale : Stale} {arg : ReadArg} {n : ℕ}
    (hopen : ReadsFrom arg.fd i d h.os) :
    serveUnder (cutShort n) ⟨.read arg, stale, peer⟩ h =
      .ok (.read ⟨(Opaque.ofBytes (piece d arg.offset.toNat arg.size.toNat n)).bytes,
        (piece d arg.offset.toNat arg.size.toNat n).length, 0⟩,
        { h with os := h.os.released arg.fd }) := by
  obtain ⟨f, hf, hp, hi, hread⟩ := hopen.file
  obtain ⟨m, hm, hbody⟩ := content_eq_some.mp hopen.content_eq
  let locked : OS := { h.os with
    fds := h.os.fds.setFile arg.fd fun f => { f with lock := some .sh } }
  have hlock : h.os.flock arg.fd .sh = .ok (0, locked) := OS.flock_granted hf hp hi rfl hopen.free
  have hlocked : locked.fds.file arg.fd = some { f with lock := some .sh } := by
    simp [locked, Descriptors.file_setFile, hf]
  have hpread : locked.pread arg.fd (min arg.size.toNat n) arg.offset.toNat =
      .ok (piece d arg.offset.toNat arg.size.toNat n) :=
    OS.pread_eq_ok.mpr ⟨_, i, m, d, hlocked, hread, hi, hm, hbody, rfl⟩
  have hunlock : locked.flock arg.fd .un = .ok (0, h.os.released arg.fd) := by
    rw [OS.flock_un _ hlocked hp]
    simp only [locked, Descriptors.setFile_setFile, OS.released]
  have hrun : (bbRead6Svc arg stale.read).run (disturbed peer) (h, cutShort n) =
      .ok (⟨(Opaque.ofBytes (piece d arg.offset.toNat arg.size.toNat n)).bytes,
        (piece d arg.offset.toNat arg.size.toNat n).length, 0⟩,
        ({ h with os := h.os.released arg.fd }, [])) := by
    have hlock' : OS.execUnder (cutShort n).head?.join (.flock arg.fd .sh) h.os = .ok (0, locked) :=
      hlock
    have hpread' : OS.execUnder (cutShort n).tail.head?.join
        (.pread arg.fd arg.size.toNat arg.offset.toNat) locked =
        .ok (some (piece d arg.offset.toNat arg.size.toNat n), locked) := by
      simp [OS.execUnder, cutShort, Sys.limited, OS.exec, hpread, OS.tryGet]
    have hunlock' : OS.execUnder (cutShort n).tail.tail.head?.join (.flock arg.fd .un) locked =
        .ok (0, h.os.released arg.fd) := hunlock
    unfold bbRead6Svc
    rw [run_sysUnder_bind hlock', run_sysUnder_bind hpread', run_sysUnder_bind hunlock']
    rfl
  show ((Reply.read <$> bbRead6Svc arg stale.read).run _ _).map _ = _
  rw [← bind_pure_comp, run_bind, hrun]
  rfl

/-- The bytes that a write moves: those of the message buffer, and what lies behind it. -/
def portion (os : OS) (arg : WriteArg) (n : ℕ) : List UInt8 :=
  (arg.buffer.bytes ++ os.beyond).take (min (min arg.size.toNat n) maxRwCount)

/-- **One write** through a descriptor puts what it moves where it lands, and gives up the lock. -/
theorem serve_write_short {stale : Stale} {arg : WriteArg} {n : ℕ} (hrole : ¬ arg.byPath)
    (hopen : WritesAs append arg.fd i d h.os) : ∃ sent,
    serveUnder (cutShort n) ⟨.write arg, stale, peer⟩ h =
      .ok (.write ⟨(portion h.os arg n).length, 0⟩,
        ⟨(h.os.rewritten i (splice d (landing append d arg.offset.toNat)
          (portion h.os arg n))).released arg.fd, sent⟩) := by
  obtain ⟨f, hf, hp, hi, hwrite, happend⟩ := hopen.file
  obtain ⟨m, hm, hbody⟩ := content_eq_some.mp hopen.content_eq
  let locked : OS := { h.os with
    fds := h.os.fds.setFile arg.fd fun f => { f with lock := some .ex } }
  let fs := h.os.fs.modify i (Inode.setData
    (splice d (landing append d arg.offset.toNat) (portion h.os arg n)))
  have hlock : h.os.flock arg.fd .ex = .ok (0, locked) := OS.flock_granted hf hp hi rfl hopen.free
  have hlocked : locked.fds.file arg.fd = some { f with lock := some .ex } := by
    simp [locked, Descriptors.file_setFile, hf]
  have hpwrite : locked.pwrite arg.fd (portion h.os arg n) arg.offset.toNat = .ok fs := by
    refine OS.pwrite_eq_ok.mpr ⟨_, i, m, d, hlocked, hwrite, hi, hm, hbody, ?_⟩
    subst happend
    rfl
  let written : OS := { locked with fs := fs }
  have hwritten : written.fds.file arg.fd = some { f with lock := some .ex } := hlocked
  have hunlock : written.flock arg.fd .un =
      .ok (0, ({ h.os with fs := fs } : OS).released arg.fd) := by
    rw [OS.flock_un _ hwritten hp]
    simp only [written, locked, Descriptors.setFile_setFile, OS.released]
  have htransmit : (transmitToSecondaty arg.serverInfo fun info =>
      .write { arg with serverInfo := info }).wp (disturbed peer)
      (fun _ t => t.1.os = h.os ∧ t.2 = cutShort n) (fun _ => False) (h, cutShort n) :=
    wp_transmitUnder fun h' hos => ⟨hos, rfl⟩
  obtain ⟨_, ⟨⟨os, sent⟩, f'⟩, hsent, hos, hf'⟩ := htransmit.returns
  obtain rfl : os = h.os := hos
  obtain rfl : f' = cutShort n := hf'
  refine ⟨sent, ?_⟩
  have hlock' : OS.execUnder (cutShort n).head?.join (.flock arg.fd .ex) h.os = .ok (0, locked) :=
    hlock
  have hpwrite' : OS.execUnder (cutShort n).tail.head?.join
      (.pwrite arg.fd arg.buffer.bytes arg.size.toNat arg.offset.toNat) locked =
      .ok (((portion h.os arg n).length : ℕ), written) := by
    have hbytes : (arg.buffer.bytes ++ locked.beyond).take (min (min arg.size.toNat n) maxRwCount) =
      portion h.os arg n := rfl
    simp only [OS.execUnder, cutShort, Sys.limited, OS.exec, List.tail_cons, List.head?_cons,
      Option.join_some, hbytes, hpwrite]
    rfl
  have hunlock' : OS.execUnder (cutShort n).tail.tail.head?.join (.flock arg.fd .un) written =
      .ok (0, ({ h.os with fs := fs } : OS).released arg.fd) := hunlock
  have hrun : (bbWrite6Svc arg stale.write).run (disturbed peer) (h, cutShort n) =
      .ok (⟨(portion h.os arg n).length, 0⟩,
        (⟨({ h.os with fs := fs } : OS).released arg.fd, sent⟩, [])) := by
    unfold bbWrite6Svc
    rw [run_bind, hsent]
    unfold WriteArg.byPath at hrole
    simp only [Except.bind, hrole, if_false, pure_bind]
    refine (run_sysUnder_bind (h := ⟨h.os, sent⟩) hlock').trans ?_
    refine (run_sysUnder_bind (h := ⟨locked, sent⟩) hpwrite').trans ?_
    refine (run_sysUnder_bind (h := ⟨written, sent⟩) hunlock').trans ?_
    rw [if_neg (by omega)]
    rfl
  show ((Reply.write <$> bbWrite6Svc arg stale.write).run _ _).map _ = _
  rw [← bind_pure_comp, run_bind, hrun]
  rfl

end

end DFS
