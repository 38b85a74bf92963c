import NetworkFileSystem.Server.Stderr
import NetworkFileSystem.Service.Extents
import NetworkFileSystem.Service.Listings
import NetworkFileSystem.Service.Paths

/-!
# What the handlers leave to their callers (`fuse_rpc_server.c`)

The buffers of the handlers have fixed sizes, and no handler compares anything with them; nor does
one ask whose a descriptor is.  `Request.InBounds` collects what a client has to keep to: with it
the handlers stay inside their buffers (**`Request.InBounds.safe`**) and the messages they print go
unheard.
-/

namespace DFS

open Effects Posix Prog

/-- The request asks for no more than the buffers of its handler hold, and it goes through none of
the descriptors that the process has for itself, its standard streams and its sockets. -/
structure Request.InBounds (os : OS) (r : Request) : Prop where
  paths : ∀ p ∈ r.translated, Buffer.Fits p
  read : ∀ argp, r = .read argp → argp.size.toNat ≤ maxSize
  write : ∀ argp, r = .write argp → argp.size.toNat ≤ maxSize
  listing : ∀ argp, r = .readdir argp → packedSize (os.readdir argp.fd).1 ≤ maxSize
  -- What a process has for itself has no inode.
  own : ∀ fd ∈ r.handle, ∀ f, os.fds.file fd = some f → f.ino ≠ none

namespace Request.InBounds

variable {os : OS} {r : Request}

/-- A request that goes by its paths only is within bounds when they fit. -/
theorem of_paths (hpaths : ∀ p ∈ r.translated, Buffer.Fits p) (hhandle : r.handle = none)
    (hwrite : ∀ argp, r ≠ .write argp) : r.InBounds os where
  paths := hpaths
  read argp hr := by
    subst hr
    cases hhandle
  write argp hr := absurd hr (hwrite argp)
  listing argp hr := by
    subst hr
    cases hhandle
  own fd hfd := by
    rw [hhandle] at hfd
    cases hfd

/-- It closes none of these descriptors either. -/
theorem leavesOwn (h : r.InBounds os) : r.LeavesOwn os := by
  rintro argp rfl
  exact h.own argp.fd rfl

/-- **Within bounds** paths stay inside their buffers, reads and writes inside the message, and a
listing inside its array. -/
theorem safe {h : Host} (hr : r.InBounds h.os) (stale : Stale) (peer : Peer) :
    PathsSafe stale peer h r ∧
    (∀ argp, r = .read argp → (compute6 stale r).Each (server peer) (fun c h => c.InMessage h) h) ∧
    (∀ argp, r = .write argp → (compute6 stale r).Each (server peer) (fun c h => c.InMessage h) h) ∧
    ∀ argp, r = .readdir argp → ∀ k, Writes (h.os.readdir argp.fd).1 k → k < maxSize := by
  refine ⟨fun p hp => ?_, ?_, ?_, fun argp hreq k hk => ?_⟩
  · exact ⟨.inl (wellTranslated_iff.mpr (hr.paths p hp).short), wellSplit p⟩
  · rintro argp rfl
    exact (read_inMessage_iff stale argp).mpr (.inl (hr.read argp rfl))
  · rintro argp rfl
    exact (write_inMessage_iff stale argp).mpr (.inl (hr.write argp rfl))
  · have hfits := hr.listing argp hreq
    exact lt_of_writes (by omega) hk

end Request.InBounds

end DFS
