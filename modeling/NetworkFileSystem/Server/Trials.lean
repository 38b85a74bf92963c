import NetworkFileSystem.Effects.Issues
import NetworkFileSystem.Posix.Trials
import NetworkFileSystem.Server.Disturbed

/-!
# A server whose calls are observed

The server of `Server.Disturbed` with every call at risk, and with a note of each system call.
With no disturbance it is the machine of `serve` (**`run_attempting_nil`**).
-/

namespace DFS

open Effects Posix

/-- The machine of a server where every system call has an outcome of its own. -/
def attempting (peer : Peer) : Machine Call (Host × Faults) Halt where
  step
    | .os c, (h, faults) =>
      (OS.attempt faults.head?.join c h.os).map fun r => (r.1, { h with os := r.2 }, faults.tail)
    | .rpc c, (h, faults) => .ok ((h.rpc peer c).1, (h.rpc peer c).2, faults)

/-- The note of a call. -/
def noted {β : Type} : Call β → Host × Faults → β × Host × Faults → List Trial
  | .os c, s, r => [c.trial s.1.os (r.1, r.2.1.os)]
  | .rpc _, _, _ => []

/-- The same machine, observed. -/
abbrev trying (peer : Peer) : Machine Call ((Host × Faults) × List Trial) Halt :=
  (attempting peer).observe noted

/-- A server answers a request; the trials are those of this request. -/
def serveTrying (faults : Faults) (a : Arrival) (h : Host) :
    Except Halt (Reply × (Host × Faults) × List Trial) :=
  (compute6 a.stale a.request).run (trying a.peer) ((h, faults), [])

section

variable {α : Type} {peer : Peer} {p : Server α} {h : Host}

/-- Without disturbances the machine is that of `serve`. -/
theorem run_attempting_nil : p.run (attempting peer) (h, []) =
    (p.run (server peer) h).map fun r => (r.1, r.2, []) :=
  Prog.run_embed (m := server peer) (n := attempting peer) (g := fun h : Host => (h, ([] : Faults)))
    (fun c s => by
      cases c with
      | os c =>
          simp only [attempting, server]
          cases hc : OS.exec c s.os with
          | ok r => simp [OS.attempt, hc, Except.map]
          | error w => simp [OS.attempt, hc, Except.map]
      | rpc c => cases c <;> rfl)
    p h

/-- An undisturbed run that returns is one of the server alone. -/
theorem run_of_trying_nil {l : List Trial} {a : α} {w : (Host × Faults) × List Trial}
    (hr : p.run (trying peer) ((h, []), l) = .ok (a, w)) :
    p.run (server peer) h = .ok (a, w.1.1) ∧ w.1.2 = [] := by
  have hobs := Prog.run_observe (attempting peer) noted p (h, []) l
  rw [hr, run_attempting_nil] at hobs
  cases hs : p.run (server peer) h with
  | error e =>
      rw [hs] at hobs
      cases hobs
  | ok r =>
      rw [hs] at hobs
      obtain ⟨rfl, hw⟩ := Prod.mk.inj (Except.ok.inj hobs)
      rw [hw]
      exact ⟨rfl, rfl⟩

end

end DFS
