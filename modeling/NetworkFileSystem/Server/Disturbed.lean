import NetworkFileSystem.Posix.Faults
import NetworkFileSystem.Server.Dispatch

/-!
# A server whose system calls may fail

A request arrives with a list that says, for each system call of its handler in turn, whether it is
disturbed and how.  Calls beyond the end of the list are not disturbed, so with an empty list this
is the server of `serve` (**`serveUnder_nil`**).
-/

namespace DFS

open Effects Posix

/-- What happens to the system calls of one request, in their order. -/
abbrev Faults := List (Option Fault)

/-- The machine of a server under disturbances. -/
def disturbed (peer : Peer) : Machine Call (Host × Faults) Halt where
  step
    | .os c, (h, faults) =>
      (OS.execUnder faults.head?.join c h.os).map fun r => (r.1, { h with os := r.2 }, faults.tail)
    | .rpc c, (h, faults) => .ok ((h.rpc peer c).1, (h.rpc peer c).2, faults)

/-- A server answers a request while its system calls are disturbed. -/
def serveUnder (faults : Faults) (a : Arrival) (h : Host) : Except Halt (Reply × Host) :=
  ((compute6 a.stale a.request).run (disturbed a.peer) (h, faults)).map fun r => (r.1, r.2.1)

/-- A request and what happens to the system calls of its handler. -/
structure Disturbance where
  arrival : Arrival
  faults : Faults

/-- A step of the server under disturbances. -/
def answer (d : Disturbance) (h : Host) : Except Halt (Reply × Host) :=
  serveUnder d.faults d.arrival h

/-- Without disturbances nothing is different. -/
theorem serveUnder_nil (a : Arrival) (h : Host) : serveUnder [] a h = serve a h := by
  have hrun := Prog.run_embed (m := server a.peer) (n := disturbed a.peer)
    (g := fun h : Host => (h, ([] : Faults)))
    (fun c s => by
      cases c with
      | os c =>
          simp only [disturbed, server]
          cases hc : OS.exec c s.os with
          | ok r => simp [OS.execUnder, hc, Except.map]
          | error w => simp [OS.execUnder, hc, Except.map]
      | rpc c => cases c <;> rfl)
    (compute6 a.stale a.request) h
  unfold serveUnder serve
  rw [hrun]
  cases (compute6 a.stale a.request).run (server a.peer) h <;> rfl

end DFS
