import NetworkFileSystem.Server.Trials
import NetworkFileSystem.Service.Frames

/-!
# Rules for observed calls

What one call of an observed server can do: it fails and changes nothing but `errno`, or it takes
its course; either way one trial is noted.  A program that leaves the tree alone whatever its
calls answer notes the same tree for each of them (**`wp_watched`**).
-/

namespace Posix

variable {β : Type} {fault : Option Fault} {os : OS}

theorem Sys.keepsTree_limited (n : ℕ) (c : Sys β) : (c.limited n).keepsTree = c.keepsTree := by
  cases c <;> rfl

theorem OS.attempt_keepsTree {c : Sys β} (hc : c.keepsTree = true) {r : β × OS}
    (h : OS.attempt fault c os = .ok r) : r.2.fs = os.fs := by
  cases fault with
  | none => exact (OS.exec_keepsTree hc h).1
  | some fault =>
      cases fault with
      | short n => exact (OS.exec_keepsTree ((Sys.keepsTree_limited n c).trans hc) h).1
      | fail e he =>
          simp only [OS.attempt] at h
          cases hf : c.failure with
          | none =>
              rw [hf] at h
              exact (OS.exec_keepsTree hc h).1
          | some b =>
              rw [hf] at h
              cases h
              rfl

/-- The calls that answer `0` or `-1`. -/
def Sys.status : Sys β → Bool
  | .access _ _ | .mkdir _ _ | .rmdir _ | .unlink _ | .rename _ _ | .link _ _ | .symlink _ _
  | .mkfifo _ _ | .mknod _ _ _ | .truncate _ _ | .utime _ _ _ | .chmod _ _ | .chown _ _ _
  | .lchown _ _ _ | .flock _ _ | .close _ | .closedir _ => true
  | _ => false

/-- The answer of a call that answers a number. -/
def Sys.number : Sys β → β → Option Int
  | .access _ _, b | .mkdir _ _, b | .rmdir _, b | .unlink _, b | .rename _ _, b | .link _ _, b
  | .symlink _ _, b | .mkfifo _ _, b | .mknod _ _ _, b | .truncate _ _, b | .utime _ _ _, b
  | .chmod _ _, b | .chown _ _ _, b | .lchown _ _ _, b | .openPath _ _ _, b | .pwrite _ _ _ _, b
  | .flock _ _, b | .close _, b | .closedir _, b => some b
  | _, _ => none

/-- What a call that answers a number can do: fail and change nothing but `errno`, or succeed and
leave `errno` alone. -/
inductive Answered (os : OS) (status : Bool) (v : Int) (os' : OS) : Prop
  | fails (e : Errno) (hv : v = -1) (hos : os' = os.fail e)
  | succeeds (hpos : 0 ≤ v) (hzero : status = true → v = 0) (herrno : os'.errno = os.errno)

theorem answered_tryFS {b : Bool} (x : Except Errno FS) :
    Answered os b (os.tryFS x).1 (os.tryFS x).2 := by
  cases x with
  | ok fs => exact .succeeds (Int.le_refl 0) (fun _ => rfl) rfl
  | error e => exact .fails e rfl rfl

theorem answered_close {b : Bool} (fd : Int) : Answered os b (os.close fd).1 (os.close fd).2 := by
  unfold OS.close
  cases os.fds.file fd with
  | none => exact .fails EBADF rfl rfl
  | some f => exact .succeeds (Int.le_refl 0) (fun _ => rfl) rfl

theorem answered_flock {b : Bool} {fd : Int} {op : LockOp} {r : Int × OS}
    (h : os.flock fd op = .ok r) : Answered os b r.1 r.2 := by
  unfold OS.flock at h
  repeat' split at h
  all_goals cases h
  all_goals first
    | exact .fails EBADF rfl rfl
    | exact .succeeds (Int.le_refl 0) (fun _ => rfl) rfl

theorem OS.exec_answered {c : Sys β} {r : β × OS} {v : Int} (hv : c.number r.1 = some v)
    (h : OS.exec c os = .ok r) : Answered os c.status v r.2 := by
  cases c <;> simp only [Sys.number, reduceCtorEq, Option.some.injEq] at hv <;> subst hv
  case flock fd op => exact answered_flock h
  case close fd =>
    cases h
    exact answered_close fd
  case closedir dp =>
    cases h
    exact answered_close dp.fd
  case openPath p flags mode =>
    rcases os.openFile_cases p flags mode with ⟨e, -, ho, -⟩ | ⟨i, fs, -, ho⟩ | ho
    · cases ho.symm.trans h
      exact .fails e rfl rfl
    · cases ho.symm.trans h
      exact .succeeds (Int.natCast_nonneg _) (fun hs => by cases hs) rfl
    · cases ho.symm.trans h
  case pwrite fd buf size offset =>
    simp only [OS.exec] at h
    cases hw : os.pwrite fd ((buf ++ os.beyond).take (min size maxRwCount)) offset with
    | ok fs =>
        rw [hw] at h
        cases h
        exact .succeeds (Int.natCast_nonneg _) (fun hs => by cases hs) rfl
    | error e =>
        rw [hw] at h
        cases h
        exact .fails e rfl rfl
  all_goals
    cases h
    exact answered_tryFS _

theorem Sys.status_limited (n : ℕ) (c : Sys β) : (c.limited n).status = c.status := by
  cases c <;> rfl

theorem Sys.number_limited (n : ℕ) (c : Sys β) : (c.limited n).number = c.number := by
  cases c <;> rfl

/-- What a call that answers a number can do under every outcome. -/
theorem OS.attempt_answered {c : Sys β} {r : β × OS} {v : Int} (hv : c.number r.1 = some v)
    (h : OS.attempt fault c os = .ok r) : Answered os c.status v r.2 := by
  cases fault with
  | none => exact OS.exec_answered hv h
  | some fault =>
      cases fault with
      | short n =>
          rw [← Sys.status_limited n]
          exact OS.exec_answered (by rw [Sys.number_limited, hv]) h
      | fail e he =>
          simp only [OS.attempt] at h
          cases hf : c.failure with
          | none =>
              rw [hf] at h
              exact OS.exec_answered hv h
          | some b =>
              rw [hf] at h
              cases h
              refine .fails e ?_ rfl
              cases c <;> simp only [Sys.number, reduceCtorEq, Option.some.injEq] at hv <;>
                exact hv.symm.trans (Option.some.inj hf).symm

theorem Sys.failed_number {c : Sys β} {b : β} {v : Int} (hv : c.number b = some v) :
    c.failed b = decide (v = -1) := by
  cases c <;> simp only [Sys.number, reduceCtorEq, Option.some.injEq] at hv <;> subst hv <;> rfl

/-- A directory stream that was opened has a descriptor. -/
theorem OS.attempt_opendir {p : CStr} {dir : DIR} {os' : OS}
    (h : OS.attempt fault (.opendir p) os = .ok (some dir, os')) : 0 ≤ dir.fd := by
  have hexec : ∀ {r : Option DIR × OS}, OS.exec (.opendir p) os = .ok r → r.1 = some dir →
      0 ≤ dir.fd := by
    intro r hr hdir
    cases hr
    unfold OS.opendir at hdir
    split at hdir
    · cases hdir
    · cases hdir
      exact Int.natCast_nonneg _
  cases fault with
  | none => exact hexec h rfl
  | some fault =>
      cases fault with
      | short n => exact hexec h rfl
      | fail e he => cases h

end Posix

namespace DFS

open Effects Posix Prog

/-- An observed server. -/
abbrev Observed := (Host × Faults) × List Trial

/-- The tree of an observed server. -/
abbrev treeOf (s : Observed) : FS := s.1.1.os.fs

variable {α β : Type} {peer : Peer} {s : Observed}

/-- The server after a call. -/
def noting (s : Observed) (c : Sys β) (r : β × OS) : Observed :=
  (({ s.1.1 with os := r.2 }, s.1.2.tail), s.2 ++ [c.trial s.1.1.os r])

theorem wp_try {c : Sys β} {Q : β → Observed → Prop} {H : Halt → Prop} :
    (sys c).wp (trying peer) Q H s ↔ match OS.attempt s.1.2.head?.join c s.1.1.os with
      | .ok r => Q r.1 (noting s c r)
      | .error w => H w := by
  unfold sys
  rw [wp_perform]
  simp only [trying, Machine.observe, attempting, noted, noting]
  cases OS.attempt s.1.2.head?.join c s.1.1.os <;> rfl

/-- Nothing is asked of a run that never returns. -/
abbrev AnyHalt : Halt → Prop := fun _ => True

theorem wp_try_any {c : Sys β} {Q : β → Observed → Prop}
    (h : ∀ r, OS.attempt s.1.2.head?.join c s.1.1.os = .ok r → Q r.1 (noting s c r)) :
    (sys c).wp (trying peer) Q AnyHalt s := by
  rw [wp_try]
  cases ha : OS.attempt s.1.2.head?.join c s.1.1.os with
  | ok r => exact h r ha
  | error w => trivial

/-- The tree is as it was, and every call that was made found it so. -/
def Watched (s t : Observed) : Prop :=
  treeOf t = treeOf s ∧ ∃ l, t.2 = s.2 ++ l ∧ ∀ x ∈ l, x.tree = treeOf s

/-- **A part of a handler that leaves the tree alone.** -/
theorem wp_watched {p : Server α} (hp : p.Calls (Call.Is Sys.keepsTree)) :
    p.wp (trying peer) (fun _ t => Watched s t) AnyHalt s := by
  refine Calls.wp (m := trying peer) (R := Watched) ?_ ?_ ?_ hp s
  · intro s
    exact ⟨rfl, [], (List.append_nil _).symm, fun x hx => nomatch hx⟩
  · rintro a b c ⟨hfs, l, hl, htree⟩ ⟨hfs', l', hl', htree'⟩
    refine ⟨hfs'.trans hfs, l ++ l', by rw [hl', hl, List.append_assoc], fun x hx => ?_⟩
    rcases List.mem_append.mp hx with hx | hx
    · exact htree x hx
    · exact (htree' x hx).trans hfs
  · intro γ e he s
    cases e with
    | rpc c => cases c <;> exact ⟨rfl, [], rfl, fun x hx => nomatch hx⟩
    | os c =>
        simp only [trying, Machine.observe, attempting, noted]
        cases ha : OS.attempt s.1.2.head?.join c s.1.1.os with
        | error w => trivial
        | ok r =>
            refine ⟨OS.attempt_keepsTree he ha, _, rfl, fun x hx => ?_⟩
            rw [List.mem_singleton.mp hx]
            rfl

end DFS
