import NetworkFileSystem.Concurrency.Crowd

/-!
# Handlers side by side and one after the other

A handler takes effect with the call that changes a name.  The owner that it gives afterwards is
counted as given already (`Crowd.settled`), so that nothing is left to be seen of the later calls:
they unlock directories and make good what is owed (**`turn_seen`**).

**`serialisable_of_orderly`** — in a run whose steps are all orderly the replies and the tree are
those of the handlers run one after the other, in the order in which they took effect.

The locks keep two handlers from holding one directory at the same time (**`exclusive_turns`**), so
that runs in which both are between their lock and their unlock do not exist.  They do not make the
steps orderly: permissions are read before a lock is taken and owners are changed after it is given
up.  `Orderly` asks for what a handler has read to hold still, whatever the reason for it, and the
proof rests on that alone.
-/

namespace DFS

open Effects Posix Prog Relation Concurrency

/-! ## Locks -/

section

variable {ι : Type} [DecidableEq ι] {job : ι → Job} {c c' : Crowd ι}

/-- No directory is locked by two handlers. -/
def Crowd.Exclusive (c : Crowd ι) : Prop := ∀ i j d, (c.worker i).host.os.fds.locks d = true →
  (c.worker j).host.os.fds.locks d = true → i = j

/-- A turn takes a lock only when no other handler has it. -/
theorem exclusive_turn {i : ι} (h : c.Exclusive) (hturn : Turn job i c c') : c'.Exclusive := by
  cases hturn with
  | @reply r hprog hstage =>
      have hsame : ∀ j, (Function.update c.worker i ⟨.ret r, (c.worker i).host, .done r⟩ j).host =
          (c.worker j).host := by
        intro j
        by_cases hj : j = i
        · subst hj
          rw [Function.update_self]
        · rw [Function.update_of_ne hj]
      intro j k d
      rw [hsame, hsame]
      exact h j k d
  | @call _ e k b h' hprog hstep hfree =>
      -- What the handler newly locks is locked by no other.
      have hnew : ∀ j d, j ≠ i → h'.os.fds.locks d = true →
          (c.worker j).host.os.fds.locks d = true → False := by
        intro j d hj hd hlock
        rcases hfree d hd with hold | hno
        · exact hj (h j i d hlock hold)
        · cases hlock.symm.trans (hno j hj)
      intro j k d
      by_cases hj : j = i <;> by_cases hk : k = i
      · exact fun _ _ => hj.trans hk.symm
      · subst hj
        simp only [Function.update_self, Function.update_of_ne hk]
        exact fun hd hlock => (hnew k d hk hd hlock).elim
      · subst hk
        simp only [Function.update_self, Function.update_of_ne hj]
        exact fun hlock hd => (hnew j d hj hd hlock).elim
      · simp only [Function.update_of_ne hj, Function.update_of_ne hk]
        exact h j k d

/-- **What the locks contribute**: at no time do two handlers hold the lock of one directory. -/
theorem exclusive_turns (h : c.Exclusive)
    (hrun : ReflTransGen (fun c c' => ∃ i, Turn job i c c') c c') : c'.Exclusive := by
  induction hrun with
  | refl => exact h
  | tail _ hturn ih =>
      obtain ⟨i, hturn⟩ := hturn
      exact exclusive_turn ih hturn

end

/-! ## The end of a handler -/

section

variable {peer : Peer} {r : Request} {h h' : Host} {β : Type}

/-- The calls at the end of a handler return and leave the tree alone. -/
theorem exec_ends {c : Sys β} (hc : c.ends = true) (os : OS) :
    ∃ b os', OS.exec c os = .ok (b, os') ∧ os'.fs = os.fs := by
  have hreturns : ∃ x, OS.exec c os = .ok x := by
    cases c <;> simp only [Sys.ends, Bool.false_eq_true] at hc
    case close fd => exact ⟨_, rfl⟩
    case flock fd op =>
      cases op <;> simp only [Bool.false_eq_true] at hc
      simp only [OS.exec, OS.flock, OS.lockMode]
      repeat' split
      all_goals first
        | exact ⟨_, rfl⟩
        | simp_all
  have hkeeps : c.keepsTree = true := by
    cases c <;> first | rfl | cases hc
  obtain ⟨⟨b, os'⟩, hx⟩ := hreturns
  exact ⟨b, os', hx, (OS.exec_keepsTree hkeeps hx).1⟩

/-- No call changes the `umask`. -/
theorem step_umask {e : Call β} {b : β} (hstep : (server peer).step e h = .ok (b, h')) :
    h'.os.umask = h.os.umask := by
  cases e with
  | rpc c =>
      cases c <;> cases hstep <;> rfl
  | os c =>
      obtain ⟨os, hos, rfl⟩ := step_os.mp hstep
      exact exec_umask hos

/-- Looking changes nothing in the tree. -/
theorem step_looks {e : Call β} {b : β} (he : e.Is Sys.looks)
    (hstep : (server peer).step e h = .ok (b, h')) : h'.os.fs = h.os.fs := by
  cases e with
  | rpc c => cases c <;> cases hstep <;> rfl
  | os c =>
      obtain ⟨os, hos, rfl⟩ := step_os.mp hstep
      have hkeeps : c.keepsTree = true := by
        cases c <;> first | rfl | cases he
      exact (OS.exec_keepsTree hkeeps hos).1

/-- The calls at the end leave the tree alone. -/
theorem step_ends {e : Call β} {b : β} (he : e.Does Sys.ends)
    (hstep : (server peer).step e h = .ok (b, h')) : h'.os.fs = h.os.fs := by
  cases e with
  | rpc c => exact he.elim
  | os c =>
      obtain ⟨os, hos, rfl⟩ := step_os.mp hstep
      obtain ⟨b', os', hos', hfs⟩ := exec_ends he h.os
      cases hos'.symm.trans hos
      exact hfs

/-- A handler that stays where it is owes what it owed. -/
theorem owes_self (u : UInt32) (st : Stage) (owed : Ino → Option UInt32) :
    st.owes u st owed = owed := by
  cases st <;> rfl

/-- A handler that looks owes nothing. -/
theorem owes_looking {u : UInt32} {st : Stage} {owed : Ino → Option UInt32}
    (hst : ∀ i, st ≠ .owing i) : Stage.looking.owes u st owed = owed := by
  cases st with
  | owing i => exact absurd rfl (hst i)
  | looking | done reply => rfl

/-- The tree when a handler has given what it still owes. -/
def Stage.settle (u : UInt32) : Stage → FS → FS
  | .owing i, fs => fs.modify i (Inode.setOwner u u)
  | _, fs => fs

/-- Giving an inode that is found. -/
theorem exec_gives {c : Sys β} {p : CStr} {u : UInt32} {i : Ino} {os : OS}
    (hc : c.gives p u = true) (hfound : os.fs.resolve p = .ok i) :
    ∃ b, OS.exec c os = .ok (b, { os with fs := os.fs.modify i (Inode.setOwner u u) }) ∧
      c.failed b = false ∧ c.chowns = true := by
  cases c <;> simp only [Sys.gives, Bool.false_eq_true] at hc
  case chown q uid gid =>
    obtain ⟨rfl, rfl, rfl⟩ : q = p ∧ uid = u ∧ gid = u := by simpa using hc
    refine ⟨0, ?_, rfl, rfl⟩
    simp only [OS.exec, FS.chown, hfound]
    rfl

/-- A call that makes an entry finds it again by its path. -/
theorem finds_of_resolve {c : Sys β} {p : CStr} {u : UInt32} {i : Ino} {fs : FS}
    (hc : c.gives p u = true) :
    (Call.os c).finds fs (.owing i) ↔ fs.resolve p = .ok i := by
  cases c <;> simp only [Sys.gives, Bool.false_eq_true] at hc
  case chown q uid gid =>
    obtain ⟨rfl, rfl, rfl⟩ : q = p ∧ uid = u ∧ gid = u := by simpa using hc
    exact Iff.rfl

/-- The calls at the end find what they found. -/
theorem finds_of_ends {c : Sys β} (hc : c.ends = true) (fs : FS) (st : Stage) :
    (Call.os c).finds fs st := by
  cases c <;> trivial

/-- **What remains of a handler** when it has made its change: run alone, it gives what it owes
and replies as it must. -/
theorem run_of_proper {q : Server Reply} {st : Stage}
    (hq : q.Sure (meets peer) (Proper r) Replies (h, st)) (hst : st ≠ .looking)
    (hfound : ∀ i, st = .owing i → h.os.fs.resolve r.place = .ok i) :
    ∃ a h', q.run (server peer) h = .ok (a, h') ∧ st.verdict = some a ∧
      h'.os.fs = st.settle r.owner h.os.fs := by
  induction q generalizing h st with
  | ret a =>
      obtain rfl : st = .done a := hq.resolve_left hst
      exact ⟨a, h, rfl, rfl, rfl⟩
  | call e k ih =>
      obtain ⟨hproper, hnext⟩ := hq
      -- The calls that only end something.
      have hends : e.Does Sys.ends → ∃ a h', (call e k).run (server peer) h = .ok (a, h') ∧
          st.verdict = some a ∧ h'.os.fs = st.settle r.owner h.os.fs := by
        intro he
        cases e with
        | rpc c => exact he.elim
        | os c =>
            obtain ⟨b, os, hos, hfs⟩ := exec_ends he h.os
            have hstep : (server peer).step (.os c) h = .ok (b, { h with os := os }) :=
              step_os.mpr ⟨os, hos, rfl⟩
            have hsure := hnext b ({ h with os := os }, st)
              ⟨h.os.fs, finds_of_ends he _ _, hstep, (after_ends he st hst _ b).symm⟩
            obtain ⟨a, h', hrun, hverdict, hh'⟩ := ih b hsure hst fun i hi => by
              rw [hfs]
              exact hfound i hi
            refine ⟨a, h', ?_, hverdict, by rw [hh', hfs]⟩
            rw [run_call, hstep]
            exact hrun
      cases st with
      | looking => exact absurd rfl hst
      | done reply => exact hends hproper
      | owing i =>
          rcases hproper with he | he
          · exact hends he
          · cases e with
            | rpc c => exact he.elim
            | os c =>
                obtain ⟨b, hos, hok, hchowns⟩ := exec_gives he (hfound i rfl)
                have hstep := (@step_os peer h _ _ _ _).mpr ⟨_, hos, rfl⟩
                have hafter : Stage.done (outcome false) =
                    (Stage.owing i).after h.os.fs.next (.os c) b := by
                  simp [Stage.after, hchowns, hok]
                have hsure := hnext b (_, .done (outcome false))
                  ⟨h.os.fs, (finds_of_resolve he).mpr (hfound i rfl), hstep, hafter⟩
                obtain ⟨a, h', hrun, hverdict, hh'⟩ := ih b hsure (by simp) (by simp)
                refine ⟨a, h', ?_, hverdict, hh'⟩
                rw [run_call, hstep]
                exact hrun

/-- The beginning of a handler that runs alone: it looks, and that changes nothing. -/
theorem of_glances {p q : Server Reply × Host}
    (hp : p.1.Sure (meets peer) (Proper r) Replies (p.2, .looking))
    (hpq : ReflTransGen (Takes (glances peer)) p q) :
    q.1.Sure (meets peer) (Proper r) Replies (q.2, .looking) ∧ q.2.os.fs = p.2.os.fs ∧
      q.2.os.umask = p.2.os.umask ∧ p.1.run (server peer) p.2 = q.1.run (server peer) q.2 := by
  induction hpq with
  | refl => exact ⟨hp, rfl, rfl, rfl⟩
  | tail _ hstep ih =>
      obtain ⟨hsure, hfs, humask, hrun⟩ := ih
      cases hstep with
      | @mk _ e k s t b hbt =>
          obtain ⟨hlooks, hanswer⟩ := hbt
          refine ⟨?_, (step_looks hlooks hanswer).trans hfs, (step_umask hanswer).trans humask,
            hrun.trans ?_⟩
          · refine hsure.2 b (t, .looking) ⟨s.os.fs, ?_, hanswer, (after_looks hlooks _ _).symm⟩
            cases e with
            | rpc c => trivial
            | os c => cases c <;> trivial
          · rw [run_call, hanswer]
            rfl

end

/-! ## What is owed -/

section

variable {ι : Type} {owner : ι → UInt32} {stage : ι → Stage} {owed : Ino → Option UInt32}
  {next k : Ino} {i : ι} {st : Stage} {reply : Reply}

/-- The account of what is owed is right: an owner is owed for an inode as long as one handler has
still to give it. -/
structure Accounts (owner : ι → UInt32) (stage : ι → Stage) (owed : Ino → Option UInt32)
    (next : Ino) : Prop where
  owed_iff : ∀ k u, owed k = some u ↔ ∃ i, stage i = .owing k ∧ owner i = u
  once : ∀ i j k, stage i = .owing k → stage j = .owing k → i = j
  fresh : ∀ k, next ≤ k → owed k = none

/-- Nobody owes an owner for an inode that is not there yet. -/
theorem Accounts.not_next (h : Accounts owner stage owed next) (hk : next ≤ k) :
    stage i ≠ .owing k := by
  intro hi
  have hsome := (h.owed_iff k _).mpr ⟨i, hi, rfl⟩
  rw [h.fresh k hk] at hsome
  cases hsome

variable [DecidableEq ι]

/-- A step that has nothing to do with owners. -/
theorem Accounts.keep (h : Accounts owner stage owed next)
    (hst : ∀ k, st = .owing k ↔ stage i = .owing k) :
    Accounts owner (Function.update stage i st) owed next := by
  have hiff : ∀ j k, Function.update stage i st j = .owing k ↔ stage j = .owing k := by
    intro j k
    by_cases hj : j = i
    · subst hj
      rw [Function.update_self]
      exact hst k
    · rw [Function.update_of_ne hj]
  constructor
  · intro k u
    simp only [hiff]
    exact h.owed_iff k u
  · intro j j' k
    simp only [hiff]
    exact h.once j j' k
  · exact h.fresh

/-- An inode is made. -/
theorem Accounts.make (h : Accounts owner stage owed next) (hi : stage i = .looking) :
    Accounts owner (Function.update stage i (.owing next))
      (Function.update owed next (some (owner i))) (next + 1) := by
  have hiff : ∀ j k, Function.update stage i (.owing next) j = .owing k ↔
      (j = i ∧ k = next) ∨ (j ≠ i ∧ stage j = .owing k) := by
    intro j k
    by_cases hj : j = i
    · subst hj
      simp [eq_comm]
    · simp [hj]
  constructor
  · intro k u
    simp only [hiff]
    by_cases hk : k = next
    · subst hk
      have hno : ∀ j, stage j ≠ .owing k := fun j => h.not_next (Nat.le_refl k)
      simp [hno]
    · rw [Function.update_of_ne hk, h.owed_iff]
      constructor
      · rintro ⟨j, hj, rfl⟩
        refine ⟨j, .inr ⟨?_, hj⟩, rfl⟩
        rintro rfl
        rw [hi] at hj
        cases hj
      · rintro ⟨j, ⟨-, hk'⟩ | ⟨-, hj⟩, rfl⟩
        · exact absurd hk' hk
        · exact ⟨j, hj, rfl⟩
  · intro j j' k
    simp only [hiff]
    rintro (⟨rfl, rfl⟩ | ⟨hj, hk⟩) (⟨rfl, hk'⟩ | ⟨hj', hk'⟩)
    · rfl
    · exact absurd hk' (h.not_next (Nat.le_refl _))
    · subst hk'
      exact absurd hk (h.not_next (Nat.le_refl _))
    · exact h.once j j' k hk hk'
  · intro k hk
    have hne : k ≠ next := Nat.ne_of_gt hk
    rw [Function.update_of_ne hne]
    exact h.fresh k (Nat.le_of_lt hk)

/-- An owner is given. -/
theorem Accounts.give (h : Accounts owner stage owed next) (hi : stage i = .owing k) :
    Accounts owner (Function.update stage i (.done reply)) (Function.update owed k none) next := by
  have hiff : ∀ j k', Function.update stage i (.done reply) j = .owing k' ↔
      j ≠ i ∧ stage j = .owing k' := by
    intro j k'
    by_cases hj : j = i
    · subst hj
      simp
    · simp [hj]
  constructor
  · intro k' u
    simp only [hiff]
    by_cases hk : k' = k
    · subst hk
      rw [Function.update_self]
      constructor
      · intro hu
        cases hu
      · rintro ⟨j, ⟨hne, hj⟩, -⟩
        exact absurd (h.once j i k' hj hi) hne
    · rw [Function.update_of_ne hk, h.owed_iff]
      constructor
      · rintro ⟨j, hj, rfl⟩
        refine ⟨j, ⟨?_, hj⟩, rfl⟩
        rintro rfl
        rw [hi] at hj
        cases hj
        exact hk rfl
      · rintro ⟨j, ⟨-, hj⟩, rfl⟩
        exact ⟨j, hj, rfl⟩
  · intro j j' k'
    simp only [hiff]
    rintro ⟨-, hj⟩ ⟨-, hj'⟩
    exact h.once j j' k' hj hj'
  · intro k' hk'
    by_cases hk : k' = k
    · subst hk
      exact Function.update_self ..
    · rw [Function.update_of_ne hk]
      exact h.fresh k' hk'

end

/-! ## One step of a crowd -/

section

variable {ι : Type} {job : ι → Job} {c c' : Crowd ι} {i : ι}

/-- The client that a handler makes an inode for. -/
def Job.owner (j : Job) : UInt32 := j.arrival.request.owner

/-- The replies that are certain. -/
def Crowd.verdict (c : Crowd ι) (i : ι) : Option Reply := (c.worker i).stage.verdict

/-- What holds of a crowd at all times. -/
structure WellKept (job : ι → Job) (c : Crowd ι) : Prop where
  proper : ∀ i, (c.worker i).prog.Sure (meets (job i).arrival.peer)
    (Proper (job i).arrival.request) Replies ((c.worker i).host, (c.worker i).stage)
  umask : ∀ i, (c.worker i).host.os.umask = (job i).host.os.umask
  accounts : Accounts (fun i => (job i).owner) (fun i => (c.worker i).stage) c.owed c.tree.next

variable [DecidableEq ι]

/-- What a step does to what is to be seen: nothing, or the handler takes effect. -/
def Seen (job : ι → Job) (c c' : Crowd ι) : Prop :=
  (c'.verdict = c.verdict ∧ c'.settled = c.settled) ∨
    TakesEffect (fun i => (job i).Alone) c.verdict c'.verdict c.settled c'.settled

/-- The stages after one handler has moved. -/
theorem stage_update (c : Crowd ι) (i : ι) (w : Worker) :
    (fun j => (Function.update c.worker i w j).stage) =
      Function.update (fun j => (c.worker j).stage) i w.stage := by
  funext j
  by_cases hj : j = i
  · subst hj
    simp
  · simp [hj]

/-- The verdicts after one handler has moved. -/
theorem verdict_update (c : Crowd ι) (fs : FS) (owed : Ino → Option UInt32) (i : ι) (w : Worker) :
    (⟨fs, owed, Function.update c.worker i w⟩ : Crowd ι).verdict =
      Function.update c.verdict i w.stage.verdict := by
  funext j
  by_cases hj : j = i
  · subst hj
    simp [Crowd.verdict]
  · simp [Crowd.verdict, hj]

/-- One handler goes on. -/
theorem WellKept.update (h : WellKept job c) {w : Worker} {fs : FS} {owed : Ino → Option UInt32}
    (hproper : w.prog.Sure (meets (job i).arrival.peer) (Proper (job i).arrival.request) Replies
      (w.host, w.stage))
    (humask : w.host.os.umask = (job i).host.os.umask)
    (haccounts : Accounts (fun i => (job i).owner)
      (Function.update (fun j => (c.worker j).stage) i w.stage) owed fs.next) :
    WellKept job ⟨fs, owed, Function.update c.worker i w⟩ where
  proper j := by
    by_cases hj : j = i
    · subst hj
      simpa using hproper
    · simpa [hj] using h.proper j
  umask j := by
    by_cases hj : j = i
    · subst hj
      simpa using humask
    · simpa [hj] using h.umask j
  accounts := by
    show Accounts _ (fun j => (Function.update c.worker i w j).stage) _ _
    rw [stage_update]
    exact haccounts

/-- Nothing is to be seen of a step that changes neither a verdict nor the settled tree. -/
theorem seen_of_same {w : Worker} {fs : FS} {owed : Ino → Option UInt32}
    (hverdict : w.stage.verdict = (c.worker i).stage.verdict)
    (hsettled : fs.given owed = c.tree.given c.owed) :
    Seen job c ⟨fs, owed, Function.update c.worker i w⟩ := by
  refine .inl ⟨?_, hsettled⟩
  rw [verdict_update, hverdict]
  exact Function.update_eq_self i c.verdict

/-- The stage of a handler after its change. -/
theorem after_change {β : Type} {cl : Sys β} {p : CStr} (hc : cl.changes p = true) (n : Ino)
    (b : β) : (cl.failed b = true ∧ Stage.looking.after n (.os cl) b = .done (outcome true)) ∨
      (cl.failed b = false ∧ cl.makes = some p ∧ Stage.looking.after n (.os cl) b = .owing n) ∨
      (cl.failed b = false ∧ cl.removes = true ∧
        Stage.looking.after n (.os cl) b = .done (outcome false)) := by
  rcases changes_iff.mp hc with hm | hr
  · cases hf : cl.failed b with
    | true => exact .inl ⟨rfl, by simp [Stage.after, hm, hf]⟩
    | false => exact .inr (.inl ⟨rfl, hm, by simp [Stage.after, hm, hf]⟩)
  · have hm := (of_removes hr).1
    cases hf : cl.failed b with
    | true => exact .inl ⟨rfl, by simp [Stage.after, hm, hr, hf]⟩
    | false => exact .inr (.inr ⟨rfl, hr, by simp [Stage.after, hm, hr, hf]⟩)

/-- The same call in the tree and in the settled tree. -/
theorem change_settled {β : Type} {cl : Sys β} {p : CStr} {owed : Ino → Option UInt32}
    {b b' : β} {os os' os₁ os₁' : OS} (hc : cl.changes p = true) (hnext : owed os.fs.next = none)
    (hcertain : ∀ q, cl.makes = some q → os.fs.Settled owed q)
    (hfs : os'.fs = os.fs.given owed) (humask : os'.umask = os.umask)
    (h : OS.exec cl os = .ok (b, os₁)) (h' : OS.exec cl os' = .ok (b', os₁')) :
    cl.failed b' = cl.failed b ∧ os₁'.fs = os₁.fs.given owed ∧
      ((cl.failed b = true ∧ os₁.fs = os.fs) ∨
        (cl.failed b = false ∧ cl.onTree os.umask os.fs = .ok os₁.fs ∧
          cl.onTree os.umask os'.fs = .ok os₁'.fs)) := by
  obtain ⟨b₁, os₂, v, hexec, hv, hchanged⟩ := exec_changes hc os
  obtain ⟨b₁', os₂', v', hexec', hv', hchanged'⟩ := exec_changes hc os'
  obtain ⟨rfl, rfl⟩ : b = b₁ ∧ os₁ = os₂ := by simpa [hexec] using h.symm
  obtain ⟨rfl, rfl⟩ : b' = b₁' ∧ os₁' = os₂' := by simpa [hexec'] using h'.symm
  have hgiven : cl.onTree os.umask os'.fs = (·.given owed) <$> cl.onTree os.umask os.fs := by
    rw [hfs]
    exact onTree_given hc hnext hcertain
  rw [humask] at hchanged'
  cases hr : cl.onTree os.umask os.fs with
  | error e =>
      rw [hr] at hgiven
      obtain ⟨rfl, hsame⟩ := hchanged.of_error hr
      obtain ⟨rfl, hsame'⟩ := hchanged'.of_error (e := e) hgiven
      have hf := (failed_iff hc hv).mpr rfl
      have hf' := (failed_iff hc hv').mpr rfl
      exact ⟨hf'.trans hf.symm, by rw [hsame', hsame, hfs], .inl ⟨hf, hsame⟩⟩
  | ok fs₁ =>
      rw [hr] at hgiven
      obtain ⟨hne, rfl⟩ := hchanged.of_ok hr
      obtain ⟨hne', hfs'⟩ := hchanged'.of_ok hgiven
      have hf : cl.failed b = false := by
        rw [Bool.eq_false_iff, ne_eq, failed_iff hc hv]
        exact hne
      have hf' : cl.failed b' = false := by
        rw [Bool.eq_false_iff, ne_eq, failed_iff hc hv']
        exact hne'
      exact ⟨hf'.trans hf.symm, hfs', .inr ⟨hf, rfl, hgiven.trans (congrArg _ hfs'.symm)⟩⟩

/-- What is owed after a change, given. -/
theorem settle_given {st : Stage} {fs : FS} {owed : Ino → Option UInt32} {u : UInt32}
    (hst : ∀ i, st = .owing i → owed i = none) :
    st.settle u (fs.given owed) = fs.given (Stage.looking.owes u st owed) := by
  cases st with
  | looking => rfl
  | done reply => rfl
  | owing i =>
      show (fs.given owed).modify i (Inode.setOwner u u) =
        fs.given (Function.update owed i (some u))
      rw [FS.given_update, ← hst i rfl, Function.update_eq_self]

omit [DecidableEq ι] in
/-- **The change.**  In the settled tree the handler would have come to the same call; there it
does the same, and then it has nothing left to do but to give what it owes. -/
theorem alone_of_change {β : Type} {cl : Sys β} {k : β → Server Reply} {b : β} {os : OS}
    (hkind : (job i).arrival.request.locksDirectories = true) (h : WellKept job c)
    (hrepeats : c.Repeats job i) (hprog : (c.worker i).prog = .call (.os cl) k)
    (hchange : cl.changes (job i).arrival.request.place = true)
    (hcertain : ∀ q, cl.makes = some q → c.tree.Settled c.owed q)
    (hos : OS.exec cl ((c.worker i).host.on c.tree).os = .ok (b, os)) :
    ∃ a, (Stage.looking.after c.tree.next (.os cl) b).verdict = some a ∧
      (job i).Alone c.settled a (os.fs.given (Stage.looking.owes (job i).owner
        (Stage.looking.after c.tree.next (.os cl) b) c.owed)) := by
  obtain ⟨h₁, hpath⟩ := hrepeats
  have hstart := @proper_compute6 (job i).arrival.peer _ ((job i).host.on c.settled)
    hkind (job i).arrival.stale
  obtain ⟨hsure, hfs, humask, hrun⟩ := of_glances hstart hpath
  rw [hprog] at hsure hrun
  have hfs : h₁.os.fs = c.tree.given c.owed := hfs
  have hnext : c.owed c.tree.next = none := h.accounts.fresh _ (Nat.le_refl _)
  obtain ⟨b', os', -, hos', -, -⟩ := exec_changes hchange h₁.os
  have hmask : h₁.os.umask = ((c.worker i).host.on c.tree).os.umask :=
    humask.trans (h.umask i).symm
  obtain ⟨hfailed, htree, hcase⟩ := @change_settled _ cl _ c.owed b b'
    ((c.worker i).host.on c.tree).os h₁.os os os' hchange hnext hcertain hfs hmask hos hos'
  have hstep := (@step_os (job i).arrival.peer h₁ _ _ _ _).mpr ⟨os', hos', rfl⟩
  have hafter : Stage.looking.after c.tree.next (.os cl) b =
      Stage.looking.after h₁.os.fs.next (.os cl) b' := by
    rw [hfs]
    simp [Stage.after, hfailed]
  have hsure' := hsure.2 b' (_, Stage.looking.after c.tree.next (.os cl) b)
    ⟨h₁.os.fs, by cases cl <;> trivial, hstep, hafter⟩
  have howing : ∀ j, Stage.looking.after c.tree.next (.os cl) b = .owing j →
      j = c.tree.next ∧ os'.fs.resolve (job i).arrival.request.place = .ok j := by
    intro j hj
    rcases after_change hchange c.tree.next b with ⟨-, hst⟩ | ⟨hok, hmakes, hst⟩ | ⟨-, -, hst⟩
    · cases hst.symm.trans hj
    · cases hst.symm.trans hj
      refine ⟨rfl, ?_⟩
      rcases hcase with ⟨hfail, -⟩ | ⟨-, -, honTree⟩
      · cases hok.symm.trans hfail
      · rw [(onTree_makes hmakes honTree).1, hfs]
        rfl
    · cases hst.symm.trans hj
  have hst : Stage.looking.after c.tree.next (.os cl) b ≠ .looking := by
    rcases after_change hchange c.tree.next b with ⟨-, hst⟩ | ⟨-, -, hst⟩ | ⟨-, -, hst⟩ <;>
      simp [hst]
  obtain ⟨a, h', hrest, hverdict, htree'⟩ := run_of_proper hsure' hst fun j hj => (howing j hj).2
  refine ⟨a, hverdict, h', ?_, ?_⟩
  · refine hrun.trans ?_
    rw [run_call, hstep]
    exact hrest
  · refine htree'.trans ?_
    rw [show os'.fs = os.fs.given c.owed from htree]
    refine settle_given fun j hj => ?_
    rw [(howing j hj).1]
    exact hnext

/-- A call that changes neither the tree nor how far the handler is. -/
theorem WellKept.quiet (h : WellKept job c) {p : Server Reply} {h' : Host}
    (hproper : p.Sure (meets (job i).arrival.peer) (Proper (job i).arrival.request) Replies
      (h', (c.worker i).stage))
    (humask : h'.os.umask = (job i).host.os.umask) (hfs : h'.os.fs = c.tree) :
    WellKept job ⟨h'.os.fs, c.owed, Function.update c.worker i ⟨p, h', (c.worker i).stage⟩⟩ ∧
      Seen job c ⟨h'.os.fs, c.owed, Function.update c.worker i ⟨p, h', (c.worker i).stage⟩⟩ := by
  rw [hfs]
  exact ⟨h.update hproper humask (h.accounts.keep fun _ => Iff.rfl), seen_of_same rfl rfl⟩

/-- The numbers of the inodes after a change. -/
theorem next_change {β : Type} {cl : Sys β} {p : CStr} {b : β} {os os' : OS}
    (hc : cl.changes p = true) (h : OS.exec cl os = .ok (b, os')) :
    (Stage.looking.after os.fs.next (.os cl) b = .owing os.fs.next ∧
      os'.fs.next = os.fs.next + 1) ∨
    ((∀ k, Stage.looking.after os.fs.next (.os cl) b ≠ .owing k) ∧ os'.fs.next = os.fs.next) := by
  obtain ⟨b₁, os₁, v, hexec, hv, hchanged⟩ := exec_changes hc os
  obtain ⟨rfl, rfl⟩ : b = b₁ ∧ os' = os₁ := by simpa [hexec] using h.symm
  have hfailed := failed_iff hc hv
  cases hr : cl.onTree os.umask os.fs with
  | error e =>
      obtain ⟨rfl, hfs⟩ := hchanged.of_error hr
      refine .inr ⟨fun k hk => ?_, congrArg FS.next hfs⟩
      rcases after_change hc os.fs.next b with ⟨-, hst⟩ | ⟨hok, -, -⟩ | ⟨-, -, hst⟩
      · cases hst.symm.trans hk
      · rw [hfailed.mpr rfl] at hok
        cases hok
      · cases hst.symm.trans hk
  | ok fs =>
      obtain ⟨hne, rfl⟩ := hchanged.of_ok hr
      rcases after_change hc os.fs.next b with ⟨hfail, -⟩ | ⟨-, hmakes, hst⟩ | ⟨-, hremoves, hst⟩
      · exact absurd (hfailed.mp hfail) hne
      · exact .inl ⟨hst, (onTree_makes hmakes hr).2⟩
      · refine .inr ⟨fun k hk => ?_, onTree_removes hremoves hr⟩
        cases hst.symm.trans hk

/-- A handler about to change the tree is about to commit itself. -/
theorem commits_of_changes {β : Type} {cl : Sys β} {k : β → Server Reply} {p : CStr}
    (hc : cl.changes p = true) : commits (.call (.os cl) k) = true := by
  rcases changes_iff.mp hc with hmakes | hremoves
  · simp [commits, hmakes]
  · simp [commits, hremoves]

/-- **One call.** -/
theorem call_seen {β : Type} {e : Call β} {k : β → Server Reply} {b : β} {h' : Host}
    (hkind : (job i).arrival.request.locksDirectories = true) (h : WellKept job c)
    (horderly : Orderly job c i) (hprog : (c.worker i).prog = .call e k)
    (hstep : (server (job i).arrival.peer).step e ((c.worker i).host.on c.tree) = .ok (b, h'))
    (hc' : c' = ⟨h'.os.fs, (c.worker i).stage.owes (job i).owner
      ((c.worker i).stage.after c.tree.next e b) c.owed, Function.update c.worker i
      ⟨k b, h', (c.worker i).stage.after c.tree.next e b⟩⟩) :
    WellKept job c' ∧ Seen job c c' := by
  obtain ⟨hproper, hnext⟩ := hprog ▸ h.proper i
  have hmask : h'.os.umask = (job i).host.os.umask := (step_umask hstep).trans (h.umask i)
  have hrest := hnext b (h', (c.worker i).stage.after c.tree.next e b)
    ⟨c.tree, horderly.finds e k hprog, hstep, rfl⟩
  -- Most calls leave everything as it is.
  have hquiet : (c.worker i).stage.after c.tree.next e b = (c.worker i).stage →
      h'.os.fs = c.tree → WellKept job c' ∧ Seen job c c' := fun hsame hfs => by
    rw [hsame, owes_self] at hc'
    rw [hsame] at hrest
    rw [hc']
    exact h.quiet hrest hmask hfs
  have hends : (c.worker i).stage ≠ .looking → e.Does Sys.ends → WellKept job c' ∧ Seen job c c' :=
    fun hst he => hquiet (after_ends he _ hst _ _) (step_ends he hstep)
  cases hst : (c.worker i).stage with
  | looking =>
      rw [hst] at hproper
      rcases hproper with hlooks | hchange
      · refine hquiet ?_ (step_looks hlooks hstep)
        rw [hst]
        exact after_looks hlooks _ _
      · cases e with
        | rpc r => exact hchange.elim
        | os cl =>
            obtain ⟨os, hos, rfl⟩ := step_os.mp hstep
            have hrepeats : c.Repeats job i := horderly.repeats hst (by
              rw [hprog]
              exact commits_of_changes hchange)
            obtain ⟨a, hverdict, halone⟩ := alone_of_change hkind h hrepeats hprog hchange
              (horderly.certain _ k hprog) hos
            rw [hst] at hc' hrest
            subst hc'
            refine ⟨h.update hrest hmask ?_, .inr ⟨i, a, ?_, ?_, halone⟩⟩
            · rcases next_change hchange hos with ⟨hmade, hnext'⟩ | ⟨hno, hnext'⟩
              · have hmade : Stage.looking.after c.tree.next (.os cl) b = .owing c.tree.next :=
                  hmade
                simp only [hmade, hnext']
                exact h.accounts.make hst
              · have hno : ∀ n, Stage.looking.after c.tree.next (.os cl) b ≠ .owing n := hno
                rw [owes_looking hno, hnext']
                exact h.accounts.keep fun n => iff_of_false (hno n) (by simp [hst])
            · simp [Crowd.verdict, hst, Stage.verdict]
            · rw [← hverdict]
              exact verdict_update ..
  | owing j =>
      rw [hst] at hproper
      rcases hproper with he | he
      · exact hends (by simp [hst]) he
      · cases e with
        | rpc r => exact he.elim
        | os cl =>
            have hfound : c.tree.resolve (job i).arrival.request.place = .ok j := by
              rw [← finds_of_resolve he, ← hst]
              exact horderly.finds _ k hprog
            obtain ⟨b', hos', hok, hchowns⟩ :=
              @exec_gives _ _ _ _ _ ((c.worker i).host.on c.tree).os he hfound
            obtain ⟨os, hos, rfl⟩ := step_os.mp hstep
            cases hos'.symm.trans hos
            have hafter : (Stage.owing j).after c.tree.next (.os cl) b =
                .done (outcome false) := by simp [Stage.after, hchowns, hok]
            rw [hst, hafter] at hc' hrest
            subst hc'
            have howed : c.owed j = some (job i).owner :=
              (h.accounts.owed_iff j _).mpr ⟨i, hst, rfl⟩
            refine ⟨h.update hrest hmask (h.accounts.give hst), seen_of_same ?_ ?_⟩
            · simp [hst, Stage.verdict]
            · exact FS.given_setOwner howed
  | done reply =>
      rw [hst] at hproper
      exact hends (by simp [hst]) hproper

/-- **One step.** -/
theorem turn_seen (hkind : (job i).arrival.request.locksDirectories = true) (h : WellKept job c)
    (horderly : Orderly job c i) (hturn : Turn job i c c') : WellKept job c' ∧ Seen job c c' := by
  cases hturn with
  | @reply r hprog hstage =>
      refine ⟨h.update (.inr rfl) (h.umask i) (h.accounts.keep fun k => ?_),
        .inr ⟨i, r, ?_, ?_, ?_⟩⟩
      · simp [hstage]
      · simp [Crowd.verdict, hstage, Stage.verdict]
      · exact verdict_update c c.tree c.owed i _
      · obtain ⟨h₁, hpath⟩ := horderly.repeats hstage (by simp [hprog, commits])
        obtain ⟨-, hfs, -, hrun⟩ := of_glances (proper_compute6 hkind _) hpath
        rw [hprog] at hrun
        exact ⟨h₁, hrun, hfs⟩
  | call hprog hstep _ => exact call_seen hkind h horderly hprog hstep rfl

/-! ## All steps -/

omit [DecidableEq ι] in
/-- Nothing is owed at the start. -/
theorem kept_start (hkind : ∀ i, (job i).arrival.request.locksDirectories = true) (fs : FS) :
    WellKept job (Crowd.start job fs) where
  proper i := proper_compute6 (hkind i) _
  umask _ := rfl
  accounts := {
    owed_iff := fun _ _ => by simp [Crowd.start, Job.start]
    once := fun _ _ _ h => Stage.noConfusion h
    fresh := fun _ _ => rfl }

omit [DecidableEq ι] in
/-- When every handler has sent its reply, the replies are certain and no owner is owed. -/
theorem WellKept.finished (h : WellKept job c) {reply : ι → Reply} (hfin : c.Finished reply) :
    c.verdict = (fun i => some (reply i)) ∧ c.settled = c.tree := by
  have hdone : ∀ i, (c.worker i).stage = .done (reply i) := by
    intro i
    obtain ⟨hprog, hstage⟩ := hfin i
    have hsure := h.proper i
    rw [hprog] at hsure
    exact hsure.resolve_left hstage
  have hnone : c.owed = fun _ => none := by
    funext k
    cases hk : c.owed k with
    | none => rfl
    | some u =>
        obtain ⟨i, hi, -⟩ := (h.accounts.owed_iff k u).mp hk
        cases (hdone i).symm.trans hi
  refine ⟨?_, ?_⟩
  · funext i
    simp [Crowd.verdict, hdone, Stage.verdict]
  · rw [Crowd.settled, hnone, FS.given_none]

/-- **Serialisability.**  When the handlers of any run whose steps are all orderly have finished,
they have given the replies and left the tree of some order one after the other. -/
theorem serialisable_of_orderly {fs : FS} {reply : ι → Reply}
    (hkind : ∀ i, (job i).arrival.request.locksDirectories = true)
    (hrun : ReflTransGen (OrderlyTurn job) (Crowd.start job fs) c) (hfin : c.Finished reply) :
    Serialisable job fs reply c.tree := by
  have hstep : ∀ c c' : Crowd ι, WellKept job c → OrderlyTurn job c c' →
      WellKept job c' ∧ Seen job c c' := by
    rintro c c' hkept ⟨i, horderly, hturn⟩
    exact turn_seen (hkind i) hkept horderly hturn
  obtain ⟨hkept, l, hnodup, hmem, hserial⟩ :=
    exists_serial (kept_start hkind fs) (fun _ => rfl) hstep hrun
  obtain ⟨hverdict, hsettled⟩ := hkept.finished hfin
  rw [hverdict, hsettled] at hserial
  refine ⟨l, c.tree, hnodup, fun i => ?_, ?_, fun _ => rfl⟩
  · rw [hmem, hverdict]
    rfl
  · rwa [show (Crowd.start job fs).settled = fs from FS.given_none fs] at hserial

end

/-! ## Two handlers beside one another -/

section

variable {ι : Type} {job : ι → Job} {c : Crowd ι} {i : ι}

/-- The condition on a step that is a call. -/
theorem orderly_call {β : Type} {e : Call β} {k : β → Server Reply}
    (hprog : (c.worker i).prog = .call e k)
    (hrepeats : commits (.call e k) = true → c.Repeats job i)
    (hcertain : e.certain c.owed c.tree) (hfinds : e.finds c.tree (c.worker i).stage) :
    Orderly job c i := by
  refine ⟨fun _ hcommits => hrepeats (hprog ▸ hcommits), fun e' k' hprog' => ?_,
    fun e' k' hprog' => ?_⟩
  · cases hprog.symm.trans hprog'
    exact hcertain
  · cases hprog.symm.trans hprog'
    exact hfinds

/-- Looking, locking and unlocking are always orderly. -/
theorem orderly_quiet {β : Type} {s : Sys β} {k : β → Server Reply}
    (hprog : (c.worker i).prog = .call (.os s) k) (hcommits : commits (.call (.os s) k) = false)
    (hchowns : s.chowns = false) : Orderly job c i := by
  have hmakes : s.makes = none := by
    cases hm : s.makes with
    | none => rfl
    | some p => simp [commits, hm] at hcommits
  refine orderly_call hprog (fun h => ?_) (fun p hp => ?_) ?_
  · rw [hcommits] at h
    cases h
  · rw [hmakes] at hp
    cases hp
  · cases s
    case chown => cases hchowns
    all_goals trivial

variable [DecidableEq ι] {fs fs' : FS} {owed owed' : Ino → Option UInt32} {ws ws' : ι → Worker}
  {β : Type} {e : Call β} {k : β → Server Reply} {b : β} {h : Host} {st : Stage}

/-- An orderly call while the other handlers hold no locks. -/
theorem orderlyTurn_call (hprog : (ws i).prog = .call e k)
    (hstep : (server (job i).arrival.peer).step e ((ws i).host.on fs) = .ok (b, h))
    (hfree : ∀ j, j ≠ i → ∀ x ∈ (ws j).host.os.fds.entries, x.2.lock = none)
    (horderly : Orderly job ⟨fs, owed, ws⟩ i) (hst : (ws i).stage.after fs.next e b = st)
    (hfs : h.os.fs = fs') (howed : (ws i).stage.owes (job i).owner st owed = owed')
    (hws : Function.update ws i ⟨k b, h, st⟩ = ws') :
    OrderlyTurn job ⟨fs, owed, ws⟩ ⟨fs', owed', ws'⟩ := by
  subst hst hfs howed hws
  refine ⟨i, horderly, .call hprog hstep fun d _ => .inr fun j hj => ?_⟩
  refine List.any_eq_false.mpr fun x hx => ?_
  simp [hfree j hj x hx]

end

/-- Two handlers on their way. -/
def both (first second : Worker) : Bool → Worker
  | false => first
  | true => second

/-- Moving the first of two. -/
theorem both_first (v w x : Worker) : Function.update (both v w) false x = both x w := by
  funext i
  cases i <;> rfl

/-- Moving the second of two. -/
theorem both_second (v w x : Worker) : Function.update (both v w) true x = both v x := by
  funext i
  cases i <;> rfl

/-- `/DFS` with a file `a` of client 2. -/
def oneName : FS := .ofNodes [
  .plain (.dir 0 [("DFS".toList, 1)]) 0 0o755,
  .plain (.dir 0 [("a".toList, 2)]) 0 0o777,
  .plain (.reg []) 2 0o600]

/-- One client makes a directory, the other one gives a file another name. -/
def makeBeside (second : Bool) : Job where
  arrival := .alone (if second then .rename ⟨"2".toList, ⟨1, 1⟩, "/a".toList, "/b".toList⟩
    else .mkdir ⟨"1".toList, ⟨1, 1⟩, "/x".toList, 0o755⟩)
  host := .start oneName

/-- The calls of the two handlers. -/
theorem makeBeside_mkdir : ∃ k₀ k₁ k₂ k₃ k₄,
    (makeBeside false).start.prog = .call (.os (.opendir "/DFS".toList)) k₀ ∧
    k₀ (some ⟨0⟩) = .call (.os (.flock 0 .ex)) k₁ ∧
    k₁ (0 : Int) = .call (.os (.mkdir "/DFS/x".toList 0o755)) k₂ ∧
    k₂ (0 : Int) = .call (.os (.flock 0 .un)) k₃ ∧
    k₃ (0 : Int) = .call (.os (.chown "/DFS/x".toList 1 1)) k₄ ∧
    k₄ (0 : Int) = .ret (.status ⟨0⟩) := ⟨_, _, _, _, _, rfl, rfl, rfl, rfl, rfl, rfl⟩

/-- The second handler, call by call: open, lock, rename, unlock, reply. -/
theorem makeBeside_rename : ∃ k₀ k₁ k₂ k₃,
    (makeBeside true).start.prog = .call (.os (.opendir "/DFS".toList)) k₀ ∧
    k₀ (some ⟨0⟩) = .call (.os (.flock 0 .ex)) k₁ ∧
    k₁ (0 : Int) = .call (.os (.rename "/DFS/a".toList "/DFS/b".toList)) k₂ ∧
    k₂ (0 : Int) = .call (.os (.flock 0 .un)) k₃ ∧
    k₃ (0 : Int) = .ret (.status ⟨0⟩) := ⟨_, _, _, _, rfl, rfl, rfl, rfl, rfl⟩

/-- The trees after the directory was made, after the file was renamed, and after the directory was
given away. -/
def oneMade : FS := (oneName.mkdir 0 "/DFS/x".toList 0o755).toOption.getD oneName

def oneMoved : FS := (oneMade.rename "/DFS/a".toList "/DFS/b".toList).toOption.getD oneMade

def oneGiven : FS := oneMoved.modify 3 (Inode.setOwner 1 1)

/-- The new directory is owed to client 1. -/
def owedX : Ino → Option UInt32 := Function.update (fun _ => none) 3 (some 1)

/-- A process that has opened `/DFS`. -/
def atRoot (fs : FS) (lock : Option LockMode) : Host :=
  { Host.start fs with os := { OS.start fs with
    fds := (OS.start fs).fds.addFile { OS.opened O_RDONLY 1 with lock := lock } } }

section

variable (fs fs' : FS)

/-- A process that opens `/DFS` finds it. -/
abbrev FindsRoot : Prop := (server .absent).step (.os (.opendir "/DFS".toList)) (.start fs) =
  .ok (some ⟨0⟩, atRoot fs none)

/-- `/DFS` can be locked while nobody has it. -/
theorem root_locked : (server .absent).step (.os (.flock 0 .ex)) ((atRoot fs' none).on fs) =
    .ok ((0 : Int), atRoot fs (some .ex)) := rfl

/-- Its lock can be given up. -/
theorem root_unlocked : (server .absent).step (.os (.flock 0 .un))
    ((atRoot fs' (some .ex)).on fs) = .ok ((0 : Int), atRoot fs none) := rfl

/-- The first handler makes `x` under its lock. -/
theorem x_made : (server .absent).step (.os (.mkdir "/DFS/x".toList 0o755))
    ((atRoot fs' (some .ex)).on oneName) = .ok ((0 : Int), atRoot oneMade (some .ex)) := rfl

/-- The second handler moves `a` under its lock. -/
theorem a_moved : (server .absent).step (.os (.rename "/DFS/a".toList "/DFS/b".toList))
    ((atRoot fs' (some .ex)).on oneMade) = .ok ((0 : Int), atRoot oneMoved (some .ex)) := rfl

/-- The first handler gives `x` to its client, without a lock. -/
theorem x_given : (server .absent).step (.os (.chown "/DFS/x".toList 1 1))
    ((atRoot fs' none).on oneMoved) = .ok ((0 : Int), atRoot oneGiven none) := rfl

/-- Without its lock the process has none. -/
theorem atRoot_unlocked : ∀ x ∈ (atRoot fs none).os.fds.entries, x.2.lock = none := by
  intro x hx
  rw [List.mem_singleton.mp hx]

end

/-- By itself a handler that finds `/DFS` comes to the point where it has locked it. -/
theorem root_repeats {c : Crowd Bool} {i : Bool} {k₀ : Option DIR → Server Reply}
    {k₁ : Int → Server Reply}
    (h₀ : (makeBeside i).start.prog = .call (.os (.opendir "/DFS".toList)) k₀)
    (h₁ : k₀ (some ⟨0⟩) = .call (.os (.flock 0 .ex)) k₁) (hroot : FindsRoot c.settled)
    (hprog : (c.worker i).prog = k₁ (0 : Int)) : c.Repeats makeBeside i := by
  refine ⟨atRoot c.settled (some .ex), ?_⟩
  rw [h₀, hprog]
  exact .head (takes_call ⟨rfl, hroot⟩ h₁) (.single (.mk ⟨rfl, root_locked c.settled c.settled⟩))

theorem of_other {P : Bool → Prop} {i : Bool} (h : P !i) (j : Bool) (hj : j ≠ i) : P j := by
  obtain rfl : j = !i := Bool.eq_not.mpr hj
  exact h

/-- Both clients open `/DFS`; one locks it, makes the directory and unlocks it; the other one locks
it, renames the file and unlocks it; only then the directory is given to its client. -/
theorem beside_run : ∃ c, ReflTransGen (OrderlyTurn makeBeside) (Crowd.start makeBeside oneName) c ∧
    c.Finished (fun _ => .status ⟨0⟩) ∧ c.tree = oneGiven := by
  obtain ⟨k₀, k₁, k₂, k₃, k₄, p₀, p₁, p₂, p₃, p₄, p₅⟩ := makeBeside_mkdir
  obtain ⟨l₀, l₁, l₂, l₃, q₀, q₁, q₂, q₃, q₄⟩ := makeBeside_rename
  -- The first handler after each of its calls, and the second one.
  let m₀ : Worker := (makeBeside false).start
  let m₁ : Worker := ⟨k₀ (some ⟨0⟩), atRoot oneName none, .looking⟩
  let m₂ : Worker := ⟨k₁ (0 : Int), atRoot oneName (some .ex), .looking⟩
  let m₃ : Worker := ⟨k₂ (0 : Int), atRoot oneMade (some .ex), .owing 3⟩
  let m₄ : Worker := ⟨k₃ (0 : Int), atRoot oneMade none, .owing 3⟩
  let m₅ : Worker := ⟨k₄ (0 : Int), atRoot oneGiven none, .done (outcome false)⟩
  let n₀ : Worker := (makeBeside true).start
  let n₁ : Worker := ⟨l₀ (some ⟨0⟩), atRoot oneName none, .looking⟩
  let n₂ : Worker := ⟨l₁ (0 : Int), atRoot oneMade (some .ex), .looking⟩
  let n₃ : Worker := ⟨l₂ (0 : Int), atRoot oneMoved (some .ex), .done (outcome false)⟩
  let n₄ : Worker := ⟨l₃ (0 : Int), atRoot oneMoved none, .done (outcome false)⟩
  let c (fs : FS) (owed : Ino → Option UInt32) (m n : Worker) : Crowd Bool := ⟨fs, owed, both m n⟩
  let settled : Ino → Option UInt32 := fun _ => none
  have hstart : Crowd.start makeBeside oneName = c oneName settled m₀ n₀ := by
    have hworkers : (fun i => (makeBeside i).start) = both m₀ n₀ := by
      funext i
      cases i <;> rfl
    exact congrArg (Crowd.mk oneName settled) hworkers
  have hroot : FindsRoot oneName := rfl
  have hnone : ∀ x ∈ (Host.start oneName).os.fds.entries, x.2.lock = none := fun x hx => by cases hx
  have hfree (fs : FS) := atRoot_unlocked fs
  have t₁ : OrderlyTurn makeBeside (c oneName settled m₀ n₀) (c oneName settled m₁ n₀) :=
    orderlyTurn_call (i := false) p₀ hroot (of_other hnone) (orderly_quiet p₀ rfl rfl) rfl rfl rfl
      (both_first ..)
  have t₂ : OrderlyTurn makeBeside (c oneName settled m₁ n₀) (c oneName settled m₁ n₁) :=
    orderlyTurn_call (i := true) q₀ hroot (of_other (hfree _)) (orderly_quiet q₀ rfl rfl) rfl rfl
      rfl (both_second ..)
  have t₃ : OrderlyTurn makeBeside (c oneName settled m₁ n₁) (c oneName settled m₂ n₁) :=
    orderlyTurn_call (i := false) p₁ (root_locked _ oneName) (of_other (hfree _))
      (orderly_quiet p₁ rfl rfl) rfl rfl rfl (both_first ..)
  have hgroup : ∀ p, (Sys.mkdir "/DFS/x".toList 0o755).makes = some p → oneName.Settled settled p :=
    fun _ _ _ _ _ _ _ _ => rfl
  have t₄ : OrderlyTurn makeBeside (c oneName settled m₂ n₁) (c oneMade owedX m₃ n₁) :=
    orderlyTurn_call (i := false) p₂ (x_made oneName) (of_other (hfree _))
      (orderly_call p₂ (fun _ => root_repeats p₀ p₁ rfl rfl) hgroup trivial) rfl rfl rfl
      (both_first ..)
  have t₅ : OrderlyTurn makeBeside (c oneMade owedX m₃ n₁) (c oneMade owedX m₄ n₁) :=
    orderlyTurn_call (i := false) p₃ (root_unlocked _ oneMade) (of_other (hfree _))
      (orderly_quiet p₃ rfl rfl) rfl rfl rfl (both_first ..)
  have t₆ : OrderlyTurn makeBeside (c oneMade owedX m₄ n₁) (c oneMade owedX m₄ n₂) :=
    orderlyTurn_call (i := true) q₁ (root_locked _ oneName) (of_other (hfree _))
      (orderly_quiet q₁ rfl rfl) rfl rfl rfl (both_second ..)
  have t₇ : OrderlyTurn makeBeside (c oneMade owedX m₄ n₂) (c oneMoved owedX m₄ n₃) :=
    orderlyTurn_call (i := true) q₂ (a_moved oneMade) (of_other (hfree _))
      (orderly_call q₂ (fun _ => root_repeats q₀ q₁ rfl rfl) (fun p hp => by cases hp) trivial)
      rfl rfl rfl (both_second ..)
  have t₈ : OrderlyTurn makeBeside (c oneMoved owedX m₄ n₃) (c oneMoved owedX m₄ n₄) :=
    orderlyTurn_call (i := true) q₃ (root_unlocked _ oneMoved) (of_other (hfree _))
      (orderly_quiet q₃ rfl rfl) rfl rfl rfl (both_second ..)
  have t₉ : OrderlyTurn makeBeside (c oneMoved owedX m₄ n₄)
      (c oneGiven (Function.update owedX 3 none) m₅ n₄) :=
    orderlyTurn_call (i := false) p₄ (x_given oneMade) (of_other (hfree _))
      (orderly_call p₄ (fun h => by cases h) (fun p hp => by cases hp) rfl) rfl rfl rfl
      (both_first ..)
  refine ⟨c oneGiven (Function.update owedX 3 none) m₅ n₄, ?_, ?_, rfl⟩
  · rw [hstart]
    exact .head t₁ <| .head t₂ <| .head t₃ <| .head t₄ <| .head t₅ <| .head t₆ <| .head t₇ <|
      .head t₈ <| .single t₉
  · rintro (_ | _)
    · exact ⟨p₅, Stage.noConfusion⟩
    · exact ⟨q₄, Stage.noConfusion⟩

/-- The directory and the new name are what comes of the two handlers one after the other. -/
theorem serialisable_of_orderly_beside : ∃ c : Crowd Bool,
    ReflTransGen (OrderlyTurn makeBeside) (Crowd.start makeBeside oneName) c ∧
    c.Finished (fun _ => .status ⟨0⟩) ∧ c.tree = oneGiven ∧
    Serialisable makeBeside oneName (fun _ => .status ⟨0⟩) c.tree := by
  obtain ⟨c, hrun, hfin, htree⟩ := beside_run
  exact ⟨c, hrun, hfin, htree, serialisable_of_orderly (by decide) hrun hfin⟩

/-! ## The window -/

/-- `/DFS` with nothing in it. -/
def emptyRoot : FS := .ofNodes [
  .plain (.dir 0 [("DFS".toList, 1)]) 0 0o755,
  .plain (.dir 0 []) 0 0o777]

/-- The next call of one of two handlers, if the other one holds no lock. -/
def Crowd.next (job : Bool → Job) (c : Crowd Bool) (i : Bool) : Option (Crowd Bool) :=
  match (c.worker i).prog with
  | .ret _ => none
  | .call e k =>
    match (server (job i).arrival.peer).step e ((c.worker i).host.on c.tree) with
    | .error _ => none
    | .ok (b, h) =>
      if (c.worker !i).host.os.fds.entries.all fun x => x.2.lock.isNone then
        let st := (c.worker i).stage.after c.tree.next e b
        some ⟨h.os.fs, (c.worker i).stage.owes (job i).owner st c.owed,
          Function.update c.worker i ⟨k b, h, st⟩⟩
      else none

/-- What `next` computes is a turn. -/
theorem turn_of_next {job : Bool → Job} {c c' : Crowd Bool} {i : Bool}
    (h : c.next job i = some c') : Turn job i c c' := by
  unfold Crowd.next at h
  split at h
  · cases h
  · next e k hprog =>
    split at h
    · cases h
    · next b h' hstep =>
      split at h
      · next hfree =>
        cases h
        refine .call hprog hstep fun d _ => .inr fun j hj => ?_
        obtain rfl : j = !i := Bool.eq_not.mpr hj
        refine List.any_eq_false.mpr fun x hx => ?_
        have hnone := Option.isNone_iff_eq_none.mp (List.all_eq_true.mp hfree x hx)
        simp [hnone]
      · cases h

/-- The calls of two handlers in a given order. -/
def Crowd.follow (job : Bool → Job) : List Bool → Crowd Bool → Option (Crowd Bool)
  | [], c => some c
  | i :: l, c => (c.next job i).bind (Crowd.follow job l)

/-- What `follow` computes is a run. -/
theorem turns_of_follow {job : Bool → Job} {l : List Bool} {c c' : Crowd Bool}
    (h : c.follow job l = some c') :
    ReflTransGen (fun c c' => ∃ i, Turn job i c c') c c' := by
  induction l generalizing c with
  | nil =>
      cases h
      exact .refl
  | cons i l ih =>
      obtain ⟨d, hd, hfollow⟩ := Option.bind_eq_some_iff.mp h
      exact .head ⟨i, turn_of_next hd⟩ (ih hfollow)

/-- What a handler has replied after its change. -/
def Crowd.replied (c : Crowd Bool) (i : Bool) : Option Int :=
  match (c.worker i).prog, (c.worker i).stage with
  | .ret (.status a), .done _ => some a.ret
  | _, _ => none

/-- One client makes a directory, the other one gives it another name. -/
def makeAndMove (second : Bool) : Job where
  arrival := .alone (if second then .rename ⟨"2".toList, ⟨1, 1⟩, "/x".toList, "/y".toList⟩
    else .mkdir ⟨"1".toList, ⟨1, 1⟩, "/x".toList, 0o755⟩)
  host := .start emptyRoot

/-- The directory is renamed after it was made and unlocked, before its owner is changed. -/
theorem moved_replies : (((Crowd.start makeAndMove emptyRoot).follow makeAndMove
    [false, false, false, false, true, true, true, true, false]).map fun c =>
      (c.replied false, c.replied true)) = some (some (-1), some 0) := by
  decide +kernel

/-- All handlers have replied, so the run is over. -/
theorem finished_of_replied {c : Crowd Bool} {v : Bool → Int} (h : ∀ i, c.replied i = some (v i)) :
    c.Finished fun i => .status ⟨v i⟩ := by
  intro i
  have hi := h i
  unfold Crowd.replied at hi
  split at hi
  · next a reply hprog hstage =>
    refine ⟨?_, by simp [hstage]⟩
    have hv : a.ret = v i := Option.some.inj hi
    rw [hprog]
    show Prog.ret (Reply.status a) = .ret (.status ⟨v i⟩)
    rw [← hv]
  · cases hi

/-- The first client is told that nothing was made, and the second one that it was renamed. -/
theorem made_and_moved : ¬ ∀ (ι : Type) [DecidableEq ι] (job : ι → Job) (fs : FS)
    (reply : ι → Reply) (c : Crowd ι), (∀ i, (job i).arrival.request.locksDirectories = true) →
    ReflTransGen (fun c c' => ∃ i, Turn job i c c') (Crowd.start job fs) c → c.Finished reply →
    Serialisable job fs reply c.tree := by
  intro hall
  obtain ⟨c, hfollow, hreplies⟩ := Option.map_eq_some_iff.mp moved_replies
  obtain ⟨hfirst, hsecond⟩ := Prod.mk.inj hreplies
  have hfin : c.Finished fun i => .status ⟨if i then 0 else -1⟩ :=
    finished_of_replied fun i => by cases i <;> assumption
  obtain ⟨l, fs'', -, hmem, hserial, -⟩ := hall Bool makeAndMove emptyRoot _ c (by decide)
    (turns_of_follow hfollow) hfin
  -- Neither of them can have been the first.
  have hmake : (serve (makeAndMove false).arrival ((makeAndMove false).host.on emptyRoot)).map
      (·.1.ret) = .ok 0 := by rfl
  have hmove : (serve (makeAndMove true).arrival ((makeAndMove true).host.on emptyRoot)).map
      (·.1.ret) = .ok (-1) := by rfl
  cases l with
  | nil => exact absurd (hmem true) List.not_mem_nil
  | cons i l =>
      obtain ⟨r, fs', hr, h, hserve, -⟩ := hserial.head rfl
      cases hr
      cases i with
      | false =>
          rw [hserve] at hmake
          cases hmake
      | true =>
          rw [hserve] at hmove
          cases hmove

end DFS
