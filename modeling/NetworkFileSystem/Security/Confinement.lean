import NetworkFileSystem.Security.Containment

/-!
# Servers that print stay under `/DFS` (`translate_abspath`)

The messages of a handler go to whatever has descriptor 2, and a client can make that a file of the
tree.  Contents decide no lookup, so while the lookups of the requests stay inside, the calls of the
handlers are confined like those of a server that prints nothing; and as no file from outside is
ever opened, no message goes there either (**`stays_under_dfs`**).

Lookups can be made to leave, though: `translate_abspath` puts `/DFS` in front of `/../etc`, and the
kernel walks out again (**`leaves_dfs`**).
-/

namespace DFS

open Effects Posix Prog

namespace Verbose

variable {lib : RpcTexts} {T : CStr → Prop} {O : Ino → Prop} {a : Arrival} {os : OS}
  {h h' h₀ : Host} {tr : List (Event Arrival Reply Host)}

/-! ## What a message changes -/

/-- A write to a descriptor changes the contents of one file, which has this descriptor. -/
theorem write_cases (os : OS) (fd : Int) (bytes : List UInt8) :
    ((os.write fd bytes).fs = os.fs ∧ (os.write fd bytes).fds = os.fds) ∨
    ∃ f i n data, os.fds.file fd = some f ∧ f.ino = some i ∧ os.fs.node i = some n ∧
      n.kind = .reg ∧ (os.write fd bytes).fs = os.fs.modify i (Inode.setData data) ∧
      ∃ pos, (os.write fd bytes).fds = os.fds.setFile fd fun f => { f with pos := pos } := by
  unfold OS.write
  cases hf : os.fds.file fd with
  | none => exact .inl ⟨rfl, rfl⟩
  | some f =>
      dsimp only
      split
      · exact .inl ⟨rfl, rfl⟩
      · split
        · next i d hi hb =>
          obtain ⟨n, hn, hbody⟩ : ∃ n, os.fs.node i = some n ∧ n.body = .reg d := by
            simpa [OS.bodyOf, hi, Option.bind_eq_some_iff] using hb
          exact .inr ⟨f, i, n, _, rfl, hi, hn, by simp [Inode.kind, hbody, Body.kind], rfl, _, rfl⟩
        · exact .inl ⟨rfl, rfl⟩

/-- A message moves no name. -/
theorem sameNames_print (m : Message) (os : OS) : FS.SameNames os.fs (print lib m os).fs := by
  unfold print
  rcases write_cases os stderrFileno ((m.text lib os.errno).map Char.toUInt8) with
    ⟨hfs, -⟩ | ⟨f, i, n, data, -, -, hn, hreg, hfs, -⟩
  · rw [hfs]
    exact .refl
  · rw [hfs]
    exact FS.sameNames_setData hn hreg data

/-- Nor does it touch what is outside, as nothing of it is open. -/
theorem walled_print (hw : Walled T O os) (m : Message) :
    Walled T O (print lib m os) ∧ Secluded O os.fs (print lib m os).fs := by
  unfold print
  rcases write_cases os stderrFileno ((m.text lib os.errno).map Char.toUInt8) with
    ⟨hfs, hfds⟩ | ⟨f, i, n, data, hf, hi, hn, hreg, hfs, pos, hfds⟩
  · exact hw.keep hfs (hfds ▸ hw.handles)
  · refine hw.setData (hw.handles _ f i hf hi) hn hreg hfs fun fd g k hg hk => ?_
    rw [hfds, Descriptors.file_setFile] at hg
    split at hg
    · obtain ⟨g', hg', rfl⟩ := Option.map_eq_some_iff.mp hg
      exact hw.handles fd g' k hg' hk
    · exact hw.handles fd g k hg hk

/-! ## Requests -/

/-- A call acts on something at or below `/DFS` only, and a message goes to no file from outside. -/
def Confined (T : CStr → Prop) (O : Ino → Prop) {β : Type} : Remarked Message Call β → Host → Prop
  | .call c, h => c.Confined T h
  | .remark _ _, h => ∀ f i, h.os.fds.file stderrFileno = some f → f.ino = some i → ¬ O i

/-- Every call and every message of the handler is confined, and issued while the server is
inside. -/
def Contained (T : CStr → Prop) (O : Ino → Prop) (lib : RpcTexts) (a : Arrival) (h : Host) : Prop :=
  (compute6 a.stale a.request).Each (server lib a.peer)
    (fun c h => Confined T O c h ∧ Walled T O h.os) h

/-- Inside the wall it is only the calls that may leave. -/
theorem confined_of_onCalls {β : Type} {c : Remarked Message Call β} (hw : Walled T O h.os)
    (hc : OnCalls (fun c h => c.Confined T h) c h) : Confined T O c h := by
  cases c with
  | call c => exact hc
  | remark m answer => exact fun f i hf hi => hw.handles _ f i hf hi

/-- **One call or message** keeps the wall, and what is outside. -/
theorem step_confined {β : Type} {c : Remarked Message Call β} {b : β} {peer : Peer}
    (hc : Confined T O c h) (hw : Walled T O h.os)
    (he : (server lib peer).step c h = .ok (b, h')) :
    Walled T O h'.os ∧ Secluded O h.os.fs h'.os.fs := by
  cases c with
  | call c => exact DFS.step_confined hc hw he
  | remark m answer =>
      cases he
      exact walled_print hw m

/-- **One request.** -/
theorem contained_of_stays (hw : Walled T O h.os) (hs : StaysInside T a.request h.os.fs) :
    Contained T O lib a h := by
  have hsilent : (compute6 a.stale a.request).silence.EachAmid (DFS.server a.peer) Host.SameNames
      (fun c h => c.Confined T h) h := by
    rw [compute6_silence]
    exact contains_compute6 a.peer a.stale hw.rooted hw.linked hs h rfl
  have haloud := each_aloud (n := server lib a.peer) Host.SameNames.refl Host.SameNames.trans
    (fun m answer s b t hst => by
      cases hst
      exact ⟨rfl, sameNames_print m s.os⟩)
    (fun e s => rfl) hsilent
  refine (haloud.invariant hw fun e s hc hw b t he =>
    (step_confined (confined_of_onCalls hw hc) hw he).1).mono ?_
  rintro β c s ⟨hc, hw⟩
  exact ⟨confined_of_onCalls hw hc, hw⟩

/-- **One request** that is contained keeps the wall, and what is outside. -/
theorem walled_of_contained {reply : Reply} (hw : Walled T O h.os) (hc : Contained T O lib a h)
    (hs : serve lib a h = .ok (reply, h')) : Walled T O h'.os ∧ Secluded O h.os.fs h'.os.fs :=
  walled_along hw (fun _ _ hc hw _ _ he => step_confined hc.1 hw he) hc hs

/-! ## Runs -/

/-- **Everything stays under `/DFS`.**  In every run of a server that has no file from outside open,
as long as the lookups of the requests stay inside, what was outside at the start is untouched, and
whatever the handler of the next such request calls and prints, whether it returns or not, is
confined to `/DFS`. -/
theorem stays_under_dfs (hR : h₀.os.fs.Rooted dfsName)
    (hfds : ∀ fd f i, h₀.os.fds.file fd = some f → f.ino = some i → ¬ Outside h₀.os.fs i)
    (hrun : Runs (serve lib) h₀ tr h)
    (hin : ∀ e ∈ tr, StaysInside (fun _ => True) e.input.request e.pre.os.fs) :
    Secluded (Outside h₀.os.fs) h₀.os.fs h.os.fs ∧
      ∀ a : Arrival, StaysInside (fun _ => True) a.request h.os.fs →
        Contained (fun _ => True) (Outside h₀.os.fs) lib a h := by
  have hstart := walled_start hR (fun _ _ _ => trivial : h₀.os.fs.Linked fun _ => True) hfds
  obtain ⟨hw, hkept⟩ := hrun.invariant
    (I := fun _ h => Walled (fun _ => True) (Outside h₀.os.fs) h.os ∧
      Secluded (Outside h₀.os.fs) h₀.os.fs h.os.fs)
    (C := fun _ e => StaysInside (fun _ => True) e.input.request e.pre.os.fs) ⟨hstart, .refl⟩
    (fun past e hi hs he => by
      obtain ⟨hw, hpast⟩ := hi
      obtain ⟨hpost, hstep⟩ := walled_of_contained hw (contained_of_stays hw he) hs
      exact ⟨hpost, hpast.trans hstep⟩)
    (Runs.along_mem.mpr hin)
  exact ⟨hkept, fun a ha => contained_of_stays hw ha⟩

/-- A client closes standard error. -/
def releaseTwo : Arrival := .alone (.release ⟨"2".toList, 2⟩)

/-- The owner of the file opens it, and it gets the number. -/
def openF : Arrival := .alone (.openFile ⟨"1".toList, "/f".toList, O_WRONLY⟩)

/-- Somebody looks at `/DFS`. -/
def lookAround : Arrival := .alone (.getattr ⟨"3".toList, "/".toList⟩)

/-- What is printed goes into a file below `/DFS`, and the next handler is confined all the same. -/
theorem stays_under_dfs_reopened : ∃ tr h, Runs (serve .none) besideServer tr h ∧
    (h.os.fs.node 2).map (·.body) =
      some (.reg ("Get attribute for path = /DFS\n".toList.map Char.toUInt8)) ∧
    Secluded (Outside besideDfs) besideDfs h.os.fs ∧
    Contained (fun _ => True) (Outside besideDfs) .none (.alone linkToFile) h := by
  have hrun : (do
      let r₁ ← serve .none releaseTwo besideServer
      let r₂ ← serve .none openF r₁.2
      let r₃ ← serve .none lookAround r₂.2
      pure ((r₃.2.os.fs.node 2).map (·.body), r₂.2.os.fs.staysIn dfsName false dfsRoot,
        r₁.2.os.fs.staysIn dfsName true "/DFS/f".toList,
        r₃.2.os.fs.staysIn dfsName false "/DFS/l".toList) : Except Halt _) =
      .ok (some (.reg ("Get attribute for path = /DFS\n".toList.map Char.toUInt8)),
        true, true, true) := by decide +kernel
  simp only [bind_eq_ok, pure_eq_ok, Prod.mk.injEq] at hrun
  obtain ⟨⟨o₁, h₁⟩, hs₁, ⟨o₂, h₂⟩, hs₂, ⟨o₃, h₃⟩, hs₃, hbody, hlook, hopen, hlink⟩ := hrun
  have hruns : Runs (serve .none) besideServer
      ([⟨besideServer, releaseTwo, o₁, h₁⟩] ++ [⟨h₁, openF, o₂, h₂⟩] ++
        [⟨h₂, lookAround, o₃, h₃⟩]) h₃ := .snoc (.snoc (.single hs₁) hs₂) hs₃
  have hone : ∀ {r : Request} {fs : FS} {e : Bool × CStr}, r.lookups = [e] →
      fs.staysIn dfsName e.1 (translateAbspath e.2) = true → (∀ arg, r ≠ .link arg) →
        StaysInside (fun _ => True) r fs := by
    intro r fs e hr he hl
    refine ⟨fun e' he' => ?_, fun arg harg => absurd harg (hl arg), fun _ _ => trivial⟩
    rw [hr] at he'
    exact List.mem_singleton.mp he' ▸ he
  obtain ⟨hkept, hnext⟩ := stays_under_dfs rooted_besideDfs besideServer_files hruns (by
    simp only [List.mem_append, List.mem_singleton]
    rintro e ((rfl | rfl) | rfl)
    · exact ⟨fun e he => absurd he List.not_mem_nil, fun arg harg => (by cases harg),
        fun _ _ => trivial⟩
    · exact hone rfl hopen fun arg harg => by cases harg
    · exact hone rfl hlook fun arg harg => by cases harg)
  exact ⟨_, h₃, hruns, hbody, hkept, hnext _ (hone rfl hlink fun arg harg => by cases harg)⟩

/-- What is at or below `/DFS` in the example. -/
theorem below_besideDfs {i : Ino} (h : FS.Below besideDfs dfsName i) : i = 1 ∨ i = 2 := by
  induction h with
  | entry h => exact .inl (Except.ok.inj (h.symm.trans (show besideDfs.child 0 dfsName = .ok 1 from
      rfl)))
  | @child d i x hd hx h ih =>
      obtain ⟨parent, es, hdir, -, hlookup, -⟩ := (FS.child_eq_ok_of_special hx).mp h
      rcases ih with rfl | rfl
      · cases hdir
        simp only [List.lookup_cons, List.lookup_nil] at hlookup
        split at hlookup <;> cases hlookup
        exact .inr rfl
      · cases hdir

/-- Somebody gives away what is beside `/DFS`. -/
def chownEtc : Arrival :=
  .alone (.chown ⟨"2".toList, ⟨1, 1⟩, "/../etc".toList, 7, 7⟩)

/-- The path leads out of `/DFS` again, and what it leads to gets another owner. -/
theorem leaves_dfs : ¬ ∀ (lib : RpcTexts) (h₀ h : Host) (tr : List (Event Arrival Reply Host)),
    h₀.os.fs.Rooted dfsName →
    (∀ fd f i, h₀.os.fds.file fd = some f → f.ino = some i → ¬ Outside h₀.os.fs i) →
    Runs (serve lib) h₀ tr h →
    Secluded (Outside h₀.os.fs) h₀.os.fs h.os.fs ∧
      ∀ a : Arrival, Contained (fun _ => True) (Outside h₀.os.fs) lib a h := by
  intro hall
  have hrun : (serve .none chownEtc besideServer).map (fun r => (r.2.os.fs.node 3).map (·.uid)) =
      .ok (some 7) := by decide +kernel
  obtain ⟨⟨reply, h⟩, hs, huid⟩ := map_eq_ok.mp hrun
  have hout : Outside besideDfs 3 :=
    ⟨rfl, fun hb => by rcases below_besideDfs hb with h | h <;> cases h⟩
  obtain ⟨hkept, -⟩ := hall .none besideServer h _ rooted_besideDfs besideServer_files (.single hs)
  have hsame : h.os.fs.node 3 = besideDfs.node 3 := hkept.node_eq 3 hout (by decide)
  rw [hsame] at huid
  exact absurd huid (by decide)

end Verbose

end DFS
