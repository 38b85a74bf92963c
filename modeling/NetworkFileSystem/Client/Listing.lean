import NetworkFileSystem.Client.Exchanges
import NetworkFileSystem.Service.Handles
import NetworkFileSystem.Service.Streams

/-!
# How a listing is unpacked (`bb_readdir`, lines 1065-1103)

The client walks over the bytes of the reply with `strlen` and hands each name to `filler`.  A
listing that fits the buffer of the server arrives as it was read (**`listing_round_trip`**).  One
that does not is not refused: the reply is a success (**`oversized_accepted`**), and a client that
takes every name reads outside the array (**`not_readsInside`**).
-/

namespace DFS

open Effects Posix Prog

namespace Client

/-- Hand over the names one after the other, until one is refused. -/
def deliver : List Name → Operation Int
  | [] => return 0
  | name :: names => do
    if (← net (.fill name)) ≠ 0 then return -ENOMEM
    else deliver names

/-- `filler` takes the first `k` of the names. -/
def Accepts {σ : Type} (w : Network σ) (taken : List CStr) (names : List Name) (k : ℕ) : Prop :=
  ∀ j (hj : j < names.length), j < k → w.filler (taken ++ names.take j) names[j] = 0

/-- `filler` refuses the name at `k`. -/
def RefusesAt {σ : Type} (w : Network σ) (taken : List CStr) (names : List Name) (k : ℕ) : Prop :=
  ∃ hk : k < names.length, w.filler (taken ++ names.take k) names[k] ≠ 0

/-- What the caller has after `filler` has taken more names. -/
def Station.filled {σ : Type} (s : Station σ) (names : List CStr) : Station σ :=
  { s with caller := { s.caller with names := s.caller.names ++ names } }

/-- Every string that the loop of `bb_readdir` looks at ends inside the array. -/
def ReadsInside {σ : Type} (w : Network σ) : List CStr → ℕ → List Char → Prop
  | _, 0, _ => True
  | taken, n + 1, entries =>
    let name := entries.takeWhile (· ≠ '\x00')
    '\x00' ∈ entries ∧ (w.filler taken name = 0 →
      ReadsInside w (taken ++ [name]) n (entries.drop (name.length + 1)))

section

variable {σ : Type} {w : Network σ} {s : Station σ} {names : List Name}

/-! ## The layout, read again -/

/-- `strlen` stops at the end of the name. -/
theorem takeWhile_name {name : Name} (h : '\x00' ∉ name) (rest : List Char) :
    (name ++ '\x00' :: rest).takeWhile (· ≠ '\x00') = name := by
  have hall : ∀ c ∈ name, decide (c ≠ '\x00') = true := by
    intro c hc
    simp only [ne_eq, decide_not, Bool.not_eq_true', decide_eq_false_iff_not]
    rintro rfl
    exact h hc
  rw [List.takeWhile_append_of_pos hall, List.takeWhile_cons_of_neg (by simp), List.append_nil]

/-- **Unpacking the layout** hands over the names. -/
theorem fillEntries_layout (h : ∀ name ∈ names, '\x00' ∉ name) (rest : List Char) :
    fillEntries names.length (layout names ++ rest) = deliver names := by
  induction names with
  | nil => rfl
  | cons name names ih =>
      have hname := takeWhile_name (h name (by simp)) (layout names ++ rest)
      have hrest : (name ++ '\x00' :: (layout names ++ rest)).drop (name.length + 1) =
          layout names ++ rest := by
        rw [← List.drop_drop, List.drop_left, List.drop_one, List.tail_cons]
      rw [layout_cons, List.append_assoc, List.cons_append]
      simp only [List.length_cons, fillEntries, hname, hrest, deliver,
        ih fun name hn => h name (by simp [hn])]

/-! ## Handing over -/

theorem filled_nil : s.filled [] = s := by
  simp [Station.filled]

/-- Names taken in two portions are taken in one. -/
theorem filled_filled (names names' : List CStr) :
    (s.filled names).filled names' = s.filled (names ++ names') := by
  simp [Station.filled]

/-- One name: `filler` takes it, and the rest follows, or it ends here. -/
theorem deliver_cons_run (name : Name) (names : List Name) :
    (deliver (name :: names)).run w.machine s =
      if w.filler s.caller.names name = 0 then (deliver names).run w.machine (s.filled [name])
      else .ok (-ENOMEM, s) := by
  show ((net (.fill name)) >>= fun r => if r ≠ 0 then pure (-(ENOMEM : Int)) else deliver names).run
    w.machine s = _
  rw [run_bind, run_net]
  simp only [Network.exec, Except.bind]
  by_cases h : w.filler s.caller.names name = 0
  · rw [if_pos h, if_pos h, if_neg (by simp [h])]
    rfl
  · rw [if_neg h, if_neg h, if_pos h]
    rfl

/-- What accepts a list of names accepts the first one, and then the others. -/
theorem accepts_cons {taken : List CStr} {name : Name} {k : ℕ}
    (h : Accepts w taken (name :: names) (k + 1)) :
    w.filler taken name = 0 ∧ Accepts w (taken ++ [name]) names k := by
  constructor
  · have hzero := h 0 (Nat.succ_pos _) (Nat.succ_pos k)
    rwa [List.take_zero, List.append_nil] at hzero
  · intro j hj hk
    have hsucc := h (j + 1) (Nat.succ_lt_succ hj) (Nat.succ_lt_succ hk)
    rwa [List.take_succ_cons, List.append_cons] at hsucc

/-- Names that are all taken. -/
theorem deliver_all (h : Accepts w s.caller.names names names.length) :
    (deliver names).run w.machine s = .ok (0, s.filled names) := by
  induction names generalizing s with
  | nil => rw [filled_nil]; rfl
  | cons name names ih =>
      obtain ⟨hname, hrest⟩ := accepts_cons h
      rw [deliver_cons_run, if_pos hname, ih (s := s.filled [name]) hrest, filled_filled]
      rfl

/-- The first name that is refused ends it. -/
theorem deliver_refused {k : ℕ} (h : Accepts w s.caller.names names k)
    (hk : RefusesAt w s.caller.names names k) :
    (deliver names).run w.machine s = .ok (-ENOMEM, s.filled (names.take k)) := by
  obtain ⟨hlt, href⟩ := hk
  induction names generalizing s k with
  | nil => cases hlt
  | cons name names ih =>
      cases k with
      | zero =>
          rw [deliver_cons_run, if_neg (by simpa using href), List.take_zero, filled_nil]
      | succ k =>
          obtain ⟨hname, hrest⟩ := accepts_cons h
          rw [deliver_cons_run, if_pos hname, ih (s := s.filled [name]) hrest (by simpa using hlt)
            (by simpa [Station.filled] using href), filled_filled]
          rfl

/-! ## The operation -/

/-- `bb_readdir` after it has got a reply. -/
theorem bbReaddir_run {m : Mount} {unset : Unset} {path : CStr} {fi : FileInfo} {host : HostName}
    {isDegraded : Int} {ret : ReaddirRet} (hc : w.chosen s = some (host, isDegraded))
    (hr : w.answer host (.readdir ⟨fi.fd⟩) s.world = some (.readdir ret)) :
    (bbReaddir m unset path fi).run w.machine s =
      (if ret.ret ≠ 0 then return -1 else fillEntries ret.count.toNat ret.entries).run w.machine
        ((w.called ⟨s.made, host⟩ (.readdir ⟨fi.fd⟩) (s.connected host)).dropped
          ⟨s.made, host⟩) := by
  unfold bbReaddir
  rw [callOnce_bind, connected_run hc, stub_run]
  have hans : w.answer host (.readdir ⟨fi.fd⟩) (s.connected host).world = some (.readdir ret) := hr
  simp only [hans, Option.bind_some, Reply.readdir?, Option.getD_some]
  rfl

/-- What `bb_readdir` has done: all names are delivered, or those before the first refused one. -/
structure Delivered (w : Network σ) (s : Station σ) (names : List Name) (v : Int) (t : Station σ) :
    Prop where
  all : Accepts w s.caller.names names names.length →
    v = 0 ∧ t.caller.names = s.caller.names ++ names
  some : ∀ k, Accepts w s.caller.names names k → RefusesAt w s.caller.names names k →
    v = -ENOMEM ∧ t.caller.names = s.caller.names ++ names.take k

/-- Handing names over always comes to an end. -/
theorem deliver_returns (names : List Name) (s : Station σ) :
    ∃ v t, (deliver names).run w.machine s = .ok (v, t) := by
  induction names generalizing s with
  | nil => exact ⟨0, s, rfl⟩
  | cons name names ih =>
      rw [deliver_cons_run]
      split
      · exact ih _
      · exact ⟨_, _, rfl⟩

/-- **The names that were handed over** are those up to the first one that was refused. -/
theorem delivered_of_run {v : Int} {t : Station σ}
    (h : (deliver names).run w.machine s = .ok (v, t)) : Delivered w s names v t where
  all hall := by
    obtain ⟨rfl, rfl⟩ := Prod.mk.inj (Except.ok.inj ((deliver_all hall).symm.trans h))
    exact ⟨rfl, rfl⟩
  some k hk href := by
    obtain ⟨rfl, rfl⟩ := Prod.mk.inj (Except.ok.inj ((deliver_refused hk href).symm.trans h))
    exact ⟨rfl, rfl⟩

/-- **The round trip.**  What a server answers for the handle of a directory makes the client hand
over the names that the server has read, exactly these and in their order, until one is refused. -/
theorem listing_round_trip {a : Arrival} {h h' : Host} {fi : FileInfo} {f : OpenFile} {parent : Ino}
    {es : List (Name × Ino)} {reply : Reply} {m : Mount} {unset : Unset} {path : CStr}
    {host : HostName} {isDegraded : Int} (hreq : a.request = .readdir ⟨fi.fd⟩)
    (hf : h.os.fds.file fi.fd = some f) (hread : f.pathOnly = false ∧ f.readable = true)
    (hb : h.os.bodyOf f = some (.dir parent es)) (hes : names = (OS.names es).drop f.pos)
    (hnames : ∀ name ∈ names, EntryName name) (hfit : packedSize names ≤ maxSize)
    (hserve : serve a h = .ok (reply, h')) (hc : w.chosen s = some (host, isDegraded))
    (hr : w.answer host (.readdir ⟨fi.fd⟩) s.world = some reply) :
    ∃ v t, (bbReaddir m unset path fi).run w.machine s = .ok (v, t) ∧
      Delivered w s names v t := by
  -- The handler packs what it reads.
  have hreply : reply = .readdir (listing names) := by
    rw [hes]
    exact serve_listing hreq hf hb hread.1 hread.2 hserve
  rw [hreply] at hr
  -- The client unpacks it.
  have hunpack : fillEntries (listing names).count.toNat (listing names).entries =
      deliver names := by
    have hcount : (listing names).count.toNat = names.length := by simp [listing]
    rw [hcount, listing_entries_of_fits hfit]
    exact fillEntries_layout (fun name hn => (hnames name hn).2.1) _
  rw [bbReaddir_run hc hr, if_neg (show ¬ (listing names).ret ≠ 0 from fun h => h rfl), hunpack]
  obtain ⟨v, t, ht⟩ := deliver_returns (w := w) names ((w.called ⟨s.made, host⟩
    (.readdir ⟨fi.fd⟩) (s.connected host)).dropped ⟨s.made, host⟩)
  have hdone := delivered_of_run ht
  exact ⟨v, t, ht, hdone.all, hdone.some⟩

end

/-- A network with one server, for a caller that takes only one name. -/
def lister : Network Host where
  up _ _ := true
  call _ r h :=
    match serve (.alone r) h with
    | .ok (reply, h') => (some reply, h')
    | .error _ => (none, h)
  filler taken _ := taken.length

/-- The second name of the root is refused. -/
theorem listing_round_trip_refused : ∃ t,
    (bbReaddir ⟨[], []⟩ .zero "/".toList ⟨0, 0⟩).run lister.machine
      ⟨rootOpened 0, .blank, true, [], 0, []⟩ = .ok (-ENOMEM, t) ∧
    t.caller.names = [".".toList] := by
  have hnames : ∀ name ∈ [".".toList, "..".toList, "f".toList], EntryName name := by
    unfold EntryName
    decide
  have hchosen : lister.chosen ⟨rootOpened 0, .blank, true, [], 0, []⟩ = some (.host1, 0) := rfl
  have hserve := readdir_root 0
  have hans : lister.answer .host1 (.readdir ⟨0⟩) (rootOpened 0) =
      some (.readdir (listing [".".toList, "..".toList, "f".toList])) := by
    simp only [Network.answer, lister, hserve]
    rfl
  obtain ⟨v, t, hrun, hdone⟩ := @listing_round_trip _ _ ⟨rootOpened 0, .blank, true, [], 0, []⟩
    [".".toList, "..".toList, "f".toList] (.alone (.readdir ⟨0⟩)) _ _ ⟨0, 0⟩ (streamAt 1 0) 0
    [("f".toList, 2)] _ ⟨[], []⟩ .zero "/".toList _ _ rfl (by rfl) ⟨rfl, rfl⟩ (by rfl) rfl hnames
    (by decide) hserve hchosen hans
  obtain ⟨rfl, ht⟩ := hdone.some 1
    (fun j hj hlt => by obtain rfl : j = 0 := by omega
                        rfl)
    ⟨by decide, by decide⟩
  exact ⟨t, hrun, ht⟩

/-! ## Listings that do not fit -/

/-- A listing is refused: nothing is written outside the buffer, the reply is an error, and a client
that gets it returns an error, reads inside the array and delivers nothing but names of the
directory. -/
structure ListingRefused (names : List Name) (ret : ReaddirRet) : Prop where
  inBounds : ∀ k, Writes names k → k < maxSize
  negative : ret.ret < 0
  client : ∀ {σ : Type} (w : Network σ) (s t : Station σ) (m : Mount) (unset : Unset)
    (path : CStr) (fi : FileInfo) (host : HostName) (isDegraded v : Int),
    w.chosen s = some (host, isDegraded) →
    w.answer host (.readdir ⟨fi.fd⟩) s.world = some (.readdir ret) →
    (bbReaddir m unset path fi).run w.machine s = .ok (v, t) →
    v < 0 ∧ (∀ name ∈ t.caller.names.drop s.caller.names.length, name ∈ names) ∧
      (ret.ret = 0 → ReadsInside w s.caller.names ret.count.toNat ret.entries)

/-- Over a truncated layout the client leaves the array. -/
theorem not_readsInside {σ : Type} {w : Network σ} {names : List Name}
    (hnul : ∀ name ∈ names, '\x00' ∉ name) (hfill : ∀ taken name, w.filler taken name = 0)
    (rest : List Char) {m : ℕ} (hbig : m < packedSize names) (taken : List CStr) :
    ¬ ReadsInside w taken names.length ((layout names ++ rest).take m) := by
  induction names generalizing taken m with
  | nil => exact absurd hbig (Nat.not_lt_zero m)
  | cons name names ih =>
      have hname : '\x00' ∉ name := hnul name (by simp)
      rw [layout_cons, List.append_assoc, List.cons_append]
      rintro ⟨hterm, hnext⟩
      by_cases hm : m ≤ name.length
      · -- The terminator of this name lies outside.
        rw [List.take_append_of_le_length hm] at hterm
        exact hname (List.mem_of_mem_take hterm)
      · have htake : (name ++ '\x00' :: (layout names ++ rest)).take m =
            name ++ '\x00' :: (layout names ++ rest).take (m - (name.length + 1)) := by
          obtain ⟨k, rfl⟩ : ∃ k, m = name.length + (k + 1) := ⟨m - (name.length + 1), by omega⟩
          rw [List.take_length_add_append, List.take_succ_cons]
          congr 3
          omega
        have hdrop : (name ++ '\x00' :: (layout names ++ rest).take (m - (name.length + 1))).drop
            (name.length + 1) = (layout names ++ rest).take (m - (name.length + 1)) := by
          rw [← List.drop_drop, List.drop_left, List.drop_one, List.tail_cons]
        rw [htake] at hnext
        simp only [takeWhile_name hname, hdrop] at hnext
        simp only [packedSize_cons] at hbig
        exact ih (fun name' hn => hnul name' (by simp [hn])) (by omega) _ (hnext (hfill _ _))

/-- **An oversized directory is never refused.**  Whatever is answered is a success; only the
terminator of the last name may be what does not fit, otherwise the loop leaves its buffer. -/
theorem oversized_accepted {a : Arrival} {fd : Int} {h : Host} {f : OpenFile} {parent : Ino}
    {es : List (Name × Ino)} (hreq : a.request = .readdir ⟨fd⟩) (hf : h.os.fds.file fd = some f)
    (hread : f.pathOnly = false ∧ f.readable = true) (hb : h.os.bodyOf f = some (.dir parent es))
    (hnames : ∀ name ∈ OS.names es, EntryName name)
    (hbig : maxSize < packedSize (OS.names es)) :
    (¬ ∃ ret h', serve a h = .ok (.readdir ret, h') ∧ ListingRefused (OS.names es) ret) ∧
    (∀ reply h', serve a h = .ok (reply, h') → reply.ret = 0) ∧
    ((∀ k, Writes (OS.names es) k → k < maxSize) ↔ packedSize (OS.names es) = maxSize + 1) := by
  have hsuccess : ∀ reply h', serve a h = .ok (reply, h') → reply.ret = 0 := by
    intro reply h' hr
    have hhandle : a.request.handle = some fd := by rw [hreq]; rfl
    rcases serve_handle hhandle hr with ⟨-, -, hret, -⟩ | ⟨hno, -, -⟩
    · exact hret
    · refine absurd ?_ (hno f hf)
      rw [hreq]
      exact ⟨hread.1, hread.2, parent, es, hb⟩
  refine ⟨?_, hsuccess, ?_⟩
  · rintro ⟨ret, h', hr, href⟩
    have hzero : ret.ret = 0 := hsuccess _ _ hr
    have hneg := href.negative
    omega
  · rw [writes_inBounds_iff fun name hn => (hnames name hn).1]
    omega

/-- A name of 255 bytes. -/
def longName (k : ℕ) : Name := List.replicate 254 'a' ++ [Char.ofNat (97 + k)]

/-- A volume whose `/DFS` has sixteen entries with long names: with `.` and `..` they need 4101
bytes. -/
def longNames : FS := .ofNodes <| [
  .plain (.dir 0 [("DFS".toList, 1)]) 0 0o755,
  .plain (.dir 0 ((List.range 16).map fun k => (longName k, k + 2))) 0 0o777] ++
  List.replicate 16 (.plain (.reg []) 1 0o600)

/-- A server with an open handle of this directory. -/
def longOpened : Host :=
  { Host.start longNames with os := { (Host.start longNames).os with
    fds := (Host.start longNames).os.fds.addFile (dirFile 1) } }

/-- The names of the long directory are names of entries. -/
theorem longNames_entries : ∀ name ∈ OS.names ((List.range 16).map fun k => (longName k, k + 2)),
    EntryName name := by
  unfold EntryName
  decide +kernel

/-- They take five bytes more than the buffer has. -/
theorem longNames_size :
    packedSize (OS.names ((List.range 16).map fun k => (longName k, k + 2))) = maxSize + 5 := by
  decide +kernel

/-- The server answers with a success. -/
theorem readdir_long : ∃ ret h', serve (.alone (.readdir ⟨0⟩)) longOpened =
    .ok (.readdir ret, h') ∧ ret.ret = 0 := by
  have hfds : longOpened.os.fds = Descriptors.addFile ⟨[], List.nodup_nil⟩ (streamAt 1 0) := rfl
  have hserve := serve_readdir (a := .alone (.readdir ⟨0⟩)) rfl hfds (by rfl) rfl
  rw [if_neg (by decide)] at hserve
  exact ⟨_, _, hserve, rfl⟩

/-- The long directory is accepted. -/
theorem oversized_accepted_long : ∃ reply h',
    serve (.alone (.readdir ⟨0⟩)) longOpened = .ok (reply, h') ∧ reply.ret = 0 := by
  obtain ⟨ret, h', hr, -⟩ := readdir_long
  exact ⟨_, h', hr, (oversized_accepted (a := .alone (.readdir ⟨0⟩)) (h := longOpened)
    (f := dirFile 1) rfl (by rfl) ⟨rfl, rfl⟩ (by rfl) longNames_entries
    (by rw [longNames_size]; decide)).2.1 _ _ hr⟩

/-- Sixteen long names are answered with success. -/
theorem oversized_corrupts : ¬ ∀ (a : Arrival) (fd : Int) (h : Host) (f : OpenFile) (parent : Ino)
    (es : List (Name × Ino)), a.request = .readdir ⟨fd⟩ → h.os.fds.file fd = some f →
    f.pathOnly = false ∧ f.readable = true → h.os.bodyOf f = some (.dir parent es) →
    (∀ name ∈ OS.names es, EntryName name) → maxSize < packedSize (OS.names es) →
    ∃ ret h', serve a h = .ok (.readdir ret, h') ∧ ListingRefused (OS.names es) ret := by
  intro hall
  obtain ⟨ret, h', hr, href⟩ := hall (.alone (.readdir ⟨0⟩)) 0 longOpened (dirFile 1) 0 _ rfl
    (by rfl) ⟨rfl, rfl⟩ (by rfl) longNames_entries (by rw [longNames_size]; decide)
  obtain ⟨ret', h'', hr', hzero⟩ := readdir_long
  obtain rfl : ret = ret' :=
    Reply.readdir.inj (congrArg Prod.fst (Except.ok.inj (hr.symm.trans hr')))
  have hneg := href.negative
  omega

end Client

end DFS
