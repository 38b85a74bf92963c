import NetworkFileSystem.Client.Offsets
import NetworkFileSystem.Sequences.Pieces
import NetworkFileSystem.Service.Portions

/-!
# One client and one server, round by round

The network of a client that reads or writes an open file in several rounds.  Between two rounds
the server may do something for others; in each of them it moves as much as it likes.
-/

namespace DFS

open Effects Posix Prog

namespace Client

/-- What the rounds of a client meet: the host it talks to, how much each transfer moves at most,
what the server does for others before a round, and what it finds in memory and at its peer. -/
structure Course where
  here : HostName
  limit : ℕ → ℕ
  meanwhile : ℕ → Host → Host
  around : ℕ → Relay
  filler : List CStr → CStr → Int

/-- The arrival of a request in the `k`-th round. -/
def Course.arrival (c : Course) (r : Request) (k : ℕ) : Arrival :=
  ⟨r, (c.around k).stale, (c.around k).peer⟩

/-- The network with the server alone, and the number of the round. -/
def Course.network (c : Course) : Network (Host × ℕ) where
  up host _ := host = c.here
  call _ r w :=
    match serveUnder (cutShort (c.limit w.2)) (c.arrival r w.2) (c.meanwhile w.2 w.1) with
    | .ok (reply, h) => (some reply, (h, w.2 + 1))
    | .error _ => (none, (c.meanwhile w.2 w.1, w.2 + 1))
  filler := c.filler

variable {c : Course} {w : Host × ℕ} {s : Station (Host × ℕ)} {host : HostName} {d : List UInt8}
  {i : Ino} {clnt : Clnt} {append : Bool}

/-- The client turns to the host of the course. -/
theorem course_chosen (s : Station (Host × ℕ)) :
    ∃ isDegraded, c.network.chosen s = some (c.here, isDegraded) := by
  unfold Network.chosen
  cases hhere : c.here with
  | host1 => exact ⟨_, if_pos (by simp [Course.network, hhere])⟩
  | host2 =>
      rw [if_neg (by simp [Course.network, hhere]), if_pos (by simp [Course.network, hhere])]
      exact ⟨_, rfl⟩

/-- Every request is a round. -/
theorem course_next (r : Request) : (c.network.call host r w).2.2 = w.2 + 1 := by
  simp only [Course.network]
  split <;> rfl

/-- What a round of reading gets. -/
theorem course_read {arg : ReadArg} (hopen : ReadsFrom arg.fd i d (c.meanwhile w.2 w.1).os) :
    c.network.answer host (.read arg) w =
      some (.read ⟨(Opaque.ofBytes (piece d arg.offset.toNat arg.size.toNat (c.limit w.2))).bytes,
        (piece d arg.offset.toNat arg.size.toNat (c.limit w.2)).length, 0⟩) ∧
    (c.network.call host (.read arg) w).2 =
      ({ c.meanwhile w.2 w.1 with os := (c.meanwhile w.2 w.1).os.released arg.fd }, w.2 + 1) := by
  have hserve : serveUnder (cutShort (c.limit w.2)) (c.arrival (.read arg) w.2)
    (c.meanwhile w.2 w.1) = _ := serve_read_short hopen
  unfold Network.answer
  simp only [Course.network, hserve]
  exact ⟨rfl, trivial⟩

/-- What a round of writing gets. -/
theorem course_write {arg : WriteArg} (hrole : ¬ arg.byPath)
    (hopen : WritesAs append arg.fd i d (c.meanwhile w.2 w.1).os) :
    c.network.answer host (.write arg) w =
      some (.write ⟨(portion (c.meanwhile w.2 w.1).os arg (c.limit w.2)).length, 0⟩) ∧
    ∃ sent, (c.network.call host (.write arg) w).2 =
      (⟨((c.meanwhile w.2 w.1).os.rewritten i (splice d (landing append d arg.offset.toNat)
        (portion (c.meanwhile w.2 w.1).os arg (c.limit w.2)))).released arg.fd, sent⟩,
        w.2 + 1) := by
  obtain ⟨sent, hsent⟩ := @serve_write_short append i d (c.around w.2).peer _
    (c.around w.2).stale arg (c.limit w.2) hrole hopen
  have hserve : serveUnder (cutShort (c.limit w.2)) (c.arrival (.write arg) w.2)
    (c.meanwhile w.2 w.1) = _ := hsent
  unfold Network.answer
  simp only [Course.network, hserve]
  exact ⟨rfl, sent, rfl⟩

/-! ## The data buffer -/

/-- The bytes of the data buffer from `pos` on. -/
def Caller.bytes (c : Caller) (pos : Int) (n : ℕ) : List UInt8 :=
  (List.range n).map fun k : ℕ => c.data (pos + k)

@[simp] theorem length_bytes (c : Caller) (pos : Int) (n : ℕ) : (c.bytes pos n).length = n := by
  simp [Caller.bytes]

/-- The bytes of two stretches in a row. -/
theorem bytes_append (b : Caller) (pos : Int) (m n : ℕ) :
    b.bytes pos (m + n) = b.bytes pos m ++ b.bytes (pos + m) n := by
  unfold Caller.bytes
  rw [List.range_add, List.map_append, List.map_map]
  congr 1
  refine List.map_congr_left fun k _ => ?_
  show b.data (pos + ((m + k : ℕ) : Int)) = b.data (pos + m + k)
  congr 1
  omega

/-- The first bytes of a stretch. -/
theorem bytes_take (b : Caller) (pos : Int) {m n : ℕ} (h : m ≤ n) :
    (b.bytes pos n).take m = b.bytes pos m := by
  obtain ⟨k, rfl⟩ := Nat.exists_eq_add_of_le h
  rw [bytes_append, List.take_left' (length_bytes b pos m)]

/-- A block that is loaded holds the bytes of the caller's buffer. -/
theorem bytes_load (b : Caller) (pos : Int) : (b.load pos).bytes = b.bytes pos maxSize := by
  simp only [Caller.load, Caller.bytes]

/-- A buffer of full length is kept as it is. -/
theorem ofBytes_self {l : List UInt8} (h : l.length = maxSize) : (Opaque.ofBytes l).bytes = l := by
  show l.take maxSize ++ List.replicate (maxSize - l.length) 0 = l
  rw [h, Nat.sub_self, ← h, List.take_length]
  exact List.append_nil l

/-- What lies in front of the place where bytes are put stays. -/
theorem bytes_store_before (b : Caller) (n : ℕ) (o : Opaque) :
    (b.store n o).bytes 0 n = b.bytes 0 n := by
  unfold Caller.bytes
  refine List.map_congr_left fun k hk => ?_
  have hlt := List.mem_range.mp hk
  show (if (n : Int) ≤ 0 + (k : Int) ∧ _ then _ else b.data (0 + k)) = b.data (0 + k)
  rw [if_neg (by omega)]

/-- The bytes that were put there. -/
theorem bytes_store_there (b : Caller) (pos : Int) (o : Opaque) {n : ℕ} (h : n ≤ maxSize) :
    (b.store pos o).bytes pos n = o.bytes.take n := by
  have hlen := o.length_eq
  refine List.ext_getElem (by simp [hlen, h]) fun k hk hk' => ?_
  have hkn : k < n := by simpa using hk
  have hko : k < o.bytes.length := by omega
  have hbytes : ((b.store pos o).bytes pos n)[k] = (b.store pos o).data (pos + k) := by
    simp [Caller.bytes]
  have hdata : (b.store pos o).data (pos + k) = o.bytes.getD (pos + (k : Int) - pos).toNat 0 :=
    if_pos (by omega)
  rw [hbytes, hdata, List.getElem_take, show (pos + (k : Int) - pos).toNat = k by omega]
  simp [hko]

/-! ## A server with one open file -/

/-- A volume with one file in `/DFS`. -/
def fileOf (d : List UInt8) : FS := .ofNodes [
  .plain (.dir 0 [("DFS".toList, 1)]) 0 0o755,
  .plain (.dir 0 [("f".toList, 2)]) 0 0o777,
  .plain (.reg d) 1 0o600]

/-- A server with this file open, for reading as 0 and for writing as 1, and some memory behind
its message buffer. -/
def serving (d beyond : List UInt8) : Host where
  os := { OS.start (fileOf d) with
    beyond := beyond
    fds := ⟨[(0, OS.opened O_RDONLY 2), (1, OS.opened O_WRONLY 2)], by decide⟩ }
  sent := []

/-- The server has the file open for reading as 0. -/
theorem serving_reads (d beyond : List UInt8) : ReadsFrom 0 2 d (serving d beyond).os :=
  ⟨⟨OS.opened O_RDONLY 2, rfl, rfl, rfl, rfl⟩, rfl, rfl⟩

/-- The server has the file open for writing as 1. -/
theorem serving_writes (d beyond : List UInt8) : WritesTo 1 2 d (serving d beyond).os :=
  ⟨⟨OS.opened O_WRONLY 2, rfl, rfl, rfl, rfl, rfl⟩, rfl, rfl⟩

/-- A server that does nothing else. -/
def Course.quiet (limit : ℕ → ℕ) : Course :=
  ⟨.host1, limit, fun _ h => h, fun _ => ⟨.zero, .absent⟩, fun _ _ => 0⟩

/-- A client at this server. -/
def atServer (h : Host) (data : Int → UInt8) : Station (Host × ℕ) :=
  ⟨(h, 0), { Caller.blank with data := data }, true, [], 0, []⟩

end Client

end DFS
