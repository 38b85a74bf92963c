import NetworkFileSystem.Server.Access

/-!
# Who a client is (`tweakfs.c`, lines 84-136)

A client names itself to the server by a number made from its address: `ip_to_int` folds the
octets of the dotted form, `get_ip_addr` prints the result with `%u`, and the server reads it back
with `atoi`.  The round trip through the string loses nothing (`atoi_printUnsigned`).

`ip_to_int` only folds an octet in when it meets the dot behind it, so the last octet is dropped:
the number of `a.b.c.d` is `(a * 256 + b) * 256 + c` (**`ipToInt_text`**), and two clients are told
apart exactly when they differ before the last dot (**`owners_differ_iff`**).
-/

namespace DFS

open Posix

/-! ## The code -/

/-- The loop of `ip_to_int`, with its two accumulators. -/
def ipToIntFrom : CStr → UInt32 → UInt32 → UInt32
  | [], resVal, _ => resVal
  | c :: rest, resVal, curVal =>
    if c = '.' then ipToIntFrom rest (resVal * 256 + curVal) 0
    else ipToIntFrom rest resVal (curVal * 10 + (UInt32.ofNat c.toNat - 48))

/-- `ip_to_int`. -/
def ipToInt (ip : CStr) : UInt32 := ipToIntFrom ip 0 0

/-- `get_ip`: the dotted address of the host, as `inet_ntoa` writes it, in a buffer of 20. -/
def getIp (hostAddress : CStr) : CStr := hostAddress.take 20

/-- `get_ip_addr`: what a client sends as its `ip`. -/
def getIpAddr (hostAddress : CStr) : CStr := printUnsigned (ipToInt (getIp hostAddress))

/-! ## Addresses -/

/-- An address of four octets. -/
structure Address where
  a : UInt8
  b : UInt8
  c : UInt8
  d : UInt8
  deriving DecidableEq, Repr

namespace Address

/-- The decimal digits of an octet. -/
def octet (v : UInt8) : CStr := Nat.toDigits 10 v.toNat

/-- The dotted-decimal form, without leading zeros. -/
def text (x : Address) : CStr :=
  octet x.a ++ '.' :: (octet x.b ++ '.' :: (octet x.c ++ '.' :: octet x.d))

/-- The 32-bit number of an address. -/
def value (x : Address) : ℕ :=
  ((x.a.toNat * 256 + x.b.toNat) * 256 + x.c.toNat) * 256 + x.d.toNat

/-- The number of the first three octets. -/
def network (x : Address) : ℕ := (x.a.toNat * 256 + x.b.toNat) * 256 + x.c.toNat

example : text ⟨10, 148, 54, 200⟩ = "10.148.54.200".toList := by decide

/-- The three octets that are added have 24 bits. -/
theorem network_lt (x : Address) : x.network < 2 ^ 24 := by
  have ha := x.a.toNat_lt
  have hb := x.b.toNat_lt
  have hc := x.c.toNat_lt
  unfold network
  omega

/-- The network is made of the first three octets. -/
theorem network_eq_iff {x y : Address} :
    x.network = y.network ↔ x.a = y.a ∧ x.b = y.b ∧ x.c = y.c := by
  have hxb := x.b.toNat_lt
  have hxc := x.c.toNat_lt
  have hyb := y.b.toNat_lt
  have hyc := y.c.toNat_lt
  rw [← UInt8.toNat_inj, ← UInt8.toNat_inj, ← UInt8.toNat_inj]
  unfold network
  omega

end Address

/-- The owner that the server gives to what a client at this address creates. -/
def ownerId (x : Address) : UInt32 := (atoi (getIpAddr x.text)).toUInt32

/-! ## What the loop computes -/

/-- Over digits, the loop reads a decimal number. -/
theorem ipToIntFrom_digits {d : CStr} (hds : ∀ c ∈ d, isDigit c = true) (rest : CStr)
    (resVal : UInt32) (k : ℕ) : ipToIntFrom (d ++ rest) resVal (UInt32.ofNat k) =
      ipToIntFrom rest resVal (UInt32.ofNat (Nat.ofDigitChars 10 d k)) := by
  induction d generalizing k with
  | nil => rfl
  | cons c d ih =>
      obtain ⟨hlo, -⟩ : '0' ≤ c ∧ c ≤ '9' := by simpa [isDigit] using hds c List.mem_cons_self
      have h48 : 48 ≤ c.toNat := hlo
      have hdot : c ≠ '.' := by
        rintro rfl
        exact absurd h48 (by decide)
      have hstep : UInt32.ofNat k * 10 + (UInt32.ofNat c.toNat - 48) =
          UInt32.ofNat (10 * k + (c.toNat - 48)) := by
        rw [UInt32.ofNat_add, UInt32.ofNat_mul, UInt32.ofNat_sub h48, UInt32.mul_comm]
        rfl
      rw [List.cons_append, ipToIntFrom, if_neg hdot, hstep,
        ih (fun c' hc' => hds c' (List.mem_cons_of_mem c hc')), Nat.ofDigitChars_cons]
      rfl

/-- The loop reads one octet. -/
theorem ipToIntFrom_octet (v : UInt8) (rest : CStr) (resVal : UInt32) :
    ipToIntFrom (Address.octet v ++ rest) resVal 0 =
      ipToIntFrom rest resVal (UInt32.ofNat v.toNat) := by
  have h := ipToIntFrom_digits (d := Address.octet v)
    (fun c hc => isDigit_of_mem_toDigits hc) rest resVal 0
  rw [Address.octet, Nat.ofDigitChars_ten_toDigits] at h
  exact h

/-- The last octet stays in the second accumulator. -/
theorem ipToInt_text (x : Address) : ipToInt x.text = UInt32.ofNat x.network := by
  have hlast : ∀ r, ipToIntFrom (Address.octet x.d) r 0 = r := by
    intro r
    rw [← List.append_nil (Address.octet x.d), ipToIntFrom_octet]
    rfl
  unfold ipToInt Address.text
  rw [ipToIntFrom_octet, ipToIntFrom, if_pos rfl, ipToIntFrom_octet, ipToIntFrom, if_pos rfl,
    ipToIntFrom_octet, ipToIntFrom, if_pos rfl, hlast]
  rw [UInt32.zero_mul, UInt32.zero_add, Address.network, UInt32.ofNat_add, UInt32.ofNat_mul,
    UInt32.ofNat_add, UInt32.ofNat_mul]
  have h256 : UInt32.ofNat 256 = 256 := rfl
  rw [h256]

/-- An octet is written with three digits at most. -/
theorem length_octet_le (v : UInt8) : (Address.octet v).length ≤ 3 := by
  refine (Nat.length_toDigits_le_iff (by decide) (by decide)).mpr ?_
  exact Nat.lt_trans v.toNat_lt (by decide)

/-- The dotted form fits the buffer. -/
theorem getIp_text (x : Address) : getIp x.text = x.text := by
  have ha := length_octet_le x.a
  have hb := length_octet_le x.b
  have hc := length_octet_le x.c
  have hd := length_octet_le x.d
  refine List.take_of_length_le ?_
  simp only [Address.text, List.length_append, List.length_cons]
  omega

/-- The owner is the number of the first three octets. -/
theorem ownerId_eq (x : Address) : ownerId x = UInt32.ofNat x.network := by
  rw [ownerId, getIpAddr, getIp_text, atoi_printUnsigned, ipToInt_text]

/-- So the sum fits into the `int`. -/
theorem toNat_network (x : Address) : (UInt32.ofNat x.network).toNat = x.network := by
  have h := x.network_lt
  exact UInt32.toNat_ofNat_of_lt' (Nat.lt_trans h (by decide))

/-- **Which clients are told apart.**  Distinct addresses get distinct owners exactly when they
differ in one of the first three octets, and the number of an address is its 32-bit value for
`0.0.0.0` only. -/
theorem owners_differ_iff (x y : Address) :
    ((x ≠ y → ownerId x ≠ ownerId y) ↔ x = y ∨ ¬(x.a = y.a ∧ x.b = y.b ∧ x.c = y.c)) ∧
    ((ipToInt x.text).toNat = x.value ↔ x = ⟨0, 0, 0, 0⟩) := by
  have howner : ownerId x = ownerId y ↔ x.a = y.a ∧ x.b = y.b ∧ x.c = y.c := by
    rw [← Address.network_eq_iff, ownerId_eq, ownerId_eq, ← UInt32.toNat_inj, toNat_network,
      toNat_network]
  constructor
  · rw [Ne, Ne, howner]
    tauto
  · rw [ipToInt_text, toNat_network]
    obtain ⟨a, b, c, d⟩ := x
    simp only [Address.network, Address.value, Address.mk.injEq, ← UInt8.toNat_inj]
    have h0 : (0 : UInt8).toNat = 0 := rfl
    rw [h0]
    omega

/-- Two hosts of one network are the same owner, and neither has its address for a number. -/
theorem owners_collide : ¬ ((∀ x y : Address, x ≠ y → ownerId x ≠ ownerId y) ∧
    ∀ x : Address, (ipToInt x.text).toNat = x.value) := by
  rintro ⟨hdiff, -⟩
  exact hdiff ⟨10, 0, 0, 1⟩ ⟨10, 0, 0, 2⟩ (by decide) (by decide)

end DFS
