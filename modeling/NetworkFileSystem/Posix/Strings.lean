import Mathlib.Data.List.TakeWhile
import NetworkFileSystem.Posix.Tree

/-!
# Numbers in strings

`atoi` as the C library computes it: `strtol` in base ten (leading white space, one sign, as many
digits as there are, saturating at the bounds of `long`), converted to `int`.
-/

namespace Posix

def isSpace (c : Char) : Bool :=
  c = ' ' ∨ c = '\t' ∨ c = '\n' ∨ c = '\x0b' ∨ c = '\x0c' ∨ c = '\r'

def isDigit (c : Char) : Bool := '0' ≤ c ∧ c ≤ '9'

/-- The value of a digit: `c - '0'`. -/
def digitVal (c : Char) : ℕ := c.toNat - 48

/-- The number that a string of digits spells. -/
def decimal (s : CStr) : ℕ := s.foldl (fun acc c => acc * 10 + digitVal c) 0

abbrev longMin : Int := -2 ^ 63

abbrev longMax : Int := 2 ^ 63 - 1

def strtol (s : CStr) : Int :=
  let s := s.dropWhile isSpace
  let magnitude : CStr → Int := fun t => decimal (t.takeWhile isDigit)
  let value : Int := match s with
    | '-' :: t => -magnitude t
    | '+' :: t => magnitude t
    | t => magnitude t
  max longMin (min longMax value)

def atoi (s : CStr) : Int32 := Int32.ofInt (strtol s)

example : atoi "  -42x".toList = -42 := by decide

/-- `%u`. -/
def printUnsigned (v : UInt32) : CStr := Nat.toDigits 10 v.toNat

/-! ## Printing and reading back -/

/-- The value of a decimal, most significant digit first. -/
theorem decimal_eq (s : CStr) : decimal s = Nat.ofDigitChars 10 s 0 := by
  unfold decimal
  rw [Nat.ofDigitChars_eq_foldl]
  congr 1
  funext acc c
  rw [Nat.mul_comm]
  rfl

/-- A printed number consists of digits. -/
theorem isDigit_of_mem_toDigits {c : Char} {n : ℕ} (hc : c ∈ Nat.toDigits 10 n) :
    isDigit c = true := by
  have h := Nat.isDigit_of_mem_toDigits (by decide) (by decide) hc
  simpa [Char.isDigit, isDigit, Char.le_def] using h

/-- What starts with a digit starts with neither white space nor a sign. -/
theorem strtol_digits {s : CStr} (hne : s ≠ []) (hs : ∀ c ∈ s, isDigit c = true) :
    strtol s = max longMin (min longMax (decimal s : Int)) := by
  obtain ⟨c, t, rfl⟩ := List.exists_cons_of_ne_nil hne
  have hc : isDigit c = true := hs c List.mem_cons_self
  have hspace : isSpace c = false := by
    by_contra h
    simp only [isSpace, decide_eq_true_eq, Bool.not_eq_false] at h
    rcases h with rfl | rfl | rfl | rfl | rfl | rfl <;> exact absurd hc (by decide)
  have hminus : c ≠ '-' := by
    rintro rfl
    exact absurd hc (by decide)
  have hplus : c ≠ '+' := by
    rintro rfl
    exact absurd hc (by decide)
  have htake : (c :: t).takeWhile isDigit = c :: t :=
    List.takeWhile_eq_self_iff.mpr hs
  unfold strtol
  rw [List.dropWhile_cons_of_neg (by simp [hspace])]
  dsimp only
  split
  · next h => cases h; exact absurd rfl hminus
  · next h => cases h; exact absurd rfl hplus
  · rw [htake]

/-- Reading back what was printed yields the same bits, as a signed number. -/
theorem atoi_printUnsigned (v : UInt32) : (atoi (printUnsigned v)).toUInt32 = v := by
  have hv : v.toNat < 2 ^ 32 := v.toNat_lt
  have hdec : decimal (printUnsigned v) = v.toNat := by
    rw [decimal_eq, printUnsigned, Nat.ofDigitChars_ten_toDigits]
  have hdigits : ∀ c ∈ printUnsigned v, isDigit c = true :=
    fun c hc => isDigit_of_mem_toDigits hc
  have hne : printUnsigned v ≠ [] := Nat.toDigits_ne_nil
  have hlong : strtol (printUnsigned v) = v.toNat := by
    rw [strtol_digits hne hdigits, hdec]
    simp only [longMin, longMax]
    omega
  unfold atoi
  rw [hlong]
  -- Narrowing to `int` and widening again keep the 32 bits.
  refine UInt32.toBitVec_inj.mp ?_
  change BitVec.ofInt 32 (v.toNat : Int) = v.toBitVec
  rw [BitVec.ofInt_natCast]
  exact BitVec.ofNat_toNat ..

end Posix
