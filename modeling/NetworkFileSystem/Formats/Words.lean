import Mathlib.Algebra.Order.Ring.Int
import Mathlib.Tactic.Common

/-!
# Numbers in words of 32 bits

A format whose words have 32 bits carries a number by its lowest 32 bits.  The reader gets a 32-bit
value and widens it, by its sign or with zeros.  A number arrives as it was exactly when it is one
of those that the reader can produce.
-/

namespace Words

/-- How a word is widened. -/
inductive Extension
  | sign | zero
  deriving DecidableEq, Repr

/-- A word as an integer of 32 bits. -/
def int (w : UInt32) : Int := w.toInt32.toInt

namespace Extension

/-- A word as a signed integer of 64 bits. -/
def long : Extension → UInt32 → Int
  | sign, w => int w
  | zero, w => w.toNat

/-- A word as an unsigned integer of 64 bits. -/
def ulong : Extension → UInt32 → ℕ
  | sign, w => (UInt64.ofInt (int w)).toNat
  | zero, w => w.toNat

end Extension

/-- The integers of 32 bits. -/
def IsInt (x : Int) : Prop := -2 ^ 31 ≤ x ∧ x < 2 ^ 31

instance (x : Int) : Decidable (IsInt x) := inferInstanceAs (Decidable (_ ∧ _))

/-- The numbers of 64 bits that are an integer of 32 bits when they are read with a sign. -/
def IsWide (x : Int) : Prop := (0 ≤ x ∧ x < 2 ^ 31) ∨ (2 ^ 64 - 2 ^ 31 ≤ x ∧ x < 2 ^ 64)

instance (x : Int) : Decidable (IsWide x) := inferInstanceAs (Decidable (_ ∨ _))

/-- The integers that a reader gets from a word as a `long`. -/
def Extension.IsLong : Extension → Int → Prop
  | sign, x => IsInt x
  | zero, x => 0 ≤ x ∧ x < 2 ^ 32

/-- The numbers that a reader gets from a word as an `unsigned long`. -/
def Extension.IsUlong : Extension → ℕ → Prop
  | sign, x => IsWide x
  | zero, x => x < 2 ^ 32

instance (e : Extension) (x : Int) : Decidable (e.IsLong x) :=
  match e with
  | .sign => inferInstanceAs (Decidable (IsInt x))
  | .zero => inferInstanceAs (Decidable (_ ∧ _))

instance (e : Extension) (x : ℕ) : Decidable (e.IsUlong x) :=
  match e with
  | .sign => inferInstanceAs (Decidable (IsWide x))
  | .zero => inferInstanceAs (Decidable (x < 2 ^ 32))

variable (e : Extension)

/-- A 32-bit word holds an integer modulo `2 ^ 32`. -/
theorem toNat_ofInt32 (x : Int) : (UInt32.ofInt x).toNat = (x % 2 ^ 32).toNat :=
  UInt32.toNat_ofNat_of_lt' (show (x % 2 ^ 32).toNat < 2 ^ 32 by omega)

/-- A 64-bit word holds an integer modulo `2 ^ 64`. -/
theorem toNat_ofInt64 (x : Int) : (UInt64.ofInt x).toNat = (x % 2 ^ 64).toNat :=
  UInt64.toNat_ofNat_of_lt' (show (x % 2 ^ 64).toNat < 2 ^ 64 by omega)

/-- The `int` with the bits of a word is the word, or that minus `2 ^ 32`. -/
theorem int_eq (w : UInt32) :
    int w = if w.toNat < 2 ^ 31 then (w.toNat : Int) else w.toNat - 2 ^ 32 := by
  have hlt := w.toNat_lt
  have hbmod : int w = Int.bmod w.toNat (2 ^ 32) := BitVec.toInt_eq_toNat_bmod _
  rw [hbmod, Int.bmod_def]
  split <;> split <;> omega

/-- An integer of 32 bits survives. -/
theorem int_ofInt_iff (x : Int) : int (UInt32.ofInt x) = x ↔ IsInt x := by
  rw [int_eq, toNat_ofInt32, IsInt]
  split <;> omega

/-- The bits of a word survive. -/
theorem ofInt_int (w : UInt32) : UInt32.ofInt (int w) = w := by
  have hlt := w.toNat_lt
  refine UInt32.toNat.inj ?_
  rw [toNat_ofInt32, int_eq]
  split <;> omega

/-- The bits of a word survive, whichever way it is widened. -/
theorem ofInt_long (w : UInt32) : UInt32.ofInt (e.long w) = w := by
  cases e with
  | sign => exact ofInt_int w
  | zero =>
      have hlt := w.toNat_lt
      refine UInt32.toNat.inj ?_
      show (UInt32.ofInt (w.toNat : Int)).toNat = w.toNat
      rw [toNat_ofInt32]
      omega

/-- The numbers that the widening to a `long` gives back. -/
theorem long_ofInt_iff (x : Int) : e.long (UInt32.ofInt x) = x ↔ e.IsLong x := by
  cases e with
  | sign => exact int_ofInt_iff x
  | zero =>
      show ((UInt32.ofInt x).toNat : Int) = x ↔ 0 ≤ x ∧ x < 2 ^ 32
      rw [toNat_ofInt32]
      omega

/-- The numbers that the widening to an `unsigned long` gives back. -/
theorem ulong_ofNat_iff (x : ℕ) : e.ulong (UInt32.ofNat x) = x ↔ e.IsUlong x := by
  have hnat : (UInt32.ofNat x).toNat = x % 2 ^ 32 := UInt32.toNat_ofNat'
  cases e with
  | sign =>
      show (UInt64.ofInt (int (UInt32.ofNat x))).toNat = x ↔ IsWide x
      rw [toNat_ofInt64, int_eq, hnat, IsWide]
      split <;> omega
  | zero =>
      show (UInt32.ofNat x).toNat = x ↔ x < 2 ^ 32
      rw [hnat]
      omega

/-- A number of 64 bits that passes through an integer of 32 bits. -/
theorem wide_int_iff (x : Int) :
    ((UInt64.ofInt (int (UInt32.ofInt x))).toNat : Int) = x ↔ IsWide x := by
  rw [toNat_ofInt64, int_eq, toNat_ofInt32, IsWide]
  split <;> omega

end Words
