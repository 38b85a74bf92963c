import NetworkFileSystem.Formats.Words
import Mathlib.Data.List.TakeWhile

/-!
# Values on a stream of bytes

A `Codec` puts the values of a type on a stream and takes them off again.  Two laws come with it:
a value that fits is taken off as it was put on, whatever follows on the stream; and whatever is
taken off fits.

The codecs here are those of the external data representation: everything takes a multiple of four
bytes, a number is one word with its high byte first, and what is shorter is filled up.
-/

/-- How the values of a type stand on a stream. -/
structure Codec (α : Type) where
  put : α → Option (List UInt8)
  get : List UInt8 → Option (α × List UInt8)
  /-- The values that a stream can hold. -/
  fits : α → Prop
  get_put : ∀ a, fits a →
    ∃ bytes, put a = some bytes ∧ ∀ rest, get (bytes ++ rest) = some (a, rest)
  fits_of_get : ∀ l a rest, get l = some (a, rest) → fits a

namespace Codec

variable {α β : Type}

/-- One value after the other. -/
def and (c : Codec α) (d : Codec β) : Codec (α × β) where
  put v := (c.put v.1).bind fun l => (d.put v.2).map fun l' => l ++ l'
  get l := (c.get l).bind fun r => (d.get r.2).map fun r' => ((r.1, r'.1), r'.2)
  fits v := c.fits v.1 ∧ d.fits v.2
  get_put v hv := by
    obtain ⟨l, hput, hget⟩ := c.get_put v.1 hv.1
    obtain ⟨l', hput', hget'⟩ := d.get_put v.2 hv.2
    refine ⟨l ++ l', by simp [hput, hput'], fun rest => ?_⟩
    simp [List.append_assoc, hget, hget']
  fits_of_get l v rest h := by
    simp only [Option.bind_eq_some_iff, Option.map_eq_some_iff] at h
    obtain ⟨r, hr, r', hr', hv⟩ := h
    obtain rfl : (r.1, r'.1) = v := congrArg Prod.fst hv
    exact ⟨c.fits_of_get l r.1 r.2 hr, d.fits_of_get r.2 r'.1 r'.2 hr'⟩

/-- The same under another representation: a value fits when it is the one that comes back. -/
def as (c : Codec α) (f : β → α) (g : α → β) (h : ∀ a, c.fits a → f (g a) = a) : Codec β where
  put b := c.put (f b)
  get l := (c.get l).map fun r => (g r.1, r.2)
  fits b := c.fits (f b) ∧ g (f b) = b
  get_put b hb := by
    obtain ⟨l, hput, hget⟩ := c.get_put (f b) hb.1
    exact ⟨l, hput, fun rest => by simp [hget, hb.2]⟩
  fits_of_get l b rest hb := by
    obtain ⟨r, hr, heq⟩ := Option.map_eq_some_iff.mp hb
    obtain rfl : g r.1 = b := congrArg Prod.fst heq
    have hfits := c.fits_of_get l r.1 r.2 hr
    rw [h r.1 hfits]
    exact ⟨hfits, rfl⟩

/-- The same, refusing to put on what does not have a property. -/
def only (c : Codec α) (p : α → Prop) [DecidablePred p] (h : ∀ a, c.fits a → p a) :
    Codec α where
  put a := if p a then c.put a else none
  get := c.get
  fits := c.fits
  get_put a ha := by
    rw [if_pos (h a ha)]
    exact c.get_put a ha
  fits_of_get := c.fits_of_get

@[simp] theorem fits_and (c : Codec α) (d : Codec β) (v : α × β) :
    (c.and d).fits v ↔ c.fits v.1 ∧ d.fits v.2 := Iff.rfl

@[simp] theorem fits_as (c : Codec α) (f : β → α) (g : α → β) (h : ∀ a, c.fits a → f (g a) = a)
    (b : β) : (c.as f g h).fits b ↔ c.fits (f b) ∧ g (f b) = b := Iff.rfl

@[simp] theorem fits_only (c : Codec α) (p : α → Prop) [DecidablePred p]
    (h : ∀ a, c.fits a → p a) (a : α) : (c.only p h).fits a ↔ c.fits a := Iff.rfl

/-- Everything can be put on, whether it fits or not. -/
def Total (c : Codec α) : Prop := ∀ a, ∃ bytes, c.put a = some bytes

/-- A pair is always written when both its parts are. -/
theorem Total.and {c : Codec α} {d : Codec β} (hc : c.Total) (hd : d.Total) : (c.and d).Total := by
  intro v
  obtain ⟨l, hl⟩ := hc v.1
  obtain ⟨l', hl'⟩ := hd v.2
  exact ⟨l ++ l', by simp [Codec.and, hl, hl']⟩

/-- What is written as something else is always written when that is. -/
theorem Total.as {c : Codec α} {f : β → α} {g : α → β} {h : ∀ a, c.fits a → f (g a) = a}
    (hc : c.Total) : (c.as f g h).Total := fun b => hc (f b)

/-- A whole message: what follows on the stream is left alone. -/
theorem get_of_put (c : Codec α) {a : α} {bytes : List UInt8} (ha : c.fits a)
    (h : c.put a = some bytes) : c.get bytes = some (a, []) := by
  obtain ⟨l, hput, hget⟩ := c.get_put a ha
  obtain rfl : l = bytes := Option.some.inj (hput.symm.trans h)
  simpa using hget []

end Codec

namespace Xdr

open Words

/-! ## Numbers -/

/-- A word, its high byte first. -/
def bytesOf (w : UInt32) : List UInt8 :=
  [.ofNat (w.toNat / 2 ^ 24), .ofNat (w.toNat / 2 ^ 16), .ofNat (w.toNat / 2 ^ 8), .ofNat w.toNat]

/-- The word of four bytes. -/
def wordOf (a b c d : UInt8) : UInt32 :=
  .ofNat (((a.toNat * 256 + b.toNat) * 256 + c.toNat) * 256 + d.toNat)

/-- The four bytes of a word, most significant first, make the word again. -/
theorem wordOf_bytesOf (w : UInt32) : wordOf (.ofNat (w.toNat / 2 ^ 24)) (.ofNat (w.toNat / 2 ^ 16))
    (.ofNat (w.toNat / 2 ^ 8)) (.ofNat w.toNat) = w := by
  have hlt := w.toNat_lt
  refine UInt32.toNat.inj ?_
  rw [wordOf, UInt32.toNat_ofNat']
  simp only [UInt8.toNat_ofNat']
  omega

/-- The first word of a stream. -/
def takeWord : List UInt8 → Option (UInt32 × List UInt8)
  | a :: b :: c :: d :: rest => some (wordOf a b c d, rest)
  | _ => none

/-- A word is read back, whatever follows it. -/
theorem takeWord_append (w : UInt32) (rest : List UInt8) :
    takeWord (bytesOf w ++ rest) = some (w, rest) := by
  simp only [bytesOf, List.cons_append, List.nil_append, takeWord, wordOf_bytesOf]

/-- One word. -/
def word : Codec UInt32 where
  put w := some (bytesOf w)
  get := takeWord
  fits _ := True
  get_put w _ := ⟨bytesOf w, rfl, fun rest => takeWord_append w rest⟩
  fits_of_get _ _ _ _ := trivial

@[simp] theorem fits_word (w : UInt32) : word.fits w := trivial

/-- Every word can be written. -/
theorem total_word : word.Total := fun w => ⟨bytesOf w, rfl⟩

/-- An integer of 32 bits. -/
def int : Codec Int := word.as UInt32.ofInt Words.int fun w _ => ofInt_int w

@[simp] theorem fits_int (x : Int) : int.fits x ↔ IsInt x := by
  rw [int, Codec.fits_as, int_ofInt_iff]
  exact and_iff_right (fits_word _)

/-- Every integer is written somehow: what does not fit is cut. -/
theorem total_int : int.Total := total_word.as

/-- An integer of 64 bits in one word, widened by the reader.  A strict writer refuses the ones that
the reader would not get. -/
def long (e : Extension) (strict : Bool) : Codec Int :=
  (word.as UInt32.ofInt e.long fun w _ => ofInt_long e w).only
    (fun x => strict = true → e.IsLong x) fun x hx _ => (long_ofInt_iff e x).mp hx.2

@[simp] theorem fits_long (e : Extension) (strict : Bool) (x : Int) :
    (long e strict).fits x ↔ e.IsLong x := by
  rw [long, Codec.fits_only, Codec.fits_as, long_ofInt_iff]
  exact and_iff_right (fits_word _)

/-- No words. -/
def noWords : Codec (List UInt32) where
  put _ := some []
  get l := some ([], l)
  fits l := l = []
  get_put l hl := ⟨[], rfl, fun rest => by rw [hl, List.nil_append]⟩
  fits_of_get _ _ _ h := (congrArg Prod.fst (Option.some.inj h)).symm

/-- So many words. -/
def words : ℕ → Codec (List UInt32)
  | 0 => noWords
  | n + 1 => (word.and (words n)).as (fun l => (l.headD 0, l.tail)) (fun v => v.1 :: v.2)
    fun _ _ => by rfl

@[simp] theorem fits_words (n : ℕ) (l : List UInt32) : (words n).fits l ↔ l.length = n := by
  induction n generalizing l with
  | zero => exact List.length_eq_zero_iff.symm
  | succ n ih =>
      show (True ∧ (words n).fits l.tail) ∧ l.headD 0 :: l.tail = l ↔ _
      rw [ih]
      cases l with
      | nil => simp
      | cons w l => simp

/-- A vector of words can always be written. -/
theorem total_words (n : ℕ) : (words n).Total := by
  induction n with
  | zero => exact fun _ => ⟨[], rfl⟩
  | succ n ih => exact (total_word.and ih).as

/-! ## Bytes -/

/-- How many bytes fill up to a multiple of four. -/
def padding (n : ℕ) : ℕ := (4 - n % 4) % 4

/-- So many bytes, and the padding; what stands in the padding is not looked at. -/
def fixed (n : ℕ) : Codec (List UInt8) where
  put l := some ((l.take n ++ List.replicate (n - l.length) 0) ++ List.replicate (padding n) 0)
  get l := if n + padding n ≤ l.length then some (l.take n, l.drop (n + padding n)) else none
  fits l := l.length = n
  get_put l hl := by
    refine ⟨l ++ List.replicate (padding n) 0, by simp [← hl], fun rest => ?_⟩
    rw [if_pos (by simp [← hl]), List.append_assoc, List.take_left' hl, ← List.append_assoc,
      List.drop_left' (by simp [hl])]
  fits_of_get l a rest h := by
    split at h
    · next hlen =>
        obtain rfl : l.take n = a := congrArg Prod.fst (Option.some.inj h)
        rw [List.length_take]
        omega
    · cases h

@[simp] theorem fits_fixed (n : ℕ) (l : List UInt8) : (fixed n).fits l ↔ l.length = n := Iff.rfl

/-- Opaque data can always be written. -/
theorem total_fixed (n : ℕ) : (fixed n).Total := fun _ => ⟨_, rfl⟩

/-- A byte is a character and back. -/
theorem toUInt8_ofUInt8 (b : UInt8) : (Char.ofUInt8 b).toUInt8 = b := UInt8.toUInt8_toUInt32 b

/-- The characters of one byte. -/
def IsByte (c : Char) : Prop := Char.ofUInt8 c.toUInt8 = c

instance (c : Char) : Decidable (IsByte c) := inferInstanceAs (Decidable (_ = _))

/-- Bytes are characters and back. -/
theorem map_toUInt8_map (l : List UInt8) : (l.map Char.ofUInt8).map Char.toUInt8 = l := by
  rw [List.map_map]
  exact List.map_id'' toUInt8_ofUInt8 l

/-- Characters are bytes and back exactly when each of them has one byte. -/
theorem map_ofUInt8_map {s : List Char} :
    (s.map Char.toUInt8).map Char.ofUInt8 = s ↔ ∀ c ∈ s, IsByte c := by
  rw [List.map_map]
  constructor
  · intro h c hc
    have hall := List.map_inj_left.mp (h.trans (List.map_id s).symm)
    exact hall c hc
  · intro h
    exact (List.map_congr_left h).trans (List.map_id s)

/-- So many characters of one byte. -/
def chars (n : ℕ) : Codec (List Char) :=
  (fixed n).as (·.map Char.toUInt8) (·.map Char.ofUInt8) fun l _ => map_toUInt8_map l

@[simp] theorem fits_chars (n : ℕ) (s : List Char) :
    (chars n).fits s ↔ s.length = n ∧ ∀ c ∈ s, IsByte c := by
  rw [chars, Codec.fits_as, fits_fixed, List.length_map, map_ofUInt8_map]

/-- Opaque text can always be written. -/
theorem total_chars (n : ℕ) : (chars n).Total := (total_fixed n).as

/-! ## Strings -/

/-- The strings whose length, with the byte that ends it, is a number of 32 bits. -/
structure IsString (s : List Char) : Prop where
  length_lt : s.length < 2 ^ 32 - 1
  bytes : ∀ c ∈ s, IsByte c
  nonzero : '\x00' ∉ s

/-- The bytes up to the first zero. -/
def untilZero (s : List Char) : List Char := s.takeWhile (· ≠ '\x00')

/-- A text without a NUL is a C string as it stands. -/
theorem untilZero_eq {s : List Char} (h : '\x00' ∉ s) : untilZero s = s := by
  refine List.takeWhile_eq_self_iff.mpr fun c hc => decide_eq_true ?_
  rintro rfl
  exact h hc

/-- The length of a string fits into the word before it. -/
theorem toNat_length {s : List Char} (hs : s.length < 2 ^ 32 - 1) :
    (UInt32.ofNat s.length).toNat = s.length :=
  UInt32.toNat_ofNat_of_lt' (show s.length < 2 ^ 32 by omega)

/-- There is room for the byte that ends the string. -/
theorem length_add_one_ne {s : List Char} (hs : s.length < 2 ^ 32 - 1) :
    UInt32.ofNat s.length + 1 ≠ 0 := by
  intro h
  have hsum := congrArg UInt32.toNat h
  rw [UInt32.toNat_add, toNat_length hs] at hsum
  simp at hsum
  omega

/-- A string: its length and its bytes.  The reader ends it with a zero, and a zero among the bytes
ends it before. -/
def string : Codec (List Char) where
  put s := if UInt32.ofNat s.length + 1 = 0 then none else
    (word.put (.ofNat s.length)).bind fun l => ((chars s.length).put s).map fun l' => l ++ l'
  get l := (word.get l).bind fun r => if r.1 + 1 = 0 then none else
    ((chars r.1.toNat).get r.2).map fun r' => (untilZero r'.1, r'.2)
  fits := IsString
  get_put s hs := by
    have hnat := toNat_length hs.length_lt
    have hone := length_add_one_ne hs.length_lt
    obtain ⟨l, hput, hget⟩ := word.get_put (.ofNat s.length) (fits_word _)
    obtain ⟨l', hput', hget'⟩ := (chars s.length).get_put s ((fits_chars _ s).mpr ⟨rfl, hs.bytes⟩)
    refine ⟨l ++ l', by simp [hput, hput', hone], fun rest => ?_⟩
    simp [List.append_assoc, hget, hone, hnat, hget', untilZero_eq hs.nonzero]
  fits_of_get l s rest h := by
    simp only [Option.bind_eq_some_iff] at h
    obtain ⟨r, -, h⟩ := h
    split at h
    · cases h
    · next hone =>
        obtain ⟨r', hr', heq⟩ := Option.map_eq_some_iff.mp h
        obtain rfl : untilZero r'.1 = s := congrArg Prod.fst heq
        obtain ⟨hlen, hbytes⟩ := (fits_chars _ _).mp ((chars r.1.toNat).fits_of_get _ _ _ hr')
        have hinit := List.takeWhile_prefix (l := r'.1) (p := (· ≠ '\x00'))
        refine ⟨?_, fun c hc => hbytes c (hinit.subset hc), fun hzero => ?_⟩
        · have hle := hinit.length_le
          have hlt := r.1.toNat_lt
          have hne : r.1.toNat ≠ 2 ^ 32 - 1 := fun h => hone (UInt32.toNat.inj (by simp [h]))
          show (untilZero r'.1).length < _
          unfold untilZero
          omega
        · simpa using List.mem_takeWhile_imp hzero

@[simp] theorem fits_string (s : List Char) : string.fits s ↔ IsString s := Iff.rfl

/-! ## Layouts -/

/-- What stands on a stream: a word, a string, or bytes of which the reader knows how many. -/
inductive Item
  | word (w : UInt32)
  | string (s : List Char)
  | bytes (l : List UInt8)

/-- The bytes are the item, filled up with anything. -/
def Item.Written : Item → List UInt8 → Prop
  | .word w, l => l = bytesOf w
  | .string s, l => ∃ fill : List UInt8, fill.length = padding s.length ∧
      l = bytesOf (.ofNat s.length) ++ (s.map Char.toUInt8 ++ fill)
  | .bytes b, l => ∃ fill : List UInt8, fill.length = padding b.length ∧ l = b ++ fill

/-- The bytes are the items, one after the other. -/
def Written : List Item → List UInt8 → Prop
  | [], l => l = []
  | item :: items, l => ∃ l₁ l₂, item.Written l₁ ∧ Written items l₂ ∧ l = l₁ ++ l₂

/-- A layout of one item. -/
theorem written_singleton {item : Item} {l : List UInt8} : Written [item] l ↔ item.Written l := by
  constructor
  · rintro ⟨l₁, _, hl₁, rfl, rfl⟩
    simpa using hl₁
  · exact fun hl => ⟨l, [], hl, rfl, by simp⟩

/-- A layout in two parts. -/
theorem written_append {xs ys : List Item} {l : List UInt8} :
    Written (xs ++ ys) l ↔ ∃ l₁ l₂, Written xs l₁ ∧ Written ys l₂ ∧ l = l₁ ++ l₂ := by
  induction xs generalizing l with
  | nil => simp [Written]
  | cons x xs ih =>
      constructor
      · rintro ⟨a, b, ha, hb, rfl⟩
        obtain ⟨l₁, l₂, hl₁, hl₂, rfl⟩ := ih.mp hb
        exact ⟨a ++ l₁, l₂, ⟨a, l₁, ha, hl₁, rfl⟩, hl₂, by rw [List.append_assoc]⟩
      · rintro ⟨_, l₂, ⟨a, l₁, ha, hl₁, rfl⟩, hl₂, rfl⟩
        exact ⟨a, l₁ ++ l₂, ha, ih.mpr ⟨l₁, l₂, hl₁, hl₂, rfl⟩, List.append_assoc _ _ _⟩

/-- A value stands on a stream as items: these are put on, and however they are filled up and
whatever follows, the value is taken off. -/
structure Stands {α : Type} (c : Codec α) (a : α) (items : List Item) : Prop where
  put : ∃ l, c.put a = some l ∧ Written items l
  get : ∀ l, Written items l → ∀ rest, c.get (l ++ rest) = some (a, rest)

section

variable {α β : Type} {c : Codec α} {d : Codec β}

/-- A pair stands as its parts do, one behind the other. -/
theorem Stands.and {v : α × β} {xs ys : List Item} (hc : Stands c v.1 xs) (hd : Stands d v.2 ys) :
    Stands (c.and d) v (xs ++ ys) where
  put := by
    obtain ⟨l, hput, hl⟩ := hc.put
    obtain ⟨l', hput', hl'⟩ := hd.put
    exact ⟨l ++ l', by simp [Codec.and, hput, hput'], written_append.mpr ⟨l, l', hl, hl', rfl⟩⟩
  get l hl rest := by
    obtain ⟨l₁, l₂, hl₁, hl₂, rfl⟩ := written_append.mp hl
    simp [Codec.and, List.append_assoc, hc.get l₁ hl₁, hd.get l₂ hl₂]

/-- What is read as something else stands as that does. -/
theorem Stands.as {f : β → α} {g : α → β} {h : ∀ a, c.fits a → f (g a) = a} {b : β}
    {items : List Item} (hc : Stands c (f b) items) (hb : g (f b) = b) :
    Stands (c.as f g h) b items where
  put := hc.put
  get l hl rest := by simp [Codec.as, hc.get l hl, hb]

/-- A word stands as its four bytes. -/
theorem stands_word (w : UInt32) : Stands word w [.word w] where
  put := ⟨bytesOf w, rfl, written_singleton.mpr rfl⟩
  get l hl rest := by
    obtain rfl : l = bytesOf w := written_singleton.mp hl
    exact takeWord_append w rest

/-- An `int` stands as the word with its bits. -/
theorem stands_int {x : Int} (hx : IsInt x) : Stands int x [.word (.ofInt x)] :=
  (stands_word _).as ((int_ofInt_iff x).mpr hx)

/-- A codec that refuses some values lets the others stand as they did. -/
theorem Stands.only {p : α → Prop} [DecidablePred p] {h : ∀ a, c.fits a → p a} {a : α}
    {items : List Item} (hc : Stands c a items) (ha : p a) : Stands (c.only p h) a items where
  put := by
    obtain ⟨l, hput, hl⟩ := hc.put
    exact ⟨l, (if_pos ha).trans hput, hl⟩
  get := hc.get

/-- A `long` stands as the word with its bits, if it is one that the reader gives back. -/
theorem stands_long {e : Extension} {strict : Bool} {x : Int} (hx : e.IsLong x) :
    Stands (long e strict) x [.word (.ofInt x)] :=
  ((stands_word _).as ((long_ofInt_iff e x).mpr hx)).only fun _ => hx

/-- Opaque data stand as their bytes, and padding. -/
theorem stands_fixed (l : List UInt8) : Stands (fixed l.length) l [.bytes l] where
  put := ⟨_, rfl, written_singleton.mpr
    ⟨List.replicate (padding l.length) 0, List.length_replicate, by simp⟩⟩
  get l' hl' rest := by
    obtain ⟨fill, hfill, rfl⟩ := written_singleton.mp hl'
    have hlen : (l ++ fill).length = l.length + padding l.length := by
      rw [List.length_append, hfill]
    show (if l.length + padding l.length ≤ (l ++ fill ++ rest).length then _ else _) = _
    rw [if_pos (by rw [List.length_append, hlen]; omega), List.drop_left' hlen, List.append_assoc,
      List.take_left]

/-- Opaque text stands as its bytes, and padding. -/
theorem stands_chars {s : List Char} (hs : ∀ c ∈ s, IsByte c) :
    Stands (chars s.length) s [.bytes (s.map Char.toUInt8)] := by
  have hfixed := stands_fixed (s.map Char.toUInt8)
  rw [List.length_map] at hfixed
  exact hfixed.as (map_ofUInt8_map.mpr hs)

/-- A string stands as its length and its bytes. -/
theorem stands_string {s : List Char} (hs : IsString s) : Stands string s [.string s] where
  put := by
    obtain ⟨l, hput, hl⟩ := (stands_chars hs.bytes).put
    obtain ⟨fill, hfill, rfl⟩ := written_singleton.mp hl
    refine ⟨_, ?_, written_singleton.mpr ⟨fill, by simpa using hfill, rfl⟩⟩
    simp [string, word, length_add_one_ne hs.length_lt, hput]
  get l hl rest := by
    obtain ⟨fill, hfill, rfl⟩ := written_singleton.mp hl
    have hchars := (stands_chars hs.bytes).get (s.map Char.toUInt8 ++ fill)
      (written_singleton.mpr ⟨fill, by simpa using hfill, rfl⟩) rest
    rw [List.append_assoc] at hchars ⊢
    simp [string, word, takeWord_append, length_add_one_ne hs.length_lt, toNat_length hs.length_lt,
      hchars, untilZero_eq hs.nonzero]

end

end Xdr
