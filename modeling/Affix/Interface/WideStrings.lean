import Affix.Model.Callback
import Affix.Model.WideStrings

/-!
# Strings that cross over as wide characters

The array made of a Perl string should hold its characters and a zero behind them, as
far as its room goes, and what C is given should be the first of them. The string
made of an array should have the characters of the array. Neither should be written
past its room.
-/

set_option autoImplicit false

namespace Affix.Interface

open Affix.Foundation Affix.Model Affix.Model.Wide

/-! ## To C -/

/-- **The array for a string**: nothing is stored past its room, and it holds the characters and
a zero or, where it has no room for that, as many characters as were asked for. -/
def ArrayOf (locale : Utf8Locale) (s : PerlStr) (len : ℕ) : Prop :=
  ∃ a, utf2wchar locale s len = .ok a ∧
    if s.chars.length ≤ len then
      a.take (s.chars.length + 1) = (s.chars ++ [0]).map some
    else a.take len = (s.chars.take len).map some

/-- A path gives C the first character of the string, if it has one. -/
def GivesFirst (s : PerlStr) (path : Except Halt ℕ) : Prop :=
  ∀ c, s.chars.head? = some c → path = .ok c

/-- The characters that `mbstowcs` stores: up to the first zero, which is stored too, or up to
the first that is not valid. -/
def storedChars (locale : Utf8Locale) : Text → Text
  | [] => [0]
  | c :: cs =>
    if c = 0 then [0] else if locale.accepts c then c :: storedChars locale cs else []

/-- The characters that `utf2wchar` stores: none if the string is not flagged. -/
def filled (locale : Utf8Locale) (s : PerlStr) : Text :=
  if s.utf8 then storedChars locale s.chars else []

/-- What is stored goes as far as the array is looked at, and no further than its room. -/
def FillsArray (locale : Utf8Locale) (s : PerlStr) (len : ℕ) : Prop :=
  (if s.chars.length ≤ len then s.chars.length + 1 else len) ≤ (filled locale s).length ∧
    (filled locale s).length ≤ len + 1

/-- The multi-byte form is taken by the scalar itself. -/
def TakesForm (sv : StringSV) : Prop :=
  sv.str.utf8 = true ∨ sv.readonly = false ∨ sv.isCOW = true

/-- **When the argument is given**: the string is flagged, its first character is valid, and no
more than two are stored. -/
def ArgumentStored (locale : Utf8Locale) (s : PerlStr) : Prop :=
  s.chars = [] ∨ filled locale s ≠ [] ∧ (filled locale s).length ≤ 2

/-- **When the field is given**: sixteen bytes can be read from it on, the end of the string is
stored behind no more than one character, and a zero is not copied to a field that has another
value. -/
def FieldStored (locale : Utf8Locale) (ret room : ℕ) (sv : StringSV) : Prop :=
  sv.str.chars = [] ∨ TakesForm sv ∧ 16 ≤ room ∧ 0 ∈ storedChars locale sv.str.chars ∧
    (storedChars locale sv.str.chars).length ≤ 2 ∧ (sv.str.chars.head? = some 0 → ret = 0)

/-- **When the result is given**: its first character is valid. -/
def ResultStored (locale : Utf8Locale) (sv : StringSV) : Prop :=
  sv.str.chars = [] ∨ TakesForm sv ∧ storedChars locale sv.str.chars ≠ []

/-! ## To Perl -/

/-- A value for which a character of Unicode is meant, and not the end of the text. -/
def UnicodeWide (c : ℤ) : Prop := 0 < c ∧ c.toNat.isValidChar

/-- **The string for an array**: nothing is stored past the buffer and, if the array is of
Unicode characters, they are those of the string. -/
def StringOf (src : List ℤ) (len : ℕ) : Prop :=
  encoded src len ≠ .error .fault ∧
    ((∀ c ∈ src.take len, UnicodeWide c) →
      ∃ s, wchar2utf src len = .ok s ∧ s.chars = (src.take len).map Int.toNat)

/-- The values that are encoded: those before the first that is not allowed. -/
def allowed (src : List ℤ) (len : ℕ) : List ℤ :=
  (src.take len).takeWhile fun c => codePoint c ≤ IV_MAX

/-- The encodings of the values fit the buffer. -/
def FitsBuffer (src : List ℤ) (len : ℕ) : Prop :=
  ((allowed src len).map fun c => (encodedWide c).length).sum ≤ (len + 1) * SIZEOF_WCHAR

instance (src : List ℤ) (len : ℕ) : Decidable (FitsBuffer src len) :=
  inferInstanceAs (Decidable (_ ≤ _))

end Affix.Interface
