import Affix.Foundation.Utf8

/-!
# Perl strings

A Perl string is a buffer of bytes with a flag that says how to read it: one
character a byte, or extended UTF-8. Two strings are equal to Perl when their
characters are, whatever their flags; C sees the buffer. The flag promises that
the buffer is well formed, and the structure carries the promise.
-/

set_option autoImplicit false

namespace Affix.Model

open Affix.Foundation

/-- Characters, as code points. -/
abbrev Text := List ℕ

def text (s : String) : Text := s.toList.map Char.toNat

/-- The body of a Perl string. -/
structure PerlStr where
  bytes : List UInt8
  utf8 : Bool
  wellFormed : utf8 = true → isUtf8String bytes = true
deriving DecidableEq

namespace PerlStr

def ofBytes (bs : List UInt8) : PerlStr := ⟨bs, false, by simp⟩

/-- `newSVpvn_utf8(s, len, is_utf8_string(s, len))`: flagged when it can be. -/
def ofGuess (bs : List UInt8) : PerlStr := ⟨bs, isUtf8String bs, id⟩

/-- A string with given characters: one byte a character when they all fit. -/
def ofText (cs : Text) : PerlStr :=
  match downgrade cs with
  | some bs => ofBytes bs
  | none => ofGuess (cs.flatMap utf8Encode)

def chars (s : PerlStr) : Text :=
  if s.utf8 then (utf8Chars s.bytes).getD [] else s.bytes.map UInt8.toNat

/-- `SvPVbyte`: the characters as bytes, or none when one is too wide. -/
def pvbyte (s : PerlStr) : Option (List UInt8) :=
  if s.utf8 then downgrade s.chars else some s.bytes

/-- `SvPVutf8`: the characters in the multi-byte form. -/
def pvutf8 (s : PerlStr) : List UInt8 :=
  if s.utf8 then s.bytes else upgrade s.bytes

/-- A string whose characters are its bytes, so that C and Perl read the same name. -/
def Plain (s : PerlStr) : Prop := s.chars = s.bytes.map UInt8.toNat

instance (s : PerlStr) : Decidable s.Plain := inferInstanceAs (Decidable (_ = _))

instance : Inhabited PerlStr := ⟨ofBytes []⟩

/-- A seven-bit string is plain under either flag. -/
theorem plain_of_ascii {s : PerlStr} (h : ∀ b ∈ s.bytes, isASCII b = true) : s.Plain := by
  unfold Plain chars
  split
  · rw [utf8Chars_ascii h, Option.getD_some]
  · rfl

/-- Guessing the flag of a seven-bit or a well-formed buffer keeps its characters. -/
theorem chars_ofGuess {s : PerlStr} (h : s.utf8 = true ∨ ∀ b ∈ s.bytes, isASCII b = true) :
    (ofGuess s.bytes).chars = s.chars := by
  rcases h with h | h
  · simp [ofGuess, chars, h, s.wellFormed h]
  · rw [plain_of_ascii h]
    exact plain_of_ascii (s := ofGuess s.bytes) h

theorem chars_ofGuess_singleton (b : UInt8) : (ofGuess [b]).chars = [b.toNat] := by
  by_cases h : isASCII b = true
  · exact plain_of_ascii (s := ofGuess [b]) (by simpa [ofGuess] using h)
  · simp [ofGuess, chars, isUtf8String_singleton, h]

theorem chars_of_bytes_singleton {s : PerlStr} {b : UInt8} (h : s.bytes = [b]) :
    s.chars = [b.toNat] := by
  by_cases hu : s.utf8 = true
  · have hb : isASCII b = true := by
      rw [← isUtf8String_singleton, ← h]
      exact s.wellFormed hu
    rw [plain_of_ascii (by simpa [h] using hb), h]
    rfl
  · simp [chars, hu, h]

/-- The multi-byte form of a string is well formed. -/
theorem isUtf8String_pvutf8 (s : PerlStr) : isUtf8String s.pvutf8 = true := by
  unfold pvutf8
  split
  · rename_i h
    exact s.wellFormed h
  · rw [isUtf8String, utf8Chars_upgrade]
    rfl

/-- The string in its multi-byte form, as `sv_utf8_upgrade` leaves it. -/
def upgraded (s : PerlStr) : PerlStr := ⟨s.pvutf8, true, fun _ => s.isUtf8String_pvutf8⟩

/-- It has the same characters. -/
theorem chars_upgraded (s : PerlStr) : s.upgraded.chars = s.chars := by
  show (utf8Chars s.pvutf8).getD [] = s.chars
  unfold pvutf8 chars
  split
  · rfl
  · rw [utf8Chars_upgrade, Option.getD_some]

end PerlStr

end Affix.Model
