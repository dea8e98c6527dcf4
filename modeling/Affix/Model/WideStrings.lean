import Affix.Foundation.CInt
import Affix.Model.Halt

/-!
# Wide strings

`utf2wchar` makes an array of wide characters of a Perl string, for C, and
`wchar2utf` a Perl string of an array from C. Either allocates room by a count that
its caller gives it and then writes what the string makes. A store past the room has
no result, and neither has a load of what was never stored.

SOURCE: wchar_t.cxx:3-42
-/

set_option autoImplicit false

namespace Affix.Model.Wide

open Affix.Foundation

def SIZEOF_WCHAR : ℕ := 4

/-! ## To C -/

/-- A locale whose `mbstowcs` decodes UTF-8. It takes every Unicode character for valid, and
perhaps others that a wide character can hold. -/
structure Utf8Locale where
  accepts : ℕ → Bool
  unicode : ∀ c, c.isValidChar → accepts c = true
  holds : ∀ c, accepts c = true → c < 2 ^ 32

/-- An array of wide characters, as far as they have been stored. -/
abbrev WideArray := List (Option ℕ)

def WideArray.put (a : WideArray) (i c : ℕ) : Except Halt WideArray :=
  if i < a.length then .ok (a.set i (some c)) else .error .fault

def WideArray.get (a : WideArray) (i : ℕ) : Except Halt ℕ :=
  match a[i]? with
  | some (some c) => .ok c
  | _ => .error .fault

/-- `mbstowcs` from an element on, for so many elements: it stops behind the zero that ends the
string, and at a character that is not valid. -/
def mbstowcs (locale : Utf8Locale) : (dest : WideArray) → (i n : ℕ) → Text → Except Halt WideArray
  | dest, _, 0, _ => .ok dest
  | dest, i, _ + 1, [] => dest.put i 0
  | dest, i, n + 1, c :: cs =>
    if c = 0 then dest.put i 0
    else if locale.accepts c then do
      let dest ← dest.put i c
      mbstowcs locale dest (i + 1) n cs
    else .ok dest

/-- `utf2wchar`. SOURCE: wchar_t.cxx:30-42 -/
def utf2wchar (locale : Utf8Locale) (src : PerlStr) (len : ℕ) : Except Halt WideArray :=
  let RETVAL := List.replicate (len + 1) none
  if src.utf8 then
    mbstowcs locale RETVAL 0 ((src.pvutf8.length + 1) * SIZEOF_WCHAR) src.chars
  else .ok RETVAL

/-- A Perl scalar that is a string. A literal is read-only, and its buffer is copied on write. -/
structure StringSV where
  str : PerlStr
  readonly : Bool
  isCOW : Bool

/-- `SvPVutf8`: the scalar, and the length of its multi-byte form. The scalar takes that form
itself unless it may not be written to; one that is copied on write may be. -/
def StringSV.SvPVutf8 (sv : StringSV) : StringSV × ℕ :=
  (if sv.readonly && !sv.isCOW then sv else { sv with str := sv.str.upgraded },
    sv.str.pvutf8.length)

/-- `wcslen`, and the wide characters before the zero. -/
def wcslen : WideArray → Except Halt (List ℕ)
  | some c :: a => if c = 0 then .ok [] else (wcslen a).map (c :: ·)
  | _ => .error .fault

/-- What the `WCHAR_FLAG` branch pushes for an argument. SOURCE: Affix.cxx:374-390 -/
def argumentPath (locale : Utf8Locale) (sv : StringSV) : Except Halt ℕ := do
  let str ← utf2wchar locale sv.str 1
  str.get 0

/-- `DumpHex` of so many bytes, where there are `room`. SOURCE: Utils.cxx:100-134 -/
def DumpHex (room len : ℕ) : Except Halt Unit := if len ≤ room then .ok () else .error .fault

/-- `Copy` to a field, which is one wide character. -/
def copyToField (ret : ℕ) (copied : List ℕ) : Except Halt ℕ :=
  if copied.length ≤ 1 then .ok (copied.headD ret) else .error .fault

/-- A field after the `WCHAR_FLAG` branch; it was `ret`, and there are `room` bytes from it to the
end of its block. SOURCE: marshal.cxx:420-440 -/
def fieldPath (locale : Utf8Locale) (ret room : ℕ) (data : StringSV) : Except Halt ℕ := do
  let (data, len) := data.SvPVutf8
  let value ← utf2wchar locale data.str (len + 1)
  let copied ← wcslen value
  DumpHex room 16
  copyToField ret copied

/-- What the `WCHAR_FLAG` branch of a callback returns to C. SOURCE: Callback.cxx:153-164 -/
def callbackPath (locale : Utf8Locale) (sv : StringSV) : Except Halt ℕ := do
  let (sv, len) := sv.SvPVutf8
  let wc ← utf2wchar locale sv.str len
  wc.get 0

/-! ## To Perl -/

/-- A wide character as a code point; a negative one is a large `UV`. -/
def codePoint (c : ℤ) : ℕ := (culong.wrap c).toNat

/-- What one turn of the loop writes: a seven-bit character as it is, any other by
`uvchr_to_utf8`. SOURCE: wchar_t.cxx:14-21 -/
def encodedWide (c : ℤ) : List UInt8 :=
  if codePoint c < 0x80 then [UInt8.ofNat (codePoint c)] else utf8Encode (codePoint c)

/-- The loop, from a place in the buffer. `uvchr_to_utf8` dies of a code point that is no `IV`
before it writes. SOURCE: wchar_t.cxx:14-21 -/
def encodeWide : (dst : List UInt8) → (d : ℕ) → List ℤ → Except Halt (List UInt8)
  | dst, _, [] => .ok dst
  | dst, d, c :: src =>
    if IV_MAX < codePoint c then .error (codePointNotAllowed (codePoint c))
    else
      let bs := encodedWide c
      if d + bs.length ≤ dst.length then
        encodeWide (dst.take d ++ bs ++ dst.drop (d + bs.length)) (d + bs.length) src
      else .error .fault

/-- The text in a buffer, for `sv_setpv`. -/
def cstringIn (dst : List UInt8) : Except Halt (List UInt8) :=
  if 0 ∈ dst then .ok (dst.takeWhile (· ≠ 0)) else .error .fault

/-- `sv_utf8_decode`: the flag goes on when a character needs it. -/
def sv_utf8_decode (bs : List UInt8) : PerlStr :=
  if bs.all isASCII then .ofBytes bs else .ofGuess bs

/-- The zeroed buffer, once the loop is through. SOURCE: wchar_t.cxx:12-21 -/
def encoded (src : List ℤ) (len : ℕ) : Except Halt (List UInt8) :=
  encodeWide (List.replicate ((len + 1) * SIZEOF_WCHAR) 0) 0 (src.take len)

/-- `wchar2utf`. SOURCE: wchar_t.cxx:3-28 -/
def wchar2utf (src : List ℤ) (len : ℕ) : Except Halt PerlStr := do
  let dst ← encoded src len
  let bs ← cstringIn dst
  pure (sv_utf8_decode bs)

end Affix.Model.Wide
