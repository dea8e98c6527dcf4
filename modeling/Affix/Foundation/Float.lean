import Mathlib.Data.Nat.Log
import Mathlib.Algebra.Group.Int.Defs
import Mathlib.Algebra.Group.Nat.Defs

/-!
# Binary floating point

IEEE 754 interchange formats as bit patterns, with the conversions a C program
makes between them, integers and decimal text. Every finite pattern is a signed
multiple of a power of two; every conversion goes through that value and rounds
to nearest, ties to even.
-/

set_option autoImplicit false

namespace Affix.Foundation

/-- A binary format: significand bits, the hidden one included, and exponent bits. -/
structure FloatFormat where
  precision : ℕ
  exponent : ℕ

def binary32 : FloatFormat := ⟨24, 8⟩
def binary64 : FloatFormat := ⟨53, 11⟩

/-- What a bit pattern stands for; `fin neg m e` is `± m * 2 ^ e`. -/
inductive FloatVal where
  | nan
  | inf (neg : Bool)
  | fin (neg : Bool) (m : ℕ) (e : ℤ)
deriving DecidableEq, Repr

/-- The integer nearest to `num / den`, ties to even. -/
def roundHalfEven (num den : ℕ) : ℕ :=
  let q := num / den
  let r := num % den
  if 2 * r < den then q else if den < 2 * r then q + 1 else q + q % 2

namespace FloatFormat

/-- The exponent of the last bit of the least numbers of the format. -/
def ulpMin (f : FloatFormat) : ℤ := 3 - 2 ^ (f.exponent - 1) - f.precision

def infBits (f : FloatFormat) : ℕ := (2 ^ f.exponent - 1) * 2 ^ (f.precision - 1)

def signBit (f : FloatFormat) : ℕ := 2 ^ (f.precision - 1 + f.exponent)

/-- The value of a pattern. -/
def decode (f : FloatFormat) (bits : ℕ) : FloatVal :=
  let neg := bits / f.signBit % 2 = 1
  let field := bits / 2 ^ (f.precision - 1) % 2 ^ f.exponent
  let frac := bits % 2 ^ (f.precision - 1)
  if field = 2 ^ f.exponent - 1 then (if frac = 0 then .inf neg else .nan)
  else if field = 0 then .fin neg frac f.ulpMin
  else .fin neg (frac + 2 ^ (f.precision - 1)) (f.ulpMin + field - 1)

/-- The pattern of the nearest value of the format. -/
def encode (f : FloatFormat) : FloatVal → ℕ
  | .nan => f.infBits + 2 ^ (f.precision - 2)
  | .inf neg => (if neg then f.signBit else 0) + f.infBits
  | .fin neg m e =>
    let sign := if neg then f.signBit else 0
    if m = 0 then sign
    else
      let ulp := max (Nat.log2 m + e - (f.precision - 1)) f.ulpMin
      let sig := if ulp ≤ e then m * 2 ^ (e - ulp).toNat
        else roundHalfEven m (2 ^ (ulp - e).toNat)
      sign + min ((ulp - f.ulpMin).toNat * 2 ^ (f.precision - 1) + sig) f.infBits

/-- The pattern nearest to `± num / den`. The quotient is taken to more bits than the
format has, with one more bit to say whether anything was dropped. -/
def encodeRatio (f : FloatFormat) (neg : Bool) (num den : ℕ) : ℕ :=
  let shift := f.precision + 3 + Nat.log2 den - Nat.log2 num
  let q := num * 2 ^ shift / den
  let sticky := if num * 2 ^ shift % den = 0 then 0 else 1
  f.encode (.fin neg (2 * q + sticky) (-(shift : ℤ) - 1))

/-- The pattern nearest to an integer. -/
def ofInt (f : FloatFormat) (n : ℤ) : ℕ := f.encode (.fin (n < 0) n.natAbs 0)

/-- A pattern of one format as a pattern of another. -/
def convert (f g : FloatFormat) (bits : ℕ) : ℕ := g.encode (f.decode bits)

end FloatFormat

namespace FloatVal

/-- The integer part, towards zero. -/
def trunc : FloatVal → ℤ
  | nan | inf _ => 0
  | fin neg m e =>
    let n : ℤ := if 0 ≤ e then m * 2 ^ e.toNat else (m / 2 ^ (-e).toNat : ℕ)
    if neg then -n else n

/-- The magnitude as a ratio. -/
def ratio (m : ℕ) (e : ℤ) : ℕ × ℕ := (m * 2 ^ e.toNat, 2 ^ (-e).toNat)

end FloatVal

/-! ## Decimal text -/

def decimal (n : ℕ) : List Char := Nat.toDigits 10 n

def decimalInt (n : ℤ) : List Char :=
  if n < 0 then '-' :: decimal n.natAbs else decimal n.natAbs

def dropTrailingZeros (cs : List Char) : List Char := (cs.reverse.dropWhile (· = '0')).reverse

/-- The digits and the decimal exponent of `num / den` to fifteen significant digits. -/
def digits15 (num den : ℕ) : List Char × ℤ :=
  let d : ℤ := if den ≤ num then Nat.log 10 (num / den)
    else -(Nat.clog 10 ((den + num - 1) / num) : ℤ)
  let n := roundHalfEven (num * 10 ^ (14 - d).toNat) (den * 10 ^ (d - 14).toNat)
  if n = 10 ^ 15 then (decimal (10 ^ 14), d + 1) else (decimal n, d)

/-- `%.15g`. -/
def formatG15 : FloatVal → List Char
  | .nan => "NaN".toList
  | .inf neg => (if neg then "-Inf" else "Inf").toList
  | .fin neg m e =>
    let sign := if neg then ['-'] else []
    if m = 0 then sign ++ ['0']
    else
      let (num, den) := FloatVal.ratio m e
      let (ds, d) := digits15 num den
      if d < -4 ∨ 15 ≤ d then
        let frac := dropTrailingZeros ds.tail
        let exp := decimal d.natAbs
        sign ++ ds.take 1 ++ (if frac = [] then [] else '.' :: frac) ++
          ['e', if d < 0 then '-' else '+'] ++ (if exp.length < 2 then '0' :: exp else exp)
      else if d < 0 then
        sign ++ ['0', '.'] ++ List.replicate (-d - 1).toNat '0' ++ dropTrailingZeros ds
      else
        let frac := dropTrailingZeros (ds.drop (d.toNat + 1))
        sign ++ ds.take (d.toNat + 1) ++ (if frac = [] then [] else '.' :: frac)

/-- `1.5` is `0x3FF8000000000000`, and prints as such. -/
example : binary64.encodeRatio false 3 2 = 0x3FF8000000000000 ∧
    formatG15 (binary64.decode 0x3FF8000000000000) = ['1', '.', '5'] := by decide +kernel

end Affix.Foundation
