import Affix.Foundation.CInt
import Affix.Foundation.Float
import Affix.Model.Halt
import Affix.Model.TypeObject

/-!
# Perl values

The scalars C++ code is handed and hands back, and the macros it reads them with.
A defined scalar that is no reference carries an integer, a floating number or a
string, in any combination; the reading macros prefer the part they are named
after. `SvIV` and `SvUV` are two readings of one 64-bit slot.

A reference is its referent together with what it looks like from outside: the
classes it is blessed into and the number, the string and the truth value it
yields, which are its address unless the class overloads them.
-/

set_option autoImplicit false

namespace Affix.Model

open Affix.Foundation

/-! ## Strings as numbers -/

/-- The number a string starts with: an integer; the bits of an `NV`; or both, which need not be
the same number. -/
inductive StrNum where
  | int (v : ℤ)
  | nv (bits : ℕ)
  | both (v : ℤ) (bits : ℕ)
deriving DecidableEq, Repr

def isSpace (c : Char) : Bool := c = ' ' || ('\t' ≤ c && c ≤ '\r')

def digitsValue (cs : List Char) : ℕ := cs.foldl (fun n c => 10 * n + (c.toNat - 48)) 0

/-- The exponent part of a number, `0` when there is none. -/
def exponentPart (cs : List Char) : ℤ :=
  match cs with
  | c :: rest =>
    if c = 'e' ∨ c = 'E' then
      match rest with
      | '-' :: ds => -(digitsValue (ds.takeWhile Char.isDigit) : ℤ)
      | '+' :: ds => digitsValue (ds.takeWhile Char.isDigit)
      | ds => digitsValue (ds.takeWhile Char.isDigit)
    else 0
  | [] => 0

/-- An unsigned number at the start of a text. `grok_number` knows the integer part of a number
without an exponent, if nothing but blanks follows the number and the part fits; `Atof` makes the
`NV` of any that is not a plain integer, and of a zero with a sign. -/
def grokUnsigned (neg : Bool) (cs : List Char) : StrNum :=
  let whole := cs.takeWhile Char.isDigit
  let rest := cs.dropWhile Char.isDigit
  let (frac, rest', dotted) := match rest with
    | '.' :: ds => (ds.takeWhile Char.isDigit, ds.dropWhile Char.isDigit, true)
    | _ => ([], rest, false)
  if whole ++ frac = [] then
    let word := (cs.take 3).map Char.toLower
    if word = ['i', 'n', 'f'] then .nv (binary64.encode (.inf neg))
    else if word = ['n', 'a', 'n'] then .nv (binary64.encode .nan)
    else .int 0
  else
    let scale := exponentPart rest' - frac.length
    let nv := binary64.encodeRatio neg (digitsValue (whole ++ frac) * 10 ^ scale.toNat)
      (10 ^ (-scale).toNat)
    let n := digitsValue whole
    let v : ℤ := if neg then -n else n
    let bound : ℕ := if neg then 2 ^ 63 else 2 ^ 64 - 1
    if rest'.all isSpace && n ≤ bound then
      if dotted || neg && n = 0 then .both v nv else .int v
    else .nv nv

def grokNumber (bs : List UInt8) : StrNum :=
  match (bs.map fun b => Char.ofNat b.toNat).dropWhile isSpace with
  | '-' :: cs => grokUnsigned true cs
  | '+' :: cs => grokUnsigned false cs
  | cs => grokUnsigned false cs

/-! ## Scalars -/

/-- A defined scalar that is no reference. -/
structure Scalar where
  iv : Option ℤ
  nv : Option ℕ
  pv : Option PerlStr
  iv_range : ∀ v ∈ iv, -2 ^ 63 ≤ v ∧ v < 2 ^ 64
  defined : iv.isSome ∨ nv.isSome ∨ pv.isSome

namespace Scalar

/-- `newSViv` and `newSVuv` of a value they can hold. -/
def ofInt (v : ℤ) (h : -2 ^ 63 ≤ v ∧ v < 2 ^ 64) : Scalar where
  iv := some v
  nv := none
  pv := none
  iv_range := by
    intro w hw
    rw [Option.mem_some] at hw
    exact hw ▸ h
  defined := Or.inl rfl

def newSViv (v : ℤ) : Scalar :=
  ofInt (clong.wrap v) (by
    have h := clong.wrap_inRange v
    generalize clong.wrap v = w at h
    norm_num [CIntType.InRange, CIntType.minValue, CIntType.card, clong] at h ⊢
    omega)

def newSVuv (v : ℤ) : Scalar :=
  ofInt (culong.wrap v) (by
    have h := culong.wrap_inRange v
    generalize culong.wrap v = w at h
    norm_num [CIntType.InRange, CIntType.minValue, CIntType.card, culong] at h ⊢
    omega)

def newSVnv (bits : ℕ) : Scalar := ⟨none, some bits, none, by simp, by simp⟩

/-- `newSVpvn_utf8`. -/
def ofStr (s : PerlStr) : Scalar := ⟨none, none, some s, by simp, by simp⟩

/-- `newSVpvn(value, 1)` with `SvIV_set(sv, v)` and `SvIOK_on`: a character that is also
its code. -/
def dual (s : PerlStr) (v : ℤ) : Scalar where
  iv := some (clong.wrap v)
  nv := none
  pv := some s
  iv_range := (newSViv v).iv_range
  defined := Or.inl rfl

def yes : Scalar := ⟨some 1, some (binary64.ofInt 1), some (.ofBytes [0x31]), by simp, by simp⟩

def no : Scalar := ⟨some 0, some 0, some (.ofBytes []), by simp, by simp⟩

def boolSV (b : Bool) : Scalar := if b then yes else no

end Scalar

/-! ## Values -/

structure RefInfo where
  /-- The class it is blessed into and the classes that one inherits from. -/
  isa : List String
  num : ℤ
  str : PerlStr
  truth : Bool
deriving DecidableEq

namespace RefInfo

/-- A reference made by C++ code and not seen from outside yet. Perl picks the address of
its body; nothing in the model reads it back. -/
def new (isa : List String) : RefInfo := ⟨isa, 0, .ofBytes [], true⟩

end RefInfo

/-- The wrapper of one C function, less the result cell.
SOURCE: Affix.h:415-425 -/
structure Fiction where
  lib : Option ℕ
  entryPoint : ℕ
  symbol : List UInt8
  signature : Option (List Flag)
  argtypes : Option (List TypeObj)
  restype : Option TypeObj
  restypeC : Flag
  aggrRestype : Bool

/-- What a code reference refers to: a Perl sub, or a wrapper. -/
inductive Code where
  | sub (id : ℕ)
  | fiction (f : Fiction)

/-- A Perl value. A `pinned` one is a scalar whose magic reads and writes a C variable; the
macros below see what is under the magic, which is nothing yet. -/
inductive SV where
  | undef (readonly : Bool)
  | val (s : Scalar)
  | aref (r : RefInfo) (elems : List SV)
  | href (r : RefInfo) (entries : List (Text × SV))
  | sref (r : RefInfo) (target : SV)
  | code (r : RefInfo) (c : Code)
  | type (t : TypeObj)
  | pinned (t : TypeObj) (addr : ℕ)

instance : Inhabited SV := ⟨.undef false⟩

namespace SV

def int (v : ℤ) (h : -2 ^ 63 ≤ v ∧ v < 2 ^ 64) : SV := val (.ofInt v h)

def SvOK : SV → Bool
  | undef _ | pinned .. => false
  | _ => true

/-- `SvREADONLY`, as far as undefined values are concerned. -/
def SvREADONLY : SV → Bool
  | undef ro => ro
  | _ => false

def SvROK : SV → Bool
  | undef _ | val _ | pinned .. => false
  | _ => true

def SvIOK : SV → Bool
  | val s => s.iv.isSome
  | _ => false

/-- `SvUOK`: an integer that only an unsigned slot can hold. -/
def SvUOK : SV → Bool
  | val s => s.iv.any fun v => 2 ^ 63 ≤ v
  | _ => false

def SvNOK : SV → Bool
  | val s => s.nv.isSome
  | _ => false

def SvPOK : SV → Bool
  | val s => s.pv.isSome
  | _ => false

/-- The elements, when the value is a reference to an array. A type object is one; its
slots are given up to the typedef name. SOURCE: Type.pm:57, Affix.h:253-263 -/
def elems : SV → Option (List SV)
  | aref _ es => some es
  | type t =>
    some [val (.ofStr (.ofText t.slots.stringify)),
      val (.newSViv t.flag.sigChar.toNat),
      val (.newSViv t.sizeof), val (.newSViv t.align),
      (match t.slots.offset with
        | some o => val (.newSViv o)
        | none => undef false),
      (match t with
        | .scalar .. => undef false
        | .pointer _ s => type s
        | .codeRef _ _ _ r => type r
        | .struct _ ts | .union _ ts => aref (.new []) (ts.map type)),
      val (.newSViv t.slots.arraylen), val (.boolSV t.slots.const),
      val (.boolSV t.slots.volatile), val (.boolSV t.slots.restrict),
      (match t.slots.typedef with
        | some n => val (.ofStr (.ofText n))
        | none => undef false)]
  | _ => none

def entries : SV → Option (List (Text × SV))
  | href _ es => some es
  | _ => none

/-- `SvTYPE`, for the messages that print it. -/
def SvTYPE : SV → ℕ
  | undef _ => 0
  | val s =>
    match s.iv, s.nv, s.pv with
    | some _, none, none => 1
    | none, some _, none => 2
    | none, none, some _ => 3
    | some _, none, some _ => 5
    | none, none, none => 0
    | _, some _, _ => 6
  | pinned .. => 7
  | _ => 1

/-- `sv_derived_from`. -/
def derivedFrom (c : String) : SV → Bool
  | aref r _ | href r _ | sref r _ | code r _ => r.isa.contains c
  | _ => false

end SV

/-! ## The reading macros -/

/-- The integer slot Perl fills from a floating number: in `IV` range as an `IV`, above it
as a `UV`, saturating. -/
def nvSlot (bits : ℕ) : ℤ :=
  match binary64.decode bits with
  | .nan => 0
  | .inf neg => if neg then -2 ^ 63 else 2 ^ 64 - 1
  | v => max (-2 ^ 63) (min v.trunc (2 ^ 64 - 1))

/-- The integer slot of a value, as a number whose residue modulo `2 ^ 64` is the slot. -/
def svSlot : SV → ℤ
  | .undef _ | .pinned .. => 0
  | .val s =>
    match s.iv, s.nv, s.pv with
    | some v, _, _ => v
    | none, some b, _ => nvSlot b
    | none, none, some p =>
      match grokNumber p.bytes with
      | .int v | .both v _ => v
      | .nv b => nvSlot b
    | none, none, none => 0
  | .aref r _ | .href r _ | .sref r _ | .code r _ => r.num
  | .type t => t.flag.sigChar.toNat

def SvIV (sv : SV) : ℤ := clong.wrap (svSlot sv)

def SvUV (sv : SV) : ℤ := culong.wrap (svSlot sv)

def SvNV : SV → ℕ
  | .undef _ | .pinned .. => 0
  | .val s =>
    match s.nv, s.iv, s.pv with
    | some b, _, _ => b
    | none, some v, _ => binary64.ofInt v
    | none, none, some p =>
      match grokNumber p.bytes with
      | .int v => binary64.ofInt v
      | .nv b | .both _ b => b
    | none, none, none => 0
  | .aref r _ | .href r _ | .sref r _ | .code r _ => binary64.ofInt r.num
  | .type t => binary64.ofInt t.flag.sigChar.toNat

def asciiStr (cs : List Char) : PerlStr := .ofBytes (cs.map fun c => UInt8.ofNat c.toNat)

/-- The string of a floating number: `%.15g`, and `0` for either zero. -/
def nvStr (bits : ℕ) : PerlStr :=
  match binary64.decode bits with
  | .fin _ 0 _ => asciiStr ['0']
  | v => asciiStr (formatG15 v)

/-- The string of a value: `SvPV`, with the flag `SvUTF8` reads. -/
def SvPV : SV → PerlStr
  | .undef _ | .pinned .. => .ofBytes []
  | .val s =>
    match s.pv, s.iv, s.nv with
    | some p, _, _ => p
    | none, some v, _ => asciiStr (decimalInt v)
    | none, none, some b => nvStr b
    | none, none, none => .ofBytes []
  | .aref r _ | .href r _ | .sref r _ | .code r _ => r.str
  | .type t => .ofText t.str

def SvPVbyte (sv : SV) : Except Halt (List UInt8) :=
  match (SvPV sv).pvbyte with
  | some bs => .ok bs
  | none => .error (.croak (text "Wide character"))

/-- `SvTRUE`: by the string if there is one, else by the number. -/
def SvTRUE : SV → Bool
  | .undef _ | .pinned .. => false
  | .val s =>
    match s.pv, s.iv, s.nv with
    | some p, _, _ => p.bytes ≠ [] && p.bytes ≠ [0x30]
    | none, some v, _ => v ≠ 0
    | none, none, some b =>
      match binary64.decode b with
      | .fin _ 0 _ => false
      | _ => true
    | none, none, none => false
  | .aref r _ | .href r _ | .sref r _ | .code r _ => r.truth
  | .type t => t.slots.stringify ≠ []

/-! ## Facts about integers -/

/-- A type no wider than a slot does not see which macro read the slot. -/
theorem wrap_SvIV {t : CIntType} (h : t.bits ≤ 64) (sv : SV) :
    t.wrap (SvIV sv) = t.wrap (svSlot sv) :=
  CIntType.wrap_wrap_of_le (u := clong) h _

theorem wrap_SvUV {t : CIntType} (h : t.bits ≤ 64) (sv : SV) :
    t.wrap (SvUV sv) = t.wrap (svSlot sv) :=
  CIntType.wrap_wrap_of_le (u := culong) h _

theorem svSlot_of_iv {s : Scalar} {v : ℤ} (h : s.iv = some v) : svSlot (.val s) = v := by
  simp only [svSlot, h]

theorem SvIOK_of_iv {s : Scalar} {v : ℤ} (h : s.iv = some v) : (SV.val s).SvIOK = true := by
  simp only [SV.SvIOK, h, Option.isSome_some]

@[simp] theorem svSlot_newSViv (v : ℤ) : svSlot (.val (.newSViv v)) = clong.wrap v := rfl

@[simp] theorem svSlot_newSVuv (v : ℤ) : svSlot (.val (.newSVuv v)) = culong.wrap v := rfl

@[simp] theorem svSlot_dual (s : PerlStr) (v : ℤ) : svSlot (.val (.dual s v)) = clong.wrap v := rfl

@[simp] theorem svSlot_int (v : ℤ) (h : -2 ^ 63 ≤ v ∧ v < 2 ^ 64) : svSlot (.int v h) = v := rfl

@[simp] theorem SvIOK_int (v : ℤ) (h : -2 ^ 63 ≤ v ∧ v < 2 ^ 64) : (SV.int v h).SvIOK = true := rfl

end Affix.Model
