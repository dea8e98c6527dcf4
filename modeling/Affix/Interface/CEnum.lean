import Affix.Foundation.CInt
import Affix.Model.Enum

/-!
# Enumerations in C

An enumerator is an identifier, with or without a constant expression. The expression
is made of decimal literals and enumerators that stand before it; it has a value when
every number it comes to fits a `long`, and the enumerator has that value when it fits
an `int`. An enumerator with no expression is one more than the one before it, and the
first is zero.
-/

set_option autoImplicit false

namespace Affix.Interface

open Affix.Foundation Affix.Model

inductive CAtom where
  | literal (n : ℕ)
  | name (identifier : Chars)
deriving DecidableEq, Repr

def isIdentifier (w : Chars) : Bool := w.all isWordChar && w.head?.any fun c => !c.isDigit

/-- A word of C: the numeral of a number, or an identifier. -/
def readAtom (w : Chars) : Option CAtom :=
  if w = numeral 10 (readDigits 10 w) then some (.literal (readDigits 10 w))
  else if isIdentifier w then some (.name w)
  else none

/-- The enumerators so far, with their values. -/
abbrev Values := List (Chars × ℤ)

def CAtom.value (env : Values) : CAtom → Option ℤ
  | .literal n => some n
  | .name w => env.lookup w

def fitsLong (z : ℤ) : Bool := decide (clong.InRange z)

def fitsInt (z : ℤ) : Bool := decide (cint.InRange z)

/-- A constant expression as it is written and as it is meant. -/
structure Initializer where
  text : Chars
  tree : Expr CAtom .sum
  spells : lex readAtom (pieces text) = some tree.tokens

structure Enumerator where
  name : Chars
  isName : isIdentifier name = true
  initializer : Option Initializer

/-- The enumerator as it is handed to Affix. -/
def Enumerator.element (e : Enumerator) : Element := ⟨e.name, e.initializer.map Initializer.text⟩

structure Enumeration where
  enumerators : List Enumerator
  distinct : (enumerators.map Enumerator.name).Nodup

def Enumeration.elements (E : Enumeration) : List Element :=
  E.enumerators.map Enumerator.element

def Initializer.value (env : Values) (i : Initializer) : Option ℤ :=
  i.tree.value fitsLong (CAtom.value env)

/-- The value of an enumerator after the given ones, `next` being one more than the last. -/
def Enumerator.value (env : Values) (next : ℤ) (e : Enumerator) : Option ℤ :=
  ((e.initializer.map (Initializer.value env)).getD (some next)).filter fitsInt

/-- The values of enumerators, in order, each from those before it. -/
def valuesFrom {ε : Type} (name : ε → Chars) (value : Values → ℤ → ε → Option ℤ) (env : Values)
    (next : ℤ) : List ε → Option Values
  | [] => some env
  | e :: es => (value env next e).bind fun v =>
    valuesFrom name value (env ++ [(name e, v)]) (v + 1) es

def Enumeration.values (E : Enumeration) : Option Values :=
  valuesFrom Enumerator.name Enumerator.value [] 0 E.enumerators

/-! ## With characters -/

inductive CharInitializer where
  | character (c : Char)
  | expression (i : Initializer)

namespace CharInitializer

def text : CharInitializer → Chars
  | character c => [c]
  | expression i => i.text

def value (env : Values) : CharInitializer → Option ℤ
  | character c => some c.toNat
  | expression i => i.value env

end CharInitializer

structure CharEnumerator where
  name : Chars
  isName : isIdentifier name = true
  initializer : Option CharInitializer

namespace CharEnumerator

def element (e : CharEnumerator) : Element := ⟨e.name, e.initializer.map CharInitializer.text⟩

def value (env : Values) (next : ℤ) (e : CharEnumerator) : Option ℤ :=
  ((e.initializer.map (CharInitializer.value env)).getD (some next)).filter fitsInt

end CharEnumerator

structure CharEnumeration where
  enumerators : List CharEnumerator
  distinct : (enumerators.map CharEnumerator.name).Nodup

def CharEnumeration.elements (E : CharEnumeration) : List Element :=
  E.enumerators.map CharEnumerator.element

def CharEnumeration.values (E : CharEnumeration) : Option Values :=
  valuesFrom CharEnumerator.name CharEnumerator.value [] 0 E.enumerators

/-! ## What Affix makes of them -/

/-- What a type has on record under a name. -/
def onRecord (t : EnumType) (k : Chars) : Option Chars :=
  match t.enum with
  | .hash entries => entries.lookup k
  | .array entries => (entries.lookup k).join

/-- The type the constructor builds records these values, and naming it defines them. -/
def RecordsValues (t : EnumType) (vs : Values) : Prop :=
  (∀ entry ∈ vs, onRecord t entry.1 = some (integer entry.2)) ∧
  ∀ name, ∃ constants, t.typedef name = .ok constants ∧
    ∀ entry ∈ vs, constants.lookup (name ++ "::".toList ++ entry.1) = some ⟨entry.2, entry.1⟩

/-- Whether a text starts with a name of some kind. -/
def leads (p : Chars → Bool) : List Piece → Bool
  | .word w :: _ => p w
  | _ => false

/-- Whether a minus sign stands right before a name of some kind. -/
def minusBefore (p : Chars → Bool) : List Piece → Bool
  | [] => false
  | .word _ :: ps => minusBefore p ps
  | .char c :: ps => (c == '-' && leads p ps) || minusBefore p ps

def isNegative (vs : Values) (w : Chars) : Bool := (vs.lookup w).any fun z => decide (z < 0)

/-- The expression of the enumerator puts a minus sign right before the name of a negative one. -/
def Enumerator.Touching (vs : Values) (e : Enumerator) : Prop :=
  ∃ i ∈ e.initializer, minusBefore (isNegative vs) (pieces i.text) = true

end Affix.Interface
