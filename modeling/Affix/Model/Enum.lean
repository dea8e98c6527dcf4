import Affix.Foundation.Arithmetic
import Affix.Foundation.Numeral
import Affix.Model.TypeObject

/-!
# Enumerations

An enumeration constructor walks over its elements with a running index, which is a
string or an integer; either way Perl treats it as the text it prints. An index with
anything but digits in it is taken for an expression: words that name an earlier
element are replaced by its value, as text, and what comes out is handed to `eval`.

SOURCE: Enum.pm:15-111
-/

set_option autoImplicit false

namespace Affix.Model

open Affix.Foundation

/-- Perl strings of single bytes, as characters. -/
abbrev Chars := List Char

/-! ## Numbers and strings -/

/-- The text of an integer. -/
def integer (z : ℤ) : Chars :=
  if z < 0 then '-' :: numeral 10 z.natAbs else numeral 10 z.natAbs

/-- The integer a text starts with, which is what it counts as where a number is wanted. -/
def numeric (s : Chars) : ℤ :=
  match s.dropWhile fun c => c == ' ' || ('\t' ≤ c && c ≤ '\r') with
  | '-' :: cs => -(readDigits 10 (cs.takeWhile Char.isDigit) : ℤ)
  | '+' :: cs => readDigits 10 (cs.takeWhile Char.isDigit)
  | cs => readDigits 10 (cs.takeWhile Char.isDigit)

/-- `sv_inc` on letters and digits, last one first. When the carry leaves the text it grows by
`grown`. -/
def carry (grown : Char) : Chars → Chars
  | [] => [grown]
  | c :: cs =>
    if c = '9' then '0' :: carry '1' cs
    else if c = 'z' then 'a' :: carry 'a' cs
    else if c = 'Z' then 'A' :: carry 'A' cs
    else Char.ofNat (c.toNat + 1) :: cs

/-- Letters, then digits: what `++` counts up as a string. -/
def isMagical (s : Chars) : Bool := (s.dropWhile Char.isAlpha).all Char.isDigit

/-- `++`. -/
def sv_inc (s : Chars) : Chars :=
  if s = [] then ['1']
  else if isMagical s then (carry '1' s.reverse).reverse
  else integer (numeric s + 1)

/-- `++` on a scalar that may be undefined. -/
def postInc (s : Option Chars) : Chars := (s.map sv_inc).getD ['1']

/-! ## `eval`

Of Perl's expressions the model knows sums, products and signs of integers written with
digits, where a first zero makes them octal. Everything else counts as an error. -/

def readOctal (w : Chars) : Option ℤ :=
  if w.all fun c => decide (c < '8') then some (readDigits 8 w) else none

/-- A word as a number. -/
def readNumber (w : Chars) : Option ℤ :=
  if w.all Char.isDigit = false then none
  else if w.head? = some '0' then readOctal w
  else some (readDigits 10 w)

def eval (s : Chars) : Option ℤ := (lex readNumber (pieces s)).bind evaluate

/-! ## `Enum`, `IntEnum`, `UIntEnum` -/

/-- An element: a name, or a pair of a name and an index. -/
structure Element where
  name : Chars
  index : Option Chars
deriving DecidableEq, Repr

/-- An ordinary hash, oldest key first. -/
abbrev Table := List (Chars × Chars)

def Table.store (h : Table) (key val : Chars) : Table :=
  h.filter (fun entry => entry.1 ≠ key) ++ [(key, val)]

/-- `$index =~ s[(\w+)][$enum->{$1}//$1]xeg`. -/
def substituteValues (enum : Table) (index : Chars) : Chars :=
  substituteWords (fun w => (enum.lookup w).getD w) index

def hasNonDigit (index : Chars) : Bool := index.any fun c => !c.isDigit

/-- The index of an element, undefined where `eval` fails. -/
def settle (enum : Table) (index : Chars) : Option Chars :=
  if hasNonDigit index then (eval (substituteValues enum index)).map integer else some index

/-- The variables of `_Enum`. -/
structure EnumLoop where
  fields : List Chars
  index : Chars
  enum : Table
deriving DecidableEq, Repr

def Element.field (e : Element) : Chars :=
  match e.index with
  | some index => '[' :: e.name ++ " => '".toList ++ index ++ "']".toList
  | none => '\'' :: e.name ++ ['\'']

/-- One turn of the loop. An undefined index counts as zero and is one afterwards. -/
def EnumLoop.element (st : EnumLoop) (e : Element) : EnumLoop :=
  let index := settle st.enum (e.index.getD st.index)
  { fields := st.fields ++ [e.field]
    index := postInc index
    enum := st.enum.store e.name (index.getD ['0']) }

/-- SOURCE: Enum.pm:15-35 -/
def _Enum (elements : List Element) : EnumLoop :=
  elements.foldl EnumLoop.element ⟨[], ['0'], []⟩

/-- Why Perl dies. -/
inductive Died where
  /-- `Can't use an undefined value as an ARRAY reference`. -/
  | undefinedArray
  /-- `Not an ARRAY reference`. -/
  | notArray
  /-- `Not a HASH reference`. -/
  | notHash
  /-- `Not a GLOB reference`. -/
  | notGlob
  /-- `Can't bless non-reference value`. -/
  | cantBless
  /-- `Recursive inheritance detected`. -/
  | recursiveInheritance
  /-- `Unknown type`. -/
  | unknownType
deriving DecidableEq, Repr

inductive EnumClass where
  | Enum | IntEnum | UIntEnum | CharEnum
deriving DecidableEq, Repr

/-- What is in the slot of the enumerators. -/
inductive Enumerators where
  | hash (entries : Table)
  | array (entries : List (Chars × Option Chars))
deriving DecidableEq, Repr

structure EnumType where
  package : EnumClass
  stringify : Chars
  numeric : Flag
  sizeof : ℕ
  alignment : ℕ
  enum : Enumerators
deriving DecidableEq, Repr

/-- `join ', ', @$text`, where `$text` is undefined as long as nothing was pushed. -/
def joinTexts : List Chars → Except Died Chars
  | [] => .error .undefinedArray
  | t :: ts => .ok (ts.foldl (fun s u => s ++ ", ".toList ++ u) t)

/-- A constructor built on `_Enum`. -/
def enumOf (package : EnumClass) (name : Chars) (kind : Kind) (elements : List Element) :
    Except Died EnumType :=
  (joinTexts (_Enum elements).fields).map fun text =>
    { package := package
      stringify := name ++ "[ ".toList ++ text ++ " ]".toList
      numeric := kind.flag
      sizeof := kind.sizeof
      alignment := kind.align
      enum := .hash (_Enum elements).enum }

/-- SOURCE: Enum.pm:37-48 -/
def Enum : List Element → Except Died EnumType := enumOf .Enum "Enum".toList .Int

/-- SOURCE: Enum.pm:50-61 -/
def IntEnum : List Element → Except Died EnumType := enumOf .IntEnum "IntEnum".toList .Int

/-- SOURCE: Enum.pm:63-74 -/
def UIntEnum : List Element → Except Died EnumType := enumOf .UIntEnum "UIntEnum".toList .UInt

/-! ## `CharEnum` -/

/-- The variables of `CharEnum`. -/
structure CharLoop where
  index : Chars
  enum : List (Chars × Option Chars)
  text : List Chars
deriving DecidableEq, Repr

/-- The characters that make `CharEnum` take an index for an expression. -/
def hasOperator (index : Chars) : Bool :=
  index.any fun c => c = '+' || c = '|' || c = '*' || c = '/' || c = '^' || c = '%'

def hasWord (index : Chars) : Bool := index.any isWordChar

/-- The index of an element. A word of an expression is looked up in `$enum` as in a hash: it is
an array from the first element on, and made a hash, to which nothing can be pushed, before
that. With no word there is nothing to replace by either substitution. -/
def CharLoop.settle (st : CharLoop) (index : Chars) : Except Died (Option Chars) :=
  if hasOperator index then
    if hasWord index then .error (if st.enum = [] then .notArray else .notHash)
    else .ok ((eval index).map integer)
  else .ok (some index)

/-- `$index =~ /\D/ ? ord $index : $index`. -/
def charValue (index : Chars) : Chars :=
  if hasNonDigit index then integer (index.headD '0').toNat else index

/-- One turn of the loop. -/
def CharLoop.element (st : CharLoop) (e : Element) : Except Died CharLoop :=
  (st.settle (e.index.getD st.index)).map fun index =>
    { index := postInc index
      enum := st.enum ++ [(e.name, index.map charValue)]
      text := st.text ++ ['[' :: e.name ++ " => ".toList ++ index.getD [] ++ [']']] }

/-- SOURCE: Enum.pm:76-101 -/
def CharEnum (elements : List Element) : Except Died EnumType := do
  let st ← elements.foldlM CharLoop.element ⟨['0'], [], []⟩
  let text ← joinTexts st.text
  pure {
    package := .CharEnum
    stringify := "CharEnum[ ".toList ++ text ++ " ]".toList
    numeric := Kind.Char.flag
    sizeof := Kind.Char.sizeof
    alignment := Kind.Char.align
    enum := .array st.enum }

/-! ## `typedef` -/

/-- A scalar with a number and a string of its own. -/
structure Dualvar where
  num : ℤ
  str : Chars
deriving DecidableEq, Repr

/-- The constants defined under a name. SOURCE: Enum.pm:103-111 -/
def EnumType.typedef (self : EnumType) (name : Chars) : Except Died (List (Chars × Dualvar)) :=
  match self.enum with
  | .hash entries => .ok (entries.map fun (key, val) =>
      (name ++ "::".toList ++ key, ⟨Affix.Model.numeric val, key⟩))
  | .array _ => .error .notHash

end Affix.Model
