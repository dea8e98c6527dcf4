import Affix.Foundation.Numeral
import Affix.Model.TypeObject

/-!
# The symbol of a C++ function

The name the Itanium C++ ABI gives a function of built-in types and pointers to them.
Pointer types, and the scopes that enclose the function, are numbered in the order in
which they are first written; a pointer type that has a number already is written by
it, in base thirty-six.
-/

set_option autoImplicit false

namespace Affix.Interface

open Affix.Foundation Affix.Model

/-- The built-in types of the ABI that Affix has a type for. -/
inductive Builtin where
  | void | wchar | bool | char | schar | uchar | short | ushort | int | uint
  | long | ulong | longlong | ulonglong | float | double
deriving DecidableEq, Repr

namespace Builtin

def kind : Builtin → Kind
  | void => .Void | wchar => .WChar | bool => .Bool | char => .Char | schar => .SChar
  | uchar => .UChar | short => .Short | ushort => .UShort | int => .Int | uint => .UInt
  | long => .Long | ulong => .ULong | longlong => .LongLong | ulonglong => .ULongLong
  | float => .Float | double => .Double

/-- The ABI's letter for the type. -/
def letter : Builtin → Char
  | void => 'v' | wchar => 'w' | bool => 'b' | char => 'c' | schar => 'a' | uchar => 'h'
  | short => 's' | ushort => 't' | int => 'i' | uint => 'j' | long => 'l' | ulong => 'm'
  | longlong => 'x' | ulonglong => 'y' | float => 'f' | double => 'd'

end Builtin

/-- A built-in type under so many pointers. -/
structure CxxType where
  base : Builtin
  depth : ℕ
deriving DecidableEq, Repr

/-- The type object that the constructors build for it. -/
def CxxType.type (t : CxxType) : TypeObj := Pointer^[t.depth] (scalarType t.base.kind)

/-- An identifier of C++, of the basic characters. -/
structure Identifier where
  chars : List Char
  nonempty : chars ≠ []
  valid : ∀ c ∈ chars, c.isAlphanum = true ∨ c = '_'
  head : ∀ c ∈ chars.head?, c.isDigit = false

/-- The name of a function: the scopes that enclose it, outermost first, and its own. -/
structure CxxName where
  scopes : List Identifier
  own : Identifier

/-- The name as it is written, `A::B::f`. -/
def CxxName.text (name : CxxName) : List Char :=
  name.scopes.flatMap (fun s => s.chars ++ [':', ':']) ++ name.own.chars

/-! ## The symbol -/

/-- What may be substituted: a scope, by the path to it, or a pointer type. -/
inductive Component where
  | scope (path : List (List Char))
  | pointer (t : CxxType)
deriving DecidableEq

/-- `<source-name>`. -/
def sourceName (name : List Char) : List Char := numeral 10 name.length ++ name

/-- `<substitution>`: `S_` for the first component, `S <seq-id> _` for the others. -/
def substitution (base i : ℕ) : List Char :=
  'S' :: (if i ≠ 0 then numeral base (i - 1) else []) ++ ['_']

/-- `<type>`: the letter of a built-in type, the substitution of a pointer type that has been
written, or `P` and the type behind the pointer, after which the pointer type is numbered. -/
def symbolType (b : Builtin) : (depth : ℕ) → List Component → List Char × List Component
  | 0, seen => ([b.letter], seen)
  | n + 1, seen =>
    if .pointer ⟨b, n + 1⟩ ∈ seen then
      (substitution 36 (seen.idxOf (.pointer ⟨b, n + 1⟩)), seen)
    else
      let (s, seen) := symbolType b n seen
      ('P' :: s, seen ++ [.pointer ⟨b, n + 1⟩])

/-- The types of a parameter list, one after another. -/
def symbolTypes : List CxxType → List Component → List Char
  | [], _ => []
  | t :: ts, seen =>
    let (s, seen) := symbolType t.base t.depth seen
    s ++ symbolTypes ts seen

def std : List Char := ['s', 't', 'd']

/-- `<name>`: a name of its own, one of `std`, or a nested one, whose scopes are numbered but
for `std` itself. -/
def symbolName (name : CxxName) : List Char × List Component :=
  let scopes := name.scopes.map Identifier.chars
  let paths := (List.range scopes.length).map fun i => scopes.take (i + 1)
  let components := (paths.filter (· ≠ [std])).map Component.scope
  let own := sourceName name.own.chars
  match scopes with
  | [] => (own, [])
  | first :: rest =>
    let outer := if first = std then ['S', 't'] else sourceName first
    if first = std ∧ rest = [] then (outer ++ own, [])
    else ('N' :: outer ++ rest.flatMap sourceName ++ own ++ ['E'], components)

/-- **The symbol of a function**, whose parameter list is `void` when it has no parameters. -/
def symbol (name : CxxName) (params : List CxxType) : List Char :=
  let (n, seen) := symbolName name
  '_' :: 'Z' :: n ++ symbolTypes (if params = [] then [⟨.void, 0⟩] else params) seen

/-! ## What a symbol tells -/

/-- A part of a name, of any characters: it is not empty, no colon is in it and it does not
start with a digit. -/
structure NamePart where
  chars : List Char
  nonempty : chars ≠ []
  noColon : ':' ∉ chars
  head : ∀ c ∈ chars.head?, c.isDigit = false

/-- A name with its scopes, outermost first. -/
structure ScopedName where
  scopes : List NamePart
  own : NamePart

/-- The name as it is written, `A::B::f`. -/
def ScopedName.text (name : ScopedName) : List Char :=
  name.scopes.flatMap (fun s => s.chars ++ [':', ':']) ++ name.own.chars

/-- The scopes and the name itself. -/
def ScopedName.parts (name : ScopedName) : List (List Char) :=
  name.scopes.map NamePart.chars ++ [name.own.chars]

/-- The flag of what is behind all the pointers of a type, and how many pointers there are. -/
def shape : TypeObj → Flag × ℕ
  | .pointer _ subtype => ((shape subtype).1, (shape subtype).2 + 1)
  | type => (type.flag, 0)

/-- The shapes of a parameter list, of which an empty one is `[Void]`. -/
def shapes (params : List TypeObj) : List (Flag × ℕ) :=
  (if params = [] then [scalarType .Void] else params).map shape

theorem shape_leaf {t : TypeObj} (hleaf : t.flag ≠ .pointer) : shape t = (t.flag, 0) := by
  cases t with
  | pointer s subtype => exact absurd rfl hleaf
  | _ => rfl

end Affix.Interface
