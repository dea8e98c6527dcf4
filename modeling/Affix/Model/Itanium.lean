import Affix.Foundation.Numeral
import Affix.Model.TypeObject

/-!
# Mangled names

`Affix::ABI::Itanium` turns a function name and a list of types into the name a C++
compiler gives the function. Types are mangled from left to right; a hash carries
what may be abbreviated from one type to the next. Its keys are texts, the mangled
type behind a pointer, so that what a type is abbreviated to depends on how the types
before it came out.

SOURCE: Itanium.pm:12-161
-/

set_option autoImplicit false

namespace Affix.Model.Itanium

open Affix.Foundation

/-- The texts that may be abbreviated, each with its abbreviation, in the order they were
stored in. -/
abbrev Cache := List (List Char × List Char)

/-- The entries of `$builtin_types` as they are written, the key as the character of the flag.
`Const` gives back the type it qualifies, which is `Void`. SOURCE: Itanium.pm:25-69 -/
def builtinEntries : List (Char × Char) :=
  [(Flag.void.sigChar, 'v'), (Flag.wchar.sigChar, 'w'), (Flag.bool.sigChar, 'b'),
    (Flag.char.sigChar, 'c'), (Flag.schar.sigChar, 'a'), (Flag.uchar.sigChar, 'h'),
    (Flag.short.sigChar, 's'), (Flag.ushort.sigChar, 't'), (Flag.int.sigChar, 'i'),
    (Flag.uint.sigChar, 'j'), (Flag.long.sigChar, 'l'), (Flag.ulong.sigChar, 'm'),
    (Flag.longlong.sigChar, 'x'), (Flag.ulonglong.sigChar, 'y'), (Flag.float.sigChar, 'f'),
    (Flag.double.sigChar, 'd'), ((Pointer (scalarType .Void)).flag.sigChar, 'P'), ('e', 'z'),
    ((scalarType .Void).Const.flag.sigChar, 'K')]

/-- `$builtin_types->{$type_id}`: of two entries with one key the later counts. -/
def builtinTypes (type : TypeObj) : Option Char := builtinEntries.reverse.lookup type.flag.sigChar

/-- The abbreviation stored next: `S_`, `S0_`, `S1_` and on in decimal. SOURCE: Itanium.pm:81-82 -/
def shortcut (shortcuts : ℕ) : List Char :=
  'S' :: (if shortcuts ≠ 0 then numeral 10 (shortcuts - 1) else []) ++ ['_']

/-- One turn of the loop of `bare_function_type`, for the type it is at: the text that is
pushed, or the type it dies of. SOURCE: Itanium.pm:21-97 -/
def bareType : TypeObj → Cache → Except TypeObj (List Char × Cache)
  | .pointer s subtype, cache =>
    match builtinTypes (.pointer s subtype) with
    | none => .error (.pointer s subtype)
    | some letter =>
      match bareType subtype cache with
      | .error e => .error e
      | .ok (t, cache) =>
        match cache.lookup t with
        | some code => .ok (code, cache)
        | none => .ok (letter :: t, cache ++ [(t, shortcut cache.length)])
  | type, cache =>
    match builtinTypes type with
    | none => .error type
    | some letter => .ok ([letter], cache)

/-- `bare_function_type`. SOURCE: Itanium.pm:14-101 -/
def bare_function_type : List TypeObj → Cache → Except TypeObj (List Char × Cache)
  | [], cache => .ok ([], cache)
  | type :: types, cache =>
    match bareType type cache with
    | .error e => .error e
    | .ok (t, cache) =>
      match bare_function_type types cache with
      | .error e => .error e
      | .ok (ts, cache) => .ok (t ++ ts, cache)

/-- The fields between the colons of a name. -/
def fieldsOf : List Char → List (List Char)
  | [] => [[]]
  | ':' :: ':' :: rest => [] :: fieldsOf rest
  | c :: rest =>
    match fieldsOf rest with
    | [] => [[c]]
    | w :: ws => (c :: w) :: ws

/-- `split /::/, $name`: empty fields at the end are dropped. -/
def splitName (name : List Char) : List (List Char) :=
  ((fieldsOf name).reverse.dropWhile (· = [])).reverse

/-- `length($_) . $_`. -/
def lengthPrefixed (name : List Char) : List Char := numeral 10 name.length ++ name

/-- SOURCE: Itanium.pm:103-113 -/
def nested_name (scope : List (List Char)) : List Char :=
  'N' :: scope.flatMap lengthPrefixed ++ ['E']

/-- SOURCE: Itanium.pm:115-146 -/
def nameOf (name : List Char) : List Char :=
  let parts := splitName name
  if 1 < parts.length then nested_name parts else lengthPrefixed name

/-- `mangle` for a list of arguments; an empty one is `Void`.
SOURCE: Itanium.pm:148-172 -/
def mangle (name : List Char) (args : List TypeObj) : Except TypeObj (List Char) :=
  let args := if args.isEmpty then [scalarType .Void] else args
  (bare_function_type args []).map fun r => '_' :: 'Z' :: nameOf name ++ r.1

end Affix.Model.Itanium
