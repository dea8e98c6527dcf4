import Affix.Foundation.CInt
import Affix.Model.Halt
import Affix.Model.TypeObject

/-!
# Aggregate descriptors

To pass a struct by value dyncall wants a description of its own: a list of
entries with an offset, a count and a signature character, from which it takes
the size and alignment of each entry. `_aggregate` derives one from a type
object, member by member.

SOURCE: Aggregate.cxx:3-169, dyncall_aggregate.c:43-104, dyncall_signature.h:42-59
-/

set_option autoImplicit false

namespace Affix.Model

open Affix.Foundation

/-- The signature characters of dyncall. SOURCE: dyncall_signature.h:42-59 -/
inductive DCsigchar where
  | void | bool | char | uchar | short | ushort | int | uint | long | ulong
  | longlong | ulonglong | float | double | pointer | string | aggregate
deriving DecidableEq, Repr, Inhabited

def DCsigchar.toChar : DCsigchar → Char
  | void => 'v' | bool => 'B' | char => 'c' | uchar => 'C' | short => 's' | ushort => 'S'
  | int => 'i' | uint => 'I' | long => 'j' | ulong => 'J' | longlong => 'l'
  | ulonglong => 'L' | float => 'f' | double => 'd' | pointer => 'p' | string => 'Z'
  | aggregate => 'A'

/-- The size `dcAggrField` takes for an entry that is no aggregate; it asserts that the
character is one of these. SOURCE: dyncall_aggregate.c:63-83 -/
def DCsigchar.fieldSize : DCsigchar → Option ℕ
  | bool => some 4
  | char | uchar => some 1
  | short | ushort => some 2
  | int | uint => some 4
  | long | ulong => some 8
  | longlong | ulonglong => some 8
  | float => some 4
  | double => some 8
  | pointer | string => some 8
  | void | aggregate => none

/-- The part of a `DCfield` that is no pointer. SOURCE: dyncall_aggregate.h:51-55 -/
structure DCfield where
  offset : ℤ
  size : ℕ
  alignment : ℕ
  arrayLen : ℕ
  type : DCsigchar
deriving DecidableEq, Repr

/-- A `DCaggr`: its size, its alignment and its entries, each with the descriptor it
points to when it is an aggregate. SOURCE: dyncall_aggregate.h:57-63 -/
inductive DCaggr where
  | mk (size alignment : ℕ) (fields : List (DCfield × Option DCaggr))

namespace DCaggr

def size : DCaggr → ℕ
  | mk n _ _ => n

def alignment : DCaggr → ℕ
  | mk _ a _ => a

def fields : DCaggr → List (DCfield × Option DCaggr)
  | mk _ _ fs => fs

end DCaggr

def dcNewAggr (size : ℕ) : DCaggr := .mk size 0 []

/-- The size and the alignment `dcAggrField` gives an entry.
SOURCE: dyncall_aggregate.c:63-96 -/
def dcFieldExtent (type : DCsigchar) (sub : Option DCaggr) : Except Halt (ℕ × ℕ) :=
  match type, sub with
  | .aggregate, some a => .ok (a.size, a.alignment)
  | type, _ =>
    match type.fieldSize with
    | some n => .ok (n, n)
    | none => .error .fault

/-- `dcAggrField`. The offset arrives as a `DCint` and is kept as a `DCsize`.
SOURCE: dyncall_aggregate.c:56-101 -/
def dcAggrField (ag : DCaggr) (type : DCsigchar) (offset : ℤ) (arrayLen : ℕ)
    (sub : Option DCaggr) : Except Halt DCaggr :=
  match dcFieldExtent type sub with
  | .error e => .error e
  | .ok (size, alignment) =>
    .ok (.mk ag.size (if ag.alignment < alignment then alignment else ag.alignment)
      (ag.fields ++ [(⟨culong.wrap (cint.wrap offset), size, alignment, arrayLen, type⟩, sub)]))

/-- The entry kind the switch of `_aggregate` picks for a member that is no aggregate.
SOURCE: Aggregate.cxx:54-118 -/
def aggregateSigchar : Flag → Option DCsigchar
  | .bool => some .bool
  | .char => some .char
  | .uchar => some .uchar
  | .short => some .short
  | .ushort => some .ushort
  | .int => some .int
  | .uint => some .uint
  | .long => some .long
  | .ulong => some .ulong
  | .longlong => some .longlong
  | .ulonglong => some .ulonglong
  | .float => some .float
  | .double => some .double
  | .pointer | .codeRef | .wstring => some .pointer
  | .wchar => some .longlong
  | _ => none

/-- The entry kind the switch of `_aggregate` picks for a member; an aggregate member
brings `nested`, the result of `_aggregate` on it. SOURCE: Aggregate.cxx:53-118 -/
def aggregateField (field : TypeObj) (nested : Except Halt DCaggr) :
    Except Halt (DCsigchar × Option DCaggr) :=
  match field.flag with
  | .struct | .union | .cppstruct => nested.map fun sub => (.aggregate, some sub)
  | c =>
    match aggregateSigchar c with
    | some c => .ok (c, none)
    | none => .error (.croak (text "Unhandled type in aggregate: " ++ field.slots.stringify))

mutual

/-- `_aggregate`. The branch for a descriptor kept in the type object is never taken:
nothing stores one. SOURCE: Aggregate.cxx:3-169 -/
def aggregate : TypeObj → Except Halt DCaggr
  | .struct s store => aggregateFields (dcNewAggr s.sizeof) store
  | .union s store => aggregateFields (dcNewAggr s.sizeof) store
  | .scalar _ s | .pointer s _ | .codeRef s _ _ _ =>
    .error (.croak (text "Unsupported aggregate: " ++ s.stringify))

def aggregateFields : DCaggr → List TypeObj → Except Halt DCaggr
  | ag, [] => .ok ag
  | ag, field :: rest =>
    match aggregateField field (aggregate field) with
    | .error e => .error e
    | .ok (c, sub) =>
      match dcAggrField ag c field.offset 1 sub with
      | .error e => .error e
      | .ok ag' => aggregateFields ag' rest

end

end Affix.Model
