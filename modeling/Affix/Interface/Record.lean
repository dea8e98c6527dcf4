import Affix.Foundation.CInt
import Affix.Interface.Decl
import Affix.Model.Perl

/-!
# Records

A record is a `Struct` of numbers, truth values, characters, strings and records.
A Perl hash is a value of it when it has the fields of the record as its keys and
gives each a value of its type. Two hashes are the same to Perl when they have the
same keys and values that read the same: as truth values, as numbers, or as
strings of characters.
-/

set_option autoImplicit false

namespace Affix.Interface

open Affix.Foundation Affix.Model

inductive Reading where
  | truth
  | character
  | number (c : CIntType)

/-- The scalar types a field of a record may have, and what their values are. -/
def reading : Kind → Option Reading
  | .Bool => some .truth
  | .Char | .SChar | .UChar => some .character
  | .Short => some (.number cshort)
  | .UShort => some (.number cushort)
  | .Int => some (.number cint)
  | .UInt => some (.number cuint)
  | .Long => some (.number clong)
  | .ULong => some (.number culong)
  | .LongLong => some (.number clonglong)
  | .ULongLong => some (.number culonglong)
  | _ => none

/-- The declarations of records and their fields: names are distinct at every level. -/
def Decl.Record : Decl → Prop
  | .scalar k => (reading k).isSome = true
  | .pointer d => d = .qualified .Const (.scalar .Char)
  | .struct fields => (fields.map fun f => f.1.chars).Nodup ∧ allRecord fields
  | _ => False
where
  allRecord : List (PerlStr × Decl) → Prop
    | [] => True
    | (_, d) :: fs => d.Record ∧ allRecord fs

def fieldKey (field : TypeObj) : Text := (field.field.map PerlStr.chars).getD []

/-! ## Values -/

/-- A value of a scalar type: a truth value, a string of one byte, or an integer in range. -/
def ScalarValue (k : Kind) (v : SV) : Prop :=
  match reading k with
  | some .truth => v.elems = none ∧ v.SvREADONLY = false
  | some .character => v.SvOK = true ∧ v.elems = none ∧ ∃ b, (SvPV v).bytes = [b]
  | some (.number c) => ∃ s n, v = .val s ∧ s.iv = some n ∧ c.InRange n
  | none => False

/-- A value of `String`: no zero in it, and flagged unless it is seven-bit. -/
def StringValue (v : SV) : Prop :=
  v.SvOK = true ∧ v.elems = none ∧ 0 ∉ (SvPV v).bytes ∧
    ((SvPV v).utf8 = true ∨ ∀ b ∈ (SvPV v).bytes, isASCII b = true)

/-- The value is one of a field of the given type. -/
def HasValue : TypeObj → SV → Prop
  | .scalar k _, v => ScalarValue k v
  | .pointer _ _, v => StringValue v
  | .struct _ fields, v => ∃ es, v.entries = some es ∧
      (∀ key, key ∈ es.map Prod.fst ↔ key ∈ fields.map fieldKey) ∧ hasValues es fields
  | _, _ => False
where
  hasValues (es : List (Text × SV)) : List TypeObj → Prop
    | [] => True
    | field :: rest => (∃ v, es.lookup (fieldKey field) = some v ∧ HasValue field v) ∧
        hasValues es rest

/-! ## Equality -/

/-- Two scalars that read the same. -/
def SameScalar (k : Kind) (v w : SV) : Prop :=
  match reading k with
  | some .truth => SvTRUE v = SvTRUE w
  | some .character => (SvPV v).chars = (SvPV w).chars
  | some (.number _) => svSlot v = svSlot w
  | none => False

/-- Two values of a field that are the same to Perl. -/
def ReadsSame : TypeObj → SV → SV → Prop
  | .scalar k _, v, w => SameScalar k v w
  | .pointer _ _, v, w => (SvPV v).chars = (SvPV w).chars
  | .struct _ fields, v, w => ∃ es es', v.entries = some es ∧ w.entries = some es' ∧
      (∀ key, key ∈ es.map Prod.fst ↔ key ∈ es'.map Prod.fst) ∧ allReadSame es es' fields
  | _, _, _ => False
where
  allReadSame (es es' : List (Text × SV)) : List TypeObj → Prop
    | [] => True
    | field :: rest => (∃ v w, es.lookup (fieldKey field) = some v ∧
        es'.lookup (fieldKey field) = some w ∧ ReadsSame field v w) ∧ allReadSame es es' rest

/-! ## The records that survive -/

/-- Every `ULong` and `ULongLong` in the value is in the lower half of its range. -/
def LowerHalf : TypeObj → SV → Prop
  | .scalar k _, v => (k = .ULong ∨ k = .ULongLong) → svSlot v < 2 ^ 63
  | .struct _ fields, v => ∀ es, v.entries = some es → allLowerHalf es fields
  | _, _ => True
where
  allLowerHalf (es : List (Text × SV)) : List TypeObj → Prop
    | [] => True
    | field :: rest => (∀ v, es.lookup (fieldKey field) = some v → LowerHalf field v) ∧
        allLowerHalf es rest

/-- Every name in the record is a string whose characters are its bytes. -/
def PlainNames : TypeObj → Prop
  | .struct _ fields => allPlain fields
  | _ => True
where
  allPlain : List TypeObj → Prop
    | [] => True
    | field :: rest => (∀ name ∈ field.field, name.Plain) ∧ PlainNames field ∧ allPlain rest

/-- At every level, the bytes of a name spell no name of a field, unless it is plain. -/
def NoClash : TypeObj → Prop
  | .struct _ fields =>
    (∀ field ∈ fields, ∀ name ∈ field.field,
      name.bytes.map UInt8.toNat ∈ fields.map fieldKey → name.Plain) ∧ allNoClash fields
  | _ => True
where
  allNoClash : List TypeObj → Prop
    | [] => True
    | field :: rest => NoClash field ∧ allNoClash rest

end Affix.Interface
