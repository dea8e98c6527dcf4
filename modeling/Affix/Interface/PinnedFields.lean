import Affix.Interface.ArrayDecoding
import Affix.Model.Pin

/-!
# A pinned variable and a field of a struct

A field of a struct is written where it lies: a pointer as the address of a copy, any
other value in place. A pinned variable is assigned by way of a block that the value is
marshalled to by itself, zeroed beforehand. At the same address the two should leave
the same bytes.

What the marshaller lays in place depends on the value alone. Bytes it does not lay are
what was there before, and of the address of a new copy nothing is known.
-/

set_option autoImplicit false

namespace Affix.Interface

open Affix.Foundation Affix.Model

/-- What the loop of `STRUCT_FLAG` does with the value of one member. SOURCE: marshal.cxx:459-466 -/
def storeField (field : TypeObj) (v : SV) (p : ℕ) : Eff Unit :=
  if field.isPointer then do
    let ptr ← sv2ptr field v 0
    store p (pointerBytes ptr)
  else do
    let _ ← sv2ptr field v p
    pure ()

/-! ## What is laid in place -/

instance (v : SV) : Decidable (ExplicitUndef v) := inferInstanceAs (Decidable (_ ∧ _))

/-- What the branch of a scalar type lays at the address it is given. -/
def laid (k : Kind) (v : SV) : List UInt8 :=
  match k with
  | .SV => []
  | .Void =>
    if v.SvOK && (asPointerObject v).isNone then (SvPV v).pvbyte.getD [] else []
  | .Bool => fieldEncoding .Bool v
  | .Char | .SChar | .UChar =>
    if v.SvOK then
      match v.elems with
      | some es => es.flatMap fun e => cchar.encode (svSlot e)
      | none => (SvPV v).bytes
    else []
  | .WChar => (wideChars v).flatMap (encodeLE 4)
  | k => if v.SvOK then fieldEncoding k v else []

/-- The address in a pointer object, which is `NULL` where its slot is not defined. -/
def objectAddress (es : List SV) : Option ℕ :=
  match es with
  | ptr :: _ => if ptr.SvOK then (addressOf ptr).toOption else some 0
  | [] => none

/-- What a scalar branch returns where it makes no copy. -/
def heldScalar (k : Kind) (v : SV) : Option ℕ :=
  match k with
  | .Bool | .SV => none
  | .Void => if v.SvOK then (asPointerObject v).bind objectAddress else some 0
  | _ => if v.SvOK then none else some 0

/-- The address that is got for the value where no copy of it is made. -/
def heldAddress : TypeObj → SV → Option ℕ
  | .pointer _ subtype, v =>
    if ExplicitUndef v then some 0
    else if subtype.isPointer then if v.SvOK then none else some 0
    else
      match asPointerObject v with
      | some es => objectAddress es
      | none => heldAddress subtype v
  | .scalar k _, v => if ExplicitUndef v then some 0 else heldScalar k v
  | .codeRef .., v => if ExplicitUndef v then some 0 else none
  | .struct .., v | .union .., v => if v.entries.isSome then none else some 0

/-- What is laid at a byte: a value, or a part of the address of a new copy. -/
inductive Mark where
  | byte (b : UInt8)
  | address
deriving DecidableEq

mutual

/-- What marshalling the value lays at a byte from the address it is given; a pointer is stored
as a field is. -/
def laidAt : TypeObj → SV → ℕ → Option Mark
  | .scalar k _, v, i => if ExplicitUndef v then none else (laid k v)[i]?.map .byte
  | .pointer s subtype, v, i =>
    if i < SIZEOF_INTPTR_T then
      match heldAddress (.pointer s subtype) v with
      | some q => (pointerBytes q)[i]?.map .byte
      | none => some .address
    else none
  | .codeRef .., _, _ => none
  | .struct _ fields, v, i | .union _ fields, v, i =>
    match v.entries with
    | some es => laidIn es fields i
    | none => none

/-- Of the members that have an entry the last one counts. -/
def laidIn (es : List (Text × SV)) : List TypeObj → ℕ → Option Mark
  | [], _ => none
  | field :: rest, i =>
    (laidIn es rest i).or
      (match fetched es field with
      | some w => if field.offset ≤ i then laidAt field w (i - field.offset) else none
      | none => none)

end

/-- The end of what is reached from an offset, if anything is. -/
def past (offset n : ℕ) : ℕ := if n = 0 then 0 else offset + n

/-- How far a scalar branch reaches: that of `WCHAR_FLAG` prints sixteen bytes. -/
def scalarReach (k : Kind) (v : SV) : ℕ :=
  match k with
  | .WChar => max 16 (laid .WChar v).length
  | k => (laid k v).length

mutual

/-- How far marshalling the value in place reaches. -/
def reach : TypeObj → SV → ℕ
  | .scalar k _, v => if ExplicitUndef v then 0 else scalarReach k v
  | .pointer .., _ => SIZEOF_INTPTR_T
  | .codeRef .., _ => 0
  | .struct _ fields, v | .union _ fields, v =>
    match v.entries with
    | some es => reachIn es fields
    | none => 0

def reachIn (es : List (Text × SV)) : List TypeObj → ℕ
  | [] => 0
  | field :: rest =>
    max
      (match fetched es field with
      | some w => past field.offset (reach field w)
      | none => 0)
      (reachIn es rest)

end

/-! ## The property -/

/-- The heaps have the same bytes in a stretch, where the condition holds. -/
def SameBytes (p n : ℕ) (h h' : Heap) (which : ℕ → Prop) : Prop :=
  ∀ i < n, which i → h.mem.bytes (p + i) = h'.mem.bytes (p + i)

/-- **The assignment of the value to the pinned variable** leaves the bytes that the second heap
has there, up to the addresses of new copies. -/
def AssignedAs (u : SV) (t : TypeObj) (p : ℕ) (h : Heap) (v : SV) (h₂ : Heap) : Prop :=
  ∃ st, (PinState.pinned h u t p).assign v = .ok (.done, st) ∧
    SameBytes p t.sizeof st.heap h₂ fun i => laidAt t v i ≠ some .address

/-- The value stays in the variable, which has zeros where nothing is laid. -/
structure FitsZeroed (t : TypeObj) (p : ℕ) (h : Heap) (v : SV) : Prop where
  room : reach t v ≤ t.sizeof
  zeros : ∀ i < t.sizeof, laidAt t v i = none → h.mem.bytes (p + i) = 0

end Affix.Interface
