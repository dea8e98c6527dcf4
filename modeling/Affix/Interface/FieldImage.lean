import Affix.Interface.Record
import Affix.Model.Marshal

/-!
# The image of a hash in a struct

A struct that a hash has been marshalled into should be the image of the hash, field
by field: where a scalar belongs, its C encoding; where a pointer or a callback does,
the address of what was made of the value; between fields, what was there before.

What is written for a value depends on the value alone, so whether it fits its field
does too. A value fills its field when what is written for it is its encoding, or
when nothing is and the field has the encoding already.
-/

set_option autoImplicit false

namespace Affix.Interface

open Affix.Foundation Affix.Model

/-! ## Encodings -/

/-- The C value of one Perl value at a scalar type. A character is the number the value
carries or, if it carries none, the first of its string. -/
def encoding (k : Kind) (v : SV) : List UInt8 :=
  match k with
  | .Void | .SV => []
  | .Bool => boolByte (SvTRUE v)
  | .Char | .SChar | .UChar =>
    cchar.encode (if v.SvIOK then svSlot v else (SvPV v).chars.headD 0)
  | .WChar => encodeLE 4 ((SvPV v).chars.headD 0)
  | .Short => cshort.encode (svSlot v)
  | .UShort => cushort.encode (svSlot v)
  | .Int => cint.encode (svSlot v)
  | .UInt => cuint.encode (svSlot v)
  | .Long => clong.encode (svSlot v)
  | .ULong => culong.encode (svSlot v)
  | .LongLong => clonglong.encode (svSlot v)
  | .ULongLong | .Size_t => culonglong.encode (svSlot v)
  | .Float => encodeLE 4 (binary64.convert binary32 (SvNV v))
  | .Double => encodeLE 8 (SvNV v)

/-- The C value of a Perl value: of an array, the values of its elements in a row. -/
def fieldEncoding (k : Kind) (v : SV) : List UInt8 :=
  match v.elems with
  | some es => es.flatMap (encoding k)
  | none => encoding k v

/-! ## Addresses -/

/-- The value is a pointer object whose address slot meets a condition. -/
def HasAddress (P : SV → Prop) (v : SV) : Prop :=
  ∃ es ptr, asPointerObject v = some es ∧ pointerAddr es = .ok ptr ∧ P ptr

/-- There is nothing to copy: the value is undefined, or an object that holds no address, or
an aggregate is wanted and it is no hash. -/
def NoCopy (t : TypeObj) (v : SV) : Prop :=
  v.SvOK = false ∨ HasAddress (fun ptr => ptr.SvOK = false) v ∨
    match t with
    | .struct .. | .union .. | .pointer _ (.struct ..) | .pointer _ (.union ..) => v.entries = none
    | _ => False

/-- The address of what was made of a value: a new block, the address a pointer object holds,
or no address where there is nothing to copy. -/
def CopyAddress (bound : ℕ) (m : Mem) (t : TypeObj) (v : SV) (q : ℕ) : Prop :=
  (bound ≤ q ∧ ∃ n, (q, n) ∈ m.blocks) ∨
    HasAddress (fun ptr => ptr.SvOK = true ∧ addressOf ptr = .ok q) v ∨ q = 0 ∧ NoCopy t v

/-- The address of the callback made of a value. -/
def CallbackAddress (bound : ℕ) (m : Mem) (v : SV) (q : ℕ) : Prop :=
  (bound ≤ q ∧ ∃ n, (q, n) ∈ m.blocks) ∨ q = 0 ∧ v.SvOK = false

/-! ## The image -/

/-- A byte of one of the fields at an address, at any depth. -/
def InField : TypeObj → ℕ → ℕ → Prop
  | .struct _ fields, a, x => inAny fields a x
  | t, a, x => a ≤ x ∧ x < a + t.sizeof
where
  inAny : List TypeObj → ℕ → ℕ → Prop
    | [], _, _ => False
    | field :: rest, a, x => InField field (a + field.offset) x ∨ inAny rest a x

/-- No field of the list has an entry. -/
def Unnamed (es : List (Text × SV)) (fields : List TypeObj) : Prop :=
  ∀ field ∈ fields, es.lookup (fieldKey field) = none

/-- The memory holds the image of a value at an address; what was made for it lies above the
bound. A hash is the value of a union when it names one member. -/
def Holds (bound : ℕ) (m : Mem) : TypeObj → ℕ → SV → Prop
  | .scalar k _, a, v => m.peek a k.sizeof = fieldEncoding k v
  | .pointer s subtype, a, v => ∃ q, m.peek a SIZEOF_INTPTR_T = pointerBytes q ∧
      CopyAddress bound m (.pointer s subtype) v q
  | .codeRef .., a, v => ∃ q, m.peek a SIZEOF_INTPTR_T = pointerBytes q ∧
      CallbackAddress bound m v q
  | .struct _ fields, a, v => ∃ es, v.entries = some es ∧ holdsAll es a fields
  | .union _ fields, a, v => ∃ es, v.entries = some es ∧ holdsOne es a fields
where
  holdsAll (es : List (Text × SV)) (a : ℕ) : List TypeObj → Prop
    | [] => True
    | field :: rest => (∃ w, es.lookup (fieldKey field) = some w ∧
        Holds bound m field (a + field.offset) w) ∧ holdsAll es a rest
  holdsOne (es : List (Text × SV)) (a : ℕ) : List TypeObj → Prop
    | [] => False
    | field :: rest =>
      (∃ w, es.lookup (fieldKey field) = some w ∧ Holds bound m field (a + field.offset) w) ∧
          Unnamed es rest ∨
        es.lookup (fieldKey field) = none ∧ holdsOne es a rest

/-- The explicit `undef`, for which `sv2ptr` does nothing. -/
def ExplicitUndef (v : SV) : Prop := v.SvOK = false ∧ v.SvREADONLY = true

/-- The characters that the branch of `WCHAR_FLAG` copies. -/
def wideChars (v : SV) : Text := (SvPV v).chars.takeWhile (· ≠ 0)

def AtMostOne (v : SV) : Prop := ∀ es, v.elems = some es → es.length ≤ 1

/-- If the value is a pointer object, its address slot can be read. -/
def Readable (v : SV) : Prop :=
  ∀ es, asPointerObject v = some es →
    ∃ ptr rest, es = ptr :: rest ∧ (ptr.SvOK = true → ptr.SvROK = true)

/-- What is written for the value is no longer than a field of the scalar type. There is so
much room from the field to the end of its block; the branch of `WCHAR_FLAG` prints sixteen
bytes of it. -/
def ScalarFits (room : ℕ) (k : Kind) (v : SV) : Prop :=
  match k with
  | .SV => True
  | .Void => Readable v ∧
      (asPointerObject v = none → v.SvOK = true → ∀ bs, (SvPV v).pvbyte = some bs → bs = [])
  | .Char | .SChar | .UChar =>
    AtMostOne v ∧ (v.SvOK = true → v.elems = none → (SvPV v).bytes.length ≤ 1)
  | .WChar => ExplicitUndef v ∨ 16 ≤ room ∧ (wideChars v).length ≤ 1
  | _ => AtMostOne v

/-- A copy of the value can be made in a block of its own. -/
def ScalarCopyFits (k : Kind) (v : SV) : Prop :=
  match k with
  | .Void => Readable v
  | .WChar => ExplicitUndef v
  | _ => True

/-- The entry that is looked up for a field: by the bytes of its name. -/
def fetched (es : List (Text × SV)) (field : TypeObj) : Option SV := field.field.bind (hvFetch es)

/-- The values that a pointer to a type is made of can be copied: each element of an array of
pointers, and any other value that is no pointer object. -/
def PointerFits (copyFits : SV → Prop) (subtype : TypeObj) (v : SV) : Prop :=
  (subtype.isPointer = true → v.SvOK = true →
    (∀ es, v.elems = some es → ∀ e ∈ es, copyFits e) ∧ (v.elems = none → copyFits v)) ∧
  (subtype.isPointer = false → Readable v ∧ (asPointerObject v = none → copyFits v))

/-- The callback library takes the signature for the sub, if there is one. It takes an
aggregate at its end for the result, and has no descriptor of that. -/
def CallbackFits (sig : List Flag) (v : SV) : Prop :=
  v.SvOK = true → dcbInitCallback (sig.map Flag.sigChar) = .ok ()

mutual

/-- **What is written for the value stays in the field**, and in the blocks that are made for
the value. -/
def Fits : (room : ℕ) → TypeObj → SV → Prop
  | room, .scalar k _, v => ScalarFits room k v
  | _, .pointer _ subtype, v => PointerFits (fun e => CopyFits subtype e) subtype v
  | _, .codeRef _ _ sig _, v => CallbackFits sig v
  | room, .struct _ fields, v | room, .union _ fields, v =>
    ∀ es, v.entries = some es → FieldsFit room es fields

def FieldsFit (room : ℕ) (es : List (Text × SV)) : List TypeObj → Prop
  | [] => True
  | field :: rest => (∀ w, fetched es field = some w → Fits (room - field.offset) field w) ∧
      FieldsFit room es rest

/-- What is written for a copy of the value stays in the blocks that are made for it. -/
def CopyFits : TypeObj → SV → Prop
  | .scalar k _, v => ScalarCopyFits k v
  | .pointer _ subtype, v => PointerFits (fun e => CopyFits subtype e) subtype v
  | .codeRef _ _ sig _, v => CallbackFits sig v
  | .struct s fields, v | .union s fields, v =>
    ∀ es, v.entries = some es → FieldsFit s.sizeof es fields

end

/-! ## What fills a field -/

/-- Nothing is written for the value in a field of the scalar type. -/
def Silent (k : Kind) (v : SV) : Prop :=
  ExplicitUndef v ∨ v.elems = some [] ∨
    match k with
    | .Void | .SV => True
    | .Bool => False
    | .Char | .SChar | .UChar => v.SvOK = false ∨ v.elems = none ∧ (SvPV v).bytes = []
    | .WChar => wideChars v = []
    | _ => v.SvOK = false

/-- A character is given as a string of one byte that is its encoding or, in an array, as a
number that is. A wide character is not given in an array. -/
def Literal (k : Kind) (v : SV) : Prop :=
  match k with
  | .Char | .SChar | .UChar =>
    (∀ es, v.elems = some es → ∀ e ∈ es, cchar.encode (svSlot e) = encoding k e) ∧
      (v.elems = none → (SvPV v).bytes = [] ∨ (SvPV v).bytes = encoding k v)
  | .WChar => v.elems = none
  | _ => True

/-- Every field is looked up by bytes that spell its name, or finds what these would. -/
def NamesAgree (es : List (Text × SV)) (fields : List TypeObj) : Prop :=
  ∀ field ∈ fields, fetched es field = es.lookup (fieldKey field)

/-- **The value fills the field**, which is at an address of the memory before: what is written
is its encoding, or nothing is and its encoding is there. A callback is never stored, so the
only one is `undef`, in a field that is `NULL`. -/
def Fills (m : Mem) : TypeObj → ℕ → SV → Prop
  | .scalar k _, a, v => Literal k v ∧ (Silent k v → m.peek a k.sizeof = fieldEncoding k v)
  | .pointer .., _, _ => True
  | .codeRef .., a, v => v.SvOK = false ∧ m.peek a SIZEOF_INTPTR_T = pointerBytes 0
  | .struct _ fields, a, v => ∃ es, v.entries = some es ∧ NamesAgree es fields ∧
      fillsAll es a fields
  | .union _ fields, a, v => ∃ es, v.entries = some es ∧ NamesAgree es fields ∧
      fillsOne es a fields
where
  fillsAll (es : List (Text × SV)) (a : ℕ) : List TypeObj → Prop
    | [] => True
    | field :: rest => (∀ w, es.lookup (fieldKey field) = some w →
        Fills m field (a + field.offset) w) ∧ fillsAll es a rest
  fillsOne (es : List (Text × SV)) (a : ℕ) : List TypeObj → Prop
    | [] => False
    | field :: rest =>
      (∃ w, es.lookup (fieldKey field) = some w ∧ Fills m field (a + field.offset) w) ∧
          Unnamed es rest ∨
        es.lookup (fieldKey field) = none ∧ fillsOne es a rest

end Affix.Interface
