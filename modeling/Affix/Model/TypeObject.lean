import Affix.Model.Text

/-!
# Type objects

Affix describes C types by blessed arrays with numbered slots. The embedding
keeps one constructor for each kind of object a constructor function builds and
one record for the slots they share. The slot that holds the member name of an
aggregate's member is the slot that holds a `CodeRef`'s argument list, so naming
a `CodeRef` member costs it its arguments; `withMember` below does what the
source does.

SOURCE: Type.pm:46-258, Affix.h:107-142, Affix.h:251-295
-/

set_option autoImplicit false

namespace Affix.Model

/-- The numeric slot of a type object: the native type flags.
SOURCE: Affix.h:107-142 -/
inductive Flag where
  | void | bool | schar | char | uchar | wchar | short | ushort | int | uint
  | long | ulong | longlong | ulonglong | float | double
  | wstring | stdstring | struct | cppstruct | union | affix | codeRef | pointer | sv
deriving DecidableEq, Repr, Inhabited

/-- The character that stands for a flag in a signature.
SOURCE: Affix.h:107-142 -/
def Flag.sigChar : Flag → Char
  | .void => 'v' | .bool => 'b' | .schar => 'a' | .char => 'c' | .uchar => 'h'
  | .wchar => 'w' | .short => 's' | .ushort => 't' | .int => 'i' | .uint => 'j'
  | .long => 'l' | .ulong => 'm' | .longlong => 'x' | .ulonglong => 'y'
  | .float => 'f' | .double => 'd' | .wstring => '<' | .stdstring => 'Y'
  | .struct => 'A' | .cppstruct => 'B' | .union => 'u' | .affix => '@'
  | .codeRef => '&' | .pointer => 'P' | .sv => '?'

/-- The scalar type classes of `Affix::Type`.
SOURCE: Type.pm:75-142, Type.pm:240 -/
inductive Kind where
  | Void | Bool | Char | SChar | UChar | WChar | Short | UShort | Int | UInt
  | Long | ULong | LongLong | ULongLong | Float | Double | Size_t | SV
deriving DecidableEq, Repr, Inhabited

namespace Kind

/-- The flag each scalar constructor stores.
SOURCE: Type.pm:75-142, Affix.h:122-130 -/
def flag : Kind → Flag
  | Void => .void | Bool => .bool | Char => .char | SChar => .schar | UChar => .uchar
  | WChar => .wchar | Short => .short | UShort => .ushort | Int => .int | UInt => .uint
  | Long => .long | ULong => .ulong | LongLong => .longlong | ULongLong => .ulonglong
  | Float => .float | Double => .double | Size_t => .ulonglong | SV => .sv

/-- `SIZEOF_*` and `ALIGNOF_*` on an LP64 platform with a four-byte `wchar_t`.
SOURCE: Affix.h:203-251 -/
def sizeof : Kind → ℕ
  | Void | SV => 0
  | Bool | Char | SChar | UChar => 1
  | Short | UShort => 2
  | WChar | Int | UInt | Float => 4
  | Long | ULong | LongLong | ULongLong | Double | Size_t => 8

def align : Kind → ℕ := sizeof

def name : Kind → String
  | Void => "Void" | Bool => "Bool" | Char => "Char" | SChar => "SChar" | UChar => "UChar"
  | WChar => "WChar" | Short => "Short" | UShort => "UShort" | Int => "Int" | UInt => "UInt"
  | Long => "Long" | ULong => "ULong" | LongLong => "LongLong" | ULongLong => "ULongLong"
  | Float => "Float" | Double => "Double" | Size_t => "Size_t" | SV => "SV"

end Kind

def SIZEOF_INTPTR_T : ℕ := 8

def ALIGNOF_INTPTR_T : ℕ := 8

/-- `BYTE_ALIGN`, that is `AFFIX_ALIGNBYTES`.
SOURCE: Affix.h:200 -/
def BYTE_ALIGN : ℕ := 8

/-- The slots every type object has, less the numeric one and the subtype, which the
constructor of the object decides. No code stores the aggregate slot.
SOURCE: Affix.h:253-266 -/
structure Slots where
  stringify : Text
  sizeof : ℕ
  alignment : ℕ
  offset : Option ℕ
  arraylen : ℕ
  const : Bool
  volatile : Bool
  restrict : Bool
  typedef : Option Text
  field : Option PerlStr
deriving DecidableEq

/-- A type object. A `codeRef` has its own slots for the argument list, the signature made
from it and the result type; the list is gone once the object has been named as a member. -/
inductive TypeObj where
  | scalar (kind : Kind) (s : Slots)
  | pointer (s : Slots) (subtype : TypeObj)
  | codeRef (s : Slots) (args : Option (List TypeObj)) (sig : List Flag) (ret : TypeObj)
  | struct (s : Slots) (store : List TypeObj)
  | union (s : Slots) (store : List TypeObj)

namespace TypeObj

def slots : TypeObj → Slots
  | scalar _ s | pointer s _ | codeRef s _ _ _ | struct s _ | union s _ => s

/-- `AXT_TYPE_NUMERIC`. -/
def flag : TypeObj → Flag
  | scalar k _ => k.flag
  | pointer .. => .pointer
  | codeRef .. => .codeRef
  | struct .. => .struct
  | union .. => .union

def sizeof (t : TypeObj) : ℕ := t.slots.sizeof

def align (t : TypeObj) : ℕ := t.slots.alignment

/-- `AXT_TYPE_OFFSET`: the undefined offset of an object that is no member reads as `0`. -/
def offset (t : TypeObj) : ℕ := t.slots.offset.getD 0

def field (t : TypeObj) : Option PerlStr := t.slots.field

/-- The string form of a type object.
SOURCE: Type.pm:37-41 -/
def str (t : TypeObj) : Text :=
  if t.slots.const then text "Const[ " ++ t.slots.stringify ++ text " ]" else t.slots.stringify

/-- `sv_derived_from(type, "Affix::Type::Pointer")`. -/
def isPointer : TypeObj → Bool
  | pointer .. => true
  | _ => false

/-- `sv_derived_from(type, "Affix::Type::Char")`. -/
def isChar : TypeObj → Bool
  | scalar .Char _ => true
  | _ => false

def mapSlots (f : Slots → Slots) : TypeObj → TypeObj
  | scalar k s => scalar k (f s)
  | pointer s t => pointer (f s) t
  | codeRef s as sig r => codeRef (f s) as sig r
  | struct s ts => struct (f s) ts
  | union s ts => union (f s) ts

/-- The stores an aggregate constructor makes into a member before it clones it: the
offset slot and the field slot, the latter being a `CodeRef`'s argument slot.
SOURCE: Struct.pm:34-42, Union.pm:35-37, Affix.h:264-270 -/
def withMember (offset : ℕ) (name : PerlStr) : TypeObj → TypeObj
  | codeRef s _ sig r => codeRef { s with offset := some offset, field := some name } none sig r
  | t => t.mapSlots fun s => { s with offset := some offset, field := some name }

/-! The qualifiers. SOURCE: Type.pm:259-272 -/

def Const (t : TypeObj) : TypeObj := t.mapSlots fun s => { s with const := true }

def Volatile (t : TypeObj) : TypeObj := t.mapSlots fun s => { s with volatile := true }

def Restrict (t : TypeObj) : TypeObj := t.mapSlots fun s => { s with restrict := true }

end TypeObj

/-- The slots of a new object: no offset, no qualifiers, no names. -/
def Slots.fresh (stringify : Text) (sizeof alignment arraylen : ℕ) : Slots where
  stringify := stringify
  sizeof := sizeof
  alignment := alignment
  offset := none
  arraylen := arraylen
  const := false
  volatile := false
  restrict := false
  typedef := none
  field := none

/-! ## Scalars, pointers and functions

SOURCE: Type.pm:54-238 -/

def scalarType (k : Kind) : TypeObj :=
  .scalar k (.fresh (text k.name) k.sizeof k.align 1)

def Pointer (subtype : TypeObj) : TypeObj :=
  .pointer (.fresh (text "Pointer[ " ++ subtype.str ++ text " ]")
    SIZEOF_INTPTR_T ALIGNOF_INTPTR_T 1) subtype

/-- An array is a pointer with a length. -/
def ArrayType (subtype : TypeObj) (length : ℕ) : TypeObj :=
  .pointer (.fresh (text "Array[ " ++ subtype.str ++ text ", " ++ text (toString length) ++
    text " ]") SIZEOF_INTPTR_T ALIGNOF_INTPTR_T length) subtype

def StringType : TypeObj := Pointer (scalarType .Char).Const

def WStringType : TypeObj := Pointer (scalarType .WChar).Const

def joinComma : List Text → Text
  | [] => []
  | [t] => t
  | t :: ts => t ++ text ", " ++ joinComma ts

def CodeRef (args : List TypeObj) (ret : TypeObj) : TypeObj :=
  .codeRef (.fresh (text "CodeRef[ [ " ++ joinComma (args.map TypeObj.str) ++ text " ] => " ++
    ret.str ++ text " ]") SIZEOF_INTPTR_T ALIGNOF_INTPTR_T 1) (some args)
    (args.map TypeObj.flag) ret

/-- `padding_needed_for`. SOURCE: Platform.pm:4-13 -/
def padding_needed_for (offset alignment : ℕ) : ℕ :=
  if offset = 0 then alignment
  else if alignment = 0 then 0
  else
    let misalignment := offset % alignment
    if misalignment ≠ 0 then alignment - misalignment else 0

/-! ## Aggregates -/

inductive TypeError where
  /-- Perl's `Illegal division by zero`. -/
  | illegalDivisionByZero
deriving DecidableEq, Repr

/-- What the loop of an aggregate constructor has built: the running size, for a union
the running alignment, the clones and the texts of the members. -/
structure Building where
  sizeof : ℕ
  alignment : ℕ
  store : List TypeObj
  fields : List Text

def memberText (name : PerlStr) (t : TypeObj) : Text := name.chars ++ text " => " ++ t.str

/-- One turn of the loop of `Struct`. The first member with no alignment kills it.
SOURCE: Struct.pm:29-52 -/
def Struct.step (b : Building) (name : PerlStr) (subtype : TypeObj) :
    Except TypeError Building :=
  let size := subtype.sizeof
  let align := subtype.align
  if align = 0 then .error .illegalDivisionByZero
  else
    let offset := (b.sizeof + align - 1) / align * align
    let member := subtype.withMember offset name
    .ok { b with
      sizeof := offset + size
      store := b.store ++ [member]
      fields := b.fields ++ [memberText name member] }

def Struct.loop : Building → List (PerlStr × TypeObj) → Except TypeError Building
  | b, [] => .ok b
  | b, (name, t) :: rest =>
    match Struct.step b name t with
    | .ok b' => Struct.loop b' rest
    | .error e => .error e

/-- The slots `Struct` fills in after its loop. SOURCE: Struct.pm:57-70 -/
def Struct.slots (b : Building) : Slots :=
  .fresh (text "Struct[ " ++ joinComma b.fields ++ text " ]")
    (b.sizeof + padding_needed_for b.sizeof BYTE_ALIGN) BYTE_ALIGN 1

/-- `Struct[ … ]`. SOURCE: Struct.pm:23-72 -/
def Struct (types : List (PerlStr × TypeObj)) : Except TypeError TypeObj :=
  match Struct.loop ⟨0, 0, [], []⟩ types with
  | .error e => .error e
  | .ok b => .ok (.struct (Struct.slots b) b.store)

/-- One turn of the loop of `Union`: a member that is strictly larger than all before
it gives the union its alignment. SOURCE: Union.pm:31-43 -/
def Union.step (b : Building) (name : PerlStr) (subtype : TypeObj) : Building :=
  let size := subtype.sizeof
  let member := subtype.withMember 0 name
  { sizeof := if b.sizeof < size then size else b.sizeof
    alignment := if b.sizeof < size then subtype.align else b.alignment
    store := b.store ++ [member]
    fields := b.fields ++ [memberText name member] }

def Union.loop : Building → List (PerlStr × TypeObj) → Building
  | b, [] => b
  | b, (name, t) :: rest => Union.loop (Union.step b name t) rest

/-- The slots `Union` fills in after its loop. SOURCE: Union.pm:47-60 -/
def Union.slots (b : Building) : Slots :=
  .fresh (text "Union[ " ++ joinComma b.fields ++ text " ]")
    (b.sizeof + padding_needed_for b.sizeof BYTE_ALIGN) b.alignment 1

/-- `Union[ … ]`. SOURCE: Union.pm:23-62 -/
def Union (types : List (PerlStr × TypeObj)) : TypeObj :=
  let b := Union.loop ⟨0, 0, [], []⟩ types
  .union (Union.slots b) b.store

end Affix.Model
