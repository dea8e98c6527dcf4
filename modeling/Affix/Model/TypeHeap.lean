import Affix.Model.Offsetof

/-!
# Type objects as the arrays they are

A type object is a blessed Perl array, and its slots are numbered once for types,
once for callbacks and once for members. Objects are shared: a constructor gets
references to its members, writes into them and then copies them. Here an object
is an array at an address and a constructor works on the heap of all of them.

An object of an aggregate type holds its members as a reference to an array that
nothing changes once it is made, so the slot holds the list itself.

SOURCE: Affix.h:251-281, Type.pm:37-72, Type.pm:158-272, Struct.pm:23-90, Union.pm:23-80
-/

set_option autoImplicit false

namespace Affix.Model

/-! The slots of a type, those that a callback numbers again, and those of a member.
SOURCE: Affix.h:251-270 -/

def SLOT_TYPE_STRINGIFY := 0
def SLOT_TYPE_NUMERIC := 1
def SLOT_TYPE_SIZEOF := 2
def SLOT_TYPE_ALIGNMENT := 3
def SLOT_TYPE_OFFSET := 4
def SLOT_TYPE_SUBTYPE := 5
def SLOT_TYPE_ARRAYLEN := 6
def SLOT_TYPE_CONST := 7
def SLOT_TYPE_VOLATILE := 8
def SLOT_TYPE_RESTRICT := 9
def SLOT_TYPE_TYPEDEF := 10
def SLOT_TYPE_AGGREGATE := 11
def SLOT_TYPE_FIELD := 12
def SLOT_CODEREF_RET := SLOT_TYPE_SUBTYPE
def SLOT_CODEREF_ARGS := 12
def SLOT_CODEREF_SIG := 13

/-- What a slot holds. Types are held by reference. -/
inductive Slot where
  | undef
  | text (t : Text)
  | name (s : PerlStr)
  | flag (f : Flag)
  | num (n : ℕ)
  | bool (b : Bool)
  | type (t : ℕ)
  | types (ts : List ℕ)
  | sig (fs : List Flag)
  | values (vs : List (Text × ℤ))
deriving DecidableEq

namespace Slot

instance : Inhabited Slot := ⟨undef⟩

/-- A slot in numeric context; `// 0` and an undefined slot give the same. -/
def toNum : Slot → ℕ
  | num n => n
  | _ => 0

def toText : Slot → Text
  | text t => t
  | name s => s.chars
  | _ => []

def isTrue : Slot → Bool
  | bool b => b
  | num n => n ≠ 0
  | _ => false

/-- The objects behind a reference to an array of them. -/
def elems : Slot → List ℕ
  | types ts => ts
  | _ => []

end Slot

/-- The classes under `Affix::Type`, as `isa` tells them apart. A typedef blesses an object
into a class of its own that is derived from the one the object had. -/
inductive TypeClass where
  | scalar (kind : Kind)
  | pointer
  | codeRef
  | function
  | struct
  | union
  | enum
  | other
deriving DecidableEq

structure TypeArray where
  isa : TypeClass
  slots : List Slot
deriving DecidableEq

namespace TypeArray

instance : Inhabited TypeArray := ⟨⟨.other, []⟩⟩

/-- `$t->[$i]`. -/
def get (t : TypeArray) (i : ℕ) : Slot := t.slots.getD i (.undef)

/-- `$t->[$i] = $v`: an array grows to the index, with undefined slots in between. -/
def set (t : TypeArray) (i : ℕ) (v : Slot) : TypeArray :=
  { t with slots := (t.slots ++ List.replicate (i + 1 - t.slots.length) Slot.undef).set i v }

def flag (t : TypeArray) : Slot := t.get SLOT_TYPE_NUMERIC

def sizeof (t : TypeArray) : ℕ := (t.get SLOT_TYPE_SIZEOF).toNum

def align (t : TypeArray) : ℕ := (t.get SLOT_TYPE_ALIGNMENT).toNum

def offset (t : TypeArray) : ℕ := (t.get SLOT_TYPE_OFFSET).toNum

def field (t : TypeArray) : Text := (t.get SLOT_TYPE_FIELD).toText

/-- The members of an aggregate. -/
def store (t : TypeArray) : List ℕ := (t.get SLOT_TYPE_SUBTYPE).elems

/-- The string form. SOURCE: Type.pm:37-41 -/
def str (t : TypeArray) : Text :=
  if (t.get SLOT_TYPE_CONST).isTrue then
    text "Const[ " ++ (t.get SLOT_TYPE_STRINGIFY).toText ++ text " ]"
  else (t.get SLOT_TYPE_STRINGIFY).toText

theorem get_set_self (t : TypeArray) (i : ℕ) (v : Slot) : (t.set i v).get i = v := by
  have hlen : i < (t.slots ++ List.replicate (i + 1 - t.slots.length) Slot.undef).length := by
    simp
    omega
  simp [get, set, List.getD_eq_getElem?_getD, List.getElem?_set_self hlen]

theorem get_set_of_ne (t : TypeArray) {i j : ℕ} (h : i ≠ j) (v : Slot) :
    (t.set i v).get j = t.get j := by
  simp only [get, set, List.getD_eq_getElem?_getD, List.getElem?_set_ne h, List.getElem?_append,
    List.getElem?_replicate]
  by_cases hj : j < t.slots.length
  · rw [if_pos hj]
  · rw [if_neg hj, List.getElem?_eq_none (Nat.le_of_not_lt hj)]
    split <;> rfl

end TypeArray

/-- All type objects, each at its address. -/
abbrev TypeHeap := List TypeArray

namespace TypeHeap

def get (h : TypeHeap) (t : ℕ) : TypeArray := h.getD t default

/-- What the constructor of an aggregate does with a member: it writes its offset and its
name into the object it is given, and appends a copy.
SOURCE: Struct.pm:34-43, Union.pm:35-37 -/
def place (h : TypeHeap) (t offset : ℕ) (field : PerlStr) : TypeHeap :=
  let member := ((h.get t).set SLOT_TYPE_OFFSET (.num offset)).set SLOT_TYPE_FIELD (.name field)
  h.set t member ++ [member]

end TypeHeap

/-! ## Constructors

`new` fills eleven slots, `Pointer` and `Array` seven, `Struct` and `Union` thirteen. -/

namespace TypeArray

/-- `Affix::Type::new`. SOURCE: Type.pm:46-50 -/
def new (isa : TypeClass) (str : Text) (flag : Flag) (sizeof align : ℕ) (subtype : Slot)
    (array_len : Slot) : TypeArray :=
  ⟨isa, [.text str, .flag flag, .num sizeof, .num align, .undef, subtype, array_len, .bool false,
    .bool false, .bool false, .undef]⟩

/-- `Void` to `Size_t`, and `SV`. SOURCE: Type.pm:75-142, Type.pm:240 -/
def scalar (k : Kind) : TypeArray :=
  new (.scalar k) (text k.name) k.flag k.sizeof k.align .undef (.num 1)

/-- `Pointer`, given the string form of the subtype. SOURCE: Type.pm:206-223 -/
def Pointer (subtypeStr : Text) (subtype : ℕ) : TypeArray :=
  ⟨.pointer, [.text (text "Pointer[ " ++ subtypeStr ++ text " ]"), .flag .pointer,
    .num SIZEOF_INTPTR_T, .num ALIGNOF_INTPTR_T, .undef, .type subtype, .num 1]⟩

/-- `CodeRef`, given the string forms and the flags of its types. SOURCE: Type.pm:158-173 -/
def CodeRef (argStrs : List Text) (retStr : Text) (args : List ℕ) (sig : List Flag) (ret : ℕ) :
    TypeArray :=
  ((new .codeRef (text "CodeRef[ [ " ++ joinComma argStrs ++ text " ] => " ++ retStr ++ text " ]")
    .codeRef SIZEOF_INTPTR_T ALIGNOF_INTPTR_T (.type ret) (.num 1)).set
      SLOT_CODEREF_ARGS (.types args)).set SLOT_CODEREF_SIG (.sig sig)

/-- The slots of an aggregate. SOURCE: Struct.pm:57-71, Union.pm:47-61 -/
def aggregate (isa : TypeClass) (str : Text) (flag : Flag) (sizeof align : ℕ) (store : List ℕ) :
    TypeArray :=
  ⟨isa, [.text str, .flag flag, .num sizeof, .num align, .undef, .types store, .num 1, .bool false,
    .bool false, .bool false, .undef, .undef, .undef]⟩

end TypeArray

namespace TypeHeap

/-- What the loop of a constructor has built. -/
structure Building where
  heap : TypeHeap
  sizeof : ℕ
  alignment : ℕ
  store : List ℕ
  fields : List Text

/-- One turn of the loop of `Struct`. SOURCE: Struct.pm:29-52 -/
def structStep (b : Building) (field : PerlStr) (subtype : ℕ) : Except TypeError Building :=
  let t := b.heap.get subtype
  if t.align = 0 then .error .illegalDivisionByZero
  else
    let offset := (b.sizeof + t.align - 1) / t.align * t.align
    .ok { b with
      heap := b.heap.place subtype offset field
      sizeof := offset + t.sizeof
      store := b.store ++ [b.heap.length]
      fields := b.fields ++ [field.chars ++ text " => " ++ t.str] }

/-- The loop of `Struct`. Where it dies, what it has written stays written. -/
def structLoop : Building → List (PerlStr × ℕ) → Building × Option TypeError
  | b, [] => (b, none)
  | b, (field, subtype) :: rest =>
    match structStep b field subtype with
    | .ok b' => structLoop b' rest
    | .error e => (b, some e)

/-- What `Struct` makes of what its loop has built. SOURCE: Struct.pm:57-71 -/
def structObject (b : Building) : TypeArray :=
  .aggregate .struct (text "Struct[ " ++ joinComma b.fields ++ text " ]") .struct
    (b.sizeof + padding_needed_for b.sizeof BYTE_ALIGN) BYTE_ALIGN b.store

/-- `Struct[ … ]`: the heap, and the new object or how it died. SOURCE: Struct.pm:23-72 -/
def Struct (h : TypeHeap) (types : List (PerlStr × ℕ)) : TypeHeap × Except TypeError ℕ :=
  match structLoop ⟨h, 0, 0, [], []⟩ types with
  | (b, some e) => (b.heap, .error e)
  | (b, none) => (b.heap ++ [structObject b], .ok b.heap.length)

/-- One turn of the loop of `Union`. SOURCE: Union.pm:31-43 -/
def unionStep (b : Building) (field : PerlStr) (subtype : ℕ) : Building :=
  let t := b.heap.get subtype
  { heap := b.heap.place subtype 0 field
    sizeof := if b.sizeof < t.sizeof then t.sizeof else b.sizeof
    alignment := if b.sizeof < t.sizeof then t.align else b.alignment
    store := b.store ++ [b.heap.length]
    fields := b.fields ++ [field.chars ++ text " => " ++ t.str] }

def unionLoop : Building → List (PerlStr × ℕ) → Building
  | b, [] => b
  | b, (field, subtype) :: rest => unionLoop (unionStep b field subtype) rest

/-- What `Union` makes of what its loop has built. SOURCE: Union.pm:47-61 -/
def unionObject (b : Building) : TypeArray :=
  .aggregate .union (text "Union[ " ++ joinComma b.fields ++ text " ]") .union
    (b.sizeof + padding_needed_for b.sizeof BYTE_ALIGN) b.alignment b.store

/-- `Union[ … ]`. SOURCE: Union.pm:23-62 -/
def Union (h : TypeHeap) (types : List (PerlStr × ℕ)) : TypeHeap × Except TypeError ℕ :=
  let b := unionLoop ⟨h, 0, 0, [], []⟩ types
  (b.heap ++ [unionObject b], .ok b.heap.length)

/-- `$s->offsetof($path)`, a method of structs and of unions. A path gets shorter from one
object to the next, so its length bounds how many there are.
SOURCE: Struct.pm:74-90, Union.pm:64-80 -/
def offsetofWithin (h : TypeHeap) : (fuel s : ℕ) → Text → Option ℕ
  | 0, _, _ => none
  | fuel + 1, s, path =>
    if (h.get s).isa = .struct ∨ (h.get s).isa = .union then
      match (h.get s).store.find? fun t => (h.get t).field = (splitDot path).1 with
      | none => none
      | some now =>
        let tail := (splitDot path).2.getD []
        if tail ≠ [] ∧ (h.get now).isa = (h.get s).isa then offsetofWithin h fuel now tail
        else some ((h.get now).offset + (h.get s).offset)
    else none

def offsetof (h : TypeHeap) (s : ℕ) (path : Text) : Option ℕ :=
  offsetofWithin h (path.length + 1) s path

end TypeHeap

end Affix.Model
