import Affix.Model.Trigger

/-!
# Argument lists that stay the caller's

`Affix_fiction` copies the flag of each argument type into a signature, but of the
array of types it only takes a reference. A call switches on the signature, and the
branches that need more than the flag of a type fetch it from the array, as it is
by then.

An array holds any scalars. What the macros make of one that is no type object, or
of a slot that holds none, is not up to Affix and is a parameter here.

SOURCE: Affix.cxx:212-262, Affix.cxx:308-475, Affix.h:275-281
-/

set_option autoImplicit false

namespace Affix.Model

open Affix.Foundation

/-- A Perl array: the type object at each index, or none where there is another scalar. -/
abbrev ArgArray := List (Option TypeObj)

/-- `*av_fetch(a, i, 0)`. -/
def ArgArray.fetch (a : ArgArray) (i : ℕ) : Option TypeObj := a[i]?.join

/-- What a conversion makes of an element that is no type, or of one whose subtype is none. -/
abbrev Misread := Option TypeObj → SV → Eff (Option DCArg)

/-- `AXT_TYPE_SUBTYPE`, where the slot holds a type: a `CodeRef` has its result type there,
an aggregate the list of its members. SOURCE: Affix.h:256, Affix.h:266 -/
def TypeObj.subtypeSlot : TypeObj → Option TypeObj
  | .pointer _ t | .codeRef _ _ _ t => some t
  | _ => none

/-- The argument switch, on a character of the signature. The element of the array is fetched
in four branches. No type has one of the flags of the strings; `StdString` would push the
address of a local. SOURCE: Affix.cxx:344-475 -/
def argumentAt (misread : Misread) (c : Flag) (elem : Option TypeObj) (sv : SV) :
    Eff (Option DCArg) :=
  match c with
  | .void => pure none
  | .bool => pure (some (dcArgBool (SvTRUE sv)))
  | .schar | .char => some <$> argChar cchar sv
  | .uchar => some <$> argChar cuchar sv
  | .wchar => some <$> argWChar sv
  | .short => pure (some (dcArgShort (SvIV sv)))
  | .ushort => pure (some (dcArgShort (SvUV sv)))
  | .int => pure (some (dcArgInt (SvIV sv)))
  | .uint => pure (some (dcArgInt (SvUV sv)))
  | .long => pure (some (dcArgLong (SvIV sv)))
  | .ulong => pure (some (dcArgLong (SvUV sv)))
  | .longlong => pure (some (dcArgLongLong (SvIV sv)))
  | .ulonglong => pure (some (dcArgLongLong (SvUV sv)))
  | .float => pure (some (dcArgFloat (binary64.convert binary32 (SvNV sv))))
  | .double => pure (some (dcArgDouble (SvNV sv)))
  | .wstring => pure none
  | .stdstring => misread elem sv
  | .codeRef =>
    match elem with
    | some type => (some ∘ dcArgPointer) <$> sv2ptr type sv 0
    | none => misread elem sv
  | .pointer =>
    match elem.bind TypeObj.subtypeSlot with
    | some subtype => (some ∘ dcArgPointer) <$> sv2ptr subtype sv 0
    | none => misread elem sv
  | .struct =>
    match elem with
    | some type => some <$> argAggr type sv
    | none => misread elem sv
  | .cppstruct | .union | .affix | .sv =>
    match elem with
    | some type => croak (text "Unhandled argument type: " ++ type.slots.stringify)
    | none => misread elem sv

/-- The argument loop from a position on. -/
def pushShared (misread : Misread) (argtypes : ArgArray) : ℕ → List Flag → List SV → Run Unit
  | i, c :: sig, sv :: svs => do
    let a ← onHeap (argumentAt misread c (argtypes.fetch i) sv)
    onVM (push a)
    pushShared misread argtypes (i + 1) sig svs
  | _, _, _ => pure ()

/-- A `fiction` as it is kept: `argtypes` is the address of the caller's array.
SOURCE: Affix.h:415-425 -/
structure SharedFiction where
  lib : Option ℕ
  entryPoint : ℕ
  symbol : List UInt8
  signature : List Flag
  argtypes : ℕ
  restype : Option TypeObj
  restypeC : Flag
  aggrRestype : Bool

/-- What a call looks at besides the argument types. -/
def SharedFiction.rest (w : SharedFiction) : Fiction where
  lib := w.lib
  entryPoint := w.entryPoint
  symbol := w.symbol
  signature := some w.signature
  argtypes := none
  restype := w.restype
  restypeC := w.restypeC
  aggrRestype := w.aggrRestype

/-- The arguments of a call. SOURCE: Affix.cxx:336-475 -/
def sharedArguments (misread : Misread) (arrays : List ArgArray) (w : SharedFiction)
    (items : List SV) : Run Unit :=
  if items.length ≠ w.signature.length then
    Exec.fail (.croak (wrongItems w.rest w.signature.length items.length))
  else pushShared misread (arrays.getD w.argtypes []) 0 w.signature items

/-- The trigger up to the return switch. SOURCE: Affix.cxx:308-486 -/
def sharedPrepare (misread : Misread) (inMemory : DCaggr → Bool) (arrays : List ArgArray)
    (w : SharedFiction) (items : List SV) : Run Unit := do
  onVM DCCallVM.dcReset
  beginCall inMemory w.rest
  sharedArguments misread arrays w items

/-- `Fiction_trigger`, with the array that the wrapper refers to. SOURCE: Affix.cxx:308-603 -/
def sharedTrigger (misread : Misread) (inMemory : DCaggr → Bool) (arrays : List ArgArray)
    (w : SharedFiction) (callee : Callee) (items : List SV) : Run (Option ℕ) := do
  sharedPrepare misread inMemory arrays w items
  callAndReturn w.rest callee
  let st ← Exec.get
  pure st.res

/-! ## Arrays and wrappers -/

/-- The arrays of the program at their addresses, and the wrappers made so far. -/
structure ArgState where
  arrays : List ArgArray
  wrappers : List SharedFiction

/-- What `Affix_fiction` keeps of an array of types. SOURCE: Affix.cxx:212-260 -/
def shareArguments (lib : Option ℕ) (entryPoint : ℕ) (symbol : List UInt8) (argtypes : ℕ)
    (ts : List TypeObj) (restype : Option TypeObj) : SharedFiction where
  lib := lib
  entryPoint := entryPoint
  symbol := symbol
  signature := ts.map TypeObj.flag
  argtypes := argtypes
  restype := restype
  restypeC := (restype.map TypeObj.flag).getD .void
  aggrRestype := (restype.map TypeObj.flag) == some .struct

/-- What a program does: it makes an array, changes one in any way, or makes a wrapper from
one. -/
inductive ArgOp where
  | array (elems : ArgArray)
  | change (a : ℕ) (elems : ArgArray)
  | affix (lib : Option ℕ) (entryPoint : ℕ) (symbol : List UInt8) (argtypes : ℕ)
      (restype : Option TypeObj)

/-- One operation. A wrapper is made of an array that holds types only. -/
inductive ArgStep : ArgState → ArgOp → ArgState → Prop
  | array {st : ArgState} {elems : ArgArray} :
      ArgStep st (.array elems) { st with arrays := st.arrays ++ [elems] }
  | change {st : ArgState} {a : ℕ} {elems : ArgArray} (h : a < st.arrays.length) :
      ArgStep st (.change a elems) { st with arrays := st.arrays.set a elems }
  | affix {st : ArgState} {lib : Option ℕ} {entryPoint : ℕ} {symbol : List UInt8} {argtypes : ℕ}
      {restype : Option TypeObj} {ts : List TypeObj}
      (h : st.arrays[argtypes]? = some (ts.map some)) :
      ArgStep st (.affix lib entryPoint symbol argtypes restype)
        { st with wrappers := st.wrappers ++
            [shareArguments lib entryPoint symbol argtypes ts restype] }

end Affix.Model
