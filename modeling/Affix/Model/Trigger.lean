import Affix.Model.Dyncall
import Affix.Model.Marshal

/-!
# Calling a wrapped function

`Fiction_trigger` empties the call machine, pushes one argument for each type of
the signature, calls, and puts the result in a scalar. That scalar belongs to the
wrapper: `Affix_fiction` makes it, most branches of the return switch overwrite
it, and two replace it. The state keeps the Perl scalars a caller may hold as
cells, so that a result is the number of the cell it is in.

The C function itself is a parameter: it gets the arguments and the memory.

SOURCE: Affix.cxx:308-603, Affix.cxx:212-234
-/

set_option autoImplicit false

namespace Affix.Model

open Affix.Foundation

/-- A C function: the arguments and the memory it finds, what it returns and leaves. -/
abbrev Callee := List DCArg → Heap → Except Halt (Returned × Heap)

/-- The state of the interpreter as far as calls touch it: the heap, the call machine, the
scalars, and which of them is the result cell of the wrapper. -/
structure Interp where
  heap : Heap
  vm : DCCallVM
  cells : List SV
  res : Option ℕ

abbrev Run := Exec Interp Halt

/-- Code that works on the heap alone. -/
def onHeap {α : Type} (x : Eff α) : Run α := fun st =>
  match x st.heap with
  | .ok (a, h) => .ok (a, { st with heap := h })
  | .error e => .error e

def onVM (f : DCCallVM → DCCallVM) : Run Unit := fun st => .ok ((), { st with vm := f st.vm })

/-! ## The argument switch -/

def firstByte (bs : List UInt8) : UInt8 := bs.headD 0

/-- The branch of a character type: the code, or the first byte of the string.
SOURCE: Affix.cxx:350-373 -/
def argChar (c : CIntType) (sv : SV) : Eff DCArg :=
  if sv.SvIOK then pure (dcArgChar (c.wrap (SvIV sv)))
  else do
    let bs ← Exec.lift (SvPVbyte sv)
    pure (dcArgChar (c.wrap (firstByte bs).toNat))

/-- The `WCHAR_FLAG` branch. Nothing fills the buffer when the string is not flagged, and the
buffer has room for one character and the zero behind it.
SOURCE: Affix.cxx:374-393, wchar_t.cxx:30-42 -/
def argWChar (sv : SV) : Eff DCArg :=
  if sv.SvOK then do
    let _ ← safemalloc 8
    if (SvPV sv).utf8 ∧ ((SvPV sv).chars.takeWhile (· ≠ 0)).length ≤ 1 then
      pure (dcArgLongLong ((SvPV sv).chars.headD 0 : ℕ))
    else Exec.fail .fault
  else pure (dcArgLongLong 0)

/-- The `STRUCT_FLAG` branch: the descriptor and the bytes behind the address.
SOURCE: Affix.cxx:464-468, dyncall_callvm_x64.c:165-226 -/
def argAggr (type : TypeObj) (sv : SV) : Eff DCArg := do
  let ag ← Exec.lift (aggregate type)
  let p ← sv2ptr type sv 0
  let bs ← loadAt p ag.size
  pure (.aggr ag bs)

/-- The argument switch: what is pushed for a parameter, if anything.
SOURCE: Affix.cxx:344-475 -/
def argument (type : TypeObj) (sv : SV) : Eff (Option DCArg) :=
  match type with
  | .scalar k s =>
    match k with
    | .Void => pure none
    | .Bool => pure (some (dcArgBool (SvTRUE sv)))
    | .SChar | .Char => some <$> argChar cchar sv
    | .UChar => some <$> argChar cuchar sv
    | .WChar => some <$> argWChar sv
    | .Short => pure (some (dcArgShort (SvIV sv)))
    | .UShort => pure (some (dcArgShort (SvUV sv)))
    | .Int => pure (some (dcArgInt (SvIV sv)))
    | .UInt => pure (some (dcArgInt (SvUV sv)))
    | .Long => pure (some (dcArgLong (SvIV sv)))
    | .ULong => pure (some (dcArgLong (SvUV sv)))
    | .LongLong => pure (some (dcArgLongLong (SvIV sv)))
    | .ULongLong | .Size_t => pure (some (dcArgLongLong (SvUV sv)))
    | .Float => pure (some (dcArgFloat (binary64.convert binary32 (SvNV sv))))
    | .Double => pure (some (dcArgDouble (SvNV sv)))
    | .SV => croak (text "Unhandled argument type: " ++ s.stringify)
  | .codeRef .. => (some ∘ dcArgPointer) <$> sv2ptr type sv 0
  | .pointer _ subtype => (some ∘ dcArgPointer) <$> sv2ptr subtype sv 0
  | .struct .. => some <$> argAggr type sv
  | .union s _ => croak (text "Unhandled argument type: " ++ s.stringify)

def bareArgument (sv : SV) : Option DCArg :=
  if sv.SvNOK then some (dcArgDouble (SvNV sv))
  else if sv.SvUOK then some (dcArgInt (SvUV sv))
  else if sv.SvIOK then some (dcArgInt (SvIV sv))
  else none

def push : Option DCArg → DCCallVM → DCCallVM
  | some a, vm => vm.dcArg a
  | none, vm => vm

def pushArguments : List TypeObj → List SV → Run Unit
  | t :: ts, sv :: svs => do
    let a ← onHeap (argument t sv)
    onVM (push a)
    pushArguments ts svs
  | _, _ => pure ()

/-- `Too many arguments …` or `Not enough arguments …`. SOURCE: Affix.cxx:338-340 -/
def wrongItems (f : Fiction) (sigLen items : ℕ) : Text :=
  text (if items > sigLen then "Too many" else "Not enough") ++ text " arguments for " ++
    f.symbol.map UInt8.toNat ++ text "; expected " ++ text (toString sigLen) ++
    text ", found " ++ text (toString items) ++ text ")"

/-- The arguments of a call. SOURCE: Affix.cxx:336-486 -/
def arguments (f : Fiction) (items : List SV) : Run Unit :=
  match f.signature with
  | some sig =>
    if items.length ≠ sig.length then
      Exec.fail (.croak (wrongItems f sig.length items.length))
    else pushArguments (f.argtypes.getD []) items
  | none => items.forM fun sv => onVM (push (bareArgument sv))

/-! ## The return switch -/

/-- What `Affix_fiction` keeps of the types it is given. SOURCE: Affix.cxx:212-262 -/
def wrapper (lib : Option ℕ) (entryPoint : ℕ) (symbol : List UInt8)
    (argtypes : Option (List TypeObj)) (restype : Option TypeObj) : Fiction where
  lib := lib
  entryPoint := entryPoint
  symbol := symbol
  signature := argtypes.map fun ts => ts.map TypeObj.flag
  argtypes := argtypes
  restype := restype
  restypeC := (restype.map TypeObj.flag).getD .void
  aggrRestype := (restype.map TypeObj.flag) == some .struct

/-- The result cell a wrapper starts with. SOURCE: Affix.cxx:218-234 -/
def resultCell (restype : Option TypeObj) : Option SV :=
  match restype with
  | none => none
  | some (.struct ..) => none
  | some (.scalar .WChar _) => some (.val (.ofStr (.ofBytes [])))
  | some _ => some (.undef false)

/-- The interpreter once a wrapper has been made: its result cell, if it has one, is new. -/
def Interp.wrapped (heap : Heap) (cells : List SV) (restype : Option TypeObj) : Interp where
  heap := heap
  vm := ⟨false, []⟩
  cells := cells ++ (resultCell restype).toList
  res := (resultCell restype).map fun _ => cells.length

/-- A character that is also its code: `newSVpv(value, 1)`, `SvIV_set`, `SvIOK_on`. -/
def charSV (value : ℤ) : SV := .val (.dual (.ofBytes (cchar.encode value)) value)

/-- The `WCHAR_FLAG` branch: `wchar2utf` of one character. SOURCE: Affix.cxx:515-522 -/
def returnWChar (r : Returned) : Eff SV := do
  let str ← Exec.lift (Wide.wchar2utf [cint.wrap r.dcCallLongLong] 1)
  pure (.val (.ofStr str))

/-- The `POINTER_FLAG` branch: strings and Perl values are read, other pointers become
objects. SOURCE: Affix.cxx:567-585 -/
def returnPointer (type subtype : TypeObj) (r : Returned) : Eff SV :=
  if r.dcCallPointer = 0 then pure (.undef false)
  else
    match subtype.flag with
    | .char | .uchar | .schar | .wchar | .sv => ptr2sv type r.dcCallPointer
    | _ => pure (ptr2obj type r.dcCallPointer)

/-- The `STRUCT_FLAG` branch; a struct is never empty. SOURCE: Affix.cxx:590-597 -/
def returnStruct (type : TypeObj) (r : Returned) : Eff SV := do
  let ret ← Newxz 1 type.sizeof
  store ret r.aggr
  ptr2sv type ret

/-- The return switch: what each branch makes of the result, or none for `Void`.
SOURCE: Affix.cxx:490-601 -/
def returned (type : TypeObj) (r : Returned) : Eff (Option SV) :=
  match type with
  | .scalar k s =>
    match k with
    | .Void => pure none
    | .Bool => pure (some (.val (.boolSV (r.dcCallBool ≠ 0))))
    | .Char | .SChar | .UChar => pure (some (charSV r.dcCallChar))
    | .WChar => some <$> returnWChar r
    | .Short => pure (some (.val (.newSViv (cshort.wrap r.dcCallShort))))
    | .UShort => pure (some (.val (.newSVuv (cushort.wrap r.dcCallShort))))
    | .Int => pure (some (.val (.newSViv r.dcCallInt)))
    | .UInt => pure (some (.val (.newSVuv r.dcCallInt)))
    | .Long => pure (some (.val (.newSViv r.dcCallLong)))
    | .ULong => pure (some (.val (.newSVuv r.dcCallLong)))
    | .LongLong => pure (some (.val (.newSViv r.dcCallLongLong)))
    | .ULongLong | .Size_t => pure (some (.val (.newSVuv r.dcCallLongLong)))
    | .Float => pure (some (.val (.newSVnv (binary32.convert binary64 r.float))))
    | .Double => pure (some (.val (.newSVnv r.double)))
    | .SV => croak (text "Unknown or unhandled return type: " ++ s.stringify)
  | .pointer _ subtype => some <$> returnPointer type subtype r
  | .codeRef .. => some <$> ptr2sv type r.dcCallPointer
  | .struct .. => some <$> returnStruct type r
  | .union s _ => croak (text "Unknown or unhandled return type: " ++ s.stringify)

/-- The branches that put the result in a scalar of its own: `a->res = …`. The others
overwrite the scalar they find. SOURCE: Affix.cxx:518, Affix.cxx:596 -/
def replacesCell : TypeObj → Bool
  | .scalar .WChar _ | .struct .. => true
  | _ => false

def newCell (sv : SV) : Run Unit := fun st =>
  .ok ((), { st with cells := st.cells ++ [sv], res := some st.cells.length })

def setCell (sv : SV) : Run Unit := fun st =>
  match st.res with
  | some c => .ok ((), { st with cells := st.cells.set c sv })
  | none => .error .fault

def putResult (type : TypeObj) : Option SV → Run Unit
  | none => pure ()
  | some sv => if replacesCell type then newCell sv else setCell sv

/-- The return switch with its effect on the scalars. SOURCE: Affix.cxx:490-601 -/
def returnSwitch (type : TypeObj) (r : Returned) : Run Unit := do
  let sv ← onHeap (returned type r)
  putResult type sv

/-! ## The call -/

/-- The types the return switch has a branch for; with any other the function is not
called. SOURCE: Affix.cxx:598-600 -/
def returnable : TypeObj → Bool
  | .scalar .SV _ | .union .. => false
  | _ => true

def dcCall (callee : Callee) : Run Returned := fun st =>
  match callee st.vm.args st.heap with
  | .ok (r, h) => .ok (r, { st with heap := h })
  | .error e => .error e

/-- `_aggregate` and `dcBeginCallAggr`, for a struct result. SOURCE: Affix.cxx:330-335 -/
def beginCall (inMemory : DCaggr → Bool) (f : Fiction) : Run Unit :=
  match f.restype with
  | some type =>
    if f.aggrRestype then do
      let ag ← Exec.lift (aggregate type)
      onVM (DCCallVM.dcBeginCallAggr inMemory ag)
    else pure ()
  | none => pure ()

/-- The trigger up to the return switch. SOURCE: Affix.cxx:308-486 -/
def prepare (inMemory : DCaggr → Bool) (f : Fiction) (items : List SV) : Run Unit := do
  onVM DCCallVM.dcReset
  beginCall inMemory f
  arguments f items

/-- The descriptor that `dcCallAggr` is given is set only where `aggr_restype` is; otherwise
it is whatever the uninitialised variable holds. SOURCE: Affix.cxx:330-335, Affix.cxx:590-592 -/
def hasDescriptor (f : Fiction) : TypeObj → Bool
  | .struct .. => f.aggrRestype
  | _ => true

/-- The call and the return switch. SOURCE: Affix.cxx:490-601 -/
def callAndReturn (f : Fiction) (callee : Callee) : Run Unit :=
  match f.restype with
  | none => do
    let _ ← dcCall callee
    pure ()
  | some type =>
    if returnable type then
      if hasDescriptor f type then do
        let r ← dcCall callee
        returnSwitch type r
      else Exec.fail .fault
    else Exec.fail (.croak (text "Unknown or unhandled return type: " ++ type.slots.stringify))

/-- `Fiction_trigger`: the cell of the result, or none where it leaves `ST(0)` alone.
SOURCE: Affix.cxx:308-603 -/
def Fiction_trigger (inMemory : DCaggr → Bool) (f : Fiction) (callee : Callee)
    (items : List SV) : Run (Option ℕ) := do
  prepare inMemory f items
  callAndReturn f callee
  let st ← Exec.get
  pure st.res

end Affix.Model
