import Affix.Model.Trigger

/-!
# Perl subs called from C

A callback is a thunk that hands `cbHandlerXXXXX` the words it was called with.
The handler makes a Perl value of each, one for each character of the signature,
calls the sub, and stores what it returned in a member of a union, naming the
member by a signature character.

The Perl sub is a parameter: it gets the values and returns one.

SOURCE: Callback.cxx:3-236, dyncall_args_x64.c:58-75, dyncall_value.h:49-87
-/

set_option autoImplicit false

namespace Affix.Model

open Affix.Foundation

/-- An argument of a callback: a 64-bit word, or a floating register under either reading. -/
inductive DCbArg where
  | word (w : ℤ)
  | fp (float double : ℕ)

namespace DCbArg

/-! The readers. The thunk keeps integers and floating numbers apart, and each reader takes
from its own. SOURCE: dyncall_args_x64.c:58-75 -/

def dcbArgLongLong : DCbArg → ℤ
  | word w => clonglong.wrap w
  | fp .. => 0

def dcbArgInt (a : DCbArg) : ℤ := cint.wrap a.dcbArgLongLong
def dcbArgLong (a : DCbArg) : ℤ := clong.wrap a.dcbArgLongLong
def dcbArgChar (a : DCbArg) : ℤ := cchar.wrap a.dcbArgLongLong
def dcbArgShort (a : DCbArg) : ℤ := cshort.wrap a.dcbArgLongLong
def dcbArgBool (a : DCbArg) : Bool := a.dcbArgInt ≠ 0
def dcbArgPointer (a : DCbArg) : ℕ := (culong.wrap a.dcbArgLongLong).toNat
def dcbArgDouble : DCbArg → ℕ
  | word _ => 0
  | fp _ d => d
def dcbArgFloat : DCbArg → ℕ
  | word _ => 0
  | fp f _ => f

end DCbArg

/-- What was stored in a `DCValue`: an integer in the member a character names, or one of
the other members. SOURCE: dyncall_value.h:70-87 -/
inductive DCValue where
  | int (member : DCsigchar) (v : ℤ)
  | f (bits : ℕ)
  | d (bits : ℕ)
  | p (ptr : ℕ)
deriving DecidableEq

namespace DCValue

/-! The stores into the integer members, each at the type of its member. -/

def B (v : ℤ) : DCValue := int .bool (cint.wrap v)
def c (v : ℤ) : DCValue := int .char (cchar.wrap v)
def C (v : ℤ) : DCValue := int .uchar (cuchar.wrap v)
def s (v : ℤ) : DCValue := int .short (cshort.wrap v)
def S (v : ℤ) : DCValue := int .ushort (cushort.wrap v)
def i (v : ℤ) : DCValue := int .int (cint.wrap v)
def I (v : ℤ) : DCValue := int .uint (cuint.wrap v)
def j (v : ℤ) : DCValue := int .long (clong.wrap v)
def J (v : ℤ) : DCValue := int .ulong (culong.wrap v)
def l (v : ℤ) : DCValue := int .longlong (clonglong.wrap v)
def L (v : ℤ) : DCValue := int .ulonglong (culonglong.wrap v)

end DCValue

/-- The type of an integer member of a `DCValue`; all members begin where the union does.
SOURCE: dyncall_value.h:69-81 -/
def memberType : DCsigchar → Option CIntType
  | .bool | .int => some cint
  | .char => some cchar
  | .uchar => some cuchar
  | .short => some cshort
  | .ushort => some cushort
  | .uint => some cuint
  | .long => some clong
  | .ulong => some culong
  | .longlong => some clonglong
  | .ulonglong => some culonglong
  | .void | .float | .double | .pointer | .string | .aggregate => none

/-! ## The arguments -/

/-- The branch of `WCHAR_FLAG`. SOURCE: Callback.cxx:56-66 -/
def cbArgWChar (a : DCbArg) : Eff SV := do
  let c := cint.wrap a.dcbArgLong
  let w ← Exec.lift (Wide.wchar2utf [c] 1)
  pure (.val (.dual w c))

/-- The argument switch: the value pushed for one character of the signature.
SOURCE: Callback.cxx:32-113 -/
def cbArgument (sig : Flag) (type : Option TypeObj) (a : DCbArg) : Eff SV :=
  match sig with
  | .bool => pure (.val (.boolSV a.dcbArgBool))
  | .char | .schar => pure (charSV a.dcbArgChar)
  | .uchar => pure (charSV a.dcbArgChar)
  | .wchar => cbArgWChar a
  | .short => pure (.val (.newSViv a.dcbArgShort))
  | .ushort => pure (.val (.newSVuv a.dcbArgShort))
  | .int => pure (.val (.newSViv a.dcbArgInt))
  | .uint => pure (.val (.newSVuv a.dcbArgInt))
  | .long => pure (.val (.newSViv a.dcbArgLong))
  | .ulong => pure (.val (.newSVuv a.dcbArgLong))
  | .longlong => pure (.val (.newSViv a.dcbArgLongLong))
  | .ulonglong => pure (.val (.newSVuv a.dcbArgLongLong))
  | .float => pure (.val (.newSVnv (binary32.convert binary64 a.dcbArgFloat)))
  | .double => pure (.val (.newSVnv a.dcbArgDouble))
  | .pointer =>
    match type with
    | some t => ptr2sv t a.dcbArgPointer
    | none => Exec.fail .fault
  | c => croak (text "Attempt to pass unknown or unhandled type to CodeRef: " ++ [c.sigChar.toNat])

/-- The loop over the signature. `Void` takes no argument and pushes none.
SOURCE: Callback.cxx:30-113 -/
def cbArguments : List Flag → List (Option TypeObj) → List DCbArg → Eff (List SV)
  | [], _, _ => pure []
  | .void :: sig, types, args => cbArguments sig types.tail args
  | c :: sig, types, a :: args => do
    let sv ← cbArgument c types.head?.join a
    let svs ← cbArguments sig types.tail args
    pure (sv :: svs)
  | _ :: _, _, [] => Exec.fail .fault

/-- A character other than `Void`'s takes an argument and pushes a value. -/
theorem cbArguments_cons {c : Flag} (hc : c ≠ .void) (sig : List Flag)
    (types : List (Option TypeObj)) (a : DCbArg) (args : List DCbArg) :
    cbArguments (c :: sig) types (a :: args) =
      (do
        let sv ← cbArgument c types.head?.join a
        let svs ← cbArguments sig types.tail args
        pure (sv :: svs)) := by
  cases c <;> first | rfl | exact absurd rfl hc

/-! ## The result -/

def svFirstByte (sv : SV) : ℤ := (firstByte (SvPV sv).bytes).toNat

/-- The branch of `WCHAR_FLAG`. SOURCE: Callback.cxx:147-158 -/
def cbReturnWChar (sv : SV) : ℤ := if sv.SvPOK then ((SvPV sv).chars.headD 0 : ℕ) else 0

/-- The result switch: the character returned and the member stored.
SOURCE: Callback.cxx:131-228 -/
def cbReturn (restype : TypeObj) (sv : SV) : Eff (DCsigchar × DCValue) :=
  match restype.flag with
  | .bool => pure (.bool, .B (if SvTRUE sv then 1 else 0))
  | .char | .schar => pure (.char, .c (if sv.SvIOK then SvIV sv else svFirstByte sv))
  | .uchar => pure (.uchar, .C (if sv.SvIOK then SvUV sv else svFirstByte sv))
  | .wchar => pure (.long, .j (cbReturnWChar sv))
  | .short => pure (.short, .s (SvIV sv))
  | .ushort => pure (.ushort, .S (SvIV sv))
  | .int => pure (.int, .i (SvIV sv))
  | .uint => pure (.uint, .I (SvIV sv))
  | .long => pure (.long, .j (SvIV sv))
  | .ulong => pure (.ulong, .J (SvIV sv))
  | .longlong => pure (.longlong, .l (SvIV sv))
  | .ulonglong => pure (.ulonglong, .L (SvIV sv))
  | .float => pure (.float, .f (binary64.convert binary32 (SvNV sv)))
  | .double => pure (.double, .d (SvNV sv))
  | .pointer =>
    match restype with
    | .pointer _ subtype => do
      let p ← sv2ptr subtype sv 0
      pure (.pointer, .p p)
    | _ => Exec.fail .fault
  | c => croak (text "Attempt to return unknown or unhandled type from CodeRef: " ++
      [c.sigChar.toNat])

/-- A Perl sub: the arguments it is called with, and the value it returns. -/
abbrev Sub := List SV → Eff SV

/-- `cbHandlerXXXXX`: the result character, and the member stored unless the sub is called
for nothing. SOURCE: Callback.cxx:3-236 -/
def cbHandlerXXXXX (cb : Callback) (sub : Sub) (args : List DCbArg) :
    Eff (DCsigchar × Option DCValue) := do
  let svs ← cbArguments cb.signature ((cb.argtypes.getD []).map some) args
  if cb.restype.flag = .void then do
    let _ ← sub svs
    pure (.void, none)
  else do
    let sv ← sub svs
    let (ret, result) ← cbReturn cb.restype sv
    pure (ret, some result)

end Affix.Model
