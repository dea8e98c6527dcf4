import Affix.Model.Heap
import Affix.Model.WideStrings

/-!
# Marshalling

`sv2ptr` writes a Perl value where C can read it, into memory it is given or,
given `NULL`, into memory it allocates; `ptr2sv` and `ptr2obj` go the other way.
Both are one switch over the type. The branches for the integer types differ in
three things only, the C type, the macro that reads the value and the size, and
are one definition here; every other branch is its own.

SOURCE: marshal.cxx:3-507 (sv2ptr), marshal.cxx:509-524 (ptr2obj),
marshal.cxx:526-740 (ptr2sv)
-/

set_option autoImplicit false

namespace Affix.Model

open Affix.Foundation

/-- `Data type mismatch for Pointer[%s] [%d]`. SOURCE: marshal.cxx:27-28 -/
def mismatchFor (s : Slots) (svType : ℕ) : Text :=
  text "Data type mismatch for Pointer[" ++ s.stringify ++ text "] [" ++
    text (toString svType) ++ text "]"

def dataTypeMismatch (s : Slots) (data : SV) : Text := mismatchFor s data.SvTYPE

/-! ## From Perl to C: the scalar branches -/

/-- The branch of an integer type: one value, or one for each element of an array. -/
def sv2ptrInt (c : CIntType) (read : SV → ℤ) (s : Slots) (data : SV) (ret : ℕ) : Eff ℕ :=
  if data.SvOK then
    if data.SvIOK then do
      let ret ← orNew ret (Newxz 1 c.size)
      store ret (c.encode (read data))
      pure ret
    else
      match data.elems with
      | some es => do
        let ret ← orNew ret (Newxz es.length c.size)
        storeEach c.size (fun e => c.encode (read e)) ret es
        pure ret
      | none => croak (dataTypeMismatch s data)
  else pure ret

/-! The branches `SHORT_FLAG` to `ULONGLONG_FLAG`, in order. SOURCE: marshal.cxx:89-277 -/

def sv2ptrShort := sv2ptrInt cshort SvIV
def sv2ptrUShort := sv2ptrInt cushort SvUV
def sv2ptrInt' := sv2ptrInt cint SvIV
def sv2ptrUInt := sv2ptrInt cuint SvUV
def sv2ptrLong := sv2ptrInt clong SvIV
def sv2ptrULong := sv2ptrInt culong SvIV
def sv2ptrLongLong := sv2ptrInt clonglong SvIV
def sv2ptrULongLong := sv2ptrInt culonglong SvIV

/-- The branch of a floating type. SOURCE: marshal.cxx:278-327 -/
def sv2ptrFloat (size : ℕ) (image : ℕ → ℕ) (s : Slots) (data : SV) (ret : ℕ) : Eff ℕ :=
  if data.SvOK then
    if data.SvNOK || data.SvIOK then do
      let ret ← orNew ret (Newxz 1 size)
      store ret (encodeLE size (image (SvNV data)))
      pure ret
    else
      match data.elems with
      | some es => do
        let ret ← orNew ret (Newxz es.length size)
        storeEach size (fun e => encodeLE size (image (SvNV e))) ret es
        pure ret
      | none => croak (dataTypeMismatch s data)
  else pure ret

def boolByte (b : Bool) : List UInt8 := [if b then 1 else 0]

/-- The `BOOL_FLAG` branch: anything has a truth value, but an array has one for each
element. SOURCE: marshal.cxx:32-50 -/
def sv2ptrBool (data : SV) (ret : ℕ) : Eff ℕ :=
  match data.elems with
  | some es => do
    let ret ← orNew ret (Newxz es.length 1)
    storeEach 1 (fun e => boolByte (SvTRUE e)) ret es
    pure ret
  | none => do
    let ret ← orNew ret (Newxz 1 1)
    store ret (boolByte (SvTRUE data))
    pure ret

/-- The branch of a character type: a string is copied with room for its terminator, an
array of codes into room for that many of a wider type, or one more. -/
def sv2ptrChar (c : CIntType) (read : SV → ℤ) (count : ℕ → ℕ) (wide : CIntType) (data : SV)
    (ret : ℕ) : Eff ℕ :=
  if data.SvOK then
    match data.elems with
    | some es => do
      let ret ← orNew ret (Newxz (count es.length) wide.size)
      storeEach 1 (fun e => c.encode (read e)) ret es
      pure ret
    | none => do
      let bs := (SvPV data).bytes
      let ret ← orNew ret (Newxz (bs.length + 1) 1)
      store ret bs
      pure ret
  else pure ret

/-! The branches `CHAR_FLAG` with `SCHAR_FLAG`, and `UCHAR_FLAG`. SOURCE: marshal.cxx:51-88 -/

def sv2ptrCharSChar := sv2ptrChar cchar SvIV id cint
def sv2ptrUChar := sv2ptrChar cuchar SvUV (· + 1) cuint

/-- The `VOID_FLAG` branch: a pointer object gives its address, anything else its bytes.
SOURCE: marshal.cxx:9-31 -/
def sv2ptrVoid (data : SV) (ret : ℕ) : Eff ℕ :=
  if data.SvOK then
    match asPointerObject data with
    | some es => do
      let ptr ← Exec.lift (pointerAddr es)
      if ptr.SvOK then Exec.lift (addressOf ptr) else pure ret
    | none => do
      let bs ← Exec.lift (SvPVbyte data)
      let ret ← orNew ret (Newxz bs.length 1)
      store ret bs
      pure ret
  else pure ret

/-- The `WCHAR_FLAG` branch: the code points of the string, after a dump of sixteen bytes
of the target. `utf2wchar` ends its result with a zero, where `wcslen` stops; an earlier
zero stops it too. SOURCE: marshal.cxx:400-440, wchar_t.cxx:30-42, Utils.cxx:100-134 -/
def sv2ptrWChar (data : SV) (ret : ℕ) : Eff ℕ := do
  let h ← Exec.get
  let _ ← Exec.lift (load h.mem ret 16)
  let value := ((SvPV data).chars.takeWhile (· ≠ 0)).flatMap (encodeLE 4)
  store ret value
  pure ret

/-- The `SV_FLAG` branch: the address of the value itself, which is not freed any more.
SOURCE: marshal.cxx:378-381 -/
def sv2ptrSV (data : SV) : Eff ℕ := do
  let p ← safemalloc 24
  let h ← Exec.get
  Exec.set { h with svs := (p, data) :: h.svs }
  pure p

/-- `dcbInitCallback2` with no descriptors, which is how `dcbNewCallback` calls it. Where the
last character is one of an aggregate it takes that for the result, and looks for its
descriptor behind the `NULL`. SOURCE: dyncall_callback_x64.c:48-85, dyncall_callback.c:60-63 -/
def dcbInitCallback (signature : List Char) : Except Halt Unit :=
  let types := if signature.head? = some '_' then signature.drop 2 else signature
  if types.getLast? = some 'A' then .error .fault else .ok ()

/-- The `CODEREF_FLAG` branch: a new callback, or one zeroed word.
SOURCE: marshal.cxx:382-398 -/
def sv2ptrCodeRef (args : Option (List TypeObj)) (sig : List Flag) (restype : TypeObj)
    (data : SV) : Eff ℕ :=
  if data.SvOK then do
    let _ ← Newxz 1 56
    let _ ← Newxz 1 8
    let p ← safemalloc 56
    Exec.lift (dcbInitCallback (sig.map Flag.sigChar))
    let h ← Exec.get
    Exec.set { h with callbacks := (p, ⟨sig, args, restype, data⟩) :: h.callbacks }
    pure p
  else Newxz 1 SIZEOF_INTPTR_T

def sv2ptrScalar (k : Kind) (s : Slots) (data : SV) (ret : ℕ) : Eff ℕ :=
  match k with
  | .Void => sv2ptrVoid data ret
  | .Bool => sv2ptrBool data ret
  | .Char | .SChar => sv2ptrCharSChar data ret
  | .UChar => sv2ptrUChar data ret
  | .WChar => sv2ptrWChar data ret
  | .Short => sv2ptrShort s data ret
  | .UShort => sv2ptrUShort s data ret
  | .Int => sv2ptrInt' s data ret
  | .UInt => sv2ptrUInt s data ret
  | .Long => sv2ptrLong s data ret
  | .ULong => sv2ptrULong s data ret
  | .LongLong => sv2ptrLongLong s data ret
  | .ULongLong | .Size_t => sv2ptrULongLong s data ret
  | .Float => sv2ptrFloat 4 (binary64.convert binary32) s data ret
  | .Double => sv2ptrFloat 8 id s data ret
  | .SV => sv2ptrSV data

/-! ## From Perl to C: pointers and aggregates -/

/-- `hv_fetch` by the bytes of a name, one character a byte. -/
def hvFetch (entries : List (Text × SV)) (name : PerlStr) : Option SV :=
  entries.lookup (name.bytes.map UInt8.toNat)

/-- `warn("Expected a hash reference …")` has no effect on the heap. The entries of a
reference to a hash. SOURCE: marshal.cxx:442-445 -/
def asHash (data : SV) : Option (List (Text × SV)) := data.entries

/-- The loop over the elements of an array of pointers: each is marshalled and its address
stored. SOURCE: marshal.cxx:337-344 -/
def storePointers (convert : SV → Eff ℕ) : ℕ → List SV → Eff Unit
  | _, [] => pure ()
  | a, e :: es => do
    let i ← convert e
    store a (pointerBytes i)
    storePointers convert (a + SIZEOF_INTPTR_T) es

def nameText (name : PerlStr) : Text := name.bytes.map UInt8.toNat

mutual

/-- `sv2ptr`. The `safecalloc` for an aggregate is no different from `Newxz`, for even an empty
one has padding. SOURCE: marshal.cxx:3-507 -/
def sv2ptr (type : TypeObj) (data : SV) (ret : ℕ) : Eff ℕ :=
  if !data.SvOK && data.SvREADONLY then pure 0
  else
    match type with
    | .scalar k s => sv2ptrScalar k s data ret
    | .pointer _ subtype =>
      if subtype.isPointer then
        if data.SvOK then
          match data.elems with
          | some es => do
            let ret ← orNew ret (Newxz es.length SIZEOF_INTPTR_T)
            storePointers (fun e => sv2ptr subtype e 0) ret es
            pure ret
          | none => do
            let ret ← orNew ret (Newxz 1 SIZEOF_INTPTR_T)
            let i ← sv2ptr subtype data 0
            store ret (pointerBytes i)
            pure ret
        else pure ret
      else
        match asPointerObject data with
        | some es => do
          let ptr ← Exec.lift (pointerAddr es)
          if ptr.SvOK then Exec.lift (addressOf ptr) else pure ret
        | none => sv2ptr subtype data 0
    | .codeRef _ args sig r => sv2ptrCodeRef args sig r data
    | .struct s fields =>
      match asHash data with
      | none => pure 0
      | some entries => do
        let ret ← orNew ret (Newxz 1 s.sizeof)
        sv2ptrFields entries ret fields
        pure ret
    | .union s fields =>
      match asHash data with
      | none => pure 0
      | some entries => do
        let ret ← orNew ret (Newxz 1 s.sizeof)
        let okay ← sv2ptrMembers entries ret fields
        if okay then pure ret
        else croak (text "Malformed Union[...] field; missing defined field")

def sv2ptrFields (entries : List (Text × SV)) (ret : ℕ) : List TypeObj → Eff Unit
  | [] => pure ()
  | field :: rest =>
    match field.field with
    | none => croak (text "Malformed Struct[...] field; missing field name")
    | some name =>
      match hvFetch entries name with
      | none => croak (text "Malformed Struct[...]; missing '" ++ nameText name ++ text "' field")
      | some fieldData =>
        if field.isPointer then do
          let ptr ← sv2ptr field fieldData 0
          store (ret + field.offset) (pointerBytes ptr)
          sv2ptrFields entries ret rest
        else do
          let _ ← sv2ptr field fieldData (ret + field.offset)
          sv2ptrFields entries ret rest

def sv2ptrMembers (entries : List (Text × SV)) (ret : ℕ) : List TypeObj → Eff Bool
  | [] => pure false
  | field :: rest =>
    match field.field with
    | none => croak (text "Malformed Struct[...] field; missing field name")
    | some name =>
      match hvFetch entries name with
      | none => sv2ptrMembers entries ret rest
      | some fieldData =>
        if field.isPointer then do
          let ptr ← sv2ptr field fieldData 0
          store (ret + field.offset) (pointerBytes ptr)
          let _ ← sv2ptrMembers entries ret rest
          pure true
        else do
          let _ ← sv2ptr field fieldData (ret + field.offset)
          let _ ← sv2ptrMembers entries ret rest
          pure true

end

/-! ## From C to Perl -/

/-- The address slot of a pointer object: undefined for `NULL`. SOURCE: marshal.cxx:513-515 -/
def addrSlot (ptr : ℕ) : SV :=
  if ptr = 0 then .undef false else .sref (.new []) (.val (.newSViv ptr))

/-- `ptr2obj`: a pointer object in array form.
SOURCE: marshal.cxx:509-524, Affix.h:270-273 -/
def ptr2obj (type : TypeObj) (ptr : ℕ) : SV :=
  .aref (.new ["Affix::Pointer::Unmanaged", "Affix::Pointer"])
    [addrSlot ptr, .type type, .val (.newSViv 1), .val (.newSViv 0)]

def loadAt (a n : ℕ) : Eff (List UInt8) := fun h => (load h.mem a n).map (·, h)

/-! The branches of the integer and the floating types. SOURCE: marshal.cxx:544-573 -/

def ptr2svInt (c : CIntType) (new : ℤ → Scalar) (ptr : ℕ) : Eff SV := do
  let bs ← loadAt ptr c.size
  pure (.val (new (c.decode bs)))

def ptr2svShort := ptr2svInt cshort .newSViv
def ptr2svUShort := ptr2svInt cushort .newSVuv
def ptr2svInt' := ptr2svInt cint .newSViv
def ptr2svUInt := ptr2svInt cuint .newSViv
def ptr2svLong := ptr2svInt clong .newSViv
def ptr2svULong := ptr2svInt culong .newSViv
def ptr2svLongLong := ptr2svInt clonglong .newSViv
def ptr2svULongLong := ptr2svInt culonglong .newSViv

def ptr2svFloat (size : ℕ) (widen : ℕ → ℕ) (ptr : ℕ) : Eff SV := do
  let bs ← loadAt ptr size
  pure (.val (.newSVnv (widen (decodeLE bs))))

/-- The `BOOL_FLAG` branch. SOURCE: marshal.cxx:533-535 -/
def ptr2svBool (ptr : ℕ) : Eff SV := do
  let bs ← loadAt ptr 1
  pure (.val (.boolSV (bs ≠ [0])))

/-- The branch of the character types: the string that starts there.
SOURCE: marshal.cxx:536-541 -/
def ptr2svChars (ptr : ℕ) : Eff SV := do
  let h ← Exec.get
  let bs ← Exec.lift (cstring h.mem h.mem.brk ptr)
  pure (.val (.ofStr (.ofGuess bs)))

/-- The branch of `WCHAR_FLAG`. An empty string leaves the result uninitialised.
SOURCE: marshal.cxx:592-602, marshal.cxx:627-630 -/
def ptr2svWChar (ptr : ℕ) : Eff SV := do
  let h ← Exec.get
  let cs ← Exec.lift (wcstring h.mem h.mem.brk ptr)
  if cs = [] then Exec.fail .fault
  else do
    let str ← Exec.lift (Wide.wchar2utf (cs.map fun c : ℕ => cint.wrap c) cs.length)
    pure (.val (.ofStr str))

/-- The `SV_FLAG` branch: the value at that address. SOURCE: marshal.cxx:624-626 -/
def ptr2svSV (ptr : ℕ) : Eff SV := do
  let h ← Exec.get
  match h.svs.lookup ptr with
  | some sv => pure sv
  | none => Exec.fail .fault

/-- The wrapper made for a function that C handed over. SOURCE: marshal.cxx:636-663 -/
def pointerFiction (ts : List TypeObj) (r : TypeObj) (ptr : ℕ) : Fiction where
  lib := none
  entryPoint := ptr
  symbol := "anonymous subroutine".toUTF8.toList
  signature := some (ts.map TypeObj.flag)
  argtypes := some ts
  restype := some r
  restypeC := r.flag
  aggrRestype := false

/-- The `CODEREF_FLAG` branch: a wrapper of the function. SOURCE: marshal.cxx:631-679 -/
def ptr2svCodeRef (args : Option (List TypeObj)) (r : TypeObj) (ptr : ℕ) : Eff SV :=
  match args with
  | none => Exec.fail .fault
  | some ts => do
    let _ ← Newxz 1 88
    let _ ← Newxz (ts.length * 2) 1
    let _ ← Newxz (ts.length + 1) 1
    pure (.code (.new ["Affix"]) (.fiction (pointerFiction ts r ptr)))

def ptr2svScalar (k : Kind) (s : Slots) (ptr : ℕ) : Eff SV :=
  match k with
  | .Void => pure (ptr2obj (.scalar k s) ptr)
  | .Bool => ptr2svBool ptr
  | .Char | .SChar | .UChar => ptr2svChars ptr
  | .WChar => ptr2svWChar ptr
  | .Short => ptr2svShort ptr
  | .UShort => ptr2svUShort ptr
  | .Int => ptr2svInt' ptr
  | .UInt => ptr2svUInt ptr
  | .Long => ptr2svLong ptr
  | .ULong => ptr2svULong ptr
  | .LongLong => ptr2svLongLong ptr
  | .ULongLong | .Size_t => ptr2svULongLong ptr
  | .Float => ptr2svFloat 4 (binary32.convert binary64) ptr
  | .Double => ptr2svFloat 8 id ptr
  | .SV => ptr2svSV ptr

/-- The loop over a `NULL`-terminated array of pointers, the terminator included.
SOURCE: marshal.cxx:579-587 -/
def ptr2svPointers (convert : ℕ → Eff SV) : (fuel a : ℕ) → Eff (List SV)
  | 0, _ => Exec.fail .fault
  | fuel + 1, a => do
    let h ← Exec.get
    let tmp ← Exec.lift (loadPointer h.mem a)
    let e ← convert tmp
    if tmp = 0 then pure [e]
    else do
      let rest ← ptr2svPointers convert fuel (a + SIZEOF_INTPTR_T)
      pure (e :: rest)

/-- The loop over an array of `len` elements. SOURCE: marshal.cxx:606-619 -/
def ptr2svElems (convert : ℕ → Eff SV) (stride : ℕ) : (len a : ℕ) → Eff (List SV)
  | 0, _ => pure []
  | len + 1, a => do
    let e ← convert a
    let rest ← ptr2svElems convert stride len (a + stride)
    pure (e :: rest)

/-- `hv_store_ent`: a key that is there keeps its place. -/
def hvStore (key : Text) (v : SV) : List (Text × SV) → List (Text × SV)
  | [] => [(key, v)]
  | (k, w) :: rest => if k = key then (k, v) :: rest else (k, w) :: hvStore key v rest

/-- The loop of the `UNION_FLAG` branch: each member pinned where it lies, or where it
points. SOURCE: marshal.cxx:708-728 -/
def ptr2svMembers (ptr : ℕ) (acc : List (Text × SV)) : List TypeObj → Eff (List (Text × SV))
  | [] => pure acc
  | field :: rest =>
    match field.field with
    | none => Exec.fail .fault
    | some name => do
      let p := ptr + field.offset
      let h ← Exec.get
      let p ← if field.isPointer then Exec.lift (loadPointer h.mem p) else pure p
      ptr2svMembers ptr (hvStore name.chars (.pinned field p) acc) rest

/-- The value of one member of a struct: `whole` is `ptr2sv` at the member's type. A `Char`
that is pointed to takes the character branch of `ptr2sv`. SOURCE: marshal.cxx:687-703 -/
def ptr2svField (whole : ℕ → Eff SV) (field : TypeObj) (p : ℕ) : Eff SV :=
  match field with
  | .pointer _ subtype => do
    let h ← Exec.get
    let q ← Exec.lift (loadPointer h.mem p)
    if q = 0 then pure (.undef false)
    else if subtype.isChar then ptr2svChars q
    else pure (.undef false)
  | .scalar .Char _ | .scalar .SChar _ | .scalar .UChar _ => do
    let bs ← loadAt p 1
    pure (.val (.ofStr (.ofGuess bs)))
  | _ => whole p

mutual

def ptr2sv (type : TypeObj) (ptr : ℕ) : Eff SV :=
  if ptr = 0 then pure (.undef false)
  else
    match type with
    | .scalar k s => ptr2svScalar k s ptr
    | .pointer s subtype =>
      match subtype.flag with
      | .pointer => do
        let h ← Exec.get
        let es ← ptr2svPointers (fun p => ptr2sv subtype p) h.mem.brk ptr
        pure (.aref (.new []) es)
      | .char | .uchar | .schar => ptr2sv subtype ptr
      | .wchar => ptr2svWChar ptr
      | _ =>
        if s.arraylen = 1 then ptr2sv subtype ptr
        else do
          let es ← ptr2svElems (fun p => ptr2sv subtype p) subtype.sizeof s.arraylen ptr
          pure (.aref (.new []) es)
    | .codeRef _ args _ r => ptr2svCodeRef args r ptr
    | .struct _ fields => do
      let es ← ptr2svFields ptr [] fields
      pure (.href (.new []) es)
    | .union _ fields => do
      let es ← ptr2svMembers ptr [] fields
      pure (.href (.new []) es)

def ptr2svFields (ptr : ℕ) (acc : List (Text × SV)) : List TypeObj → Eff (List (Text × SV))
  | [] => pure acc
  | field :: rest =>
    match field.field with
    | none => Exec.fail .fault
    | some name => do
      let val ← ptr2svField (fun p => ptr2sv field p) field (ptr + field.offset)
      ptr2svFields ptr (hvStore name.chars val acc) rest

end

end Affix.Model
