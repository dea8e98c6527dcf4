import Affix.Model.Marshal

/-!
# Pointer objects and the memory functions

Perl code holds C memory through objects of class `Affix::Pointer`. There are two
forms of them. The functions that have been brought up to date make a reference
to an array of an address, a type, a count and a position, and take the address
from the first slot. The others make a reference to the address itself, and take
the address from the referent; of an array they take `0`.

The functions below give the address the C function returned, `RETVAL`, next to
the object made of it. Closing the module, a Perl program that uses them: its
variables, and one operation after another.

SOURCE: Type/Pointer.cxx:1-546
-/

set_option autoImplicit false

namespace Affix.Model

open Affix.Foundation

/-! ## The C library -/

/-- `safefree` of an address that is not `NULL`. -/
def safefree (a : ℕ) : Eff Unit := fun h =>
  match h.mem.free a with
  | some m => .ok ((), { h with mem := m })
  | none => .error .fault

/-- `saferealloc`, which always moves. -/
def saferealloc (a n : ℕ) : Eff ℕ :=
  if n = 0 then
    if a = 0 then pure 0
    else do
      safefree a
      pure 0
  else if a = 0 then safemalloc n
  else do
    let h ← Exec.get
    match h.mem.blocks.find? fun b => b.1 = a with
    | none => Exec.fail .fault
    | some b => do
      let p ← safemalloc n
      let bs ← loadAt a (min b.2 n)
      store p bs
      safefree a
      pure p

/-- `memchr`: it looks no further than the first occurrence. -/
def memchr (a : ℕ) (ch : UInt8) : ℕ → Eff ℕ
  | 0 => pure 0
  | count + 1 => do
    let bs ← loadAt a 1
    if bs = [ch] then pure a else memchr (a + 1) ch count

def memset (dest : ℕ) (ch : UInt8) (count : ℕ) : Eff ℕ := do
  store dest (List.replicate count ch)
  pure dest

/-- What `memcpy` copies from: memory, or the buffer of a Perl string. -/
inductive Source where
  | mem (a : ℕ)
  | buffer (bs : List UInt8)

def Source.addr? : Source → Option ℕ
  | .mem a => some a
  | .buffer _ => none

def Source.load (n : ℕ) : Source → Eff (List UInt8)
  | .mem a => loadAt a n
  | .buffer bs => if n ≤ bs.length then pure (bs.take n) else Exec.fail .fault

/-- `MoveD` of characters. -/
def memmove (dest : ℕ) (src : Source) (n : ℕ) : Eff ℕ := do
  let bs ← src.load n
  store dest bs
  pure dest

/-- `CopyD` of characters, of which overlapping copies may ask nothing. -/
def memcpy := memmove

/-- `strdup`: up to the first zero. It gives `NULL` when there is no memory. -/
def strdup (bs : List UInt8) : Eff ℕ := fun h =>
  let str := bs.takeWhile (· ≠ 0) ++ [0]
  match h.mem.malloc str.length with
  | some (p, m) => (do store p str; pure p) { h with mem := m }
  | none => .ok (0, h)

/-! ## Making and reading pointer objects -/

/-- `sv_setref_pv`: a reference to an address; `NULL` gives an undefined value. -/
def sv_setref_pv (isa : List String) (ptr : ℕ) : SV :=
  if ptr = 0 then .undef false else .sref (.new isa) (.val (.newSViv ptr))

/-- A reference to an address, of class `Affix::Pointer::Unmanaged`. -/
def unmanaged (ptr : ℕ) : SV := sv_setref_pv ["Affix::Pointer::Unmanaged", "Affix::Pointer"] ptr

/-- `_Void`: an object in array form, whose type takes the size that was asked for.
SOURCE: Type/Pointer.cxx:3-21, Affix.pm:203 -/
def _Void (ptr size : ℕ) : SV :=
  ptr2obj ((Pointer (scalarType .Void)).mapSlots fun s => { s with sizeof := size }) ptr

def notAPointer (what : String) : Halt :=
  .croak (text what ++ text " is not of type Affix::Pointer")

/-- The address `free`, `raw`, `sv` and `dump` take: the first slot of an array, none where
it is undefined. SOURCE: Type/Pointer.cxx:110-121, 133-144, 161-174, 217-225 -/
def arrayAddress (obj : SV) : Except Halt (Option ℕ) :=
  match asPointerObject obj with
  | none => .error (notAPointer "ptr")
  | some es =>
    match pointerAddr es with
    | .error e => .error e
    | .ok ptr => if ptr.SvOK then (addressOf ptr).map some else .ok none

/-- The address `realloc`, `memchr` and `memset` take: that of the referent.
SOURCE: Type/Pointer.cxx:330-335, 360-365, 430-435 -/
def scalarAddress (what : String) (obj : SV) : Except Halt ℕ :=
  if obj.derivedFrom "Affix::Pointer" then addressOf obj else .error (notAPointer what)

def svAddress (sv : SV) : ℕ := (culong.wrap (SvIV sv)).toNat

/-- The destination of `memcpy` and `memmove`: an object or a number.
SOURCE: Type/Pointer.cxx:458-467, 499-508 -/
def destAddress (dest : SV) : Except Halt ℕ :=
  if dest.derivedFrom "Affix::Pointer" then addressOf dest
  else if dest.SvIOK then .ok (svAddress dest)
  else .error (notAPointer "dest")

/-- The source of `memcpy` and `memmove`: an object, a number or a string.
SOURCE: Type/Pointer.cxx:468-478, 509-519 -/
def srcOperand (src : SV) : Except Halt Source :=
  if src.derivedFrom "Affix::Pointer" then (addressOf src).map .mem
  else if src.SvIOK then .ok (.mem (svAddress src))
  else if src.SvPOK then .ok (.buffer ((SvPV src).bytes ++ [0]))
  else .error (notAPointer "dest")

def SvSize (sv : SV) : ℕ := (SvUV sv).toNat

def SvChar (sv : SV) : UInt8 := (SvPV sv).bytes.headD 0

/-! ## The functions of array form

SOURCE: Type/Pointer.cxx:53-73, 104-184, 211-240, 286-296, Affix.h:291-294 -/

def Affix_malloc (size : SV) : Eff (ℕ × SV) := do
  let RETVAL ← safemalloc (SvSize size)
  pure (RETVAL, _Void RETVAL (SvSize size))

/-- It leaves the variable undefined. -/
def Affix_free (ptr : SV) : Eff SV := do
  let tmp ← Exec.lift (arrayAddress ptr)
  match tmp with
  | some a =>
    if a = 0 then pure (.undef false)
    else do
      safefree a
      pure (.undef false)
  | none => pure (.undef false)

/-- The buffer and the flag of a new string. -/
def Affix_Pointer_raw (ptr size : SV) (utf8 : Bool) : Eff (Option (List UInt8 × Bool)) := do
  let tmp ← Exec.lift (arrayAddress ptr)
  match tmp with
  | some a => do
    let bs ← loadAt a (SvSize size)
    pure (some (bs, utf8))
  | none => pure none

def pointerSubtype (obj : SV) : Except Halt TypeObj :=
  match obj.elems with
  | some (_ :: .type t :: _) => .ok t
  | _ => .error .fault

def pointerPosition (obj : SV) : Except Halt ℤ :=
  match obj.elems with
  | some (_ :: _ :: _ :: pos :: _) => .ok (SvIV pos)
  | _ => .error .fault

def Affix_Pointer_sv (ptr : SV) : Eff SV := do
  let tmp ← Exec.lift (arrayAddress ptr)
  match tmp with
  | some a => do
    let type ← Exec.lift (pointerSubtype ptr)
    let position ← Exec.lift (pointerPosition ptr)
    ptr2sv type (culong.wrap (a + type.sizeof * position)).toNat
  | none => pure (.undef false)

def Affix_Pointer_DumpHex (ptr size : SV) : Eff Unit := do
  let tmp ← Exec.lift (arrayAddress ptr)
  match tmp with
  | some a => do
    let _ ← loadAt a (SvSize size)
    pure ()
  | none => pure ()

def Affix_sv2ptr (type : TypeObj) (data : SV) : Eff SV :=
  if type.isPointer then do
    let ptr ← sv2ptr type data 0
    pure (ptr2obj type ptr)
  else croak (text "type is not of type Affix::Type::Pointer")

/-! ## The functions of scalar form

`Nothing below this has been updated to the new array based ::Pointer objects`

SOURCE: Type/Pointer.cxx:298-546 -/

def Affix_calloc (num size : SV) : Eff (ℕ × SV) := do
  let RETVAL ← safecalloc (SvSize num) (SvSize size)
  pure (RETVAL, unmanaged RETVAL)

/-- The variable becomes a reference too, of a class the source misspells. -/
def Affix_realloc (ptr size : SV) : Eff (SV × ℕ × SV) := do
  let a ← Exec.lift (scalarAddress "ptr" ptr)
  let p ← saferealloc a (SvSize size)
  pure (sv_setref_pv ["Affix::Pointer:Unmanaged"] p, p, unmanaged p)

def Affix_memchr (ptr ch count : SV) : Eff (ℕ × SV) := do
  let a ← Exec.lift (scalarAddress "ptr" ptr)
  let RETVAL ← memchr a (SvChar ch) (SvSize count)
  pure (RETVAL, unmanaged RETVAL)

def Affix_memset (dest ch count : SV) : Eff (ℕ × SV) := do
  let a ← Exec.lift (scalarAddress "dest" dest)
  let RETVAL ← memset a (SvChar ch) (SvSize count)
  pure (RETVAL, unmanaged RETVAL)

/-- The body `Affix_memcpy` and `Affix_memmove` share. -/
def copyItems (copy : ℕ → Source → ℕ → Eff ℕ) (dest src nitems : SV) : Eff (ℕ × SV) := do
  let d ← Exec.lift (destAddress dest)
  let s ← Exec.lift (srcOperand src)
  let RETVAL ← copy d s (SvSize nitems)
  pure (RETVAL, unmanaged RETVAL)

def Affix_memcpy := copyItems memcpy
def Affix_memmove := copyItems memmove

def Affix_strdup (str1 : SV) : Eff (ℕ × SV) := do
  let RETVAL ← strdup (SvPV str1).bytes
  pure (RETVAL, unmanaged RETVAL)

/-! ## A program that uses them -/

/-- An argument of `memcpy`: a variable that holds a pointer, or a number or a string. -/
inductive Operand where
  | var (v : ℕ)
  | plain (s : Scalar)

/-- One call of a memory function. Pointers are in variables, given by number. -/
inductive PointerOp where
  | malloc (size : SV)
  | calloc (num size : SV)
  | realloc (v : ℕ) (size : SV)
  | strdup (str1 : SV)
  | memchr (v : ℕ) (ch count : SV)
  | memset (v : ℕ) (ch count : SV)
  | memcpy (dest src : Operand) (nitems : SV)
  | memmove (dest src : Operand) (nitems : SV)
  | free (v : ℕ)
  | raw (v : ℕ) (size : SV) (utf8 : Bool)
  | sv (v : ℕ)
  | dump (v : ℕ) (size : SV)

/-- A variable that was given an object: its value now, and the address the C function
returned that the object was made of. -/
structure Holder where
  value : SV
  addr : ℕ

/-- The state of the program. For each use of a variable so far, `uses` has the address of
its object and the one the function took. A program that is not `alive` has ended. -/
structure PointerState where
  heap : Heap
  vars : List Holder
  uses : List (ℕ × Except Halt (Option ℕ))
  alive : Bool

def valueOf (vars : List Holder) (v : ℕ) : SV := (vars[v]?.map Holder.value).getD (.undef false)

def Operand.value (vars : List Holder) : Operand → SV
  | .var v => valueOf vars v
  | .plain s => .val s

/-- A call, and what it does to the variables: the object it returns goes in a new one. -/
def PointerOp.perform (vars : List Holder) : PointerOp → Eff (List Holder)
  | .malloc size => do
    let (RETVAL, obj) ← Affix_malloc size
    pure (vars ++ [⟨obj, RETVAL⟩])
  | .calloc num size => do
    let (RETVAL, obj) ← Affix_calloc num size
    pure (vars ++ [⟨obj, RETVAL⟩])
  | .realloc v size => do
    let (ptr, RETVAL, obj) ← Affix_realloc (valueOf vars v) size
    pure (vars.set v ⟨ptr, RETVAL⟩ ++ [⟨obj, RETVAL⟩])
  | .strdup str1 => do
    let (RETVAL, obj) ← Affix_strdup str1
    pure (vars ++ [⟨obj, RETVAL⟩])
  | .memchr v ch count => do
    let (RETVAL, obj) ← Affix_memchr (valueOf vars v) ch count
    pure (vars ++ [⟨obj, RETVAL⟩])
  | .memset v ch count => do
    let (RETVAL, obj) ← Affix_memset (valueOf vars v) ch count
    pure (vars ++ [⟨obj, RETVAL⟩])
  | .memcpy dest src nitems => do
    let (RETVAL, obj) ← Affix_memcpy (dest.value vars) (src.value vars) nitems
    pure (vars ++ [⟨obj, RETVAL⟩])
  | .memmove dest src nitems => do
    let (RETVAL, obj) ← Affix_memmove (dest.value vars) (src.value vars) nitems
    pure (vars ++ [⟨obj, RETVAL⟩])
  | .free v => do
    let ptr ← Affix_free (valueOf vars v)
    pure (vars.set v ⟨ptr, 0⟩)
  | .raw v size utf8 => do
    let _ ← Affix_Pointer_raw (valueOf vars v) size utf8
    pure vars
  | .sv v => do
    let _ ← Affix_Pointer_sv (valueOf vars v)
    pure vars
  | .dump v size => do
    Affix_Pointer_DumpHex (valueOf vars v) size
    pure vars

/-- The uses of variables a call makes, each by the reader its function has. -/
def PointerOp.uses (vars : List Holder) : PointerOp → List (ℕ × Except Halt (Option ℕ))
  | .malloc _ | .calloc .. | .strdup _ => []
  | .free v | .raw v .. | .sv v | .dump v _ => used v arrayAddress
  | .realloc v _ | .memchr v .. => used v fun obj => (scalarAddress "ptr" obj).map some
  | .memset v .. => used v fun obj => (scalarAddress "dest" obj).map some
  | .memcpy dest src _ | .memmove dest src _ =>
    operand (fun obj => (destAddress obj).map some) dest ++
      operand (fun obj => (srcOperand obj).map Source.addr?) src
where
  used (v : ℕ) (reader : SV → Except Halt (Option ℕ)) : List (ℕ × Except Halt (Option ℕ)) :=
    (vars[v]?.map fun p => (p.addr, reader p.value)).toList
  operand (reader : SV → Except Halt (Option ℕ)) :
      Operand → List (ℕ × Except Halt (Option ℕ))
    | .var v => used v reader
    | .plain _ => []

/-- The variable holds an object, and the `n` bytes it points to are live. -/
def PointerState.Live (st : PointerState) (v n : ℕ) : Prop :=
  ∃ p, st.vars[v]? = some p ∧ p.value.derivedFrom "Affix::Pointer" = true ∧
    st.heap.mem.InBlock p.addr n

/-- The variable holds an object that points to the start of a block. -/
def PointerState.Owns (st : PointerState) (v : ℕ) : Prop :=
  st.Live v 0 ∧ ∃ p n, st.vars[v]? = some p ∧ (p.addr, n) ∈ st.heap.mem.blocks

/-- The calls that are made on live pointers and within bounds. -/
def PointerOp.InBounds (st : PointerState) : PointerOp → Prop
  | .malloc _ | .calloc .. | .strdup _ => True
  | .realloc v _ | .free v => st.Owns v
  | .memchr v _ count | .memset v _ count => st.Live v (SvSize count)
  | .memcpy dest src nitems | .memmove dest src nitems =>
    (match dest with
      | .var v => st.Live v (SvSize nitems)
      | .plain s => (SV.val s).SvIOK = true ∧
          st.heap.mem.InBlock (svAddress (.val s)) (SvSize nitems)) ∧
    match src with
    | .var v => st.Live v (SvSize nitems)
    | .plain s =>
      if (SV.val s).SvIOK then st.heap.mem.InBlock (svAddress (.val s)) (SvSize nitems)
      else (SV.val s).SvPOK = true ∧ SvSize nitems ≤ (SvPV (.val s)).bytes.length
  | .raw v size _ | .dump v size => st.Live v (SvSize size)
  | .sv v => st.Live v 0

/-- One call. An exception leaves the program running, with its variables as they were. -/
inductive PointerStep : PointerState → PointerOp → PointerState → Prop
  | returns {st : PointerState} {op : PointerOp} {vars : List Holder} {h : Heap}
      (halive : st.alive = true) (hbounds : op.InBounds st)
      (hperform : op.perform st.vars st.heap = .ok (vars, h)) :
      PointerStep st op ⟨h, vars, st.uses ++ op.uses st.vars, true⟩
  | stops {st : PointerState} {op : PointerOp} {e : Halt}
      (halive : st.alive = true) (hbounds : op.InBounds st)
      (hperform : op.perform st.vars st.heap = .error e) :
      PointerStep st op { st with
        uses := st.uses ++ op.uses st.vars
        alive := match e with | .croak _ => true | _ => false }

def PointerState.initial (heap : Heap) : PointerState := ⟨heap, [], [], true⟩

end Affix.Model
