import Affix.Model.Pointer

/-!
# Pinned variables

`pin` hangs magic on a Perl scalar that names a C variable and its type. Reading
the scalar first copies the C variable into it; assigning to the scalar copies
its new value to the C variable afterwards. The scalar keeps a value of its own
all the while, which is what is left once `unpin` takes the magic away.

SOURCE: pin.cxx:11-57, pin.cxx:107-114
-/

set_option autoImplicit false

namespace Affix.Model

open Affix.Foundation

/-- `get_pin`: what the scalar is set to. SOURCE: pin.cxx:11-16 -/
def get_pin (type_sv : TypeObj) (ptr : ℕ) : Eff SV := ptr2sv type_sv ptr

/-- `SVt_PVMG`, the type of a scalar with magic, whatever its value is. -/
def SVt_PVMG : ℕ := 7

/-- The type that a scalar is marshalled as which is no array: the pointers before it lead there
with the scalar itself. SOURCE: marshal.cxx:345-371 -/
def pointeeOf : TypeObj → TypeObj
  | .pointer _ subtype => pointeeOf subtype
  | t => t

/-- An error of `sv2ptr` about a scalar with magic: where it prints `SvTYPE` of the scalar, not of
an element, that is the type of the scalar and not the one of a fresh scalar of its value. -/
def ofMagical (type : TypeObj) (sv : SV) : Halt → Halt
  | .croak m =>
    match pointeeOf type, sv.elems with
    | .scalar _ s, none =>
      .croak (if m = dataTypeMismatch s sv then mismatchFor s SVt_PVMG else m)
    | _, _ => .croak m
  | e => e

/-- `set_pin`, with the value the scalar has been given. SOURCE: pin.cxx:18-26 -/
def set_pin (type_sv : TypeObj) (ptr : ℕ) (sv : SV) : Eff Unit :=
  if sv.SvOK then do
    let block ← (sv2ptr type_sv sv 0).mapError (ofMagical type_sv sv)
    let bs ← loadAt block type_sv.sizeof
    store ptr bs
    safefree block
  else pure ()

/-- A Perl variable and the memory: the value under the magic, and the type and the address
in the `var_ptr` of the magic, if there is any. SOURCE: pin.cxx:6-9 -/
structure PinState where
  heap : Heap
  value : SV
  pin : Option (TypeObj × ℕ)

/-- What happens to a variable: an assignment of a value, whose own magic has run; a read;
`unpin`; and C code, which leaves a heap of its choice. -/
inductive PinOp where
  | assign (sv : SV)
  | read
  | unpin
  | code (heap : Heap)

/-- What an operation shows the Perl program. -/
inductive Effect where
  | done
  | value (sv : SV)
  | raised (message : Text)
  | answer (yes : Bool)

/-- `sv_setsv`: a copy of a constant is no constant. -/
def sv_setsv : SV → SV
  | .undef _ => .undef false
  | sv => sv

namespace PinState

/-- `_pin`. SOURCE: pin.cxx:47-57 -/
def pinned (heap : Heap) (value : SV) (type : TypeObj) (ptr : ℕ) : PinState :=
  ⟨heap, value, some (type, ptr)⟩

/-- An assignment, with its set magic. Where `set_pin` raises an error the scalar has its
new value; for a scalar type that comes before anything is allocated or written. -/
def assign (st : PinState) (sv : SV) : Except Halt (Effect × PinState) :=
  match st.pin with
  | none => .ok (.done, { st with value := sv_setsv sv })
  | some (type, ptr) =>
    match set_pin type ptr (sv_setsv sv) st.heap with
    | .ok (_, heap) => .ok (.done, { st with heap := heap, value := sv_setsv sv })
    | .error (.croak m) => .ok (.raised m, { st with value := sv_setsv sv })
    | .error e => .error e

/-- A read, with its get magic. -/
def read (st : PinState) : Except Halt (Effect × PinState) :=
  match st.pin with
  | none => .ok (.value st.value, st)
  | some (type, ptr) =>
    match get_pin type ptr st.heap with
    | .ok (v, heap) => .ok (.value v, { st with heap := heap, value := v })
    | .error (.croak m) => .ok (.raised m, st)
    | .error e => .error e

/-- `Affix_unpin`. SOURCE: pin.cxx:107-114 -/
def unpin (st : PinState) : Effect × PinState := (.answer st.pin.isSome, { st with pin := none })

def step (st : PinState) : PinOp → Except Halt (Effect × PinState)
  | .assign sv => st.assign sv
  | .read => st.read
  | .unpin => .ok st.unpin
  | .code heap => .ok (.done, { st with heap := heap })

end PinState

/-! ## The elements of a union

The hash made of a union has a pinned scalar for each member, and its elements are
read and assigned one at a time. -/

/-- A read of the element of a key, or an assignment to it. -/
inductive ElementOp where
  | read (key : Text)
  | assign (key : Text) (sv : SV)

def ElementOp.key : ElementOp → Text
  | .read key | .assign key _ => key

/-- The magic of the element does it. What value the scalar had before, the magic never looks
at; a scalar without it touches no C variable. SOURCE: marshal.cxx:715-734, pin.cxx:47-57 -/
def ElementOp.perform (entries : List (Text × SV)) (op : ElementOp) (h : Heap) :
    Except Halt (Effect × Heap) :=
  match entries.lookup op.key with
  | some (.pinned type ptr) =>
    let st := PinState.pinned h (.undef false) type ptr
    match op with
    | .read _ => st.read.map fun r => (r.1, r.2.heap)
    | .assign _ sv => (st.assign sv).map fun r => (r.1, r.2.heap)
  | _ => .ok (.done, h)

end Affix.Model
