import Affix.Interface.CTypes
import Affix.Interface.Record
import Affix.Model.Callback

/-!
# Three ways a scalar becomes a C value

A Perl scalar is passed as an argument, stored in a field of a struct, or returned
by a callback. Each way is code of its own. What counts is the C value the other
side reads: the low bytes of the word that was pushed, the bytes of the field,
the member of the result.
-/

set_option autoImplicit false

namespace Affix.Interface

open Affix.Foundation Affix.Model

/-- What becomes of a scalar: a C value, an exception, or memory that must not be touched. -/
inductive Outcome where
  | value (n : ℤ)
  | rejected
  | broken
deriving DecidableEq

def Outcome.ofResult {α : Type} (read : α → Outcome) : Except Halt α → Outcome
  | .ok a => read a
  | .error (.croak _) => .rejected
  | .error _ => .broken

/-- The C type the other side reads a value at. A `bool` is one byte. -/
def cType (k : Kind) : CIntType := (cInt k).getD cuchar

/-- Passing the scalar as an argument. -/
def passed (k : Kind) (v : SV) (h : Heap) : Outcome :=
  .ofResult (fun r =>
    match r.1 with
    | some (.int w) => .value ((cType k).wrap w)
    | _ => .broken) (argument (scalarType k) v h)

/-- Returning the scalar from a callback. -/
def returnedBack (k : Kind) (v : SV) (h : Heap) : Outcome :=
  .ofResult (fun r =>
    match r.1.2 with
    | .int _ n => .value ((cType k).wrap n)
    | _ => .broken) (cbReturn (scalarType k) v h)

/-- A field of a struct that is about to be written: the struct is at `base`, its hash has the
value under the name of the field, and the bytes of the field are there and are zero, as
`Newxz` leaves them. -/
structure FieldSlot (k : Kind) (v : SV) (h : Heap) where
  base : ℕ
  offset : ℕ
  name : PerlStr
  entries : List (Text × SV)
  found : hvFetch entries name = some v
  inBlock : h.mem.InBlock (base + offset) k.sizeof
  zeroed : h.mem.peek (base + offset) k.sizeof = List.replicate k.sizeof 0

/-- Storing the scalar in the field. -/
def stored {k : Kind} {v : SV} {h : Heap} (f : FieldSlot k v h) : Outcome :=
  .ofResult (fun r => .value ((cType k).decode (r.2.mem.peek (f.base + f.offset) k.sizeof)))
    (sv2ptrFields f.entries f.base [(scalarType k).withMember f.offset f.name] h)

/-- The three ways give the same C value, or all turn the scalar down. -/
def PathsAgree {k : Kind} {v : SV} {h : Heap} (f : FieldSlot k v h) : Prop :=
  stored f ≠ .broken ∧ passed k v h = stored f ∧ returnedBack k v h = stored f

/-- **The scalars the three ways agree on.** Truth values always. Numbers when the scalar
carries an integer. Characters when the string of the scalar fits from the field to the end
of its block, and its first byte is the number the scalar carries or, if it carries none,
the first byte of its characters, which are all of one byte. -/
def Agreeable {k : Kind} {s : Scalar} {h : Heap} (f : FieldSlot k (.val s) h) : Prop :=
  match reading k with
  | some .truth => True
  | some (.number _) => s.iv.isSome = true
  | some .character =>
    ((SvPV (.val s)).bytes = [] ∨
      h.mem.InBlock (f.base + f.offset) (SvPV (.val s)).bytes.length) ∧
    match s.iv with
    | some n => (cType k).wrap n = (cType k).wrap (firstByte (SvPV (.val s)).bytes).toNat
    | none => (SvPV (.val s)).pvbyte.map firstByte = some (firstByte (SvPV (.val s)).bytes)
  | none => False

end Affix.Interface
