import Affix.Interface.Binding
import Affix.Interface.CTypes
import Affix.Interface.FieldImage

/-!
# The elements of the hash of a union

Each member of a union is read and assigned through an element of a hash of its
own, and all of them stand for the bytes of the union. A read should give what a
field of a struct would be decoded to there, from the bytes as they are now. An
assignment should leave the encoding of the value at the start of the union, and
every byte that is not the member's alone.
-/

set_option autoImplicit false

namespace Affix.Interface

open Affix.Foundation Affix.Model

/-- The members: integers, characters and strings. -/
def UnionMember : TypeObj → Prop
  | .scalar k s => (cInt k).isSome = true ∧ s.sizeof = k.sizeof
  | .pointer s (.scalar .Char _) => s.sizeof = SIZEOF_INTPTR_T
  | _ => False

/-- The values a member of the type can be given: a number that is an integer, a character
or its number, a string or none. -/
def Encodes : TypeObj → SV → Prop
  | .scalar k _, v => if Character k then v.SvOK = true ∧ v.elems = none else v.SvIOK = true
  | _, v => v.elems = none

/-- The bytes at an address are the encoding of the value: for a string, the address of a
copy of it. -/
def Encoded (m : Mem) (field : TypeObj) (p : ℕ) (v : SV) : Prop :=
  match field with
  | .scalar k _ => m.peek p k.sizeof = encoding k v
  | _ => ∃ q, m.peek p SIZEOF_INTPTR_T = pointerBytes q ∧
      if v.SvOK then m.InBlock q ((SvPV v).bytes.length + 1) ∧
        m.peek q ((SvPV v).bytes.length + 1) = (SvPV v).bytes ++ [0]
      else q = 0

/-- What a field of a struct at the address is decoded to. -/
def decoded (field : TypeObj) (p : ℕ) (h : Heap) : Except Halt (Effect × Heap) :=
  (ptr2svField (fun a => ptr2sv field a) field p h).map fun r => (.value r.1, r.2)

/-- **What an assignment to a member does**: it stores the encoding of the value, unless there
is no memory for the block it goes through, and writes nothing but the member. -/
structure Stores (field : TypeObj) (p : ℕ) (h : Heap) (v : SV)
    (outcome : Except Halt (Effect × Heap)) : Prop where
  noFault : outcome ≠ .error .fault
  value : Encodes field v → (∃ n, h.mem.Exhausted n) ∧ outcome = .error .outOfMemory ∨
    ∃ h', outcome = .ok (.done, h') ∧ Encoded h'.mem field p v
  frame : ∀ effect h', outcome = .ok (effect, h') → OnlyWrites p field.sizeof h h'

/-- **What each access does** with the element of a member. -/
def ElementBehaves (field : TypeObj) (p : ℕ) (h : Heap) (op : ElementOp)
    (outcome : Except Halt (Effect × Heap)) : Prop :=
  match op with
  | .read _ => outcome = decoded field p h
  | .assign _ v => Stores field p h v outcome

/-- **When an access does so.** A character is read up to a zero, so one must follow it, and
it must not be zero itself. A string is read at the address the union held when the hash was
made, and an assignment to it is stored there. A number assigned to a character arrives as
its first digit. -/
def ElementHolds (field : TypeObj) (ptr p : ℕ) (h : Heap) (op : ElementOp) : Prop :=
  match field, op with
  | .scalar k _, .read _ => Character k → ∃ b, b ≠ 0 ∧ h.mem.InBlock p 2 ∧ h.mem.peek p 2 = [b, 0]
  | .scalar k _, .assign _ v =>
    Character k → v.SvOK = true → v.elems = none → [(SvPV v).bytes.headD 0] = encoding k v
  | _, .read _ => decodeLE (h.mem.peek p SIZEOF_INTPTR_T) = ptr
  | _, .assign _ v => v.SvOK = false ∧ h.mem.peek p SIZEOF_INTPTR_T = pointerBytes 0

/-! ## Runs of accesses -/

/-- An access that does not end the program. -/
def ElementStep (entries : List (Text × SV)) (h : Heap) (op : ElementOp) (h' : Heap) : Prop :=
  ∃ effect, op.perform entries h = .ok (effect, h')

/-- An access meets the condition of the element it is to. -/
def MemberHolds (entries : List (Text × SV)) (p : ℕ) (h : Heap) (op : ElementOp) : Prop :=
  ∀ field ptr, entries.lookup op.key = some (.pinned field ptr) → ElementHolds field ptr p h op

/-- An access does what it should with the element it is to. -/
def MemberBehaves (entries : List (Text × SV)) (p : ℕ) (h : Heap) (op : ElementOp) : Prop :=
  ∀ field ptr, entries.lookup op.key = some (.pinned field ptr) →
    ElementBehaves field p h op (op.perform entries h)

end Affix.Interface
