import Affix.Foundation.Growth
import Affix.Interface.CTypes
import Affix.Interface.FieldImage

/-!
# Reading back what was made for an array

`sv2ptr` sizes a block by the elements of the Perl array, and makes one for no elements
too. `ptr2sv` is not told how many there were: it goes by the length in the type, by a
`NULL` among pointers or by a zero among characters. The array is read back safely when
that stops it inside the blocks that were made.

A value is followed through its type. A pointer to pointers is an array of copies,
each of which is read back in its turn; a pointer to anything else is a copy of the
thing, and of a struct the strings it holds are read back too.
-/

set_option autoImplicit false

namespace Affix.Interface

open Affix.Foundation Affix.Model

/-! ## The property -/

/-- The heap with only the blocks that were made since. -/
def onlyNew (h h' : Heap) : Heap := { h' with mem := h'.mem.above h.mem.brk }

/-- **The decoding reads only bytes of the blocks that were made**: with no other block live it
does not fault. -/
def ReadsWithin (t : TypeObj) (q : ℕ) (h h' : Heap) : Prop :=
  ptr2sv t q (onlyNew h h') ≠ .error .fault

/-! ## What is `NULL` -/

/-- The value is a pointer object that holds no address, or `NULL`. -/
def NullObject (v : SV) : Prop :=
  HasAddress (fun ptr => ptr.SvOK = true → addressOf ptr = .ok 0) v

/-- What an array of pointers is made of: the elements of an array, or the one value. -/
def pointees (v : SV) : List SV := v.elems.getD [v]

/-- There is nothing to copy, so the address of the copy is `NULL`. A truth value is made of
anything, a callback or a word in its place always, and every Perl value has an address. -/
def NullCopy : TypeObj → SV → Prop
  | .scalar k _, v => ExplicitUndef v ∨
      match k with
      | .Bool | .SV => False
      | .Void => v.SvOK = false ∨ NullObject v
      | _ => v.SvOK = false
  | .pointer _ subtype, v => ExplicitUndef v ∨
      if subtype.isPointer then v.SvOK = false
      else NullObject v ∨ asPointerObject v = none ∧ NullCopy subtype v
  | .codeRef .., v => ExplicitUndef v
  | .struct .., v | .union .., v => v.entries = none

/-! ## What is read back safely -/

/-- The types of which `ptr2sv` reads one string however long the array. -/
def isCharacter : TypeObj → Bool
  | .scalar k _ => Character k
  | _ => false

/-- The type is decoded without a look at what is at the address. -/
def ReadsNothing : TypeObj → Prop
  | .scalar k _ => k = .Void
  | .pointer .. => False
  | .codeRef _ args _ _ => args.isSome = true
  | .struct _ fields => allReadNothing fields
  | .union _ fields => ∀ m ∈ fields, m.isPointer = false
where
  allReadNothing : List TypeObj → Prop
    | [] => True
    | field :: rest => ReadsNothing field ∧ allReadNothing rest

/-- `n` elements of the type are read from a copy that has as many; that of an empty array has
one. Of an aggregate there is only one. -/
def Enough (n : ℕ) (t : TypeObj) (v : SV) : Prop :=
  ReadsNothing t ∨ n = 0 ∨
    match t with
    | .scalar k _ => k = .SV ∨ n ≤ atLeastOne (pointees v).length
    | _ => False

/-- `n` elements of the type are decoded without a look at the address. Of the characters one
string is, whatever the number. -/
def Unread (n : ℕ) (t : TypeObj) : Prop :=
  ReadsNothing t ∨ n = 0 ∧ isCharacter t = false ∧ t.flag ≠ .wchar

/-- The type can be decoded as a member. A wide string goes on to the next zero, and a callback
has lost its argument types to its name. -/
def Decodable : TypeObj → Prop
  | .scalar k _ => k ≠ .WChar ∧ k ≠ .SV
  | .pointer .. | .union .. => True
  | .codeRef .. => False
  | .struct _ fields => allDecodable fields
where
  allDecodable : List TypeObj → Prop
    | [] => True
    | field :: rest => Decodable field ∧ allDecodable rest

/-- The string is copied, with its terminator, or it is `NULL`. -/
def StringSafe (v : SV) : Prop := NullObject v ∨ asPointerObject v = none

/-- The strings that a struct holds, at any depth. -/
def StringsSafe (es : List (Text × SV)) : List TypeObj → Prop
  | [] => True
  | field :: rest => (∀ w, fetched es field = some w → fieldSafe field w) ∧ StringsSafe es rest
where
  fieldSafe : TypeObj → SV → Prop
    | .pointer _ subtype, w => subtype.isChar = true → StringSafe w
    | .struct _ fields, w => ∀ es, w.entries = some es → StringsSafe es fields
    | _, _ => True

/-- **The copy of the value is read back within it.** An array of pointers is read up to the
first `NULL`, so it is empty or one of its elements has no copy, and those before it are read
back. -/
def CopySafe : TypeObj → SV → Prop
  | .scalar .., _ => True
  | .pointer s subtype, v => NullCopy (.pointer s subtype) v ∨
      if subtype.isPointer then
        pointees v = [] ∨ ∃ before e after, pointees v = before ++ e :: after ∧
          NullCopy subtype e ∧ ∀ e' ∈ before, CopySafe subtype e'
      else
        match asPointerObject v with
        | some _ => Unread s.arraylen subtype
        | none =>
          if s.arraylen = 1 ∨ isCharacter subtype = true then CopySafe subtype v
          else Enough s.arraylen subtype v
  | .codeRef _ args _ _, _ => args.isSome = true
  | .struct _ fields, v => ∀ es, v.entries = some es →
      Decodable.allDecodable fields ∧ StringsSafe es fields
  | .union .., _ => True

/-! ## Where that is all -/

/-- Pointers to pointers to numbers, characters or nothing in particular. -/
def Plain : TypeObj → Prop
  | .scalar k _ => k ≠ .SV
  | .pointer _ subtype => Plain subtype
  | _ => False

/-- The pointer objects that are taken for copies hold addresses below the break: memory there
was before. -/
def OldObjects (brk : ℕ) : TypeObj → SV → Prop
  | .pointer _ subtype, v =>
    if subtype.isPointer then ∀ e ∈ pointees v, OldObjects brk subtype e
    else ∀ q, HasAddress (fun ptr => ptr.SvOK = true ∧ addressOf ptr = .ok q) v → q < brk
  | _, _ => True

end Affix.Interface
