import Mathlib.Algebra.BigOperators.Group.List.Basic
import Mathlib.Algebra.GroupWithZero.Nat
import Affix.Interface.Nested
import Affix.Model.Offsetof

/-!
# Fields by name

A dotted path names a member, a member of that member, and so on. Its offset is
the sum of the offsets of the members it names; a path some component of which
names nothing has none.
-/

set_option autoImplicit false

namespace Affix.Interface

open Affix.Foundation Affix.Model

def components (path : Text) : List Text := path.splitOn dot

def memberNamed (t : TypeObj) (name : Text) : Option TypeObj :=
  (members t).find? (·.fieldName = name)

/-- The members the components name, one after another, as far as they name any. -/
def along : TypeObj → List Text → List TypeObj
  | _, [] => []
  | t, c :: cs =>
    match memberNamed t c with
    | none => []
    | some m => m :: along m cs

/-- Each component names a member of the aggregate reached so far. -/
def Resolves (t : TypeObj) (cs : List Text) : Prop := (along t cs).length = cs.length

instance (t : TypeObj) (cs : List Text) : Decidable (Resolves t cs) :=
  inferInstanceAs (Decidable (_ = _))

/-- The offset of a path in an aggregate. -/
def pathOffset (t : TypeObj) (cs : List Text) : Option ℕ :=
  if Resolves t cs then some ((along t cs).map TypeObj.offset).sum else none

/-- The member is an aggregate of the class of the object. -/
def sameClass : TypeObj → TypeObj → Bool
  | .struct .., m => m.isStruct
  | .union .., m => m.isUnion
  | _, _ => false

/-- The components that are looked at: not an empty one after a dot that ends the path. -/
def looked (cs : List Text) : List Text :=
  if 1 < cs.length ∧ cs.getLast? = some [] then cs.dropLast else cs

/-- How many of the members on the way are got to: those up to the first that is no
aggregate of the class of the object. -/
def reached (t : TypeObj) (ms : List TypeObj) : ℕ :=
  min ((ms.takeWhile (sameClass t)).length + 1) ms.length

/-- **The paths whose offset is right.** Either a component that is looked at names nothing
and every member before it is an aggregate of the class of the object. Or the path resolves,
and the members on the way, but for the last one that is got to and the one before it, add
up to nothing; where the first is the last one got to, the others add up to the object's own
offset, which an object that is no member does not have. -/
def PathAgrees (t : TypeObj) (cs : List Text) : Prop :=
  (¬ Resolves t (looked cs) ∧ ∀ m ∈ along t (looked cs), sameClass t m = true) ∨
    Resolves t cs ∧
      (((along t cs).take (reached t (along t (looked cs)) - 2)).map TypeObj.offset).sum +
        (((along t cs).drop (reached t (along t (looked cs)))).map TypeObj.offset).sum =
      if reached t (along t (looked cs)) = 1 then t.offset else 0

end Affix.Interface
