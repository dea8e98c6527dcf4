import Affix.Model.TypeObject

/-!
# Offsets by path

`offsetof` takes the first component of a dotted path, looks for a member of that
name, and hands the rest of the path to a member that is an aggregate of its own
class. The method of `Struct` knows structs and the method of `Union` unions; the
two are the same code but for that.

SOURCE: Struct.pm:74-90, Union.pm:64-80
-/

set_option autoImplicit false

namespace Affix.Model

def dot : ℕ := 46

/-- `split '\.', $path, 2`: the first component, and what is after the dot if there is one. -/
def splitDot (path : Text) : Text × Option Text :=
  (path.takeWhile (· ≠ dot),
    match path.dropWhile (· ≠ dot) with
    | [] => none
    | _ :: tail => some tail)

namespace TypeObj

/-- `isa('Affix::Type::Struct')`. -/
def isStruct : TypeObj → Bool
  | struct .. => true
  | _ => false

/-- `isa('Affix::Type::Union')`. -/
def isUnion : TypeObj → Bool
  | union .. => true
  | _ => false

/-- The field slot as `eq` reads it. -/
def fieldName (t : TypeObj) : Text := (t.field.map PerlStr.chars).getD []

end TypeObj

mutual

/-- `$s->offsetof($path)`: a number or the empty list. -/
def offsetof : TypeObj → Text → Option ℕ
  | .struct s store, path =>
    offsetofMember TypeObj.isStruct (s.offset.getD 0) (splitDot path).1
      ((splitDot path).2.getD []) store
  | .union s store, path =>
    offsetofMember TypeObj.isUnion (s.offset.getD 0) (splitDot path).1
      ((splitDot path).2.getD []) store
  | _, _ => none

/-- The loop over the members and what is done with the one it finds. An undefined tail has
no length either. -/
def offsetofMember (isa : TypeObj → Bool) (own : ℕ) (field tail : Text) :
    List TypeObj → Option ℕ
  | [] => none
  | element :: rest =>
    if element.fieldName = field then
      if tail ≠ [] ∧ isa element then offsetof element tail
      else some (element.offset + own)
    else offsetofMember isa own field tail rest

end

/-- The loop finds the first member of the name. -/
theorem offsetofMember_eq (isa : TypeObj → Bool) (own : ℕ) (field tail : Text)
    (store : List TypeObj) :
    offsetofMember isa own field tail store =
      match store.find? (·.fieldName = field) with
      | none => none
      | some now =>
        if tail ≠ [] ∧ isa now then offsetof now tail else some (now.offset + own) := by
  induction store with
  | nil => rfl
  | cons element rest ih =>
    by_cases h : element.fieldName = field
    · simp [offsetofMember, h]
    · simp [offsetofMember, h, ih]

end Affix.Model
