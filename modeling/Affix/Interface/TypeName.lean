import Affix.Model.Typedef

/-!
# Names for types

Programs build types and name them, over and over; a name may be one the type has
had before, or the name of any class. A name is good for a type when the sub of that
name hands the type back, nothing has changed but what it is called, and it is still
an instance of every class it was an instance of.
-/

set_option autoImplicit false

namespace Affix.Interface

open Affix.Foundation Affix.Model

/-- What the constructors build. -/
inductive Built : Blessed → Prop where
  | type (t : TypeObj) : Built (.ofType t)
  | enum (t : EnumType) : Built (.ofEnum t)
  | stdString : Built .stdString

/-- The programs that have built and named types. -/
inductive Reachable : World → Prop where
  | loaded : Reachable ⟨loadedISA, loadedSubs, []⟩
  | build {w : World} (h : Reachable w) {o : Blessed} (ho : Built o) :
    Reachable { w with objects := w.objects ++ [o] }
  | typedef {w w' : World} (h : Reachable w) {caller name : List String} {id : ℕ}
    (hw' : typedef w caller name id = .ok w') : Reachable w'

/-- Only what a type is called has changed. -/
structure SameType (o o' : Blessed) : Prop where
  numeric : o'.numeric = o.numeric
  sizeof : o'.sizeof = o.sizeof
  alignment : o'.alignment = o.alignment
  subtype : o'.subtype = o.subtype
  arraylen : o'.arraylen = o.arraylen
  const : o'.const = o.const

/-- The name is good for the type. -/
structure Names (w w' : World) (fqn : List String) (id : ℕ) : Prop where
  handsBack : w'.call fqn = some (.accessor id)
  unchanged : ∃ o o', w.objects[id]? = some o ∧ w'.objects[id]? = some o' ∧ SameType o o' ∧
    ∀ c, w.derives o.package c = true → w'.derives o'.package c = true

/-! ## When a name is good -/

/-- The program with the object blessed into its new class, before the method is called. -/
def reblessed (w : World) (fqn name : List String) (id : ℕ) (o : Blessed) : World where
  isa := (stash fqn, [o.package]) :: w.isa
  subs := (codeName fqn, .accessor id) :: w.subs
  objects := w.objects.set id (o.named (stash fqn) name)

/-- The sub that runs as the type's method `typedef` neither is the function itself nor stumbles
over what is in the slot of the subtype, nor puts an enumerator where the name is. -/
def Behaved (o : Blessed) (fqn : List String) : NamedSub → Prop
  | .ofStruct | .ofUnion | .accessor _ | .constant _ => True
  | .ofEnum => ∃ entries, o.subtype = .enum (.hash entries) ∧
      ∀ entry ∈ entries, codeName (fqn ++ [String.ofList entry.1]) ≠ codeName fqn
  | .ofType => False

/-- The new class neither inherits from itself nor sits, or puts another, too deep; and the first
sub `typedef` on the way up from it does no harm. -/
def Nameable (w : World) (fqn name : List String) (id : ℕ) (o : Blessed) : Prop :=
  wellFounded ((stash fqn, [o.package]) :: w.isa) = true ∧
    ∃ method, (reblessed w fqn name id o).can (stash fqn) "typedef" = some method ∧
      Behaved o fqn method

end Affix.Interface
