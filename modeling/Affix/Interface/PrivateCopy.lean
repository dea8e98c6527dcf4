import Affix.Model.SharedArguments

/-!
# A list of one's own

A wrapper should go on as it was made, whatever becomes of the array it was made
from: each of its calls should be the call of a wrapper that has the list of types
to itself.
-/

set_option autoImplicit false

namespace Affix.Interface

open Affix.Foundation Affix.Model

/-- Every call of the wrapper, whatever the C function, the values and the state of the
interpreter are, is the call of one that has its types to itself. -/
def CallsAs (misread : Misread) (arrays : List ArgArray) (w : SharedFiction) (f : Fiction) :
    Prop :=
  ∀ (inMemory : DCaggr → Bool) (callee : Callee) (items : List SV) (st : Interp),
    sharedTrigger misread inMemory arrays w callee items st =
      Fiction_trigger inMemory f callee items st

/-- The element is as good as the type for a signature that was made from the type: it has
what the branch of the type looks at. -/
def GoodFor : TypeObj → Option TypeObj → Prop
  | .scalar .SV s, elem | .union s _, elem => elem.map (·.slots.stringify) = some s.stringify
  | .scalar _ _, _ => True
  | .pointer _ subtype, elem => elem.bind TypeObj.subtypeSlot = some subtype
  | .codeRef s args sig ret, elem => elem = some (.codeRef s args sig ret)
  | .struct s store, elem => elem = some (.struct s store)

/-- **An operation that leaves a list usable**: if it changes the array, each type has an
element as good as itself in its place. -/
def LeavesUsable (a : ℕ) (ts : List TypeObj) (_ : ArgState) : ArgOp → Prop
  | .change b elems => b = a → ∀ i t, ts[i]? = some t → GoodFor t (ArgArray.fetch elems i)
  | _ => True

end Affix.Interface
