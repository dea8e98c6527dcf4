import Affix.Model.Library

/-!
# Two callables for one function

A C function is reached from Perl through a wrapper that `affix` or `wrap` makes,
or through the callable that `ptr2sv` makes of a function pointer. They are the
same to their caller when every call of them comes to the same end: the scalar
handed back holds the same value and the memory is the same, or both stop for the
same reason. A message about a callable carries its name, and the second has none
of its own.
-/

set_option autoImplicit false

namespace Affix.Interface

open Affix.Foundation Affix.Model

/-- What a call shows its caller: the value in the scalar it is handed, and the memory. -/
def shown (outcome : Except Halt (Option ℕ × Interp)) : Except Halt (Option SV × Heap) :=
  outcome.map fun r => (r.1.bind fun c => r.2.cells[c]?, r.2.heap)

/-- The same end, but for the name of the callable in a message. -/
inductive SameEnd {α : Type} (name name' : Text) : Except Halt α → Except Halt α → Prop
  | same (outcome : Except Halt α) : SameEnd name name' outcome outcome
  | named (before after : Text) : SameEnd name name' (.error (.croak (before ++ name ++ after)))
      (.error (.croak (before ++ name' ++ after)))

/-- The result cell of a callable as it was made, or as a call left it: a branch that
overwrites it finds it, and nothing writes to that of a `Void` callable. -/
def OwnCell (r : TypeObj) (st : Interp) : Prop :=
  replacesCell r = true ∨
    ∃ c, st.res = some c ∧ c < st.cells.length ∧
      (r.flag = .void → st.cells[c]? = some (.undef false))

/-- The interpreter once `ptr2sv` has made a callable. SOURCE: marshal.cxx:644 -/
def received (heap : Heap) (cells : List SV) : Interp where
  heap := heap
  vm := ⟨false, []⟩
  cells := cells ++ [.undef false]
  res := some cells.length

/-- Some values can be passed for parameters of these types. -/
def Passable (ts : List TypeObj) : Prop :=
  ∃ items st st', items.length = ts.length ∧ pushArguments ts items st = .ok ((), st')

/-- **The two callables behave alike**: whatever C code is at each address, the same
arguments in the same memory bring the same end. -/
def BehaveAlike (inMemory : DCaggr → Bool) (r : TypeObj) (f g : Fiction) : Prop :=
  ∀ (code : ℕ → Callee) (items : List SV) (st st' : Interp), OwnCell r st → OwnCell r st' →
    st.heap = st'.heap →
    SameEnd (f.symbol.map UInt8.toNat) (g.symbol.map UInt8.toNat)
      (shown (Fiction_trigger inMemory f (code f.entryPoint) items st))
      (shown (Fiction_trigger inMemory g (code g.entryPoint) items st'))

end Affix.Interface
