import Affix.Model.CallTree

/-!
# What a shared machine should hand over

The C function of a call should get the arguments of its own call: the machine was told
these and nothing else since it was reset, and it has kept all of them. It has if a
machine with any more room would hand over the same.

An argument is kept if there are registers for it, or if what it appends to the buffer
fits behind what is there. Whatever calls before have left in the registers and behind
the end of the buffer is of no importance.
-/

set_option autoImplicit false

namespace Affix.Interface

open Affix.Foundation Affix.Model DCCallVM_x64

/-! ## What is handed over -/

/-- What the kernels are given: where the address of a result goes, the registers in use, and the
bytes for the stack. -/
structure Handed where
  returnReg : ℤ
  ints : List ℤ
  floats : List ℕ
  stack : List UInt8

def handed (vm : DCCallVM_x64) : Handed where
  returnReg := vm.mAggrReturnReg
  ints := (List.range vm.mRegCount.i).map vm.mRegData.i
  floats := (List.range vm.mRegCount.f).map vm.mRegData.f
  stack := (List.range vm.mVecHead.mSize).map vm.mVecHead.data

/-- The machine with a buffer of another size. -/
def withRoom (n : ℕ) (vm : DCCallVM_x64) : DCCallVM_x64 :=
  { vm with mVecHead := { vm.mVecHead with mTotal := n } }

/-- **The C function of a call gets its own arguments**: the machine was told these, and hands
over what it would with any more room. -/
structure Faithful (room : ℕ) (cc : CCall) : Prop where
  told : cc.received = cc.own
  kept : ∀ (upper : ℕ) (vm : DCCallVM_x64), vm.mVecHead.mTotal = room → ∀ n, room ≤ n →
    handed (cc.received.tell upper vm) = handed (cc.own.tell upper (withRoom n vm))

/-! ## Room -/

/-- The bytes that an argument appends to the buffer. -/
def appended (vm : DCCallVM_x64) : DCArg → ℕ
  | .int _ => if skipReturnReg vm.mRegCount.i vm.mAggrReturnReg < numIntRegs then 0 else 8
  | .float _ | .double _ => if vm.mRegCount.f < numFloatRegs then 0 else 8
  | .aggr ag _ => if onStack vm.mRegCount (dcCloseAggr ag) then ag.size else 0

/-- There is room for the argument. -/
def HasRoom (vm : DCCallVM_x64) (a : DCArg) : Prop :=
  appended vm a = 0 ∨ vm.mVecHead.mSize + appended vm a ≤ vm.mVecHead.mTotal

instance (vm : DCCallVM_x64) (a : DCArg) : Decidable (HasRoom vm a) :=
  inferInstanceAs (Decidable (_ ∨ _))

/-- There is room for each of the arguments, after those before it. -/
def AllHaveRoom (upper : ℕ) : List DCArg → DCCallVM_x64 → Prop
  | [], _ => True
  | a :: as, vm => HasRoom vm a ∧ AllHaveRoom upper as (a.put upper vm)

/-- A machine of that size has room for a call. -/
def MachineFits (room : ℕ) (told : DCCallVM) : Prop :=
  ∀ (upper : ℕ) (vm : DCCallVM_x64), vm.mVecHead.mTotal = room →
    AllHaveRoom upper told.args (told.begin vm)

end Affix.Interface
