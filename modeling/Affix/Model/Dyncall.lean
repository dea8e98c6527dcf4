import Affix.Foundation.CInt
import Affix.Model.Aggregate

/-!
# The call machine

dyncall is told the arguments of a call one at a time, after a `dcReset` that empties
the machine; a call hands over what the machine has kept. Whatever its C type, an integer
or a pointer reaches the machine as one sign-extended 64-bit word.

Here the machine is what it was told since it was reset. Where it keeps that, and what
it drops when its buffer is full, is a matter of the platform.

The results come back in registers; each `dcCall*` reads the one it is declared
for.

SOURCE: dyncall_callvm_x64.c:66-262, dyncall_types.h:48-62
-/

set_option autoImplicit false

namespace Affix.Model

open Affix.Foundation

inductive DCArg where
  | int (v : ℤ)
  | float (bits : ℕ)
  | double (bits : ℕ)
  | aggr (ag : DCaggr) (bytes : List UInt8)

/-! The `dcArg*` functions, less the places they put it in. SOURCE: dyncall_callvm_x64.c:80-162 -/

def dcArgBool (b : Bool) : DCArg := .int (if b then 1 else 0)
def dcArgChar (v : ℤ) : DCArg := .int (cchar.wrap v)
def dcArgShort (v : ℤ) : DCArg := .int (cshort.wrap v)
def dcArgInt (v : ℤ) : DCArg := .int (cint.wrap v)
def dcArgLong (v : ℤ) : DCArg := .int (clong.wrap v)
def dcArgLongLong (v : ℤ) : DCArg := .int (clonglong.wrap v)
def dcArgPointer (p : ℕ) : DCArg := .int (clonglong.wrap p)
def dcArgFloat (bits : ℕ) : DCArg := .float bits
def dcArgDouble (bits : ℕ) : DCArg := .double bits

/-- What the machine was told since it was reset: whether to keep a place for the address of an
aggregate result, and the arguments. SOURCE: dyncall_callvm_x64.h:98-109 -/
structure DCCallVM where
  aggrReturn : Bool
  args : List DCArg

namespace DCCallVM

/-- `dcReset`. SOURCE: dyncall_callvm_x64.c:66-75 -/
def dcReset (_ : DCCallVM) : DCCallVM := ⟨false, []⟩

/-- `dcBeginCallAggr`. `inMemory` is the class `dcCloseAggr` gave the descriptor.
SOURCE: dyncall_callvm_x64.c:249-262 -/
def dcBeginCallAggr (inMemory : DCaggr → Bool) (ag : DCaggr) (vm : DCCallVM) : DCCallVM :=
  if inMemory ag then { vm with aggrReturn := true } else vm

def dcArg (a : DCArg) (vm : DCCallVM) : DCCallVM := { vm with args := vm.args ++ [a] }

end DCCallVM

/-- What a C function leaves behind: an integer register, a floating register under either
reading, and the bytes of an aggregate. -/
structure Returned where
  int : ℤ
  float : ℕ
  double : ℕ
  aggr : List UInt8

namespace Returned

/-! The `dcCall*` functions on what the call left. SOURCE: dyncall_types.h:48-62 -/

def dcCallBool (r : Returned) : ℤ := cint.wrap r.int
def dcCallChar (r : Returned) : ℤ := cchar.wrap r.int
def dcCallShort (r : Returned) : ℤ := cshort.wrap r.int
def dcCallInt (r : Returned) : ℤ := cint.wrap r.int
def dcCallLong (r : Returned) : ℤ := clong.wrap r.int
def dcCallLongLong (r : Returned) : ℤ := clonglong.wrap r.int
def dcCallPointer (r : Returned) : ℕ := (culong.wrap r.int).toNat

end Returned

end Affix.Model
