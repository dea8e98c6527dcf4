import Affix.Model.Callback

/-!
# The argument stack of Perl

Perl passes arguments and results on a stack of its own. `PL_stack_sp` is global and
points to the top slot; XS code moves a copy of it, `SP`, and stores the copy back
where it says so. `cbHandlerXXXXX` is given here once more, with each macro it moves
the stack by; what the macros do to the heap is `cbArgument` and `cbReturn`.

SOURCE: Callback.cxx:18-231
-/

set_option autoImplicit false

namespace Affix.Model

open Affix.Foundation

/-- The slots from `PL_stack_base` up, the number of the top one, and the marks. -/
structure ArgStack where
  slots : ℕ → SV
  PL_stack_sp : ℕ
  marks : List ℕ

/-- What C++ code finds that Perl calls, or that calls Perl. -/
structure Perl where
  heap : Heap
  stack : ArgStack

abbrev PerlRun := Exec Perl Halt

namespace ArgStack

def setSlot (s : ArgStack) (i : ℕ) (sv : SV) : ArgStack :=
  { s with slots := Function.update s.slots i sv }

/-- The values above a mark, the lowest first. -/
def above (s : ArgStack) (mark : ℕ) : List SV :=
  (List.range (s.PL_stack_sp - mark)).map fun i => s.slots (mark + 1 + i)

end ArgStack

namespace PerlRun

/-- Code that leaves the stack alone. -/
def marshal {α : Type} (x : Eff α) : PerlRun α := fun st =>
  match x st.heap with
  | .ok (a, h) => .ok (a, { st with heap := h })
  | .error e => .error e

/-! ## The macros -/

/-- `dSP` and `SPAGAIN`: the global pointer is copied. -/
def SPAGAIN : PerlRun ℕ := fun st => .ok (st.stack.PL_stack_sp, st)

def PUSHMARK (sp : ℕ) : PerlRun Unit := fun st =>
  .ok ((), { st with stack := { st.stack with marks := sp :: st.stack.marks } })

/-- `PUSHs` and `mPUSHs` move the copy. -/
def PUSHs (sv : SV) (sp : ℕ) : PerlRun ℕ := fun st =>
  .ok (sp + 1, { st with stack := st.stack.setSlot (sp + 1) sv })

/-- `PUTBACK`: the copy becomes the global pointer. -/
def PUTBACK (sp : ℕ) : PerlRun Unit := fun st =>
  .ok ((), { st with stack := { st.stack with PL_stack_sp := sp } })

/-- `POPs` moves the copy. -/
def POPs (sp : ℕ) : PerlRun (SV × ℕ) := fun st => .ok ((st.stack.slots sp, sp - 1), st)

/-- `call_sv`: the sub gets what is above the last mark, and its value replaces that. With
`G_DISCARD` the value goes too. -/
def call_sv (sub : Sub) (G_DISCARD : Bool) : PerlRun Unit := fun st =>
  match st.stack.marks with
  | [] => .error .fault
  | mark :: marks =>
    match sub (st.stack.above mark) st.heap with
    | .error e => .error e
    | .ok (sv, h) =>
      let stack := st.stack.setSlot (mark + 1) sv
      .ok ((), ⟨h, { stack with PL_stack_sp := if G_DISCARD then mark else mark + 1, marks }⟩)

end PerlRun

open PerlRun

/-- The loop over the signature, with the copy it starts from. SOURCE: Callback.cxx:25-113 -/
def pushCbArguments : List Flag → List (Option TypeObj) → List DCbArg → (sp : ℕ) → PerlRun ℕ
  | [], _, _, sp => pure sp
  | .void :: sig, types, args, sp => pushCbArguments sig types.tail args sp
  | c :: sig, types, a :: args, sp => do
    let sv ← marshal (cbArgument c types.head?.join a)
    let sp ← PUSHs sv sp
    pushCbArguments sig types.tail args sp
  | _ :: _, _, [], _ => Exec.fail .fault

/-- The call of the sub and the result switch. After `SPAGAIN` the copy is moved by `POPs` and
not stored any more. SOURCE: Callback.cxx:120-228 -/
def callCbSub (cb : Callback) (sub : Sub) : PerlRun (DCsigchar × Option DCValue) :=
  if cb.restype.flag = .void then do
    call_sv sub true
    pure (.void, none)
  else do
    call_sv sub false
    let sp ← SPAGAIN
    let (sv, _) ← POPs sp
    let (ret, result) ← marshal (cbReturn cb.restype sv)
    pure (ret, some result)

/-- `cbHandlerXXXXX`. SOURCE: Callback.cxx:3-231 -/
def runCbHandler (cb : Callback) (sub : Sub) (args : List DCbArg) :
    PerlRun (DCsigchar × Option DCValue) := do
  let sp ← SPAGAIN
  PUSHMARK sp
  let sp ← pushCbArguments cb.signature ((cb.argtypes.getD []).map some) args sp
  PUTBACK sp
  callCbSub cb sub

end Affix.Model
