import Affix.Model.Classification
import Affix.Model.Trigger

/-!
# Calls within calls

Reading an argument can run Perl code: the argument is tied, or an object with
overloaded conversions. That code may call wrapped functions, and all wrappers
share one call machine. A call tree lists, for each argument of a call, the calls
its conversion made and the C value it came to in the end.

A call empties the machine, says where an aggregate result goes, converts and
pushes its arguments one at a time, and hands the machine to the C function. An
exception can end it before that; its tree then has the arguments it got to, and
what it left in the machine stays there.

What a C function gets is what the machine keeps of all this. Its buffer has a fixed
size, and drops what does not fit.

SOURCE: Affix.cxx:12-16, Affix.cxx:308-486, Affix.cxx:2219-2223
-/

set_option autoImplicit false

namespace Affix.Model

mutual

/-- A call of a wrapped function: the descriptor of its result, if that is a struct, its
arguments, and whether it got to the C function. -/
inductive Call where
  | mk (aggr : Option DCaggr) (args : List Arg) (called : Bool)

/-- An argument: the calls made while it was converted, and what was pushed for it, which
is nothing where the conversion died. -/
inductive Arg where
  | mk (code : List Call) (pushed : Option DCArg)

end

def Arg.code : Arg → List Call
  | mk code _ => code

def Arg.pushed : Arg → Option DCArg
  | mk _ pushed => pushed

/-- The machine at the start of a call. SOURCE: Affix.cxx:315-335 -/
def startCall (inMemory : DCaggr → Bool) (aggr : Option DCaggr) (vm : DCCallVM) : DCCallVM :=
  match aggr with
  | some ag => vm.dcReset.dcBeginCallAggr inMemory ag
  | none => vm.dcReset

/-- What the machine should have been told when the C function of a call is called: the setup of
this call and its arguments in order. -/
def Call.own (inMemory : DCaggr → Bool) : Call → DCCallVM
  | mk aggr args _ =>
    args.foldl (fun vm a => push a.pushed vm) (startCall inMemory aggr ⟨false, []⟩)

/-- One C call: what the machine should have been told, and what it was told. -/
structure CCall where
  own : DCCallVM
  received : DCCallVM

mutual

/-- A call: the machine after it, and the C calls made on the way, its own the last of
them if it got there. SOURCE: Affix.cxx:308-486 -/
def Call.run (inMemory : DCaggr → Bool) (vm : DCCallVM) : Call → DCCallVM × List CCall
  | .mk aggr args called =>
    let r := runArgs inMemory (startCall inMemory aggr vm) args
    (r.1, r.2 ++ if called then [⟨Call.own inMemory (.mk aggr args called), r.1⟩] else [])

/-- The argument loop: convert, which may call, then push. SOURCE: Affix.cxx:342-476 -/
def runArgs (inMemory : DCaggr → Bool) (vm : DCCallVM) : List Arg → DCCallVM × List CCall
  | [] => (vm, [])
  | .mk code pushed :: rest =>
    let r := runCalls inMemory vm code
    let r' := runArgs inMemory (push pushed r.1) rest
    (r'.1, r.2 ++ r'.2)

/-- The calls one conversion makes. -/
def runCalls (inMemory : DCaggr → Bool) (vm : DCCallVM) : List Call → DCCallVM × List CCall
  | [] => (vm, [])
  | c :: rest =>
    let r := Call.run inMemory vm c
    let r' := runCalls inMemory r.1 rest
    (r'.1, r.2 ++ r'.2)

end

mutual

/-- Every call of a tree has a property. -/
def Call.Every (P : Call → Prop) : Call → Prop
  | .mk aggr args called => P (.mk aggr args called) ∧ everyArg P args

def everyArg (P : Call → Prop) : List Arg → Prop
  | [] => True
  | .mk code _ :: rest => everyCall P code ∧ everyArg P rest

def everyCall (P : Call → Prop) : List Call → Prop
  | [] => True
  | c :: rest => Call.Every P c ∧ everyCall P rest

end

/-! ## What the machine keeps -/

/-- The `dcArg*` call for an argument; half of the place of a float is left as it was. The bytes
of an aggregate start at 0 here. SOURCE: dyncall_callvm_x64.c:80-203 -/
def DCArg.put (upper : ℕ) : DCArg → DCCallVM_x64 → DCCallVM_x64
  | int v, vm => vm.dc_callvm_argLongLong_x64 v
  | float bits, vm => vm.dc_callvm_argFloat_x64 upper bits
  | double bits, vm => vm.dc_callvm_argDouble_x64 bits
  | aggr ag bytes, vm =>
    vm.dc_callvm_argAggr_x64 (fun x => bytes.getD x 0) (some (dcCloseAggr ag)) 0

def putAll (upper : ℕ) (as : List DCArg) (vm : DCCallVM_x64) : DCCallVM_x64 :=
  as.foldl (fun vm a => a.put upper vm) vm

/-- The machine itself at the start of a call. SOURCE: Affix.cxx:315-335 -/
def startCallOn (aggr : Option DCaggr) (vm : DCCallVM_x64) : DCCallVM_x64 :=
  match aggr with
  | some ag => vm.dc_callvm_reset_x64.dc_callvm_begin_aggr_x64 (some (dcCloseAggr ag))
  | none => vm.dc_callvm_reset_x64

mutual

/-- A call on the machine itself: the machine after it, and the machines that the C functions on
the way were called with. SOURCE: Affix.cxx:308-486 -/
def Call.runOn (upper : ℕ) (vm : DCCallVM_x64) : Call → DCCallVM_x64 × List DCCallVM_x64
  | .mk aggr args called =>
    let r := runArgsOn upper (startCallOn aggr vm) args
    (r.1, r.2 ++ if called then [r.1] else [])

def runArgsOn (upper : ℕ) (vm : DCCallVM_x64) : List Arg → DCCallVM_x64 × List DCCallVM_x64
  | [] => (vm, [])
  | .mk code pushed :: rest =>
    let r := runCallsOn upper vm code
    let r' := runArgsOn upper (putAll upper pushed.toList r.1) rest
    (r'.1, r.2 ++ r'.2)

def runCallsOn (upper : ℕ) (vm : DCCallVM_x64) : List Call → DCCallVM_x64 × List DCCallVM_x64
  | [] => (vm, [])
  | c :: rest =>
    let r := Call.runOn upper vm c
    let r' := runCallsOn upper r.1 rest
    (r'.1, r.2 ++ r'.2)

end

/-- The machine after `dcReset` and the setup for a result. -/
def DCCallVM.begin (told : DCCallVM) (vm : DCCallVM_x64) : DCCallVM_x64 :=
  if told.aggrReturn then { vm.dc_callvm_reset_x64 with mAggrReturnReg := 0 }
  else vm.dc_callvm_reset_x64

/-- The machine after `dcReset` and all that it was told since. -/
def DCCallVM.tell (upper : ℕ) (told : DCCallVM) (vm : DCCallVM_x64) : DCCallVM_x64 :=
  putAll upper told.args (told.begin vm)

end Affix.Model
