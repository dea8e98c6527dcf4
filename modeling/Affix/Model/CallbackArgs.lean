import Affix.Model.CallVM

/-!
# The arguments of a callback on x86-64

The thunk of a callback spills the argument registers next to the address of the
arguments on the stack. Each reader takes the next integer or the next floating number,
from the registers while there are some and then from the stack. A struct is put
together from its eightbytes, or copied from the stack, by the rule it was passed by.

SOURCE: dyncall_args_x64.c:33-193, dyncall_args_x64.h:37-52, dyncall_callback_x64.c:51-88
-/

set_option autoImplicit false

namespace Affix.Model

open Affix.Foundation
open DCCallVM_x64 (skipReturnReg onStack)

/-- SOURCE: dyncall_args_x64.h:37-52 -/
structure DCArgs where
  stack_ptr : ℕ
  reg_count : DCRegCount_x64
  aggr_return_register : ℤ
  aggrs : List (Option SysvAggr)
  reg_data : DCRegData_x64

namespace DCArgs

/-- `*arg_i64(p)`, where the memory is looked at. SOURCE: dyncall_args_x64.c:33-41 -/
def dcbArgLongLong (mem : ℕ → UInt8) (p : DCArgs) : ℤ × DCArgs :=
  let i := skipReturnReg p.reg_count.i p.aggr_return_register
  if i < numIntRegs then
    (p.reg_data.i i, { p with reg_count := { p.reg_count with i := i + 1 } })
  else
    (clonglong.decode (slice mem p.stack_ptr 8),
      { p with reg_count := { p.reg_count with i := i }, stack_ptr := p.stack_ptr + 8 })

/-- `*arg_f64(p)`. SOURCE: dyncall_args_x64.c:44-53 -/
def dcbArgDouble (mem : ℕ → UInt8) (p : DCArgs) : ℕ × DCArgs :=
  if p.reg_count.f < numFloatRegs then
    (p.reg_data.f p.reg_count.f,
      { p with reg_count := { p.reg_count with f := p.reg_count.f + 1 } })
  else (loadWord mem p.stack_ptr, { p with stack_ptr := p.stack_ptr + 8 })

/-! The readers that convert. SOURCE: dyncall_args_x64.c:58-75 -/

section Readers

variable (mem : ℕ → UInt8) (p : DCArgs)

def dcbArgInt : ℤ × DCArgs := (p.dcbArgLongLong mem).map cint.wrap id
def dcbArgLong : ℤ × DCArgs := (p.dcbArgLongLong mem).map clong.wrap id
def dcbArgChar : ℤ × DCArgs := (p.dcbArgLongLong mem).map cchar.wrap id
def dcbArgShort : ℤ × DCArgs := (p.dcbArgLongLong mem).map cshort.wrap id
def dcbArgBool : Bool × DCArgs := (p.dcbArgInt mem).map (fun v => decide (v ≠ 0)) id
def dcbArgPointer : ℕ × DCArgs :=
  (p.dcbArgLongLong mem).map (fun v => (culong.wrap v).toNat) id

/-- The lower half of the place a double would be at. -/
def dcbArgFloat : ℕ × DCArgs := (p.dcbArgDouble mem).map (· % 2 ^ 32) id

end Readers

/-- The loop over the eightbytes, of those from an index on: what is left of the size bounds
what is written of one, and a floating eightbyte has to be written as a double or a float.
SOURCE: dyncall_args_x64.c:106-136 -/
def takeEightbytes (size target : ℕ) : (i : ℕ) → List SysvClass → (ℕ → UInt8) → DCArgs →
    Option ((ℕ → UInt8) × DCArgs)
  | _, [], mem, p => some (mem, p)
  | i, c :: cs, mem, p =>
    -- `ag->size - i*8` is unsigned
    let left := (2 ^ 64 + size - i * 8) % 2 ^ 64
    let s := if left < 8 then left else 8
    match c with
    | .integer =>
      let (l, p) := p.dcbArgLongLong mem
      let mem := Mem.overlay mem (target + 8 * i) ((clonglong.encode l).take s)
      takeEightbytes size target (i + 1) cs mem p
    | .sse =>
      if s = 8 then
        let (d, p) := p.dcbArgDouble mem
        takeEightbytes size target (i + 1) cs (storeWord mem (target + 8 * i) d) p
      else if s = 4 then
        let (f, p) := p.dcbArgFloat mem
        let mem := Mem.overlay mem (target + 8 * i) (encodeLE 4 f)
        takeEightbytes size target (i + 1) cs mem p
      else none
    | .none | .memory => none

/-- What was passed without a descriptor is read as an address, which is returned in place of
the target. SOURCE: dyncall_args_x64.c:77-149 -/
def dcbArgAggr (target : ℕ) (mem : ℕ → UInt8) (p : DCArgs) :
    Option (ℕ × (ℕ → UInt8) × DCArgs) :=
  match p.aggrs with
  | [] => none
  | none :: aggrs =>
    let (ptr, p) := ({ p with aggrs := aggrs } : DCArgs).dcbArgPointer mem
    some (ptr, mem, p)
  | some ag :: aggrs =>
    let p := { p with aggrs := aggrs }
    if onStack p.reg_count ag then
      some (target, Mem.overlay mem target (slice mem p.stack_ptr ag.size),
        { p with stack_ptr := p.stack_ptr + (ag.size + 7) / 8 * 8 })
    else
      match takeEightbytes ag.size target 0 ag.eightbytes mem p with
      | some (mem, p) => some (target, mem, p)
      | none => none

/-- The loop over the eightbytes of a result, of those from an index on.
SOURCE: dyncall_args_x64.c:176-185 -/
def returnEightbytes (ret : ℕ) : (i : ℕ) → List SysvClass → (intRegs sseRegs : ℕ) →
    (ℕ → UInt8) → Option (ℕ → UInt8)
  | _, [], _, _, mem => some mem
  | i, .integer :: cs, intRegs, sseRegs, mem =>
    returnEightbytes ret (i + 1) cs (intRegs + 8) sseRegs
      (storeWord mem intRegs (loadWord mem (ret + 8 * i)))
  | i, .sse :: cs, intRegs, sseRegs, mem =>
    returnEightbytes ret (i + 1) cs intRegs (sseRegs + 8)
      (storeWord mem sseRegs (loadWord mem (ret + 8 * i)))
  | _, .none :: _, _, _, _ | _, .memory :: _, _, _, _ => none

/-- The result is at `ret`, and goes where the caller wants it, or to `result` and from there to
registers. SOURCE: dyncall_args_x64.c:152-193 -/
def dcbReturnAggr (result ret : ℕ) (mem : ℕ → UInt8) (p : DCArgs) : Option (ℕ → UInt8) :=
  match p.aggrs with
  | [] => none
  | ag :: _ =>
    if 0 ≤ p.aggr_return_register then
      let dest := (culong.wrap (p.reg_data.i p.aggr_return_register.toNat)).toNat
      match ag with
      | some ag => some (storeWord (Mem.overlay mem dest (slice mem ret ag.size)) result dest)
      | none => some (storeWord mem result dest)
    else
      match ag with
      | some ag => returnEightbytes ret 0 (ag.eightbytes.take 2) result (result + 16) mem
      | none => none

end DCArgs

/-! ## Callbacks -/

/-- What is kept of a signature: where the address of an aggregate result is passed, or that
there is none. SOURCE: dyncall_callback_x64.c:41-49 -/
structure DCCallback where
  aggr_return_register : ℤ
  aggrs : List (Option SysvAggr)

/-- The descriptors are one for each `A` of the signature, that of the result the last.
SOURCE: dyncall_callback_x64.c:51-88 -/
def dcbInitCallback2 (signature : List Char) (aggrs : List (Option SysvAggr)) : DCCallback :=
  let ch := if signature.head? = some '_' then signature.drop 2 else signature
  let num_aggrs := ch.count 'A'
  if num_aggrs = 0 then ⟨-2, []⟩
  else if ch.getLast? = some 'A' then
    match (aggrs[num_aggrs - 1]?).join with
    | none => ⟨0, aggrs⟩
    | some ag => ⟨if ag.inMemory then 0 else -1, aggrs⟩
  else ⟨-2, aggrs⟩

end Affix.Model
