import Affix.Foundation.Handover
import Affix.Model.CallKernel

/-!
# What is passed is what arrives

A caller and a callee on x86-64 have no more in common than the calling convention: the
caller puts the arguments where it says, and the callee, which knows the types alone,
takes them from there. A handover for dyncall is a list of arguments that go into the
call machine and come out of the readers of a callback, once the registers and the
stack of the call are those of the machine.
-/

set_option autoImplicit false

namespace Affix.Interface

open Affix.Foundation Affix.Model DCCallVM_x64

/-- An argument: an integer or a pointer; a floating number, a float with what is in the other
half of its place; or a struct, with its address and the one it is wanted at. -/
inductive Passed where
  | word (x : ℤ)
  | float (upper x : ℕ)
  | double (x : ℕ)
  | aggr (ag : SysvAggr) (x target : ℕ)

/-- What the callee knows of an argument. -/
inductive Wanted where
  | word
  | float
  | double
  | aggr (size target : ℕ)

/-- What the callee gets; of a struct, its bytes. -/
inductive Got where
  | word (x : ℤ)
  | float (x : ℕ)
  | double (x : ℕ)
  | aggr (bs : List UInt8)

namespace Passed

def wanted : Passed → Wanted
  | word _ => .word
  | float .. => .float
  | double _ => .double
  | aggr ag _ target => .aggr ag.size target

/-- The argument goes into the machine; `mem` is the memory of the caller. -/
def put (mem : ℕ → UInt8) : Passed → DCCallVM_x64 → DCCallVM_x64
  | word x, vm => vm.dc_callvm_argLongLong_x64 x
  | float upper x, vm => vm.dc_callvm_argFloat_x64 upper x
  | double x, vm => vm.dc_callvm_argDouble_x64 x
  | aggr ag x _, vm => vm.dc_callvm_argAggr_x64 mem (some ag) x

/-- The descriptor it comes with. -/
def descriptor : Passed → Option SysvAggr
  | aggr ag .. => some ag
  | _ => none

/-- The room it takes in the buffer, if it goes there. -/
def room : Passed → ℕ
  | aggr ag .. => ag.size + realign ag.size
  | _ => 8

end Passed

/-- The callee takes the next argument. -/
def Wanted.take : Wanted → DCArgs × (ℕ → UInt8) → Option (Got × DCArgs × (ℕ → UInt8))
  | word, (p, mem) => some (.word (p.dcbArgLongLong mem).1, (p.dcbArgLongLong mem).2, mem)
  | float, (p, mem) => some (.float (p.dcbArgFloat mem).1, (p.dcbArgFloat mem).2, mem)
  | double, (p, mem) => some (.double (p.dcbArgDouble mem).1, (p.dcbArgDouble mem).2, mem)
  | aggr size target, (p, mem) =>
    match p.dcbArgAggr target mem with
    | some (ptr, mem, p) => some (.aggr (slice mem ptr size), p, mem)
    | none => none

/-- The caller and the callee. The descriptors that have been passed are kept with the machine:
the callee has been given them beforehand. -/
def calling (mem : ℕ → UInt8) :
    Handover (DCCallVM_x64 × List (Option SysvAggr)) (DCArgs × (ℕ → UInt8)) Passed Wanted Got where
  put a w := (a.put mem w.1, w.2 ++ (a.descriptor.map some).toList)
  shape := Passed.wanted
  take := Wanted.take

/-- A descriptor that has classes for what is passed in registers: each is of integers or of
floating numbers, and starts within the struct; one of floating numbers is as long as a double
or a float. -/
structure SysvAggr.Proper (ag : SysvAggr) : Prop where
  small : ag.size ≤ 16
  starts : ∀ i < ag.eightbytes.length, 8 * i < ag.size
  classes : ∀ i c, ag.eightbytes[i]? = some c →
    c = .integer ∨ c = .sse ∧ (8 * i + 8 ≤ ag.size ∨ 8 * i + 4 = ag.size)

/-- **What arrives**: the number that was passed, or the bytes of the struct but for eightbytes
of padding. -/
def Arrives (mem : ℕ → UInt8) : Passed → Got → Prop
  | .word x, .word y => y = clonglong.wrap x
  | .float _ x, .float y => y = x % 2 ^ 32
  | .double x, .double y => y = x % 2 ^ 64
  | .aggr ag x _, .aggr bs => bs.length = ag.size ∧
      ∀ j < ag.size, ag.inMemory = true ∨ j / 8 < ag.eightbytes.length →
        bs[j]? = some (mem (x + j))
  | _, _ => False

/-- A struct can be taken: its descriptor is proper, and the place it is wanted at is apart from
the arguments on the stack. -/
def Passed.Takeable (base total : ℕ) : Passed → Prop
  | .aggr ag _ target => (ag.inMemory = false → SysvAggr.Proper ag) ∧
      (target + ag.size ≤ base ∨ base + total ≤ target)
  | _ => True

/-- **The callee has been entered**: nothing has been taken, its registers and the stack at
`base` are what the machine holds, and it has the descriptors, and others after them. -/
structure Entered (base : ℕ) (w : DCCallVM_x64 × List (Option SysvAggr))
    (others : List (Option SysvAggr)) (p : DCArgs) (mem : ℕ → UInt8) : Prop where
  count : p.reg_count = ⟨0, 0⟩
  start : p.stack_ptr = base
  returnReg : ∀ i : ℕ, (i : ℤ) = p.aggr_return_register ↔ (i : ℤ) = w.1.mAggrReturnReg
  ints : ∀ i < numIntRegs, (i : ℤ) ≠ w.1.mAggrReturnReg → p.reg_data.i i = w.1.mRegData.i i
  floats : ∀ i < numFloatRegs, p.reg_data.f i = w.1.mRegData.f i
  stack : ∀ j < w.1.mVecHead.mSize, mem (base + j) = w.1.mVecHead.data j
  descriptors : p.aggrs = w.2 ++ others

/-- The machine of a call that has no arguments yet. -/
structure Begun (vm : DCCallVM_x64) : Prop where
  count : vm.mRegCount = ⟨0, 0⟩
  empty : vm.mVecHead.mSize = 0
  returnReg : vm.mAggrReturnReg = -1 ∨ vm.mAggrReturnReg = 0

/-- The descriptors of arguments. -/
def descriptors (as : List Passed) : List (Option SysvAggr) :=
  (as.filterMap Passed.descriptor).map some

/-- The machine of a call whose result is no aggregate, or is one with a descriptor or without. -/
def beginResult (result : Option (Option SysvAggr)) (vm : DCCallVM_x64) : DCCallVM_x64 :=
  match result with
  | none => vm.dc_callvm_reset_x64
  | some ag => vm.dc_callvm_reset_x64.dc_callvm_begin_aggr_x64 ag

/-- A signature that has an `A` for each descriptor, and one at its end for an aggregate result. -/
structure Signs (signature : List Char) (ds : List (Option SysvAggr))
    (result : Option (Option SysvAggr)) : Prop where
  plain : signature.head? ≠ some '_'
  aggregates : signature.count 'A' = ds.length + result.toList.length
  result : signature.getLast? = some 'A' ↔ result.isSome = true

/-! ## The kernels -/

/-- The bytes that are copied to the stack: a multiple of 32 and the place of one word more. -/
def frameSize (size : ℕ) : ℕ := (size + 31) / 32 * 32 + 8

/-- How far the two kernels go down the stack: the saved registers, the arguments, the return
address, and what the callback saves. -/
def stackDepth (size : ℕ) : ℕ := frameSize size + 208

/-- A stretch of memory that the kernels do not write. -/
def Untouched (m : Processor) (a n : ℕ) : Prop :=
  a + n ≤ m.reg .rsp - stackDepth (m.reg .rdi) ∨ m.reg .rsp ≤ a

/-- **The kernel is called for the machine**: the registers say where its data is. -/
structure Loaded (vm : DCCallVM_x64) (m : Processor) : Prop where
  size : m.reg .rdi = vm.mVecHead.mSize
  data : ∀ j < vm.mVecHead.mSize, m.mem (m.reg .rsi + j) = vm.mVecHead.data j
  ints : ∀ k < numIntRegs,
    clonglong.decode (slice m.mem (m.reg .rdx + 8 * k) 8) = vm.mRegData.i k
  floats : ∀ k < numFloatRegs, loadWord m.mem (m.reg .rcx + 8 * k) = vm.mRegData.f k
  stack : stackDepth (m.reg .rdi) ≤ m.reg .rsp
  apart : Untouched m (m.reg .rsi) (frameSize (m.reg .rdi)) ∧ Untouched m (m.reg .rdx) 48 ∧
    Untouched m (m.reg .rcx) 64

/-- A callback is at an address: where the address of its result is passed, and its
descriptors. SOURCE: dyncall_callback_x64.c:41-49 -/
structure CallbackAt (cb : DCCallback) (aggrsAt : ℕ → List (Option SysvAggr)) (m : Processor)
    (pcb : ℕ) : Prop where
  returnReg : cint.decode (slice m.mem (pcb + 40) 4) = cb.aggr_return_register
  aggrs : aggrsAt (loadWord m.mem (pcb + 48)) = cb.aggrs
  apart : Untouched m pcb 56

/-- The caller's kernel makes its call, to the thunk of a callback, which puts its own address in
`RAX` and jumps. SOURCE: dyncall_thunk_x64.c:33-53 -/
def enterCallback (m : Processor) (returnAddress pcb : ℕ) : Processor :=
  ((m.run dcCall_x64_sysv_enter).call returnAddress).set .rax pcb

/-- The machine when the handler is called. -/
def enterHandler (m : Processor) (returnAddress pcb : ℕ) : Processor :=
  (enterCallback m returnAddress pcb).run dcCallback_x64_sysv_enter

/-- Where the arguments are on the stack. -/
def argumentsAt (m : Processor) : ℕ := m.reg .rsp - 16 - frameSize (m.reg .rdi)

/-- **A handler returns** as the convention says: with the stack pointer and the saved registers
it was called with, and with the words on the stack that are not its own. Its `DCArgs` are its own,
but it does not write the number there that says where the result goes. -/
structure HandlerReturns (m h h' : Processor) : Prop where
  rsp : h'.reg .rsp = h.reg .rsp
  rbp : h'.reg .rbp = h.reg .rbp
  saved : ∀ x, argumentsAt m - 16 ≤ x ∧ x < argumentsAt m ∨
    m.reg .rsp - 16 ≤ x ∧ x < m.reg .rsp → h'.mem x = h.mem x
  returnReg : ∀ x, h.reg .rsp + 48 ≤ x → x < h.reg .rsp + 52 → h'.mem x = h.mem x

/-- What a scalar or an aggregate result is in the registers, by the words at an address. -/
structure InResultRegisters (aggregate : Bool) (mem : ℕ → UInt8) (result : ℕ) (m : Processor) :
    Prop where
  rax : m.reg .rax = loadWord mem result
  rdx : aggregate = true → m.reg .rdx = loadWord mem (result + 8)
  xmm0 : m.xmm 0 = if aggregate then loadWord mem (result + 16) else loadWord mem result
  xmm1 : aggregate = true → m.xmm 1 = loadWord mem (result + 24)

/-- **The call has returned**: the stack pointer is above the return address, the saved registers
are what they were, and the result is in registers. -/
structure CallReturned (aggregate : Bool) (m h' m' : Processor) : Prop
    extends InResultRegisters aggregate h'.mem (h'.reg .rsp) m' where
  rsp : m'.reg .rsp = m.reg .rsp + 8
  rbp : m'.reg .rbp = m.reg .rbp
  rbx : m'.reg .rbx = m.reg .rbx
  mem : m'.mem = h'.mem

/-! ## Structs that are returned -/

/-- The kernel for a struct that comes back in registers, up to the entry of the other kernel; the
place for the words of the registers is in `R9`. -/
def enterAggrCall (m : Processor) (returnAddress : ℕ) : Processor :=
  (m.run dcCall_x64_sysv_aggr_enter).call returnAddress

/-- The rest of it, `RET` included. -/
def leaveAggrCall (m : Processor) : Processor := (m.run dcCall_x64_sysv_aggr_leave).ret

/-- **The handler hands over a struct** that is at `ret` in `mem`: it has read its arguments from
`args`, of which `p` is left, and nothing is written after this. -/
structure HandsOver (ag : SysvAggr) (args p : DCArgs) (mem : ℕ → UInt8) (ret : ℕ)
    (h h' : Processor) : Prop where
  next : ∃ aggrs, p.aggrs = some ag :: aggrs
  returnReg : p.aggr_return_register = args.aggr_return_register
  registers : p.reg_data = args.reg_data
  handed : p.dcbReturnAggr (h.reg .rdx) ret mem = some h'.mem

/-- A handler that is to return a struct in registers keeps, besides, the word that the kernel has
pushed. -/
structure AggrHandlerReturns (m m₁ h h' : Processor) : Prop extends HandlerReturns m₁ h h' where
  pushed : ∀ x, m.reg .rsp - 8 ≤ x → x < m.reg .rsp → h'.mem x = h.mem x

/-- The bytes of a struct, but for eightbytes of padding. -/
def SameStruct (ag : SysvAggr) (mem : ℕ → UInt8) (a : ℕ) (mem' : ℕ → UInt8) (a' : ℕ) : Prop :=
  ∀ j < ag.size, ag.inMemory = true ∨ j / 8 < ag.eightbytes.length → mem' (a' + j) = mem (a + j)

end Affix.Interface
