import Affix.Model.CallbackArgs

/-!
# The kernels of a call on x86-64

Two pieces of assembly stand between the call machine and a callback. The first copies
the buffer to the stack, loads the registers and calls the target. The second, which
the thunk of a callback jumps to, spills the registers into a `DCArgs`, calls the
handler and loads the registers of the result. They are run here instruction by
instruction, each in two halves, before and after the call it makes.

Registers hold numbers; what is pushed or stored is taken modulo the width.

SOURCE: dyncall_call_x64.S:47-101, dyncall_callback_x64.S:58-135, portasm-x64.S:120-160
-/

set_option autoImplicit false

namespace Affix.Model

open Affix.Foundation

inductive Reg where
  | rax | rbx | rcx | rdx | rsi | rdi | rbp | rsp | r8 | r9
deriving DecidableEq, Repr

/-- The registers, the lower halves of the vector registers, and the memory. -/
structure Processor where
  reg : Reg → ℕ
  xmm : ℕ → ℕ
  mem : ℕ → UInt8

/-- `REP MOVSB`: bytes are copied one at a time, upwards. -/
def repMovsb : (n src dst : ℕ) → (ℕ → UInt8) → ℕ → UInt8
  | 0, _, _, mem => mem
  | n + 1, src, dst, mem => repMovsb n (src + 1) (dst + 1) (Mem.overlay mem dst [mem src])

/-- The instructions, with the source in front of the destination. -/
inductive Instr where
  | push (r : Reg)
  | pushLit (n : ℕ)
  | pop (r : Reg)
  | mov (s d : Reg)
  | load (base : Reg) (offset : ℕ) (d : Reg)
  | loadDword (base : Reg) (offset : ℕ) (d : Reg)
  | store (s base : Reg) (offset : ℕ)
  | lea (base : Reg) (offset : ℕ) (d : Reg)
  | loadXmm (base : Reg) (offset d : ℕ)
  | storeXmm (s : ℕ) (base : Reg) (offset : ℕ)
  | movXmm (s : Reg) (d : ℕ)
  | addLit (n : ℕ) (d : Reg)
  | subLit (n : ℕ) (d : Reg)
  | sub (s d : Reg)
  /-- `AND(LIT(-n), d)` for a power of two -/
  | alignDown (n : ℕ) (d : Reg)
  | movLow (n : ℕ) (d : Reg)
  | repMovsb

namespace Processor

def set (m : Processor) (r : Reg) (v : ℕ) : Processor := { m with reg := Function.update m.reg r v }

def pushWord (m : Processor) (v : ℕ) : Processor :=
  { m.set .rsp (m.reg .rsp - 8) with mem := storeWord m.mem (m.reg .rsp - 8) v }

def step (m : Processor) : Instr → Processor
  | .push r => m.pushWord (m.reg r)
  | .pushLit n => m.pushWord n
  | .pop r => (m.set r (loadWord m.mem (m.reg .rsp))).set .rsp (m.reg .rsp + 8)
  | .mov s d => m.set d (m.reg s)
  | .load base offset d => m.set d (loadWord m.mem (m.reg base + offset))
  | .loadDword base offset d => m.set d (decodeLE (slice m.mem (m.reg base + offset) 4))
  | .store s base offset => { m with mem := storeWord m.mem (m.reg base + offset) (m.reg s) }
  | .lea base offset d => m.set d (m.reg base + offset)
  | .loadXmm base offset d =>
    { m with xmm := Function.update m.xmm d (loadWord m.mem (m.reg base + offset)) }
  | .storeXmm s base offset => { m with mem := storeWord m.mem (m.reg base + offset) (m.xmm s) }
  | .movXmm s d => { m with xmm := Function.update m.xmm d (m.reg s) }
  | .addLit n d => m.set d (m.reg d + n)
  | .subLit n d => m.set d (m.reg d - n)
  | .sub s d => m.set d (m.reg d - m.reg s)
  | .alignDown n d => m.set d (m.reg d / n * n)
  | .movLow n d => m.set d (m.reg d / 256 * 256 + n)
  | .repMovsb =>
    let n := m.reg .rcx
    { ((m.set .rcx 0).set .rsi (m.reg .rsi + n)).set .rdi (m.reg .rdi + n) with
      mem := Model.repMovsb n (m.reg .rsi) (m.reg .rdi) m.mem }

def run (m : Processor) (code : List Instr) : Processor := code.foldl step m

/-- `CALL`: the return address is pushed. -/
def call (m : Processor) (returnAddress : ℕ) : Processor := m.pushWord returnAddress

/-- `RET` -/
def ret (m : Processor) : Processor := m.set .rsp (m.reg .rsp + 8)

end Processor

/-! ## The kernel of the caller -/

/-- `dcCall_x64_sysv` up to the call. SOURCE: dyncall_call_x64.S:47-78 -/
def dcCall_x64_sysv_enter : List Instr := [
  .push .rbp, .push .rbx, .mov .rsp .rbp, .mov .r8 .rbx,
  .loadXmm .rcx 0 0, .loadXmm .rcx 8 1, .loadXmm .rcx 16 2, .loadXmm .rcx 24 3,
  .loadXmm .rcx 32 4, .loadXmm .rcx 40 5, .loadXmm .rcx 48 6, .loadXmm .rcx 56 7,
  .addLit 31 .rdi, .alignDown 32 .rdi, .addLit 8 .rdi, .sub .rdi .rsp,
  .mov .rdi .rcx, .mov .rsp .rdi, .repMovsb,
  .load .rdx 0 .rdi, .load .rdx 8 .rsi, .load .rdx 24 .rcx, .load .rdx 32 .r8,
  .load .rdx 40 .r9, .load .rdx 16 .rdx,
  .movLow 8 .rax]

/-- `dcCall_x64_sysv` after the call, up to `RET`. SOURCE: dyncall_call_x64.S:81-84 -/
def dcCall_x64_sysv_leave : List Instr := [.mov .rbp .rsp, .pop .rbx, .pop .rbp]

/-- `dcCall_x64_sysv_aggr` around the call of the other. SOURCE: dyncall_call_x64.S:89-101 -/
def dcCall_x64_sysv_aggr_enter : List Instr := [.push .r9]

def dcCall_x64_sysv_aggr_leave : List Instr := [
  .pop .r9, .store .rax .r9 0, .store .rdx .r9 8, .storeXmm 0 .r9 16, .storeXmm 1 .r9 24]

/-! ## The entry of a callback -/

/-- `dcCallback_x64_sysv` up to the call of the handler. SOURCE: dyncall_callback_x64.S:58-107 -/
def dcCallback_x64_sysv_enter : List Instr := [
  .push .rbp, .mov .rsp .rbp, .subLit 64 .rsp,
  .storeXmm 7 .rsp 56, .storeXmm 6 .rsp 48, .storeXmm 5 .rsp 40, .storeXmm 4 .rsp 32,
  .storeXmm 3 .rsp 24, .storeXmm 2 .rsp 16, .storeXmm 1 .rsp 8, .storeXmm 0 .rsp 0,
  .push .r9, .push .r8, .push .rcx, .push .rdx, .push .rsi, .push .rdi,
  .load .rax 48 .r8, .push .r8,
  .loadDword .rax 40 .r8, .push .r8,
  .pushLit 0, .lea .rbp 16 .rdx, .push .rdx,
  .mov .rsp .rsi, .subLit 32 .rsp,
  .mov .rax .rdi, .load .rdi 32 .rcx, .mov .rsp .rdx]

/-- After the handler: the registers of a small aggregate, or of anything else.
SOURCE: dyncall_callback_x64.S:110-127 -/
def dcCallback_x64_sysv_result (aggregate : Bool) : List Instr :=
  if aggregate then
    [.load .rsp 0 .rax, .load .rsp 8 .rdx, .loadXmm .rsp 16 0, .loadXmm .rsp 24 1]
  else [.load .rsp 0 .rax, .movXmm .rax 0]

/-- `epilog`, up to `RET`. SOURCE: dyncall_callback_x64.S:129-134 -/
def dcCallback_x64_sysv_leave : List Instr := [.mov .rbp .rsp, .pop .rbp]

/-- What follows the handler, `RET` included. The number in front of `aggrs` says whether the
result is an aggregate: `-2` where it is none. SOURCE: dyncall_callback_x64.S:110-134 -/
def Processor.leaveCallback (m : Processor) : Processor :=
  let scalar := cint.decode (slice m.mem (m.reg .rsp + 48) 4) = -2
  ((m.run (dcCallback_x64_sysv_result !decide scalar)).run dcCallback_x64_sysv_leave).ret

/-- What follows the call of the target, `RET` included. -/
def Processor.leaveCall (m : Processor) : Processor := (m.run dcCall_x64_sysv_leave).ret

/-- The `DCArgs` in memory, whose descriptors are those at the address it has for them.
SOURCE: dyncall_args_x64.h:37-52 -/
def DCArgs.inMemory (mem : ℕ → UInt8) (aggrsAt : ℕ → List (Option SysvAggr)) (a : ℕ) : DCArgs where
  stack_ptr := loadWord mem a
  reg_count := ⟨decodeLE (slice mem (a + 8) 4), decodeLE (slice mem (a + 12) 4)⟩
  aggr_return_register := cint.decode (slice mem (a + 16) 4)
  aggrs := aggrsAt (loadWord mem (a + 24))
  reg_data :=
    ⟨fun k => clonglong.decode (slice mem (a + 32 + 8 * k) 8),
      fun k => loadWord mem (a + 80 + 8 * k)⟩

end Affix.Model
