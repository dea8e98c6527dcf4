import Affix.Foundation.ByteMap

/-!
# The call machine of x86-64

The arguments of a call are kept where the call will put them: the first six integers
and pointers and the first eight floating numbers in arrays that stand for registers,
the others one after another in a buffer that will be copied to the stack. A struct of
at most two eightbytes is passed like its eightbytes if there are registers for all of
it, and is copied to the buffer otherwise.

A buffer that is full drops what is appended.

SOURCE: dyncall_vector.c:30-51, dyncall_vector.h:37-50, dyncall_callvm_x64.c:66-262
-/

set_option autoImplicit false

namespace Affix.Model

open Affix.Foundation

/-! ## The buffer -/

/-- `DCVecHead` with the data behind it. SOURCE: dyncall_vector.h:32-38 -/
structure DCVecHead where
  mTotal : ℕ
  mSize : ℕ
  data : ℕ → UInt8

namespace DCVecHead

def dcVecReset (vec : DCVecHead) : DCVecHead := { vec with mSize := 0 }

/-- `dcVecSkip` keeps no bound. SOURCE: dyncall_vector.h:43 -/
def dcVecSkip (vec : DCVecHead) (size : ℕ) : DCVecHead := { vec with mSize := vec.mSize + size }

/-- SOURCE: dyncall_vector.c:30-51 -/
def dcVecAppend (vec : DCVecHead) (bs : List UInt8) : DCVecHead :=
  if vec.mSize + bs.length ≤ vec.mTotal then
    { vec with data := Mem.overlay vec.data vec.mSize bs, mSize := vec.mSize + bs.length }
  else vec

end DCVecHead

/-! ## Classes of eightbytes -/

/-- SOURCE: dyncall_aggregate.h:36-44 -/
inductive SysvClass where
  | none | integer | sse | memory
deriving DecidableEq, Repr

/-- A descriptor as far as passing looks at it. SOURCE: dyncall_aggregate.h:57-63 -/
structure SysvAggr where
  size : ℕ
  sysv_classes : List SysvClass

namespace SysvAggr

/-- `sysv_classes[0] == SYSVC_MEMORY` -/
def inMemory (ag : SysvAggr) : Bool := ag.sysv_classes.head? == some .memory

/-- The classes a loop over `sysv_classes` meets. -/
def eightbytes (ag : SysvAggr) : List SysvClass := ag.sysv_classes.takeWhile (· ≠ .none)

end SysvAggr

/-! ## The machine -/

def numIntRegs : ℕ := 6
def numFloatRegs : ℕ := 8

/-- How many registers of each kind have been used. SOURCE: dyncall_callvm_x64.h:84-88 -/
structure DCRegCount_x64 where
  i : ℕ
  f : ℕ
deriving DecidableEq, Repr

/-- The integers and the bits of the floating numbers. SOURCE: dyncall_callvm_x64.h:90-94 -/
structure DCRegData_x64 where
  i : ℕ → ℤ
  f : ℕ → ℕ

/-- SOURCE: dyncall_callvm_x64.h:98-109 -/
structure DCCallVM_x64 where
  mAggrReturnReg : ℤ
  mRegCount : DCRegCount_x64
  mRegData : DCRegData_x64
  mVecHead : DCVecHead

namespace DCCallVM_x64

/-- SOURCE: dyncall_callvm_x64.c:66-75 -/
def dc_callvm_reset_x64 (self : DCCallVM_x64) : DCCallVM_x64 :=
  { self with
    mVecHead := self.mVecHead.dcVecReset
    mRegCount := ⟨0, 0⟩
    mAggrReturnReg := -1 }

/-- `self->mRegCount.i += (self->mRegCount.i == self->mAggrReturnReg)` -/
def skipReturnReg (i : ℕ) (aggrReturnReg : ℤ) : ℕ := if (i : ℤ) = aggrReturnReg then i + 1 else i

/-- SOURCE: dyncall_callvm_x64.c:80-91 -/
def dc_callvm_argLongLong_x64 (x : ℤ) (self : DCCallVM_x64) : DCCallVM_x64 :=
  let i := skipReturnReg self.mRegCount.i self.mAggrReturnReg
  if i < numIntRegs then
    { self with
      mRegCount := { self.mRegCount with i := i + 1 }
      mRegData :=
        { self.mRegData with i := Function.update self.mRegData.i i (clonglong.wrap x) } }
  else
    { self with
      mRegCount := { self.mRegCount with i := i }
      mVecHead := self.mVecHead.dcVecAppend (clonglong.encode x) }

/-- The sibling for pointers. SOURCE: dyncall_callvm_x64.c:152-162 -/
def dc_callvm_argPointer_x64 (x : ℕ) (self : DCCallVM_x64) : DCCallVM_x64 :=
  self.dc_callvm_argLongLong_x64 x

/-- SOURCE: dyncall_callvm_x64.c:124-136 -/
def dc_callvm_argDouble_x64 (x : ℕ) (self : DCCallVM_x64) : DCCallVM_x64 :=
  let f := self.mRegCount.f
  if f < numFloatRegs then
    { self with
      mRegCount := { self.mRegCount with f := f + 1 }
      mRegData := { self.mRegData with f := Function.update self.mRegData.f f (x % 2 ^ 64) } }
  else { self with mVecHead := self.mVecHead.dcVecAppend (encodeLE 8 x) }

/-- The upper half of the union with a double is not written: it may be anything.
SOURCE: dyncall_callvm_x64.c:139-149 -/
def dc_callvm_argFloat_x64 (upper x : ℕ) (self : DCCallVM_x64) : DCCallVM_x64 :=
  self.dc_callvm_argDouble_x64 (x % 2 ^ 32 + 2 ^ 32 * upper)

/-- The registers that would have been used with the aggregate.
SOURCE: dyncall_callvm_x64.c:177-187, dyncall_args_x64.c:88-98 -/
def reclassify (count : DCRegCount_x64) (ag : SysvAggr) : DCRegCount_x64 :=
  if ag.inMemory then count
  else ⟨count.i + ag.eightbytes.count .integer, count.f + ag.eightbytes.count .sse⟩

/-- There are not the registers for the aggregate. SOURCE: dyncall_callvm_x64.c:189 -/
def onStack (count : DCRegCount_x64) (ag : SysvAggr) : Bool :=
  ag.inMemory || numIntRegs < (reclassify count ag).i || numFloatRegs < (reclassify count ag).f

/-- The loop over the eightbytes, of those from an index on.
SOURCE: dyncall_callvm_x64.c:196-203 -/
def argEightbytes (mem : ℕ → UInt8) (x : ℕ) : (i : ℕ) → List SysvClass → DCCallVM_x64 →
    DCCallVM_x64
  | _, [], self => self
  | i, .integer :: cs, self =>
    argEightbytes mem x (i + 1) cs
      (self.dc_callvm_argLongLong_x64 (clonglong.decode (slice mem (x + 8 * i) 8)))
  | i, .sse :: cs, self =>
    argEightbytes mem x (i + 1) cs (self.dc_callvm_argDouble_x64 (loadWord mem (x + 8 * i)))
  | i, .none :: cs, self | i, .memory :: cs, self => argEightbytes mem x (i + 1) cs self

/-- The bytes to the next qword. -/
def realign (size : ℕ) : ℕ := (size + 7) / 8 * 8 - size

/-- The bytes of the aggregate are at `x`; without a descriptor the address is passed.
SOURCE: dyncall_callvm_x64.c:165-203 -/
def dc_callvm_argAggr_x64 (mem : ℕ → UInt8) (ag : Option SysvAggr) (x : ℕ) (self : DCCallVM_x64) :
    DCCallVM_x64 :=
  match ag with
  | none => self.dc_callvm_argPointer_x64 x
  | some ag =>
    if onStack self.mRegCount ag then
      { self with
        mVecHead :=
          (self.mVecHead.dcVecAppend (slice mem x ag.size)).dcVecSkip (realign ag.size) }
    else argEightbytes mem x 0 ag.eightbytes self

/-- SOURCE: dyncall_callvm_x64.c:249-262 -/
def dc_callvm_begin_aggr_x64 (ag : Option SysvAggr) (self : DCCallVM_x64) : DCCallVM_x64 :=
  match ag with
  | none => { self with mAggrReturnReg := 0 }
  | some ag => if ag.inMemory then { self with mAggrReturnReg := 0 } else self

/-- What is to be called with: the address of a result in memory takes its register.
SOURCE: dyncall_callvm_x64.c:284-286 -/
def withReturnAddress (ret : ℕ) (self : DCCallVM_x64) : DCCallVM_x64 :=
  if self.mAggrReturnReg ≠ -1 then
    { self with
      mRegData :=
        { self.mRegData with
          i := Function.update self.mRegData.i self.mAggrReturnReg.toNat (clonglong.wrap ret) } }
  else self

/-- The loop that puts an aggregate together from the words of four registers, at `regs_i` and
`regs_f`. The size that is left is unsigned: it wraps round where it runs out within an
eightbyte. SOURCE: dyncall_callvm_x64.c:309-322 -/
def reassemble : List SysvClass → (regs_i regs_f st_size dst : ℕ) → (ℕ → UInt8) → ℕ → UInt8
  | [], _, _, _, _, mem => mem
  | c :: cs, regs_i, regs_f, st_size, dst, mem =>
    let ll := if st_size < 8 then st_size else 8
    let rest := if st_size < 8 then 2 ^ 64 - 1 else st_size - 8
    match c with
    | .integer =>
      reassemble cs (regs_i + ll) regs_f rest (dst + ll) (Mem.overlay mem dst (slice mem regs_i ll))
    | _ =>
      reassemble cs regs_i (regs_f + ll) rest (dst + ll) (Mem.overlay mem dst (slice mem regs_f ll))

/-- `dcNewCallVM`: the registers come out of the size, which is what the data of the buffer is
left. SOURCE: dyncall_callvm_x64.c:511-523 -/
def dcNewCallVM (size : ℕ) (regs : DCRegData_x64) (data : ℕ → UInt8) : DCCallVM_x64 where
  mAggrReturnReg := -1
  mRegCount := ⟨0, 0⟩
  mRegData := regs
  mVecHead := ⟨if size < 112 then 0 else size - 112, 0, data⟩

end DCCallVM_x64

end Affix.Model
