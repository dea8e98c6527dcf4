import Affix.Model.Aggregate
import Affix.Model.CallVM

/-!
# The classes of a struct

Whether a struct travels in registers, and in which, is decided by the class of each of
its eightbytes, when its descriptor is closed. The class is merged from those of the
fields that reach into the eightbyte; an array of structs is walked from the element
that the eightbyte starts in.

Offsets are computed in unsigned 64-bit arithmetic and kept, for the elements, in `int`s.

SOURCE: dyncall_aggregate_x64.c:35-150, dyncall_aggregate.c:107-110
-/

set_option autoImplicit false

namespace Affix.Model

open Affix.Foundation

/-- SOURCE: dyncall_aggregate_x64.c:39-58 -/
def dc_merge_sysv_classes (clz new_class : SysvClass) : SysvClass :=
  if clz = .none then new_class
  else if new_class = .none then clz
  else if clz = .memory ∨ new_class = .memory then .memory
  else if clz = .integer ∨ new_class = .integer then .integer
  else .sse

/-- The class of a field that is no aggregate. SOURCE: dyncall_aggregate_x64.c:83-103 -/
def DCsigchar.sysvClass : DCsigchar → SysvClass
  | bool | char | uchar | short | ushort | int | uint | long | ulong | longlong | ulonglong
  | string | pointer => .integer
  | float | double => .sse
  | void | aggregate => .none

/-- A number as a `DCsize`. -/
def dcSize (x : ℤ) : ℕ := (culong.wrap x).toNat

/-- The field is outside of the eightbyte. SOURCE: dyncall_aggregate_x64.c:71-73 -/
def outsideEightbyte (index offset : ℕ) (f : DCfield) : Bool :=
  index * 8 + 8 ≤ offset || dcSize (offset + f.size * f.arrayLen) ≤ index * 8

/-- SOURCE: dyncall_aggregate_x64.c:77-78 -/
def unaligned (offset : ℕ) (f : DCfield) : Bool :=
  f.alignment ≠ 0 && offset &&& (f.alignment - 1) ≠ 0

/-- The element of an array that the eightbyte starts in. SOURCE: dyncall_aggregate_x64.c:110 -/
def firstElement (index offset : ℕ) (f : DCfield) : ℤ :=
  cint.wrap (dcSize (index * 8 - offset) / f.size : ℕ)

/-- The element to stop at. SOURCE: dyncall_aggregate_x64.c:111-113 -/
def lastElement (index offset : ℕ) (f : DCfield) : ℤ :=
  let k := cint.wrap (dcSize ((8 / f.size : ℕ) + firstElement index offset f + 1))
  if f.arrayLen < dcSize k then cint.wrap f.arrayLen else k

/-- What `offset + f->size*j` is, passed as an `int`. -/
def elementOffset (offset : ℕ) (f : DCfield) (j : ℤ) : ℤ :=
  cint.wrap (dcSize (offset + f.size * j))

mutual

/-- SOURCE: dyncall_aggregate_x64.c:61-126 -/
def dc_get_sysv_class_for_8byte (index : ℕ) : DCaggr → ℤ → SysvClass
  | .mk _ _ fields, base_offset => classForFields index fields base_offset .none

/-- The loop over the fields. -/
def classForFields (index : ℕ) : List (DCfield × Option DCaggr) → ℤ → SysvClass → SysvClass
  | [], _, clz => clz
  | (f, sub) :: rest, base_offset, clz =>
    let offset := dcSize (base_offset + f.offset)
    if outsideEightbyte index offset f then classForFields index rest base_offset clz
    else if unaligned offset f then .memory
    else
      let new_class := classForField index offset f sub
      classForFields index rest base_offset
        (if clz = new_class then clz else dc_merge_sysv_classes clz new_class)

/-- The switch over the type of a field. Empty structs are skipped. -/
def classForField (index offset : ℕ) (f : DCfield) : Option DCaggr → SysvClass
  | none => f.type.sysvClass
  | some sub_aggr =>
    if f.type = .aggregate then
      if f.size = 0 then .none
      else
        let j := firstElement index offset f
        let elements := (lastElement index offset f - j).toNat
        (List.range elements).foldl (fun (c : SysvClass) (i : ℕ) =>
          dc_merge_sysv_classes c
            (dc_get_sysv_class_for_8byte index sub_aggr (elementOffset offset f (j + i)))) .none
    else f.type.sysvClass

end

/-- What is written of the classes. SOURCE: dyncall_aggregate_x64.c:129-150 -/
def dc_get_sysv_classes_for_aggr (ag : DCaggr) : List SysvClass :=
  if 16 < ag.size then [.memory]
  else
    let first := dc_get_sysv_class_for_8byte 0 ag 0
    if first = .memory then [.memory]
    else
      let second := dc_get_sysv_class_for_8byte 1 ag 0
      if second = .memory then [.memory, .memory] else [first, second, .none]

/-- The descriptor with its classes. SOURCE: dyncall_aggregate.c:107-110 -/
def dcCloseAggr (ag : DCaggr) : SysvAggr := ⟨ag.size, dc_get_sysv_classes_for_aggr ag⟩

end Affix.Model
