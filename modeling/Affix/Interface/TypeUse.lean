import Affix.Model.TypeHeap

/-!
# Types that are used

A program makes type objects and builds aggregates from them, and an object may
be a member of many. What is stored of a member should describe the same type as
the object it was made from, and building an aggregate should not change what any
type it is built from reports.
-/

set_option autoImplicit false

namespace Affix.Interface

open Affix.Model

/-- What a program does with types: `Struct`, `Union`, or a constructor that makes an object
and writes into no other. -/
inductive TypeOp where
  | make (t : TypeArray)
  | Struct (types : List (PerlStr × ℕ))
  | Union (types : List (PerlStr × ℕ))

namespace TypeOp

def types : TypeOp → List (PerlStr × ℕ)
  | make _ => []
  | Struct types | Union types => types

def perform (h : TypeHeap) : TypeOp → TypeHeap × Except TypeError ℕ
  | make t => (h ++ [t], .ok h.length)
  | Struct types => h.Struct types
  | Union types => h.Union types

end TypeOp

/-- One operation, on members that are there. One that dies leaves what it has written. -/
def TypeStep (h : TypeHeap) (op : TypeOp) (h' : TypeHeap) : Prop :=
  (∀ p ∈ op.types, p.2 < h.length) ∧ h' = (op.perform h).1

/-! ## Describing the same type -/

/-- The copy is the object but for its offset and its name, and has the argument list of a
callback. -/
structure Describes (copy t : TypeArray) : Prop where
  isa : copy.isa = t.isa
  slots : ∀ i, i ≠ SLOT_TYPE_OFFSET → i ≠ SLOT_TYPE_FIELD → copy.get i = t.get i
  args : t.flag = .flag .codeRef →
    ∃ ts, t.get SLOT_CODEREF_ARGS = .types ts ∧ copy.get SLOT_CODEREF_ARGS = .types ts

/-- The stored member that a path of positions leads to. -/
def memberAt (h : TypeHeap) : ℕ → List ℕ → Option ℕ
  | a, [] => some a
  | a, i :: is =>
    match (h.get a).store[i]? with
    | none => none
    | some c => memberAt h c is

/-! ## What a type reports -/

/-- The object reports the same in both heaps: its size, its alignment, its string form, and
the offset of every path. -/
structure SameReports (h h' : TypeHeap) (t : ℕ) : Prop where
  sizeof : (h'.get t).sizeof = (h.get t).sizeof
  align : (h'.get t).align = (h.get t).align
  str : (h'.get t).str = (h.get t).str
  offsetof : ∀ path, h'.offsetof t path = h.offsetof t path

/-- A member at the offset an aggregate gives it. -/
structure Placement where
  t : ℕ
  offset : ℕ
  field : PerlStr

/-- The members of a struct from a running size on, up to the first it cannot align. -/
def structPlacements (h : TypeHeap) : ℕ → List (PerlStr × ℕ) → List Placement
  | _, [] => []
  | sizeof, (field, t) :: rest =>
    if (h.get t).align = 0 then []
    else
      let offset := (sizeof + (h.get t).align - 1) / (h.get t).align * (h.get t).align
      ⟨t, offset, field⟩ :: structPlacements h (offset + (h.get t).sizeof) rest

/-- Where an operation puts its members. -/
def TypeOp.placements (h : TypeHeap) : TypeOp → List Placement
  | make _ => []
  | Struct types => structPlacements h 0 types
  | Union types => types.map fun p => ⟨p.2, 0, p.1⟩

/-- Where an object is put last. -/
def lastPlacement (t : ℕ) : List Placement → Option Placement
  | [] => none
  | p :: ps =>
    match lastPlacement t ps with
    | some q => some q
    | none => if p.t = t then some p else none

/-- The object is a member that an aggregate stores. -/
def Stored (h : TypeHeap) (t : ℕ) : Prop := ∃ s < h.length, t ∈ (h.get s).store

/-- The object is an aggregate that has members. -/
def HasMembers (h : TypeHeap) (t : ℕ) : Prop :=
  ((h.get t).isa = .struct ∨ (h.get t).isa = .union) ∧ (h.get t).store ≠ []

/-- The members that some types store, and the members that these store. -/
inductive Below (watched : List ℕ) (h : TypeHeap) : ℕ → Prop where
  | member {t c : ℕ} : t ∈ watched → c ∈ (h.get t).store → Below watched h c
  | deeper {s c : ℕ} : Below watched h s → c ∈ (h.get s).store → Below watched h c

/-- **An operation that leaves some types alone**: it puts each of them that has members last
where it is already, which is at zero if it has not been put anywhere. The members that they
store are no members of the new aggregate, or get the offset and the name that they have. -/
structure Harmless (watched : List ℕ) (h : TypeHeap) (op : TypeOp) : Prop where
  inPlace : ∀ t ∈ watched, HasMembers h t →
    ∀ p, lastPlacement t (op.placements h) = some p → p.offset = (h.get t).offset
  asStored : ∀ c, Below watched h c → ∀ p, lastPlacement c (op.placements h) = some p →
    p.offset = (h.get c).offset ∧ p.field.chars = (h.get c).field

/-- Stored members are objects of the heap. -/
def Closed (h : TypeHeap) : Prop := ∀ t, Stored h t → t < h.length

end Affix.Interface
