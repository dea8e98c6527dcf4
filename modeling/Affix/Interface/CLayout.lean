import Affix.Foundation.Layout
import Affix.Interface.Decl

/-!
# The C layout of a declaration

What a System V x86-64 compiler does with the same members: scalars and pointers
are naturally aligned, a struct places its members in order, a union overlays
them, an aggregate is aligned as its most aligned member and padded to that
alignment. `Agrees` compares a type object with it, member by member and level
by level. None of this is translated from the source; it is what the source is
measured against.
-/

set_option autoImplicit false

namespace Affix.Interface

open Affix.Foundation Affix.Model

namespace Decl

/-- The C size and alignment of a declaration. -/
def cExtent : Decl → Extent
  | scalar k => ⟨k.sizeof, k.align⟩
  | qualified _ d => d.cExtent
  | pointer _ | array _ _ | codeRef _ _ => ⟨8, 8⟩
  | struct fields =>
    let xs := cExtents fields
    ⟨alignUp (placeEnd 0 xs) (maxAlign xs), maxAlign xs⟩
  | union fields =>
    let xs := cExtents fields
    ⟨alignUp (maxSize xs) (maxAlign xs), maxAlign xs⟩
where
  cExtents : List (PerlStr × Decl) → List Extent
    | [] => []
    | (_, d) :: fs => d.cExtent :: cExtents fs

/-- The size, the alignment and, through every nested aggregate, the member offsets a
type object records are those of the C declaration. -/
def Agrees : Decl → TypeObj → Prop
  | scalar k, t => t.sizeof = k.sizeof ∧ t.align = k.align
  | qualified _ d, t => d.Agrees t
  | pointer _, t | array _ _, t | codeRef _ _, t => t.sizeof = 8 ∧ t.align = 8
  | struct fields, t =>
    (t.sizeof = (struct fields).cExtent.size ∧ t.align = (struct fields).cExtent.align) ∧
      ∃ s store, t = .struct s store ∧
        agreeMembers fields (offsets 0 (cExtent.cExtents fields)) store
  | union fields, t =>
    (t.sizeof = (union fields).cExtent.size ∧ t.align = (union fields).cExtent.align) ∧
      ∃ s store, t = .union s store ∧
        agreeMembers fields (fields.map fun _ => 0) store
where
  agreeMembers : List (PerlStr × Decl) → List ℕ → List TypeObj → Prop
    | [], [], [] => True
    | (_, d) :: fs, o :: os, t :: ts =>
      t.slots.offset = some o ∧ d.Agrees t ∧ agreeMembers fs os ts
    | _, _, _ => False

/-- The declarations the comparison ranges over: object types, pointers to anything that
can be built, and aggregates of these with at least one member. -/
def Laid : Decl → Prop
  | scalar k => k ≠ .Void ∧ k ≠ .SV
  | qualified _ d => d.Laid
  | pointer d => ∃ t, d.type = .ok t
  | array _ _ => False
  | codeRef args ret => ∃ t, (codeRef args ret).type = .ok t
  | struct fields => fields ≠ [] ∧ allLaid fields
  | union fields => fields ≠ [] ∧ allLaid fields
where
  allLaid : List (PerlStr × Decl) → Prop
    | [] => True
    | (_, d) :: fs => d.Laid ∧ allLaid fs

/-- A member with eight-byte alignment occurs at some depth, not counting what is behind
a pointer. -/
def HasWide : Decl → Prop
  | scalar k => k.sizeof = 8
  | qualified _ d => d.HasWide
  | pointer _ | array _ _ | codeRef _ _ => True
  | struct fields => anyWide fields
  | union fields => anyWide fields
where
  anyWide : List (PerlStr × Decl) → Prop
    | [] => False
    | (_, d) :: fs => d.HasWide ∨ anyWide fs

/-- Every aggregate in the declaration, itself included, has a wide member. -/
def WideEverywhere : Decl → Prop
  | scalar _ | pointer _ | array _ _ | codeRef _ _ => True
  | qualified _ d => d.WideEverywhere
  | struct fields => HasWide.anyWide fields ∧ allWide fields
  | union fields => HasWide.anyWide fields ∧ allWide fields
where
  allWide : List (PerlStr × Decl) → Prop
    | [] => True
    | (_, d) :: fs => d.WideEverywhere ∧ allWide fs

end Decl

end Affix.Interface
