import Affix.Foundation.Layout
import Affix.Foundation.Regions
import Affix.Interface.Decl

/-!
# Aggregates as nested regions

The members of a `Struct` or a `Union` are objects in it, at the offset and of
the size their type objects record. What a layout is good for, apart from being
the C layout or not, is said of these regions: a struct takes the first place
that its alignment allows for every member, members of a struct are apart, and
everything lies inside what it belongs to. And the members are those that were
declared.
-/

set_option autoImplicit false

namespace Affix.Interface

open Affix.Foundation Affix.Model

/-- The members an aggregate stores. -/
def members : TypeObj → List TypeObj
  | .struct _ store | .union _ store => store
  | _ => []

/-- Type objects as nested regions. -/
def recorded : Nesting TypeObj := ⟨members, TypeObj.offset, TypeObj.sizeof⟩

def IsAggregate : TypeObj → Prop
  | .struct .. | .union .. => True
  | _ => False

/-- Each member is at the least multiple of its recorded alignment that is not below the end
of the one before it. -/
def FirstFit : ℕ → List TypeObj → Prop
  | _, [] => True
  | e, m :: ms => IsLeast {o | m.align ∣ o ∧ e ≤ o} m.offset ∧ FirstFit (m.offset + m.sizeof) ms

/-- What is declared: the size and the alignment of a type, and of an aggregate its members, by
name and in order. -/
inductive Outline where
  | leaf (x : Extent)
  | struct (x : Extent) (fields : List (PerlStr × Outline))
  | union (x : Extent) (fields : List (PerlStr × Outline))

/-- The type objects of aggregates nested to any depth over leaves with a size and an
alignment, with what was declared. Anything may be a leaf that is no aggregate, and any slot but
these two may have been changed in between, by a qualifier, by `typedef` or by an earlier
placement. -/
inductive Nested : Outline → TypeObj → Prop
  | leaf {t : TypeObj} (ht : ¬ IsAggregate t) (hs : 0 < t.sizeof) (ha : 0 < t.align) :
      Nested (.leaf ⟨t.sizeof, t.align⟩) t
  | struct {members : List (PerlStr × Outline × TypeObj)} {t : TypeObj}
      (hmembers : ∀ p ∈ members, Nested p.2.1 p.2.2)
      (ht : Struct (members.map fun p => (p.1, p.2.2)) = .ok t) :
      Nested (.struct ⟨t.sizeof, t.align⟩ (members.map fun p => (p.1, p.2.1))) t
  | union {members : List (PerlStr × Outline × TypeObj)} {t : TypeObj}
      (hmembers : ∀ p ∈ members, Nested p.2.1 p.2.2)
      (ht : Union (members.map fun p => (p.1, p.2.2)) = t) :
      Nested (.union ⟨t.sizeof, t.align⟩ (members.map fun p => (p.1, p.2.1))) t
  | changed {o : Outline} {t : TypeObj} {f : Slots → Slots} (ht : Nested o t)
      (hf : ∀ s, (f s).sizeof = s.sizeof ∧ (f s).alignment = s.alignment) :
      Nested o (t.mapSlots f)

/-- **The type object is as declared**: its size and its alignment are those of the type, and the
members it stores are the declared ones in order, each under its name. -/
def Outline.RecordedBy : Outline → TypeObj → Prop
  | leaf x, t => (t.sizeof = x.size ∧ t.align = x.align) ∧ ¬ IsAggregate t
  | struct x fields, t => (t.sizeof = x.size ∧ t.align = x.align) ∧
      ∃ s store, t = .struct s store ∧ storedAs fields store
  | union x fields, t => (t.sizeof = x.size ∧ t.align = x.align) ∧
      ∃ s store, t = .union s store ∧ storedAs fields store
where
  storedAs : List (PerlStr × Outline) → List TypeObj → Prop
    | [], [] => True
    | (name, o) :: fields, m :: store =>
      m.field = some name ∧ o.RecordedBy m ∧ storedAs fields store
    | _, _ => False

/-- The size and the alignment of the value of a type expression. -/
def Decl.recordedExtent (d : Decl) : Extent :=
  match d.type with
  | .ok t => ⟨t.sizeof, t.align⟩
  | .error _ => ⟨0, 0⟩

/-- What a type expression declares. -/
def Decl.outline : Decl → Outline
  | .scalar k => .leaf ⟨k.sizeof, k.align⟩
  | .qualified _ d => d.outline
  | .pointer _ | .array _ _ | .codeRef _ _ => .leaf ⟨SIZEOF_INTPTR_T, ALIGNOF_INTPTR_T⟩
  | .struct fields => .struct (Decl.struct fields).recordedExtent (outlines fields)
  | .union fields => .union (Decl.union fields).recordedExtent (outlines fields)
where
  outlines : List (PerlStr × Decl) → List (PerlStr × Outline)
    | [] => []
    | (name, d) :: fs => (name, d.outline) :: outlines fs

/-- The leaves of a declaration have a size. -/
def Decl.SizedLeaves : Decl → Prop
  | .scalar k => 0 < k.sizeof
  | .qualified _ d => d.SizedLeaves
  | .pointer _ | .array _ _ | .codeRef _ _ => True
  | .struct fields | .union fields => allSized fields
where
  allSized : List (PerlStr × Decl) → Prop
    | [] => True
    | (_, d) :: fs => d.SizedLeaves ∧ allSized fs

/-- The layout is sound throughout the type object: at every struct and union nested in it,
and for everything nested in these, wherever it is in the whole. -/
structure SoundLayout (t : TypeObj) : Prop where
  firstFit : ∀ {path o s store}, recorded.locate t path = some (o, .struct s store) →
    FirstFit 0 store
  disjoint : ∀ {path o s store}, recorded.locate t path = some (o, .struct s store) →
    ∀ {i j p q o₁ o₂ m₁ m₂}, i ≠ j → recorded.locate t (path ++ i :: p) = some (o₁, m₁) →
      recorded.locate t (path ++ j :: q) = some (o₂, m₂) →
      o₁ + m₁.sizeof ≤ o₂ ∨ o₂ + m₂.sizeof ≤ o₁
  inParent : ∀ {path i o o' m m'}, recorded.locate t path = some (o, m) →
    recorded.locate t (path ++ [i]) = some (o', m') →
      o ≤ o' ∧ o' + m'.sizeof ≤ o + m.sizeof
  inWhole : ∀ {path o m}, recorded.locate t path = some (o, m) → o + m.sizeof ≤ t.sizeof
  structSize : ∀ {path o s store}, recorded.locate t path = some (o, .struct s store) →
    0 < s.sizeof ∧ BYTE_ALIGN ∣ s.sizeof
  unionMember : ∀ {path o s store}, recorded.locate t path = some (o, .union s store) →
    ∀ m ∈ store, m.offset + m.sizeof ≤ s.sizeof

end Affix.Interface
