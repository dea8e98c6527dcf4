import Affix.Analysis.Placement
import Affix.Interface.Decl

/-!
# Type objects that constructors build

A type object that comes out of the constructor functions obeys invariants that
an arbitrary array of slots does not. `type_induction` is the rule that proves
such an invariant: it is enough that each constructor keeps it. The invariant
proved here is that the recorded sizes are those of the kinds.

SOURCE: Type.pm:54-258
-/

set_option autoImplicit false

namespace Affix.Analysis

open Affix.Foundation Affix.Model Affix.Interface

/-- What a call of `Struct` that returns was given and returned. SOURCE: Struct.pm:23-72 -/
theorem Struct_cases {types : List (PerlStr × TypeObj)} {t : TypeObj} (h : Struct types = .ok t) :
    (∀ p ∈ types, p.2.align ≠ 0) ∧
      ∃ s, t = .struct s (placed (offsets 0 (extents types)) types) ∧
        s.alignment = BYTE_ALIGN ∧ s.offset = none ∧ s.arraylen = 1 ∧
        s.sizeof = placeEnd 0 (extents types) +
          padding_needed_for (placeEnd 0 (extents types)) BYTE_ALIGN := by
  have halign : ∀ p ∈ types, p.2.align ≠ 0 := by
    by_contra hcon
    push Not at hcon
    rw [Struct, Struct.loop_error hcon] at h
    simp at h
  obtain ⟨s, hS, hrest⟩ := Struct_eq halign
  rw [hS, Except.ok.injEq] at h
  exact ⟨halign, s, h.symm, hrest⟩

/-- The members stored in an aggregate are the given ones under their names. -/
theorem mem_placed {os : List ℕ} {types : List (PerlStr × TypeObj)} {m : TypeObj}
    (h : m ∈ placed os types) : ∃ o ∈ os, ∃ p ∈ types, m = p.2.withMember o p.1 := by
  obtain ⟨⟨o, p⟩, hop, rfl⟩ := List.mem_map.mp (by
    rw [placed, ← List.map_uncurry_zip_eq_zipWith] at h
    exact h)
  exact ⟨o, (List.of_mem_zip hop).1, p, (List.of_mem_zip hop).2, rfl⟩

/-- A property of type objects that every constructor function keeps. -/
structure ConstructorClosed (P : TypeObj → Prop) : Prop where
  scalar : ∀ k, P (scalarType k)
  qualified : ∀ q t, P t → P (Qualifier.apply q t)
  pointer : ∀ t, P t → P (Pointer t)
  array : ∀ t n, P t → P (ArrayType t n)
  codeRef : ∀ as r, (∀ a ∈ as, P a) → P r → P (CodeRef as r)
  struct : ∀ types t, (∀ p ∈ types, P p.2) → Struct types = .ok t → P t
  union : ∀ types, (∀ p ∈ types, P p.2) → P (Union types)

mutual

/-- **Induction over the constructors**: a property that every constructor function keeps
holds of every type object an expression evaluates to. -/
theorem type_induction {P : TypeObj → Prop} (hP : ConstructorClosed P) :
    ∀ {d : Decl} {t : TypeObj}, d.type = .ok t → P t
  | .scalar k, t, h => by
    rw [Decl.type, Except.ok.injEq] at h
    exact h ▸ hP.scalar k
  | .qualified q d, t, h => by
    obtain ⟨t', ht', rfl⟩ := Decl.map_eq_ok.mp h
    exact hP.qualified q t' (type_induction hP ht')
  | .pointer d, t, h => by
    obtain ⟨t', ht', rfl⟩ := Decl.map_eq_ok.mp h
    exact hP.pointer t' (type_induction hP ht')
  | .array d n, t, h => by
    obtain ⟨t', ht', rfl⟩ := Decl.map_eq_ok.mp h
    exact hP.array t' n (type_induction hP ht')
  | .codeRef args ret, t, h => by
    obtain ⟨as, r, hargs, hret, rfl⟩ := Decl.type_codeRef_eq_ok.mp h
    exact hP.codeRef as r (types_induction hP hargs) (type_induction hP hret)
  | .struct fields, t, h => by
    obtain ⟨ts, hts, ht⟩ := Decl.type_struct_eq_ok.mp h
    exact hP.struct ts t (memberTypes_induction hP hts) ht
  | .union fields, t, h => by
    obtain ⟨ts, hts, rfl⟩ := Decl.map_eq_ok.mp h
    exact hP.union ts (memberTypes_induction hP hts)

/-- The same for a list of expressions. -/
theorem types_induction {P : TypeObj → Prop} (hP : ConstructorClosed P) :
    ∀ {ds : List Decl} {ts : List TypeObj}, Decl.type.types ds = .ok ts → ∀ t ∈ ts, P t
  | [], ts, h => by
    rw [Decl.type.types, Except.ok.injEq] at h
    simp [← h]
  | d :: ds, ts, h => by
    obtain ⟨t, ts', ht, hts, rfl⟩ := Decl.types_cons_eq_ok.mp h
    rw [List.forall_mem_cons]
    exact ⟨type_induction hP ht, types_induction hP hts⟩

/-- The same for the members of an aggregate. -/
theorem memberTypes_induction {P : TypeObj → Prop} (hP : ConstructorClosed P) :
    ∀ {fields : List (PerlStr × Decl)} {ts : List (PerlStr × TypeObj)},
      Decl.type.memberTypes fields = .ok ts → ∀ p ∈ ts, P p.2
  | [], ts, h => by
    rw [Decl.type.memberTypes, Except.ok.injEq] at h
    simp [← h]
  | (name, d) :: fields, ts, h => by
    obtain ⟨t, ts', ht, hts, rfl⟩ := Decl.memberTypes_cons_eq_ok.mp h
    rw [List.forall_mem_cons]
    exact ⟨type_induction hP ht, memberTypes_induction hP hts⟩

end

/-- The recorded size of every scalar, pointer and callback in a type object, through its
aggregates, is the size of its kind. -/
def WellSized : TypeObj → Prop
  | .scalar k s => s.sizeof = k.sizeof
  | .pointer s _ => s.sizeof = SIZEOF_INTPTR_T
  | .codeRef s _ _ _ => s.sizeof = SIZEOF_INTPTR_T
  | .struct _ store => allWellSized store
  | .union _ store => allWellSized store
where
  /-- Every member is well sized. -/
  allWellSized : List TypeObj → Prop
    | [] => True
    | t :: ts => WellSized t ∧ allWellSized ts

theorem allWellSized_iff {ts : List TypeObj} :
    WellSized.allWellSized ts ↔ ∀ t ∈ ts, WellSized t := by
  induction ts with
  | nil => simp [WellSized.allWellSized]
  | cons t ts ih => rw [WellSized.allWellSized, ih, List.forall_mem_cons]

/-- Naming a member keeps its size. -/
theorem WellSized.withMember {t : TypeObj} (h : WellSized t) (o : ℕ) (n : PerlStr) :
    WellSized (t.withMember o n) := by
  cases t <;> exact h

/-- Qualifying a type keeps its size. -/
theorem WellSized.qualified {t : TypeObj} (h : WellSized t) (q : Qualifier) :
    WellSized (q.apply t) := by
  cases q <;> cases t <;> exact h

/-- **Every type object that is built is well sized.** SOURCE: Type.pm:54-258 -/
theorem wellSized_closed : ConstructorClosed WellSized where
  scalar _ := rfl
  qualified q _ ht := ht.qualified q
  pointer _ _ := rfl
  array _ _ _ := rfl
  codeRef _ _ _ _ := rfl
  struct types t hts hS := by
    obtain ⟨-, s, rfl, -⟩ := Struct_cases hS
    refine allWellSized_iff.mpr fun m hm => ?_
    obtain ⟨o, -, p, hp, rfl⟩ := mem_placed hm
    exact (hts p hp).withMember o p.1
  union types hts := by
    obtain ⟨s, hU, -⟩ := Union_eq types (P := fun _ _ => True) (by simp) trivial
    rw [hU]
    refine allWellSized_iff.mpr fun m hm => ?_
    obtain ⟨o, -, p, hp, rfl⟩ := mem_placed hm
    exact (hts p hp).withMember o p.1

end Affix.Analysis
