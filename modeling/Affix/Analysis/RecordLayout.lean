import Affix.Analysis.WellBuilt
import Affix.Interface.Record

/-!
# The layout of a record

What the marshaller relies on in the type object of a record: the fields have
names, no two of them the same, and lie one after another within the size of the
record, at every level. The type object of every record declaration is such.
-/

set_option autoImplicit false

namespace Affix.Analysis

open Affix.Foundation Affix.Model Affix.Interface

/-- The fields have names and lie one after another between two offsets. -/
def InOrder : (lo hi : ℕ) → List TypeObj → Prop
  | lo, hi, [] => lo ≤ hi
  | lo, hi, field :: rest => field.field.isSome = true ∧ lo ≤ field.offset ∧
      InOrder (field.offset + field.sizeof) hi rest

/-- The type object of a record or of a field of one. -/
def Marshals : TypeObj → Prop
  | .scalar k s => (reading k).isSome = true ∧ s.sizeof = k.sizeof
  | .pointer s subtype => s.sizeof = SIZEOF_INTPTR_T ∧ subtype.isChar = true
  | .struct s fields => (fields.map fieldKey).Nodup ∧ InOrder 0 s.sizeof fields ∧
      allMarshals fields
  | _ => False
where
  allMarshals : List TypeObj → Prop
    | [] => True
    | field :: rest => Marshals field ∧ allMarshals rest

theorem allMarshals_iff {fields : List TypeObj} :
    Marshals.allMarshals fields ↔ ∀ field ∈ fields, Marshals field := by
  induction fields with
  | nil => simp [Marshals.allMarshals]
  | cons field rest ih => rw [Marshals.allMarshals, ih, List.forall_mem_cons]

theorem InOrder.lo_le_hi {lo hi : ℕ} {fields : List TypeObj} (h : InOrder lo hi fields) :
    lo ≤ hi := by
  induction fields generalizing lo with
  | nil => exact h
  | cons field rest ih =>
    have hrest := ih h.2.2
    have hlo := h.2.1
    omega

theorem InOrder.mono {lo hi hi' : ℕ} {fields : List TypeObj} (h : InOrder lo hi fields)
    (hle : hi ≤ hi') : InOrder lo hi' fields := by
  induction fields generalizing lo with
  | nil => exact Nat.le_trans h hle
  | cons field rest ih => exact ⟨h.1, h.2.1, ih h.2.2⟩

/-- Sequential placement puts the fields in order. -/
theorem inOrder_placed {types : List (PerlStr × TypeObj)} (h : ∀ p ∈ types, p.2.align ≠ 0)
    (lo : ℕ) :
    InOrder lo (placeEnd lo (extents types)) (placed (offsets lo (extents types)) types) := by
  induction types generalizing lo with
  | nil => exact le_refl lo
  | cons p rest ih =>
    have halign : 0 < p.2.align := Nat.pos_of_ne_zero (h p List.mem_cons_self)
    have hrest := ih (fun q hq => h q (List.mem_cons_of_mem _ hq))
      (alignUp lo p.2.align + p.2.sizeof)
    refine ⟨?_, ?_, ?_⟩
    · show (TypeObj.field (p.2.withMember _ p.1)).isSome = true
      rw [TypeObj.field_withMember]
      rfl
    · show lo ≤ (p.2.withMember _ p.1).offset
      rw [TypeObj.offset_withMember]
      exact le_alignUp halign
    · show InOrder ((p.2.withMember _ p.1).offset + (p.2.withMember _ p.1).sizeof) _ _
      rw [TypeObj.offset_withMember, TypeObj.sizeof_withMember]
      exact hrest

theorem map_fieldKey_placed (types : List (PerlStr × TypeObj)) (lo : ℕ) :
    (placed (offsets lo (extents types)) types).map fieldKey = types.map fun p => p.1.chars := by
  induction types generalizing lo with
  | nil => rfl
  | cons p rest ih =>
    have hkey : fieldKey (p.2.withMember (alignUp lo p.2.align) p.1) = p.1.chars := by
      rw [fieldKey, TypeObj.field_withMember]
      rfl
    show fieldKey (p.2.withMember (alignUp lo p.2.align) p.1) :: _ = p.1.chars :: _
    rw [hkey]
    exact congrArg _ (ih _)

theorem Marshals.withMember {t : TypeObj} (h : Marshals t) (o : ℕ) (n : PerlStr) :
    Marshals (t.withMember o n) := by
  cases t <;> exact h

/-- The value of a member list has the names of the members. -/
theorem names_memberTypes {fields : List (PerlStr × Decl)} {ts : List (PerlStr × TypeObj)}
    (h : Decl.type.memberTypes fields = .ok ts) :
    ts.map (fun p => p.1.chars) = fields.map fun f => f.1.chars := by
  have hall := Decl.memberTypes_forall₂ h
  clear h
  induction hall with
  | nil => rfl
  | @cons f p fs ps hp _ ih =>
    rw [List.map_cons, List.map_cons, hp.1, ih]

mutual

/-- **Every record declaration builds such a type object.** -/
theorem marshals_of_record : ∀ {d : Decl} {t : TypeObj}, d.Record → d.type = .ok t → Marshals t
  | .scalar k, t, hd, ht => by
    rw [Decl.type, Except.ok.injEq] at ht
    rw [← ht]
    exact ⟨hd, rfl⟩
  | .pointer d, t, hd, ht => by
    have hchar : d = .qualified .Const (.scalar .Char) := hd
    rw [hchar] at ht
    cases ht
    exact ⟨rfl, rfl⟩
  | .struct fields, t, hd, ht => by
    obtain ⟨ts, hts, hS⟩ := Decl.type_struct_eq_ok.mp ht
    obtain ⟨halign, s, rfl, -, -, -, hsize⟩ := Struct_cases hS
    refine ⟨?_, ?_, ?_⟩
    · rw [map_fieldKey_placed, names_memberTypes hts]
      exact hd.1
    · refine (inOrder_placed halign 0).mono ?_
      rw [hsize]
      exact Nat.le_add_right _ _
    · refine allMarshals_iff.mpr fun m hm => ?_
      obtain ⟨o, -, p, hp, rfl⟩ := mem_placed hm
      exact (marshals_of_allRecord hd.2 hts p hp).withMember o p.1

theorem marshals_of_allRecord : ∀ {fields : List (PerlStr × Decl)}
    {ts : List (PerlStr × TypeObj)}, Decl.Record.allRecord fields →
      Decl.type.memberTypes fields = .ok ts → ∀ p ∈ ts, Marshals p.2
  | [], ts, _, h => by
    rw [Decl.type.memberTypes, Except.ok.injEq] at h
    simp [← h]
  | (name, d) :: fields, ts, hd, h => by
    obtain ⟨t, ts', ht, hts, rfl⟩ := Decl.memberTypes_cons_eq_ok.mp h
    rw [List.forall_mem_cons]
    exact ⟨marshals_of_record hd.1 ht, marshals_of_allRecord hd.2 hts⟩

end

end Affix.Analysis
