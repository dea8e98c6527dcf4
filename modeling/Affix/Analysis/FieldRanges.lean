import Affix.Analysis.WellBuilt
import Affix.Interface.Nested

/-!
# Where the fields of an aggregate are

Every constructor keeps the layout sound at the object it makes: `Struct` places
its members by first fit and rounds its size up, `Union` overlays its members and
is as large as the largest. A stored member is a changed copy of the object that
was given, so it is sound as that was, and as declared as that was. The general
facts about nested regions do the rest.

SOURCE: Struct.pm:23-72, Union.pm:23-62, Platform.pm:4-13
-/

set_option autoImplicit false

namespace Affix.Analysis

open Affix.Foundation Affix.Model Affix.Interface

/-- What a constructor is responsible for in the object it makes. -/
def SoundHere : TypeObj → Prop
  | .struct s store => FirstFit 0 store ∧ (∀ m ∈ store, m.offset + m.sizeof ≤ s.sizeof) ∧
      0 < s.sizeof ∧ BYTE_ALIGN ∣ s.sizeof
  | .union s store => ∀ m ∈ store, m.offset + m.sizeof ≤ s.sizeof
  | _ => True

/-! ## The constructors -/

theorem firstFit_placed {types : List (PerlStr × TypeObj)} (h : ∀ p ∈ types, p.2.align ≠ 0)
    (e : ℕ) : FirstFit e (placed (offsets e (extents types)) types) := by
  induction types generalizing e with
  | nil => trivial
  | cons p rest ih =>
    have halign : 0 < p.2.align := Nat.pos_of_ne_zero (h p List.mem_cons_self)
    have hrest := ih (fun q hq => h q (List.mem_cons_of_mem _ hq))
      (alignUp e p.2.align + p.2.sizeof)
    constructor
    · show IsLeast {o | (p.2.withMember _ p.1).align ∣ o ∧ e ≤ o} (p.2.withMember _ p.1).offset
      rw [TypeObj.align_withMember, TypeObj.offset_withMember]
      exact isLeast_alignUp halign
    · show FirstFit ((p.2.withMember _ p.1).offset + (p.2.withMember _ p.1).sizeof) _
      rw [TypeObj.offset_withMember, TypeObj.sizeof_withMember]
      exact hrest

/-- Members placed by first fit end no later than the placement. -/
theorem end_le_placeEnd {types : List (PerlStr × TypeObj)} (h : ∀ p ∈ types, p.2.align ≠ 0)
    (e : ℕ) {m : TypeObj} (hm : m ∈ placed (offsets e (extents types)) types) :
    m.offset + m.sizeof ≤ placeEnd e (extents types) := by
  induction types generalizing e with
  | nil => cases hm
  | cons p rest ih =>
    have hrest := fun q hq => h q (List.mem_cons_of_mem p hq)
    have hpos : ∀ x ∈ extents rest, 0 < x.align := by
      intro x hx
      obtain ⟨q, hq, rfl⟩ := List.mem_map.mp hx
      exact Nat.pos_of_ne_zero (hrest q hq)
    rcases List.mem_cons.mp hm with rfl | hm
    · rw [TypeObj.offset_withMember, TypeObj.sizeof_withMember]
      exact le_placeEnd hpos
    · exact ih hrest _ hm

/-- The padding rounds any size up to a positive multiple of eight, the empty one too. -/
theorem padded_size (n : ℕ) : 0 < n + padding_needed_for n BYTE_ALIGN ∧
    BYTE_ALIGN ∣ n + padding_needed_for n BYTE_ALIGN := by
  by_cases hn : n = 0
  · rw [hn]
    exact ⟨by decide, by decide⟩
  · rw [add_padding_needed_for hn (by decide)]
    exact ⟨alignUp_pos (Nat.pos_of_ne_zero hn) (by decide), dvd_alignUp _ _⟩

theorem soundHere_struct {types : List (PerlStr × TypeObj)} {t : TypeObj}
    (h : Struct types = .ok t) : SoundHere t := by
  obtain ⟨halign, s, rfl, -, -, -, hsize⟩ := Struct_cases h
  refine ⟨firstFit_placed halign 0, fun m hm => ?_, ?_⟩
  · have hend := end_le_placeEnd halign 0 hm
    omega
  · rw [hsize]
    exact padded_size _

theorem soundHere_union (types : List (PerlStr × TypeObj)) : SoundHere (Union types) := by
  obtain ⟨s, hU, -, -, -, hsize⟩ := Union_eq types (P := fun _ _ => True) (by simp) trivial
  rw [hU]
  intro m hm
  obtain ⟨o, ho, p, hp, rfl⟩ := mem_placed hm
  obtain ⟨-, -, rfl⟩ := List.mem_map.mp ho
  have hmax : p.2.sizeof ≤ maxSize (extents types) :=
    size_le_maxSize (x := p.2.extent) (List.mem_map_of_mem hp)
  rw [TypeObj.offset_withMember, TypeObj.sizeof_withMember, hsize]
  omega

/-! ## Every nested object -/

theorem members_mapSlots (f : Slots → Slots) (t : TypeObj) :
    members (t.mapSlots f) = members t := by
  cases t <;> rfl

theorem SoundHere.mapSlots {t : TypeObj} (h : SoundHere t) {f : Slots → Slots}
    (hf : ∀ s, (f s).sizeof = s.sizeof) : SoundHere (t.mapSlots f) := by
  cases t with
  | struct s store =>
    show FirstFit 0 store ∧ (∀ m ∈ store, m.offset + m.sizeof ≤ (f s).sizeof) ∧
      0 < (f s).sizeof ∧ BYTE_ALIGN ∣ (f s).sizeof
    rw [hf]
    exact h
  | union s store =>
    show ∀ m ∈ store, m.offset + m.sizeof ≤ (f s).sizeof
    rw [hf]
    exact h
  | _ => trivial

/-- A stored member is nested as the given object is. -/
theorem nested_withMember {d : Outline} {t : TypeObj} (h : Nested d t) (o : ℕ) (n : PerlStr) :
    Nested d (t.withMember o n) := by
  by_cases ht : IsAggregate t
  · have hmap : t.withMember o n =
        t.mapSlots fun s => { s with offset := some o, field := some n } := by
      cases t <;> first | rfl | exact ht.elim
    rw [hmap]
    exact h.changed fun _ => ⟨rfl, rfl⟩
  · have hleaf : d = .leaf ⟨t.sizeof, t.align⟩ ∧ 0 < t.sizeof ∧ 0 < t.align := by
      clear o n
      induction h with
      | leaf _ hs ha => exact ⟨rfl, hs, ha⟩
      | struct _ hS =>
        obtain ⟨-, s, rfl, -⟩ := Struct_cases hS
        exact absurd trivial ht
      | union _ hU =>
        subst hU
        exact absurd trivial ht
      | @changed d u f hu hf ih =>
        have hu' : ¬ IsAggregate u := by
          cases u <;> exact ht
        have hsize := hf u.slots
        unfold TypeObj.sizeof TypeObj.align at ih ⊢
        rw [TypeObj.slots_mapSlots, hsize.1, hsize.2]
        exact ih hu'
    obtain ⟨rfl, hs, ha⟩ := hleaf
    have hmember : Nested (.leaf ⟨(t.withMember o n).sizeof, (t.withMember o n).align⟩)
        (t.withMember o n) := by
      refine .leaf ?_ ?_ ?_
      · cases t <;> exact ht
      · rw [TypeObj.sizeof_withMember]
        exact hs
      · rw [TypeObj.align_withMember]
        exact ha
    rwa [TypeObj.sizeof_withMember, TypeObj.align_withMember] at hmember

/-- **Every object nested in a nested aggregate is sound**, by induction over how it was
built. -/
theorem soundHere_of_nested {d : Outline} {t : TypeObj} (h : Nested d t) :
    SoundHere t ∧ ∀ m ∈ members t, ∃ d', Nested d' m := by
  induction h with
  | @leaf t ht _ _ =>
    cases t <;> first | exact absurd trivial ht | exact ⟨trivial, by simp [members]⟩
  | struct hts hS _ =>
    refine ⟨soundHere_struct hS, ?_⟩
    obtain ⟨-, s, rfl, -⟩ := Struct_cases hS
    intro m hm
    obtain ⟨o, -, p, hp, rfl⟩ := mem_placed hm
    obtain ⟨q, hq, rfl⟩ := List.mem_map.mp hp
    exact ⟨q.2.1, nested_withMember (hts q hq) o q.1⟩
  | @union ps _ hts hU _ =>
    subst hU
    refine ⟨soundHere_union _, ?_⟩
    obtain ⟨s, hU, -⟩ := Union_eq (ps.map fun p => (p.1, p.2.2)) (P := fun _ _ => True) (by simp)
      trivial
    rw [hU]
    intro m hm
    obtain ⟨o, -, p, hp, rfl⟩ := mem_placed hm
    obtain ⟨q, hq, rfl⟩ := List.mem_map.mp hp
    exact ⟨q.2.1, nested_withMember (hts q hq) o q.1⟩
  | changed _ hf ih =>
    rw [members_mapSlots]
    exact ⟨ih.1.mapSlots fun s => (hf s).1, ih.2⟩

/-! ## What is stored -/

/-- Being as declared depends on the size, the alignment and the members. -/
theorem recordedBy_congr {d : Outline} {t t' : TypeObj} (h : d.RecordedBy t)
    (hs : t'.sizeof = t.sizeof) (ha : t'.align = t.align)
    (hleaf : ¬ IsAggregate t → ¬ IsAggregate t')
    (hstruct : ∀ s store, t = .struct s store → ∃ s', t' = .struct s' store)
    (hunion : ∀ s store, t = .union s store → ∃ s', t' = .union s' store) : d.RecordedBy t' := by
  cases d with
  | leaf x => exact ⟨⟨hs.trans h.1.1, ha.trans h.1.2⟩, hleaf h.2⟩
  | struct x fields =>
    obtain ⟨hx, s, store, heq, hstored⟩ := h
    obtain ⟨s', heq'⟩ := hstruct s store heq
    exact ⟨⟨hs.trans hx.1, ha.trans hx.2⟩, s', store, heq', hstored⟩
  | union x fields =>
    obtain ⟨hx, s, store, heq, hstored⟩ := h
    obtain ⟨s', heq'⟩ := hunion s store heq
    exact ⟨⟨hs.trans hx.1, ha.trans hx.2⟩, s', store, heq', hstored⟩

theorem recordedBy_withMember {d : Outline} {t : TypeObj} (h : d.RecordedBy t) (o : ℕ)
    (n : PerlStr) : d.RecordedBy (t.withMember o n) := by
  have hsize := TypeObj.sizeof_withMember o n t
  refine recordedBy_congr h hsize (TypeObj.align_withMember o n t) ?_ ?_ ?_
  · intro ht
    cases t <;> exact ht
  · rintro s store rfl
    exact ⟨_, rfl⟩
  · rintro s store rfl
    exact ⟨_, rfl⟩

/-- **The constructors store what is declared**, whatever the places. -/
theorem storedAs_placed {members : List (PerlStr × Outline × TypeObj)}
    (h : ∀ p ∈ members, p.2.1.RecordedBy p.2.2) {os : List ℕ} (hlen : os.length = members.length) :
    Outline.RecordedBy.storedAs (members.map fun p => (p.1, p.2.1))
      (placed os (members.map fun p => (p.1, p.2.2))) := by
  induction members generalizing os with
  | nil =>
    obtain rfl := List.length_eq_zero_iff.mp hlen
    trivial
  | cons p members ih =>
    obtain ⟨o, os, rfl⟩ := List.exists_cons_of_length_eq_add_one hlen
    obtain ⟨hp, hmembers⟩ := List.forall_mem_cons.mp h
    exact ⟨TypeObj.field_withMember o p.1 p.2.2, recordedBy_withMember hp o p.1,
      ih hmembers (Nat.succ.inj hlen)⟩

/-- **A nested aggregate is as declared**, by induction over how it was built. -/
theorem recordedBy_of_nested {d : Outline} {t : TypeObj} (h : Nested d t) : d.RecordedBy t := by
  induction h with
  | leaf ht _ _ => exact ⟨⟨rfl, rfl⟩, ht⟩
  | struct _ hS ih =>
    obtain ⟨-, s, rfl, -⟩ := Struct_cases hS
    exact ⟨⟨rfl, rfl⟩, s, _, rfl, storedAs_placed ih (by simp [length_offsets, extents])⟩
  | @union ps t _ hU ih =>
    obtain ⟨s, hU', -⟩ := Union_eq (ps.map fun p => (p.1, p.2.2)) (P := fun _ _ => True) (by simp)
      trivial
    exact ⟨⟨rfl, rfl⟩, s, _, hU.symm.trans hU', storedAs_placed ih (by simp)⟩
  | @changed d t f _ hf ih =>
    refine recordedBy_congr ih ?_ ?_ ?_ ?_ ?_
    · exact (congrArg Slots.sizeof (TypeObj.slots_mapSlots f t)).trans (hf t.slots).1
    · exact (congrArg Slots.alignment (TypeObj.slots_mapSlots f t)).trans (hf t.slots).2
    · intro ht
      cases t <;> exact ht
    · rintro s store rfl
      exact ⟨f s, rfl⟩
    · rintro s store rfl
      exact ⟨f s, rfl⟩

/-! ## The layout -/

theorem SoundHere.holds {t : TypeObj} (h : SoundHere t) : recorded.Holds t := by
  cases t with
  | struct s store => exact h.2.1
  | union s store => exact h
  | _ => intro m hm; cases hm

theorem le_offset_of_firstFit {e : ℕ} {store : List TypeObj} (h : FirstFit e store) {m : TypeObj}
    (hm : m ∈ store) : e ≤ m.offset := by
  induction store generalizing e with
  | nil => cases hm
  | cons f rest ih =>
    have hf : e ≤ f.offset := h.1.1.2
    rcases List.mem_cons.mp hm with rfl | hm
    · exact hf
    · have hrest := ih h.2 hm
      omega

/-- Members placed by first fit follow one another. -/
theorem pairwise_of_firstFit {e : ℕ} {store : List TypeObj} (h : FirstFit e store) :
    store.Pairwise fun m m' => m.offset + m.sizeof ≤ m'.offset := by
  induction store generalizing e with
  | nil => exact .nil
  | cons f rest ih => exact .cons (fun m hm => le_offset_of_firstFit h.2 hm) (ih h.2)

/-- **The layout is sound at every nesting level** of every aggregate whose leaves have a
size and an alignment, and its members are the declared ones. SOURCE: Struct.pm:23-72,
Union.pm:23-62 -/
theorem nested_soundLayout {d : Outline} {t : TypeObj} (h : Nested d t) :
    d.RecordedBy t ∧ SoundLayout t := by
  have hP : ∀ u, (∃ d, Nested d u) →
      recorded.Holds u ∧ ∀ m ∈ recorded.members u, ∃ d, Nested d m :=
    fun u ⟨_, hu⟩ => ⟨(soundHere_of_nested hu).1.holds, (soundHere_of_nested hu).2⟩
  have hnested : ∀ {path o m}, recorded.locate t path = some (o, m) → ∃ d, Nested d m :=
    fun hloc => Nesting.locate_invariant hP ⟨d, h⟩ hloc
  have hsound : ∀ {path o m}, recorded.locate t path = some (o, m) → SoundHere m := fun hloc =>
    have ⟨_, hu⟩ := hnested hloc
    (soundHere_of_nested hu).1
  refine ⟨recordedBy_of_nested h, ?_⟩
  constructor
  case firstFit => exact fun hloc => (hsound hloc).1
  case structSize => exact fun hloc => (hsound hloc).2.2
  case unionMember => exact fun hloc => hsound hloc
  case inWhole => exact fun hloc => Nesting.locate_inside hP ⟨d, h⟩ hloc
  case inParent =>
    intro path i o o' m m' hloc hloc'
    obtain ⟨o₁, f, o₂, hf, hrest, rfl⟩ := Nesting.locate_append.mp hloc'
    cases hloc.symm.trans hf
    have hinside : o₂ + m'.sizeof ≤ m.sizeof := Nesting.locate_inside hP (hnested hloc) hrest
    constructor <;> omega
  case disjoint =>
    intro path o s store hloc i j p q o₁ o₂ m₁ m₂ hij h₁ h₂
    obtain ⟨a, f, b, hf, hi, rfl⟩ := Nesting.locate_append.mp h₁
    obtain ⟨a', f', b', hf', hj, rfl⟩ := Nesting.locate_append.mp h₂
    cases hloc.symm.trans hf
    cases hloc.symm.trans hf'
    have hapart : recorded.Apart (.struct s store) := pairwise_of_firstFit (hsound hloc).1
    rcases Nat.lt_or_gt_of_ne hij with hlt | hlt
    · have hle := Nesting.locate_apart hP (hnested hloc) hapart hlt hi hj
      left
      show o + b + recorded.size m₁ ≤ o + b'
      omega
    · have hle := Nesting.locate_apart hP (hnested hloc) hapart hlt hj hi
      right
      show o + b' + recorded.size m₂ ≤ o + b
      omega

mutual

/-- Every declaration whose leaves have a size evaluates to such a type object. -/
theorem nested_of_type : ∀ {d : Decl} {t : TypeObj}, d.SizedLeaves → d.type = .ok t →
    Nested d.outline t
  | .scalar k, t, hd, h => by
    rw [Decl.type, Except.ok.injEq] at h
    rw [← h]
    exact .leaf (t := scalarType k) (fun hagg => hagg) hd hd
  | .qualified q d, t, hd, h => by
    obtain ⟨t', ht', rfl⟩ := Decl.map_eq_ok.mp h
    have hnested : Nested d.outline t' := nested_of_type (d := d) hd ht'
    rw [Decl.outline]
    cases q <;> exact hnested.changed fun _ => ⟨rfl, rfl⟩
  | .pointer d, t, _, h => by
    obtain ⟨t', -, rfl⟩ := Decl.map_eq_ok.mp h
    exact .leaf (t := Pointer t') (fun hagg => hagg) (Nat.succ_pos 7) (Nat.succ_pos 7)
  | .array d n, t, _, h => by
    obtain ⟨t', -, rfl⟩ := Decl.map_eq_ok.mp h
    exact .leaf (t := ArrayType t' n) (fun hagg => hagg) (Nat.succ_pos 7) (Nat.succ_pos 7)
  | .codeRef args ret, t, _, h => by
    obtain ⟨as, r, -, -, rfl⟩ := Decl.type_codeRef_eq_ok.mp h
    exact .leaf (t := CodeRef as r) (fun hagg => hagg) (Nat.succ_pos 7) (Nat.succ_pos 7)
  | .struct fields, t, hd, h => by
    obtain ⟨ts, hts, ht⟩ := Decl.type_struct_eq_ok.mp h
    obtain ⟨members, hmembers, hfields, rfl⟩ := nested_of_memberTypes hd hts
    rw [Decl.outline, Decl.recordedExtent, h, ← hfields]
    exact .struct hmembers ht
  | .union fields, t, hd, h => by
    obtain ⟨ts, hts, ht⟩ := Decl.map_eq_ok.mp h
    obtain ⟨members, hmembers, hfields, rfl⟩ := nested_of_memberTypes hd hts
    rw [Decl.outline, Decl.recordedExtent, h, ← hfields]
    exact .union hmembers ht

theorem nested_of_memberTypes : ∀ {fields : List (PerlStr × Decl)} {ts : List (PerlStr × TypeObj)},
    Decl.SizedLeaves.allSized fields → Decl.type.memberTypes fields = .ok ts →
      ∃ members : List (PerlStr × Outline × TypeObj), (∀ p ∈ members, Nested p.2.1 p.2.2) ∧
        (members.map fun p => (p.1, p.2.1)) = Decl.outline.outlines fields ∧
        (members.map fun p => (p.1, p.2.2)) = ts
  | [], ts, _, h => by
    rw [Decl.type.memberTypes, Except.ok.injEq] at h
    exact ⟨[], List.forall_mem_nil _, rfl, h⟩
  | (name, d) :: fields, ts, hd, h => by
    obtain ⟨t, ts', ht, hts, rfl⟩ := Decl.memberTypes_cons_eq_ok.mp h
    obtain ⟨members, hmembers, hfields, rfl⟩ := nested_of_memberTypes hd.2 hts
    refine ⟨(name, d.outline, t) :: members,
      List.forall_mem_cons.mpr ⟨nested_of_type hd.1 ht, hmembers⟩, ?_, rfl⟩
    rw [List.map_cons, hfields]
    rfl

end

/-- `Struct[ c => Char, s => Struct[ i => Int ], u => Union[ c => Char, d => Double ] ]`. -/
def charStructUnion : Decl :=
  .struct [(.ofBytes [0x63], .scalar .Char),
    (.ofBytes [0x73], .struct [(.ofBytes [0x69], .scalar .Int)]),
    (.ofBytes [0x75],
      .union [(.ofBytes [0x63], .scalar .Char), (.ofBytes [0x64], .scalar .Double)])]

/-- Three levels of members, each under its name and where it should be. -/
theorem soundLayout_charStructUnion :
    ∃ t, charStructUnion.type = .ok t ∧
      Outline.RecordedBy (.struct ⟨24, 8⟩ [(.ofBytes [0x63], .leaf ⟨1, 1⟩),
        (.ofBytes [0x73], .struct ⟨8, 8⟩ [(.ofBytes [0x69], .leaf ⟨4, 4⟩)]),
        (.ofBytes [0x75], .union ⟨8, 8⟩ [(.ofBytes [0x63], .leaf ⟨1, 1⟩),
          (.ofBytes [0x64], .leaf ⟨8, 8⟩)])]) t ∧ SoundLayout t :=
  ⟨_, rfl, nested_soundLayout (nested_of_type (d := charStructUnion)
    ⟨Nat.succ_pos 0, ⟨Nat.succ_pos 3, trivial⟩, ⟨Nat.succ_pos 0, Nat.succ_pos 7, trivial⟩, trivial⟩
    rfl)⟩

end Affix.Analysis
