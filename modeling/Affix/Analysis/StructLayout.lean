import Affix.Analysis.Placement
import Affix.Interface.CLayout

/-!
# The recorded layout and the C layout

`Struct` records eight as its alignment whatever its members need, and both
constructors pad to eight. That is the C layout exactly when an eight-byte
member is there to ask for it, at every aggregate of the declaration.

The proof is an induction over the declaration. One half reads the alignment off
a struct and the size off a union; the other half computes the layout from the
loop lemmas of `Affix.Analysis.Placement`, whose extents agree with the C ones
because the members do.

SOURCE: Struct.pm:23-72, Union.pm:23-62, Platform.pm:4-13
-/

set_option autoImplicit false

namespace Affix.Analysis

open Affix.Foundation Affix.Model Affix.Interface

/-! ## The C side -/

mutual

/-- The C extent of a declaration in range: positive, a whole number of alignments,
aligned to at most eight, and to exactly eight when a member at some depth is. -/
theorem cExtent_spec : ∀ {d : Decl}, d.Laid →
    0 < d.cExtent.size ∧ d.cExtent.align ∣ d.cExtent.size ∧ 0 < d.cExtent.align ∧
      d.cExtent.align ≤ 8 ∧ (d.cExtent.align = 8 ↔ d.HasWide)
  | .scalar k, h => by
    unfold Decl.Laid at h
    cases k <;> simp_all [Decl.cExtent, Decl.HasWide, Kind.align, Kind.sizeof]
  | .qualified _ d, h => by
    simpa only [Decl.cExtent, Decl.HasWide] using cExtent_spec (d := d) h
  | .pointer _, _ => by simp [Decl.cExtent, Decl.HasWide]
  | .array _ _, h => h.elim
  | .codeRef _ _, _ => by simp [Decl.cExtent, Decl.HasWide]
  | .struct fields, h => by
    obtain ⟨hne, hall⟩ := h
    obtain ⟨hpos, hle, hwide⟩ := cExtents_spec hall
    have hxs : Decl.cExtent.cExtents fields ≠ [] := by
      cases fields <;> simp_all [Decl.cExtent.cExtents]
    have h1 := one_le_maxAlign (Decl.cExtent.cExtents fields)
    exact ⟨alignUp_pos (placeEnd_pos hxs hpos) h1, dvd_alignUp .., h1,
      maxAlign_le_iff.mpr ⟨by omega, hle⟩, hwide⟩
  | .union fields, h => by
    obtain ⟨hne, hall⟩ := h
    obtain ⟨hpos, hle, hwide⟩ := cExtents_spec hall
    have h1 := one_le_maxAlign (Decl.cExtent.cExtents fields)
    refine ⟨alignUp_pos ?_ h1, dvd_alignUp .., h1, maxAlign_le_iff.mpr ⟨by omega, hle⟩, hwide⟩
    cases fields with
    | nil => exact absurd rfl hne
    | cons f fs =>
      have hmem : f.2.cExtent ∈ Decl.cExtent.cExtents (f :: fs) := by
        simp [Decl.cExtent.cExtents]
      exact (hpos _ hmem).1.trans_le (size_le_maxSize hmem)

/-- The same for the members of an aggregate. -/
theorem cExtents_spec : ∀ {fields : List (PerlStr × Decl)}, Decl.Laid.allLaid fields →
    (∀ x ∈ Decl.cExtent.cExtents fields, 0 < x.size ∧ 0 < x.align) ∧
      (∀ x ∈ Decl.cExtent.cExtents fields, x.align ≤ 8) ∧
      (maxAlign (Decl.cExtent.cExtents fields) = 8 ↔ Decl.HasWide.anyWide fields)
  | [], _ => by simp [Decl.cExtent.cExtents, maxAlign, Decl.HasWide.anyWide]
  | (_, d) :: fs, h => by
    obtain ⟨hd, hfs⟩ := h
    obtain ⟨hsize, -, halign, hle, hwide⟩ := cExtent_spec hd
    obtain ⟨hpos', hle', hwide'⟩ := cExtents_spec hfs
    refine ⟨?_, ?_, ?_⟩
    · intro x hx
      rcases List.mem_cons.mp hx with rfl | hx
      · exact ⟨hsize, halign⟩
      · exact hpos' x hx
    · intro x hx
      rcases List.mem_cons.mp hx with rfl | hx
      · exact hle
      · exact hle' x hx
    · have hmax := maxAlign_le_iff (n := 8).mpr ⟨by omega, hle'⟩
      rw [Decl.HasWide.anyWide, ← hwide, ← hwide']
      change max d.cExtent.align (maxAlign (Decl.cExtent.cExtents fs)) = 8 ↔ _
      omega

end

/-- A declaration without a wide member, all of whose aggregates have one, is a small
scalar. -/
theorem cExtent_le_four : ∀ {d : Decl}, d.Laid → d.WideEverywhere → ¬ d.HasWide →
    d.cExtent.size ≤ 4 ∧ d.cExtent.align ≤ 4
  | .scalar k, _, _, hn => by
    cases k <;> simp_all [Decl.cExtent, Decl.HasWide, Kind.align, Kind.sizeof]
  | .qualified _ d, h, hw, hn => by
    simpa only [Decl.cExtent] using cExtent_le_four (d := d) h hw hn
  | .pointer _, _, _, hn => (hn trivial).elim
  | .array _ _, _, _, hn => (hn trivial).elim
  | .codeRef _ _, _, _, hn => (hn trivial).elim
  | .struct _, _, hw, hn => (hn hw.1).elim
  | .union _, _, hw, hn => (hn hw.1).elim

theorem mem_cExtents {fields : List (PerlStr × Decl)} {x : Extent} :
    x ∈ Decl.cExtent.cExtents fields ↔ ∃ f ∈ fields, f.2.cExtent = x := by
  induction fields with
  | nil => simp [Decl.cExtent.cExtents]
  | cons f fs ih => simp [Decl.cExtent.cExtents, ih, eq_comm]

theorem allLaid_iff {fields : List (PerlStr × Decl)} :
    Decl.Laid.allLaid fields ↔ ∀ f ∈ fields, f.2.Laid := by
  induction fields with
  | nil => simp [Decl.Laid.allLaid]
  | cons f fs ih => rw [Decl.Laid.allLaid, ih, List.forall_mem_cons]

theorem allWide_iff {fields : List (PerlStr × Decl)} :
    Decl.WideEverywhere.allWide fields ↔ ∀ f ∈ fields, f.2.WideEverywhere := by
  induction fields with
  | nil => simp [Decl.WideEverywhere.allWide]
  | cons f fs ih => rw [Decl.WideEverywhere.allWide, ih, List.forall_mem_cons]

theorem anyWide_iff {fields : List (PerlStr × Decl)} :
    Decl.HasWide.anyWide fields ↔ ∃ f ∈ fields, f.2.HasWide := by
  induction fields with
  | nil => simp [Decl.HasWide.anyWide]
  | cons f fs ih => rw [Decl.HasWide.anyWide, ih, List.exists_mem_cons_iff]

/-! ## The recorded side -/

/-- Agreement reads the size, the alignment and the members, and nothing else. -/
theorem agrees_congr : ∀ {d : Decl} {t t' : TypeObj}, t'.sizeof = t.sizeof → t'.align = t.align →
    (∀ s store, t = .struct s store → ∃ s', t' = .struct s' store) →
    (∀ s store, t = .union s store → ∃ s', t' = .union s' store) → d.Agrees t → d.Agrees t'
  | .scalar _, _, _, hs, ha, _, _, h => ⟨hs.trans h.1, ha.trans h.2⟩
  | .qualified _ d, _, _, hs, ha, h1, h2, h => agrees_congr (d := d) hs ha h1 h2 h
  | .pointer _, _, _, hs, ha, _, _, h => ⟨hs.trans h.1, ha.trans h.2⟩
  | .array _ _, _, _, hs, ha, _, _, h => ⟨hs.trans h.1, ha.trans h.2⟩
  | .codeRef _ _, _, _, hs, ha, _, _, h => ⟨hs.trans h.1, ha.trans h.2⟩
  | .struct _, _, _, hs, ha, h1, _, h => by
    obtain ⟨⟨hsize, halign⟩, s, store, rfl, hm⟩ := h
    obtain ⟨s', rfl⟩ := h1 s store rfl
    exact ⟨⟨hs.trans hsize, ha.trans halign⟩, s', store, rfl, hm⟩
  | .union _, _, _, hs, ha, _, h2, h => by
    obtain ⟨⟨hsize, halign⟩, s, store, rfl, hm⟩ := h
    obtain ⟨s', rfl⟩ := h2 s store rfl
    exact ⟨⟨hs.trans hsize, ha.trans halign⟩, s', store, rfl, hm⟩

/-- Naming a member does not change whether its layout agrees. -/
theorem agrees_withMember_iff {d : Decl} {t : TypeObj} (o : ℕ) (n : PerlStr) :
    d.Agrees (t.withMember o n) ↔ d.Agrees t := by
  constructor
  · refine agrees_congr (by simp) (by simp) ?_ ?_ <;>
      (intro s store h; cases t <;> simp_all [TypeObj.withMember, TypeObj.mapSlots])
  · refine agrees_congr (by simp) (by simp) ?_ ?_ <;>
      (rintro s store rfl; exact ⟨_, rfl⟩)

/-- Qualifying a type does not change whether its layout agrees. -/
theorem agrees_qualifier_iff {d : Decl} {t : TypeObj} (q : Qualifier) :
    d.Agrees (q.apply t) ↔ d.Agrees t := by
  have hs : (q.apply t).sizeof = t.sizeof := by cases q <;> cases t <;> rfl
  have ha : (q.apply t).align = t.align := by cases q <;> cases t <;> rfl
  constructor
  · refine agrees_congr hs.symm ha.symm ?_ ?_ <;>
      (intro s store h; cases q <;> cases t <;>
        simp_all [Qualifier.apply, TypeObj.Const, TypeObj.Volatile, TypeObj.Restrict,
          TypeObj.mapSlots])
  · refine agrees_congr hs ha ?_ ?_ <;>
      (rintro s store rfl; cases q <;> exact ⟨_, rfl⟩)

/-- A type object that agrees with a declaration records its C extent. -/
theorem extent_of_agrees : ∀ {d : Decl} {t : TypeObj}, d.Agrees t → t.extent = d.cExtent
  | .scalar _, _, h => by simp [TypeObj.extent, Decl.cExtent, h.1, h.2]
  | .qualified _ d, _, h => by
    simpa only [Decl.cExtent] using extent_of_agrees (d := d) h
  | .pointer _, _, h => by simp [TypeObj.extent, Decl.cExtent, h.1, h.2]
  | .array _ _, _, h => by simp [TypeObj.extent, Decl.cExtent, h.1, h.2]
  | .codeRef _ _, _, h => by simp [TypeObj.extent, Decl.cExtent, h.1, h.2]
  | .struct _, _, h => by simp [TypeObj.extent, h.1.1, h.1.2]
  | .union _, _, h => by simp [TypeObj.extent, h.1.1, h.1.2]

/-- Members that agree have the C extents. -/
theorem extents_of_agrees {fields : List (PerlStr × Decl)} {ts : List (PerlStr × TypeObj)}
    (h : List.Forall₂ (fun f p => f.2.Agrees p.2) fields ts) :
    extents ts = Decl.cExtent.cExtents fields := by
  induction h with
  | nil => rfl
  | cons hd _ ih =>
    simp only [extents, List.map_cons, Decl.cExtent.cExtents, List.cons.injEq]
    exact ⟨extent_of_agrees hd, ih⟩

/-- Members placed where the comparison looks for them agree when they did before. -/
theorem agreeMembers_placed_iff (fields : List (PerlStr × Decl)) (ts : List (PerlStr × TypeObj))
    (os os' : List ℕ) (hlen : os'.length = ts.length) (hos : fields.length = os.length) :
    Decl.Agrees.agreeMembers fields os (placed os' ts) ↔
      os' = os ∧ List.Forall₂ (fun f p => f.2.Agrees p.2) fields ts := by
  induction fields generalizing ts os os' with
  | nil =>
    cases os with
    | cons o os => simp at hos
    | nil =>
      cases ts with
      | nil =>
        have : os' = [] := List.length_eq_zero_iff.mp hlen
        subst this
        simp [placed, Decl.Agrees.agreeMembers]
      | cons p ts =>
        obtain ⟨o', os', rfl⟩ := List.exists_cons_of_length_eq_add_one hlen
        simp [placed, Decl.Agrees.agreeMembers]
  | cons f fs ih =>
    cases os with
    | nil => simp at hos
    | cons o os =>
      cases ts with
      | nil =>
        have : os' = [] := List.length_eq_zero_iff.mp hlen
        subst this
        simp [placed, Decl.Agrees.agreeMembers]
      | cons p ts =>
        obtain ⟨o', os', rfl⟩ := List.exists_cons_of_length_eq_add_one hlen
        have hih := ih ts os os' (by simpa using hlen) (by simpa using hos)
        simp only [placed, List.zipWith_cons_cons] at hih ⊢
        rw [Decl.Agrees.agreeMembers, hih, agrees_withMember_iff, List.forall₂_cons,
          List.cons.injEq]
        simp only [TypeObj.slots_withMember, Option.some.injEq]
        tauto

/-! ## The comparison -/

/-- What is related to a list pointwise has a partner for each of its members. -/
theorem exists_of_forall₂_mem {α β : Type} {R : α → β → Prop} {l : List α} {l' : List β}
    (h : List.Forall₂ R l l') {b : β} (hb : b ∈ l') : ∃ a ∈ l, R a b := by
  induction h with
  | nil => simp at hb
  | @cons a b' l l' hab _ ih =>
    rcases List.mem_cons.mp hb with rfl | hb
    · exact ⟨a, List.mem_cons_self .., hab⟩
    · obtain ⟨c, hc, hcb⟩ := ih hb
      exact ⟨c, List.mem_cons_of_mem _ hc, hcb⟩

section Aggregates

variable {fields : List (PerlStr × Decl)} {ts : List (PerlStr × TypeObj)}

/-- The extents of members that were given extents of their own are positive. -/
theorem extents_pos (hpos : ∀ p ∈ ts, 0 < p.2.sizeof ∧ 0 < p.2.align) :
    ∀ x ∈ extents ts, 0 < x.size ∧ 0 < x.align := by
  intro x hx
  obtain ⟨p, hp, rfl⟩ := List.mem_map.mp hx
  exact hpos p hp

/-- `Struct` agrees with C exactly when its members do and one of them is wide: only then
is eight the alignment C gives it. SOURCE: Struct.pm:57-62 -/
theorem struct_agrees_iff (hne : fields ≠ []) (hall : Decl.Laid.allLaid fields)
    (hlen : fields.length = ts.length) (hpos : ∀ p ∈ ts, 0 < p.2.sizeof ∧ 0 < p.2.align) :
    ∃ t, Struct ts = .ok t ∧ 0 < t.sizeof ∧ 0 < t.align ∧
      ((Decl.struct fields).Agrees t ↔ Decl.HasWide.anyWide fields ∧
        List.Forall₂ (fun f p => f.2.Agrees p.2) fields ts) := by
  obtain ⟨s, hS, halign, -, -, hsize⟩ := Struct_eq fun p hp => (hpos p hp).2.ne'
  have hne' : extents ts ≠ [] := by
    cases ts <;> cases fields <;> simp_all [extents]
  have hend := placeEnd_pos hne' (extents_pos hpos)
  rw [add_padding_needed_for hend.ne' (by decide)] at hsize
  have hwide := (cExtents_spec hall).2.2
  refine ⟨_, hS, ?_, ?_, ?_⟩
  · show 0 < s.sizeof
    rw [hsize]
    exact alignUp_pos hend (by decide)
  · show 0 < s.alignment
    rw [halign]
    decide
  · have hmembers := agreeMembers_placed_iff fields ts
      (offsets 0 (Decl.cExtent.cExtents fields)) (offsets 0 (extents ts))
      (by simp [extents])
      (by rw [length_offsets]; clear * -; induction fields <;> simp_all [Decl.cExtent.cExtents])
    constructor
    · rintro ⟨⟨-, hA⟩, s', store, heq, hm⟩
      obtain ⟨-, rfl⟩ := TypeObj.struct.inj heq
      exact ⟨hwide.mp (hA.symm.trans halign), (hmembers.mp hm).2⟩
    · rintro ⟨hany, hforall⟩
      have hext := extents_of_agrees hforall
      have hmax := hwide.mpr hany
      refine ⟨⟨?_, ?_⟩, s, _, rfl, hmembers.mpr ⟨by rw [hext], hforall⟩⟩
      · show s.sizeof = alignUp (placeEnd 0 _) (maxAlign _)
        rw [hsize, hext, hmax]
        rfl
      · show s.alignment = maxAlign _
        rw [halign, hmax]
        rfl

/-- `Union` agrees with C exactly when its members do and one of them is wide, provided
the aggregates among the members have wide members. SOURCE: Union.pm:39-50 -/
theorem union_agrees_iff (hne : fields ≠ []) (hall : Decl.Laid.allLaid fields)
    (hlen : fields.length = ts.length) (hpos : ∀ p ∈ ts, 0 < p.2.sizeof ∧ 0 < p.2.align)
    (hiff : List.Forall₂ (fun f p => f.2.Agrees p.2) fields ts ↔
      Decl.WideEverywhere.allWide fields) :
    0 < (Union ts).sizeof ∧ 0 < (Union ts).align ∧
      ((Decl.union fields).Agrees (Union ts) ↔ Decl.HasWide.anyWide fields ∧
        List.Forall₂ (fun f p => f.2.Agrees p.2) fields ts) := by
  -- the running pair keeps two properties: it has an alignment once it has a size, and if
  -- the members agree, that alignment is eight once the size reaches eight
  obtain ⟨s, hU, -, -, hP, hsize⟩ := Union_eq ts
    (P := fun size align => (0 < size → 0 < align) ∧
      (List.Forall₂ (fun f p => f.2.Agrees p.2) fields ts → 8 ≤ size → align = 8))
    (fun p hp => ⟨fun _ => (hpos p hp).2, fun hforall h8 => by
      obtain ⟨f, hf, hagree⟩ := exists_of_forall₂_mem hforall hp
      have hext := extent_of_agrees hagree
      have hlaid := allLaid_iff.mp hall f hf
      have hwide : f.2.HasWide := by
        by_contra hn
        have h4 := (cExtent_le_four hlaid (allWide_iff.mp (hiff.mp hforall) f hf) hn).1
        rw [← hext] at h4
        exact absurd (h8.trans h4) (by decide)
      have h8' := (cExtent_spec hlaid).2.2.2.2.mpr hwide
      rw [← hext] at h8'
      exact h8'⟩)
    ⟨by omega, by omega⟩
  have hne' : extents ts ≠ [] := by
    cases ts <;> cases fields <;> simp_all [extents]
  obtain ⟨x, hx⟩ := List.exists_mem_of_ne_nil _ hne'
  have hmax : 0 < maxSize (extents ts) := (extents_pos hpos x hx).1.trans_le (size_le_maxSize hx)
  rw [add_padding_needed_for hmax.ne' (by decide)] at hsize
  have hmembers := agreeMembers_placed_iff fields ts
    (fields.map fun _ => 0) (ts.map fun _ => 0) (by simp) (by simp)
  have hzero : (ts.map fun _ => 0) = fields.map fun _ => 0 := by
    rw [List.map_const', List.map_const', hlen]
  rw [hU]
  refine ⟨?_, hP.1 hmax, ?_, ?_⟩
  · show 0 < s.sizeof
    rw [hsize]
    exact alignUp_pos hmax (by decide)
  · rintro ⟨⟨hS, -⟩, s', store, heq, hm⟩
    obtain ⟨-, rfl⟩ := TypeObj.union.inj heq
    have hforall := (hmembers.mp hm).2
    refine ⟨?_, hforall⟩
    by_contra hn
    have hsmall : ∀ x ∈ Decl.cExtent.cExtents fields, x.size ≤ 4 ∧ x.align ≤ 4 := by
      intro x hx
      obtain ⟨f, hf, rfl⟩ := mem_cExtents.mp hx
      exact cExtent_le_four (allLaid_iff.mp hall f hf) (allWide_iff.mp (hiff.mp hforall) f hf)
        fun hw => hn (anyWide_iff.mpr ⟨f, hf, hw⟩)
    rw [extents_of_agrees hforall] at hsize hmax
    have hrec : 8 ≤ s.sizeof := by
      rw [hsize]
      exact Nat.le_of_dvd (alignUp_pos hmax (by decide)) (dvd_alignUp ..)
    have hsz := maxSize_le_iff.mpr fun x hx => (hsmall x hx).1
    have hal := maxAlign_le_iff.mpr ⟨by decide, fun x hx => (hsmall x hx).2⟩
    have hlt := alignUp_lt (n := maxSize (Decl.cExtent.cExtents fields))
      (one_le_maxAlign (Decl.cExtent.cExtents fields))
    have hC : s.sizeof = alignUp (maxSize (Decl.cExtent.cExtents fields))
      (maxAlign (Decl.cExtent.cExtents fields)) := hS
    omega
  · rintro ⟨hany, hforall⟩
    have hext := extents_of_agrees hforall
    have h8 := (cExtents_spec hall).2.2.mpr hany
    have hbig : 8 ≤ maxSize (extents ts) := by
      obtain ⟨f, hf, hw⟩ := anyWide_iff.mp hany
      obtain ⟨hpos8, hdvd, -, -, hiff8⟩ := cExtent_spec (allLaid_iff.mp hall f hf)
      rw [hiff8.mpr hw] at hdvd
      rw [hext]
      exact (Nat.le_of_dvd hpos8 hdvd).trans (size_le_maxSize (mem_cExtents.mpr ⟨f, hf, rfl⟩))
    refine ⟨⟨?_, ?_⟩, s, _, rfl, hmembers.mpr ⟨hzero, hforall⟩⟩
    · show s.sizeof = alignUp (maxSize _) (maxAlign _)
      rw [hsize, hext, h8]
      rfl
    · show s.alignment = maxAlign _
      rw [hP.2 hforall hbig, h8]

end Aggregates

mutual

/-- **A declaration in range evaluates to a type object, with a positive size and
alignment, whose layout agrees with C exactly when every aggregate in it has a wide
member.** SOURCE: Struct.pm:23-72, Union.pm:23-62 -/
theorem type_spec : ∀ {d : Decl}, d.Laid → ∃ t, d.type = .ok t ∧ 0 < t.sizeof ∧ 0 < t.align ∧
    (d.Agrees t ↔ d.WideEverywhere)
  | .scalar k, h => by
    refine ⟨scalarType k, rfl, ?_, ?_, ?_⟩
    · unfold Decl.Laid at h
      cases k <;> simp_all [scalarType, TypeObj.sizeof, TypeObj.slots, Slots.fresh, Kind.sizeof]
    · unfold Decl.Laid at h
      cases k <;> simp_all [scalarType, TypeObj.align, TypeObj.slots, Slots.fresh, Kind.sizeof,
        Kind.align]
    · simp [Decl.Agrees, Decl.WideEverywhere, scalarType, TypeObj.sizeof, TypeObj.align,
        TypeObj.slots, Slots.fresh]
  | .qualified q d, h => by
    obtain ⟨t, ht, hs, ha, hiff⟩ := type_spec (d := d) h
    refine ⟨q.apply t, by simp [Decl.type, ht, Except.map], ?_, ?_, ?_⟩
    · cases q <;> cases t <;> exact hs
    · cases q <;> cases t <;> exact ha
    · rw [Decl.Agrees, Decl.WideEverywhere, agrees_qualifier_iff, hiff]
  | .pointer d, h => by
    obtain ⟨t, ht⟩ := h
    exact ⟨Pointer t, by simp [Decl.type, ht, Except.map], Nat.succ_pos 7, Nat.succ_pos 7,
      iff_of_true ⟨rfl, rfl⟩ trivial⟩
  | .array _ _, h => h.elim
  | .codeRef args ret, h => by
    obtain ⟨t, ht⟩ := h
    refine ⟨t, ht, ?_⟩
    obtain ⟨as, r, -, -, rfl⟩ := Decl.type_codeRef_eq_ok.mp ht
    exact ⟨Nat.succ_pos 7, Nat.succ_pos 7, iff_of_true ⟨rfl, rfl⟩ trivial⟩
  | .struct fields, h => by
    obtain ⟨ts, hts, hpos, hiff⟩ := memberTypes_spec h.2
    have hlen := (Decl.memberTypes_forall₂ hts).length_eq
    obtain ⟨t, ht, hs, ha, hagree⟩ := struct_agrees_iff h.1 h.2 hlen hpos
    refine ⟨t, by simp [Decl.type, hts, ht], hs, ha, ?_⟩
    rw [hagree, hiff, Decl.WideEverywhere]
  | .union fields, h => by
    obtain ⟨ts, hts, hpos, hiff⟩ := memberTypes_spec h.2
    have hlen := (Decl.memberTypes_forall₂ hts).length_eq
    obtain ⟨hs, ha, hagree⟩ := union_agrees_iff h.1 h.2 hlen hpos hiff
    refine ⟨Union ts, by simp [Decl.type, hts, Except.map], hs, ha, ?_⟩
    rw [hagree, hiff, Decl.WideEverywhere]

/-- The same for the members of an aggregate. -/
theorem memberTypes_spec : ∀ {fields : List (PerlStr × Decl)}, Decl.Laid.allLaid fields →
    ∃ ts, Decl.type.memberTypes fields = .ok ts ∧ (∀ p ∈ ts, 0 < p.2.sizeof ∧ 0 < p.2.align) ∧
      (List.Forall₂ (fun f p => f.2.Agrees p.2) fields ts ↔
        Decl.WideEverywhere.allWide fields)
  | [], _ => ⟨[], rfl, by simp, by simp [Decl.WideEverywhere.allWide]⟩
  | (name, d) :: fs, h => by
    obtain ⟨t, ht, hs, ha, hiff⟩ := type_spec h.1
    obtain ⟨ts, hts, hpos, hiff'⟩ := memberTypes_spec h.2
    refine ⟨(name, t) :: ts, Decl.memberTypes_cons_eq_ok.mpr ⟨t, ts, ht, hts, rfl⟩, ?_, ?_⟩
    · intro p hp
      rcases List.mem_cons.mp hp with rfl | hp
      · exact ⟨hs, ha⟩
      · exact hpos p hp
    · rw [List.forall₂_cons, hiff, hiff', Decl.WideEverywhere.allWide]

end

/-- **When the recorded layout is the C layout.** Every size, alignment and member offset
that `Struct` and `Union` record for a declaration is the C one if and only if every
aggregate in the declaration has a member of eight-byte alignment at some depth.
SOURCE: Struct.pm:23-72, Union.pm:23-62, Platform.pm:4-13 -/
theorem layout_agrees_iff_wideEverywhere {d : Decl} (h : d.Laid) :
    (∃ t, d.type = .ok t ∧ d.Agrees t) ↔ d.WideEverywhere := by
  obtain ⟨t, ht, -, -, hiff⟩ := type_spec h
  rw [← hiff]
  constructor
  · rintro ⟨t', ht', hagree⟩
    rw [ht, Except.ok.injEq] at ht'
    rwa [ht']
  · exact fun hagree => ⟨t, ht, hagree⟩

/-- `Struct[ i => Int, d => Double ]`. -/
def intAndDouble : Decl :=
  .struct [(.ofBytes [0x69], .scalar .Int), (.ofBytes [0x64], .scalar .Double)]

/-- A struct with a wide member is laid out as in C. -/
theorem layout_agrees_intAndDouble :
    ∃ t, intAndDouble.type = .ok t ∧ intAndDouble.Agrees t :=
  (layout_agrees_iff_wideEverywhere (d := intAndDouble)
    ⟨by simp, ⟨by decide, by decide⟩, ⟨by decide, by decide⟩, trivial⟩).mpr
    ⟨Or.inr (Or.inl rfl), trivial, trivial, trivial⟩

/-- `Struct[ i => Int ]`. -/
def justInt : Decl := .struct [(.ofBytes [0x69], .scalar .Int)]

/-- A struct of one `int` is recorded as eight bytes aligned to eight; the compiler gives
it four and four. SOURCE: Struct.pm:60-61 -/
theorem layout_disagrees_justInt :
    justInt.Laid ∧ justInt.cExtent = ⟨4, 4⟩ ∧
      ∃ t, justInt.type = .ok t ∧ t.sizeof = 8 ∧ t.align = 8 ∧ ¬ justInt.Agrees t := by
  refine ⟨?_, by decide, _, rfl, rfl, rfl, ?_⟩
  · exact ⟨by simp, ⟨by decide, by decide⟩, trivial⟩
  · rintro ⟨⟨hsize, -⟩, -⟩
    exact absurd hsize (by decide)

end Affix.Analysis
