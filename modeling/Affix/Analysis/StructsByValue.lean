import Affix.Analysis.AggregateDescriptor
import Affix.Analysis.Classification

/-!
# Structs that are passed by value

`Struct` aligns every struct to eight, so the structs that are nested in one begin with
eightbytes, and the descriptor that `_aggregate` makes is one that is classified as it
should be. A union is aligned as its largest member. One that is aligned to less than
eight has eight bytes, and the walk finds it, provided that no member wants more.

SOURCE: Struct.pm:23-72, Union.pm:23-62, Aggregate.cxx:3-169,
dyncall_aggregate_x64.c:35-150
-/

set_option autoImplicit false

namespace Affix.Analysis

open Affix.Foundation Affix.Model Affix.Interface

/-! ## What constructors build -/

/-- The recorded layout, as far as it does not depend on the members' C types. -/
def Stacked : TypeObj → Prop
  | .scalar k s => s.sizeof = k.sizeof ∧ s.alignment = k.align
  | .pointer s _ => s.sizeof = 8 ∧ s.alignment = 8
  | .codeRef s _ _ _ => s.sizeof = 8 ∧ s.alignment = 8
  | .struct s store => (0 < s.sizeof ∧ 8 ∣ s.sizeof ∧ s.alignment = 8) ∧
    (∀ m ∈ store.head?, m.offset = 0) ∧ allStacked s.sizeof store
  | .union s store => (0 < s.sizeof ∧ 8 ∣ s.sizeof ∧ Natural s.alignment ∧
      (s.alignment = 8 ∨ s.sizeof = 8)) ∧
    (∀ m ∈ store, m.offset = 0) ∧ allStacked s.sizeof store
where
  /-- Every member is aligned and within the aggregate. -/
  allStacked (n : ℕ) : List TypeObj → Prop
    | [] => True
    | m :: ms => (m.offset + m.sizeof ≤ n ∧ m.align ∣ m.offset ∧ Stacked m) ∧ allStacked n ms

section Built

variable {n : ℕ} {t : TypeObj} {ts : List TypeObj}

theorem allStacked_iff : Stacked.allStacked n ts ↔
    ∀ m ∈ ts, m.offset + m.sizeof ≤ n ∧ m.align ∣ m.offset ∧ Stacked m := by
  induction ts with
  | nil => exact ⟨fun _ => List.forall_mem_nil _, fun _ => trivial⟩
  | cons m ms ih => rw [Stacked.allStacked, ih, List.forall_mem_cons]

theorem Stacked.withMember (h : Stacked t) (o : ℕ) (name : PerlStr) :
    Stacked (t.withMember o name) := by
  cases t <;> exact h

theorem Stacked.qualified (h : Stacked t) (q : Qualifier) : Stacked (q.apply t) := by
  cases q <;> cases t <;> exact h

/-- A type that is not aligned to eight has at most eight bytes. -/
theorem stacked_extent (h : Stacked t) : Natural t.align ∧ (t.align = 8 ∨ t.sizeof ≤ 8) := by
  cases t with
  | scalar k s =>
    obtain ⟨hsize, halign⟩ := h
    show Natural s.alignment ∧ (s.alignment = 8 ∨ s.sizeof ≤ 8)
    rw [hsize, halign]
    cases k <;> decide
  | pointer s t => exact ⟨by rw [show (TypeObj.pointer s t).align = 8 from h.2]; decide, Or.inl h.2⟩
  | codeRef s args sig ret =>
    exact ⟨by rw [show (TypeObj.codeRef s args sig ret).align = 8 from h.2]; decide, Or.inl h.2⟩
  | struct s store =>
    have halign : (TypeObj.struct s store).align = 8 := h.1.2.2
    exact ⟨by rw [halign]; decide, Or.inl halign⟩
  | union s store => exact ⟨h.1.2.2.1, h.1.2.2.2.imp_right fun h => h.le⟩

/-- Padding to eight leaves a multiple of eight, and never nothing. -/
theorem padded_spec (n : ℕ) :
    0 < n + padding_needed_for n BYTE_ALIGN ∧ 8 ∣ n + padding_needed_for n BYTE_ALIGN ∧
      n ≤ n + padding_needed_for n BYTE_ALIGN := by
  rcases Nat.eq_zero_or_pos n with rfl | hn
  · decide
  · rw [add_padding_needed_for hn.ne' (by decide)]
    exact ⟨alignUp_pos hn (by decide), dvd_alignUp n 8, le_alignUp (by decide)⟩

theorem padded_small : ∀ n ≤ 8, n + padding_needed_for n BYTE_ALIGN = 8 := by decide

/-- Members that are placed one after another. -/
theorem stacked_placed {types : List (PerlStr × TypeObj)} (hpos : ∀ p ∈ types, p.2.align ≠ 0)
    (hts : ∀ p ∈ types, Stacked p.2) {e : ℕ} (hn : placeEnd e (extents types) ≤ n) :
    Stacked.allStacked n (placed (offsets e (extents types)) types) := by
  induction types generalizing e with
  | nil => trivial
  | cons p rest ih =>
    obtain ⟨hp, hrest⟩ := List.forall_mem_cons.mp hpos
    obtain ⟨htp, htrest⟩ := List.forall_mem_cons.mp hts
    have hend : placeEnd (alignUp e p.2.align + p.2.sizeof) (extents rest) ≤ n := hn
    have hle := @le_placeEnd (alignUp e p.2.align + p.2.sizeof) (extents rest)
      fun x hx => by
        obtain ⟨q, hq, rfl⟩ := List.mem_map.mp hx
        exact Nat.pos_of_ne_zero (hrest q hq)
    refine ⟨⟨?_, ?_, htp.withMember _ _⟩, ih hrest htrest hend⟩
    · rw [TypeObj.offset_withMember, TypeObj.sizeof_withMember]
      exact hle.trans hend
    · rw [TypeObj.offset_withMember, TypeObj.align_withMember]
      exact dvd_alignUp e p.2.align

/-- **Every type object that is built is stacked.** SOURCE: Type.pm:54-258 -/
theorem stacked_closed : ConstructorClosed Stacked where
  scalar _ := ⟨rfl, rfl⟩
  qualified q _ ht := ht.qualified q
  pointer _ _ := ⟨rfl, rfl⟩
  array _ _ _ := ⟨rfl, rfl⟩
  codeRef _ _ _ _ := ⟨rfl, rfl⟩
  struct types t hts hS := by
    obtain ⟨hpos, s, rfl, halign, -, -, hsize⟩ := Struct_cases hS
    have hpad := padded_spec (placeEnd 0 (extents types))
    rw [← hsize] at hpad
    refine ⟨⟨hpad.1, hpad.2.1, halign⟩, fun m hm => ?_, stacked_placed hpos hts hpad.2.2⟩
    cases types with
    | nil => cases hm
    | cons p rest =>
      obtain rfl := Option.some.inj hm
      show (p.2.withMember _ p.1).offset = 0
      rw [TypeObj.offset_withMember]
      exact Nat.eq_zero_of_not_pos fun h => by
        have := alignUp_lt (n := 0) (Nat.pos_of_ne_zero (hpos p List.mem_cons_self))
        have hdvd := Nat.le_of_dvd h (dvd_alignUp 0 p.2.align)
        change alignUp 0 p.2.align < _ at this
        change p.2.align ≤ alignUp 0 p.2.align at hdvd
        omega
  union types hts := by
    obtain ⟨s, hU, -, -, ⟨hnatural, hextent⟩, hsize⟩ := Union_eq types
      (P := fun n a => Natural a ∧ (a = 8 ∨ n ≤ 8)) (fun p hp => stacked_extent (hts p hp))
      ⟨by decide, Or.inr (by decide)⟩
    rw [hU]
    have hpad := padded_spec (maxSize (extents types))
    rw [← hsize] at hpad
    have hoffset : ∀ m ∈ placed (types.map fun _ => 0) types, m.offset = 0 := fun m hm => by
      obtain ⟨o, ho, p, hp, rfl⟩ := mem_placed hm
      obtain ⟨-, -, rfl⟩ := List.mem_map.mp ho
      rw [TypeObj.offset_withMember]
    have height : s.alignment = 8 ∨ s.sizeof = 8 := hextent.imp_right fun hle => by
      rw [hsize]
      exact padded_small _ hle
    refine ⟨⟨hpad.1, hpad.2.1, hnatural, height⟩, hoffset, allStacked_iff.mpr fun m hm => ?_⟩
    rw [hoffset m hm]
    obtain ⟨o, -, p, hp, rfl⟩ := mem_placed hm
    refine ⟨?_, dvd_zero _, (hts p hp).withMember o p.1⟩
    rw [Nat.zero_add, TypeObj.sizeof_withMember]
    exact (size_le_maxSize (List.mem_map_of_mem (f := fun p => p.2.extent) hp)).trans hpad.2.2

end Built

/-! ## What `_aggregate` builds -/

theorem builtFields_append {fs es : List (DCfield × Option DCaggr)} :
    builtFields (fs ++ es) ↔ builtFields fs ∧ builtFields es := by
  induction fs with
  | nil => exact (and_iff_right trivial).symm
  | cons f fs ih =>
    rw [List.cons_append, builtFields.eq_def, builtFields.eq_def (f :: fs)]
    dsimp only
    rw [ih, and_assoc]

/-- **`dcAggrField` keeps a descriptor built.** SOURCE: dyncall_aggregate.c:56-101 -/
theorem built_dcAggrField {ag ag' : DCaggr} {type : DCsigchar} {offset : ℤ} {arrayLen : ℕ}
    {sub : Option DCaggr} (hag : BuiltUp ag) (hsub : ∀ a, sub = some a → BuiltUp a)
    (h : dcAggrField ag type offset arrayLen sub = .ok ag') : BuiltUp ag' := by
  cases ag with
  | mk n alignment fields =>
    rw [BuiltUp] at hag
    have hadd : ∀ size align, (type = .aggregate → ∃ a, sub = some a ∧ size = a.size ∧
        align = a.alignment) → (type ≠ .aggregate → type.fieldSize = some size ∧ align = size) →
        dcFieldExtent type sub = .ok (size, align) → BuiltUp ag' := by
      intro size align hagg hscalar hextent
      unfold dcAggrField at h
      rw [hextent] at h
      obtain rfl := Except.ok.inj h
      rw [BuiltUp]
      refine ⟨?_, builtFields_append.mpr ⟨hag.2, ?_⟩⟩
      · split
        · exact Or.inr ⟨_, List.mem_append_right _ (List.mem_singleton_self _), rfl⟩
        · exact hag.1.imp_right fun ⟨e, he, halign⟩ => ⟨e, List.mem_append_left _ he, halign⟩
      · rw [builtFields.eq_def]
        dsimp only
        refine ⟨?_, trivial⟩
        split
        · rename_i htype
          obtain ⟨a, rfl, hsize, halign⟩ := hagg htype
          exact ⟨hsize, halign, hsub a rfl⟩
        · rename_i htype
          exact hscalar htype
    have hextent : ∃ x, dcFieldExtent type sub = .ok x := by
      unfold dcAggrField at h
      cases hx : dcFieldExtent type sub with
      | error e => rw [hx] at h; cases h
      | ok x => exact ⟨x, rfl⟩
    obtain ⟨⟨size, align⟩, hextent⟩ := hextent
    by_cases htype : type = .aggregate
    · subst htype
      cases sub with
      | none => cases hextent
      | some a =>
        obtain ⟨rfl, rfl⟩ := Prod.mk.inj (Except.ok.inj hextent)
        exact hadd a.size a.alignment (fun _ => ⟨a, rfl, rfl, rfl⟩) (fun h => absurd rfl h) hextent
    · have hplain : type.fieldSize = some size ∧ align = size := by
        unfold dcFieldExtent at hextent
        split at hextent
        · exact absurd rfl htype
        · split at hextent
          · rename_i hsize
            obtain ⟨rfl, rfl⟩ := Prod.mk.inj (Except.ok.inj hextent)
            exact ⟨hsize, rfl⟩
          · cases hextent
      exact hadd size align (fun h => absurd h htype) (fun _ => hplain) hextent

/-- The descriptor that an entry points to is that of the member. -/
theorem sub_of_aggregateField {field : TypeObj} {nested : Except Halt DCaggr} {c : DCsigchar}
    {a : DCaggr} (h : aggregateField field nested = .ok (c, some a)) : nested = .ok a := by
  have hmap : nested.map (fun sub => (DCsigchar.aggregate, some sub)) = .ok (c, some a) →
      nested = .ok a := by
    cases nested with
    | error e => exact fun h => by cases h
    | ok a₀ =>
      intro h
      exact congrArg Except.ok (Option.some.inj (Prod.mk.inj (Except.ok.inj h)).2)
  unfold aggregateField at h
  split at h
  · exact hmap h
  · exact hmap h
  · exact hmap h
  · split at h <;> cases h

mutual

/-- **The descriptor of a type is built.** SOURCE: Aggregate.cxx:3-169 -/
theorem built_aggregate : ∀ {t : TypeObj} {a : DCaggr}, aggregate t = .ok a → BuiltUp a
  | .struct s store, a, h => by
    rw [aggregate] at h
    exact built_aggregateFields (by rw [dcNewAggr, BuiltUp]; exact ⟨Or.inl rfl, trivial⟩) h
  | .union s store, a, h => by
    rw [aggregate] at h
    exact built_aggregateFields (by rw [dcNewAggr, BuiltUp]; exact ⟨Or.inl rfl, trivial⟩) h
  | .scalar .., a, h => by cases h
  | .pointer .., a, h => by cases h
  | .codeRef .., a, h => by cases h

theorem built_aggregateFields : ∀ {ts : List TypeObj} {ag a : DCaggr}, BuiltUp ag →
    aggregateFields ag ts = .ok a → BuiltUp a
  | [], ag, a, hag, h => by
    rw [aggregateFields, Except.ok.injEq] at h
    exact h ▸ hag
  | t :: ts, ag, a, hag, h => by
    rw [aggregateFields] at h
    split at h
    · cases h
    · rename_i c sub hfield
      split at h
      · cases h
      · rename_i ag' hadd
        refine built_aggregateFields (built_dcAggrField hag (fun a' ha' => ?_) hadd) h
        subst ha'
        exact built_aggregate (sub_of_aggregateField hfield)

end

/-! ## The descriptor and the type -/

/-- The class of a scalar, in either table. -/
theorem sysvClass_of_entryClass {c : DCsigchar} {n : ℕ} (hsize : c.fieldSize = some n) :
    c.sysvClass = if entryClass c = .float then .sse else .integer := by
  cases c <;> first | rfl | cases hsize

theorem aggregate_of_entryClass {c : DCsigchar} : entryClass c = .aggregate ↔ c = .aggregate := by
  cases c <;> simp [entryClass]

theorem memberClass_scalar (k : Kind) :
    memberClass k.flag = if k = .Float ∨ k = .Double then .float else .integer := by
  cases k <;> rfl

mutual

/-- **A descriptor that mirrors a type has its scalars.** -/
theorem leaves_eq_scalars : ∀ {t : TypeObj} {a : DCaggr} {base : ℕ}, Mirrors t a → BuiltUp a →
    leavesIn a base = scalars t base
  | .struct s store, .mk n al fields, base, h, hb => by
    rw [BuiltUp] at hb
    rw [leavesIn, scalars]
    exact leavesOf_eq_scalars h.2 hb.2
  | .union s store, .mk n al fields, base, h, hb => by
    rw [BuiltUp] at hb
    rw [leavesIn, scalars]
    exact leavesOf_eq_scalars h.2 hb.2
  | .scalar .., _, _, h, _ => h.elim
  | .pointer .., _, _, h, _ => h.elim
  | .codeRef .., _, _, h, _ => h.elim

theorem leavesOf_eq_scalars : ∀ {ts : List TypeObj} {es : List (DCfield × Option DCaggr)}
    {base : ℕ}, mirrorsAll ts es → builtFields es →
    leavesOf es base = scalars.scalarsOf ts base
  | [], [], _, _, _ => by rw [leavesOf, scalars.scalarsOf]
  | [], _ :: _, _, h, _ => h.elim
  | _ :: _, [], _, h, _ => h.elim
  | t :: ts, (f, sub) :: es, base, h, hb => by
    rw [mirrorsAll] at h
    obtain ⟨⟨hoffset, hlen, hsize, hclass, hsub⟩, hrest⟩ := h
    rw [builtFields.eq_def] at hb
    obtain ⟨hkind, hbs⟩ := hb
    have hplace : f.offset.toNat = t.offset := by
      dsimp only at hoffset
      omega
    dsimp only at hlen hsize hclass hsub
    rw [scalars.scalarsOf]
    by_cases hagg : f.type = .aggregate
    · have hmember : memberClass t.flag = .aggregate := by
        rw [← hclass]
        exact aggregate_of_entryClass.mpr hagg
      obtain ⟨a, rfl, hmirrors⟩ := hsub hmember
      rw [if_pos hagg] at hkind
      rw [leavesOf_aggregate hagg, leavesOf_eq_scalars hrest hbs, hlen, hplace]
      simp only [List.range_one, List.flatMap_singleton, Nat.mul_zero, Nat.add_zero]
      rw [leaves_eq_scalars hmirrors hkind.2.2]
    · rw [if_neg hagg] at hkind
      rw [leavesOf_scalar hagg, leavesOf_eq_scalars hrest hbs, hlen, hplace, hsize,
        sysvClass_of_entryClass hkind.1, hclass]
      have hplain : memberClass t.flag ≠ .aggregate := by
        rw [← hclass]
        exact mt aggregate_of_entryClass.mp hagg
      cases t with
      | struct s store => exact absurd rfl hplain
      | union s store => exact absurd rfl hplain
      | pointer s t => rfl
      | codeRef s args sig ret => rfl
      | scalar k s =>
        have hfloat : (memberClass k.flag = .float) ↔ (k = .Float ∨ k = .Double) := by
          rw [memberClass_scalar]
          split <;> simp_all
        show Leaf.mk _ _ _ (if memberClass k.flag = .float then _ else _) :: _ = _
        rw [if_congr hfloat rfl rfl]
        rfl

end

theorem size_of_mirrors {t : TypeObj} {a : DCaggr} (h : Mirrors t a) : a.size = t.sizeof := by
  cases t with
  | struct s store => exact h.1
  | union s store => exact h.1
  | scalar k s => exact h.elim
  | pointer s t => exact h.elim
  | codeRef s args sig ret => exact h.elim

/-! ## Where everything is -/

/-- What is aligned to more is aligned to less. -/
theorem aligned_of_le {n k x : ℕ} (hn : Natural n) (hk : Natural k) (hle : n ≤ k)
    (h : k = 0 ∨ k ∣ x) : n = 0 ∨ n ∣ x := by
  rcases h with rfl | h
  · exact Or.inl (Nat.le_zero.mp hle)
  · exact (natural_dvd hn hk hle).imp_right fun hdvd => hdvd.trans h

theorem natural_le_eight {n : ℕ} (h : Natural n) : n ≤ 8 := by
  unfold Natural at h
  omega

/-- Where a type is aligned, so are its members. -/
theorem members_aligned {ms : List TypeObj} {n k base : ℕ} (hall : Stacked.allStacked n ms)
    (hle : ∀ m ∈ ms, m.align ≤ k) (hk : Natural k) (h : k = 0 ∨ k ∣ base) :
    ∀ m ∈ ms, m.align = 0 ∨ m.align ∣ base + m.offset := by
  intro m hm
  obtain ⟨-, hdvd, hstacked⟩ := allStacked_iff.mp hall m hm
  exact (aligned_of_le (stacked_extent hstacked).1 hk (hle m hm) h).imp_right fun hbase =>
    Nat.dvd_add hbase hdvd

theorem align_le_eight {ms : List TypeObj} {n : ℕ} (hall : Stacked.allStacked n ms) :
    ∀ m ∈ ms, m.align ≤ 8 := fun m hm =>
  natural_le_eight (stacked_extent (allStacked_iff.mp hall m hm).2.2).1

/-- A member that is no aggregate is aligned to its size. -/
theorem align_of_plain {m : TypeObj} (hs : Stacked m) (hplain : memberClass m.flag ≠ .aggregate) :
    m.align = m.sizeof := by
  cases m with
  | struct s store => exact absurd rfl hplain
  | union s store => exact absurd rfl hplain
  | pointer s t => exact hs.2.trans hs.1.symm
  | codeRef s args sig ret => exact hs.2.trans hs.1.symm
  | scalar k s => exact hs.2.trans hs.1.symm

theorem offset_of_mirrorsAll : ∀ {ts : List TypeObj} {es : List (DCfield × Option DCaggr)},
    mirrorsAll ts es → (∀ m ∈ ts, m.offset = 0) → ∀ e ∈ es, e.1.offset = 0
  | [], [], _, _, e, he => absurd he List.not_mem_nil
  | [], _ :: _, h, _, _, _ => h.elim
  | _ :: _, [], h, _, _, _ => h.elim
  | t :: ts, e' :: es, h, hzero, e, he => by
    rw [mirrorsAll] at h
    obtain ⟨ht, hts⟩ := List.forall_mem_cons.mp hzero
    rcases List.mem_cons.mp he with rfl | he
    · rw [h.1.1, ht, Nat.cast_zero]
    · exact offset_of_mirrorsAll h.2 hts e he

mutual

/-- **The alignment `dcAggrField` comes to** is none above that of the type. -/
theorem alignment_le : ∀ {t : TypeObj} {a : DCaggr}, Mirrors t a → BuiltUp a → Stacked t →
    UnionsAligned t → a.alignment ≤ t.align
  | .struct s store, a, _, hb, hs, _ => by
    have halign : (TypeObj.struct s store).align = 8 := hs.1.2.2
    rw [halign]
    exact natural_le_eight (natural_alignment hb)
  | .union s store, .mk n alignment fields, h, hb, hs, he => by
    rw [BuiltUp] at hb
    show alignment ≤ s.alignment
    obtain ⟨rfl | ⟨e, hmem, rfl⟩, hbs⟩ := hb
    · exact Nat.zero_le _
    · obtain ⟨m, hm, hle⟩ := entry_alignment_le h.2 hbs hs.2.2 he.2 e hmem
      exact hle.trans (he.1 m hm)
  | .scalar .., _, h, _, _, _ => h.elim
  | .pointer .., _, h, _, _, _ => h.elim
  | .codeRef .., _, h, _, _, _ => h.elim

theorem entry_alignment_le : ∀ {ts : List TypeObj} {es : List (DCfield × Option DCaggr)} {n : ℕ},
    mirrorsAll ts es → builtFields es → Stacked.allStacked n ts →
    UnionsAligned.allUnionsAligned ts → ∀ e ∈ es, ∃ m ∈ ts, e.1.alignment ≤ m.align
  | [], [], _, _, _, _, _, e, he => absurd he List.not_mem_nil
  | [], _ :: _, _, h, _, _, _, _, _ => h.elim
  | _ :: _, [], _, h, _, _, _, _, _ => h.elim
  | t :: ts, (f, sub) :: es, n, h, hb, hs, he, e, hmem => by
    rw [mirrorsAll] at h
    obtain ⟨⟨-, -, hsize, hclass, hsub⟩, hrest⟩ := h
    rw [builtFields.eq_def] at hb
    obtain ⟨hkind, hbs⟩ := hb
    obtain ⟨ht, hts⟩ := hs
    obtain ⟨het, hets⟩ := he
    dsimp only at hsize hclass hsub
    rcases List.mem_cons.mp hmem with rfl | hmem
    · refine ⟨t, List.mem_cons_self, ?_⟩
      show f.alignment ≤ t.align
      by_cases hagg : f.type = .aggregate
      · have hmember : memberClass t.flag = .aggregate := by
          rw [← hclass]
          exact aggregate_of_entryClass.mpr hagg
        obtain ⟨a, rfl, hmirrors⟩ := hsub hmember
        rw [if_pos hagg] at hkind
        rw [hkind.2.1]
        exact alignment_le hmirrors hkind.2.2 ht.2.2 het
      · rw [if_neg hagg] at hkind
        have hplain : memberClass t.flag ≠ .aggregate := by
          rw [← hclass]
          exact mt aggregate_of_entryClass.mp hagg
        rw [hkind.2, hsize, align_of_plain ht.2.2 hplain]
    · obtain ⟨m, hm, hle⟩ := entry_alignment_le hrest hbs hts hets e hmem
      exact ⟨m, List.mem_cons_of_mem _ hm, hle⟩

end

/-- **An aggregate that is a member is found.** -/
theorem found_of_mirrors {m : TypeObj} {a : DCaggr} {f : DCfield} {o : ℕ} (hmirrors : Mirrors m a)
    (hb : BuiltUp a) (hs : Stacked m) (he : UnionsAligned m) (hsize : f.size = m.sizeof)
    (halign : f.alignment = a.alignment) (hlen : f.arrayLen = 1)
    (haligned : m.align = 0 ∨ m.align ∣ o) : 0 < m.sizeof ∧ Found f a o := by
  cases m with
  | struct s store =>
    have h8 : (TypeObj.struct s store).align = 8 := hs.1.2.2
    rw [h8] at haligned
    exact ⟨hs.1.1, Or.inl (haligned.resolve_left (by decide))⟩
  | union s store =>
    obtain ⟨hpos, -, hnatural, h8⟩ := hs.1
    refine ⟨hpos, h8.imp (fun h8 => ?_) fun h8 => ⟨hsize.trans h8, hlen,
      offset_of_mirrorsAll hmirrors.2 hs.2.1, ?_⟩⟩
    · exact h8 ▸ haligned.resolve_left fun hzero => absurd (h8.symm.trans hzero) (by decide)
    · rw [halign]
      exact aligned_of_le (natural_alignment hb) hnatural (alignment_le hmirrors hb hs he) haligned
  | scalar k s => exact hmirrors.elim
  | pointer s t => exact hmirrors.elim
  | codeRef s args sig ret => exact hmirrors.elim

mutual

/-- **Everything is in its place** in the descriptor of a type whose unions are as aligned as their
members. -/
theorem placed_of_mirrors : ∀ {t : TypeObj} {a : DCaggr} {base : ℕ}, Mirrors t a → BuiltUp a →
    Stacked t → UnionsAligned t → t.align = 0 ∨ t.align ∣ base → Placed a base
  | .struct s store, .mk n al fields, base, h, hb, hs, he, hbase => by
    rw [BuiltUp] at hb
    rw [Placed]
    obtain rfl : n = s.sizeof := h.1
    have h8 : (TypeObj.struct s store).align = 8 := hs.1.2.2
    rw [h8] at hbase
    exact placedFields_of_mirrors h.2 hb.2 hs.2.2 he
      (members_aligned hs.2.2 (align_le_eight hs.2.2) (by decide) hbase)
  | .union s store, .mk n al fields, base, h, hb, hs, he, hbase => by
    rw [BuiltUp] at hb
    rw [Placed]
    obtain rfl : n = s.sizeof := h.1
    exact placedFields_of_mirrors h.2 hb.2 hs.2.2 he.2
      (members_aligned hs.2.2 he.1 hs.1.2.2.1 hbase)
  | .scalar .., _, _, h, _, _, _, _ => h.elim
  | .pointer .., _, _, h, _, _, _, _ => h.elim
  | .codeRef .., _, _, h, _, _, _, _ => h.elim

theorem placedFields_of_mirrors : ∀ {ts : List TypeObj} {es : List (DCfield × Option DCaggr)}
    {n base : ℕ}, mirrorsAll ts es → builtFields es → Stacked.allStacked n ts →
    UnionsAligned.allUnionsAligned ts → (∀ m ∈ ts, m.align = 0 ∨ m.align ∣ base + m.offset) →
    placedFields n es base
  | [], [], _, _, _, _, _, _, _ => by
    rw [placedFields.eq_def]
    trivial
  | [], _ :: _, _, _, h, _, _, _, _ => h.elim
  | _ :: _, [], _, _, h, _, _, _, _ => h.elim
  | t :: ts, (f, sub) :: es, n, base, h, hb, hs, he, hal => by
    rw [mirrorsAll] at h
    obtain ⟨⟨hoffset, hlen, hsize, hclass, hsub⟩, hrest⟩ := h
    rw [builtFields.eq_def] at hb
    obtain ⟨hkind, hbs⟩ := hb
    obtain ⟨ht, hts⟩ := hs
    obtain ⟨het, hets⟩ := he
    obtain ⟨haligned, hals⟩ := List.forall_mem_cons.mp hal
    dsimp only at hoffset hlen hsize hclass hsub
    have hplace : f.offset.toNat = t.offset := by omega
    rw [placedFields.eq_def]
    dsimp only
    rw [hplace, hlen, hsize]
    refine ⟨⟨by omega, Nat.one_pos, by omega, fun hagg => ?_⟩,
      placedFields_of_mirrors hrest hbs hts hets hals⟩
    have hmember : memberClass t.flag = .aggregate := by
      rw [← hclass]
      exact aggregate_of_entryClass.mpr hagg
    obtain ⟨a, rfl, hmirrors⟩ := hsub hmember
    rw [if_pos hagg] at hkind
    obtain ⟨hpos, hfound⟩ :=
      found_of_mirrors hmirrors hkind.2.2 ht.2.2 het hsize hkind.2.1 hlen haligned
    refine ⟨hpos, hfound, fun j hj => ?_⟩
    obtain rfl : j = 0 := by omega
    rw [Nat.mul_zero, Nat.add_zero]
    exact placed_of_mirrors hmirrors hkind.2.2 ht.2.2 het haligned

end

/-- There is a scalar where a type begins. -/
theorem scalars_begin : ∀ {t : TypeObj} (base : ℕ), Stacked t → Peopled t →
    ∃ l ∈ scalars t base, l.offset = base ∧ l.count = 1
  | .scalar k s, base, _, _ => ⟨_, List.mem_singleton_self _, rfl, rfl⟩
  | .pointer s t, base, _, _ => ⟨_, List.mem_singleton_self _, rfl, rfl⟩
  | .codeRef s args sig ret, base, _, _ => ⟨_, List.mem_singleton_self _, rfl, rfl⟩
  | .struct s [], base, _, hp => absurd rfl hp.1
  | .union s [], base, _, hp => absurd rfl hp.1
  | .struct s (m :: ms), base, hs, hp => by
    obtain ⟨l, hl, hoffset, hcount⟩ := scalars_begin (base + m.offset) hs.2.2.1.2.2 hp.2.1
    have hzero : m.offset = 0 := hs.2.1 m rfl
    exact ⟨l, List.mem_append_left _ hl, by omega, hcount⟩
  | .union s (m :: ms), base, hs, hp => by
    obtain ⟨l, hl, hoffset, hcount⟩ := scalars_begin (base + m.offset) hs.2.2.1.2.2 hp.2.1
    have hzero : m.offset = 0 := hs.2.1 m List.mem_cons_self
    exact ⟨l, List.mem_append_left _ hl, by omega, hcount⟩

/-- **The descriptor of a type is regular**, if no aggregate in it is without members. -/
theorem regular_of_mirrors {t : TypeObj} {a : DCaggr} (hs : Stacked t) (hmirrors : Mirrors t a)
    (hbuilt : BuiltUp a) (hplaced : Placed a 0) (hpeopled : Peopled t) : Regular a := by
  have hscalars := @leaves_eq_scalars _ _ 0 hmirrors hbuilt
  have h8 : 8 ∣ a.size := by
    rw [size_of_mirrors hmirrors]
    cases t with
    | struct s store => exact hs.1.2.1
    | union s store => exact hs.1.2.1
    | scalar k s => exact hmirrors.elim
    | pointer s t => exact hmirrors.elim
    | codeRef s args sig ret => exact hmirrors.elim
  refine ⟨hbuilt, hplaced, fun l hl => (leaves_sized hbuilt l hl).1.trans h8, fun _ => ?_⟩
  obtain ⟨l, hl, hoffset, hcount⟩ := scalars_begin 0 hs hpeopled
  rw [← hscalars] at hl
  have hpos := Nat.pos_of_dvd_of_pos (leaves_sized hbuilt l hl).1 (by decide)
  refine ⟨l, hl, by omega, ?_⟩
  rw [Leaf.stop, hoffset, hcount]
  omega

/-! ## The classes of a type -/

/-- **A type whose values are passed as such**: a struct or a union that is built, whose members
have entries of their own, and whose unions are as aligned as their members. -/
structure ValueType (d : Decl) (t : TypeObj) : Prop where
  built : d.type = .ok t
  aggregate : memberClass t.flag = .aggregate
  marshallable : Marshallable t
  fits : DescriptorFits t
  unions : UnionsAligned t

mutual

/-- The scalars of a type are aligned where it is. -/
theorem scalars_aligned : ∀ {t : TypeObj} {base : ℕ}, Stacked t → Marshallable t → UnionsAligned t →
    t.align = 0 ∨ t.align ∣ base → ∀ l ∈ scalars t base, l.size ∣ l.offset
  | .scalar k s, base, hs, hm, _, halign, l, hl => by
    rw [scalars, List.mem_singleton] at hl
    subst hl
    have hsame : (TypeObj.scalar k s).align = s.sizeof := hs.2.trans hs.1.symm
    have hpos : s.sizeof ≠ 0 := by
      rw [hs.1]
      obtain ⟨hvoid, hsv⟩ := hm
      cases k with
      | Void => exact absurd rfl hvoid
      | SV => exact absurd rfl hsv
      | _ => decide
    rw [hsame] at halign
    exact halign.resolve_left hpos
  | .pointer s t, base, hs, _, _, halign, l, hl => by
    rw [scalars, List.mem_singleton] at hl
    subst hl
    have hsame : (TypeObj.pointer s t).align = s.sizeof := hs.2.trans hs.1.symm
    rw [hsame] at halign
    exact halign.resolve_left (by rw [hs.1]; decide)
  | .codeRef s args sig ret, base, hs, _, _, halign, l, hl => by
    rw [scalars, List.mem_singleton] at hl
    subst hl
    have hsame : (TypeObj.codeRef s args sig ret).align = s.sizeof := hs.2.trans hs.1.symm
    rw [hsame] at halign
    exact halign.resolve_left (by rw [hs.1]; decide)
  | .struct s store, base, hs, hm, he, halign, l, hl => by
    rw [scalars] at hl
    have h8 : (TypeObj.struct s store).align = 8 := hs.1.2.2
    rw [h8] at halign
    exact scalarsOf_aligned hs.2.2 hm he
      (members_aligned hs.2.2 (align_le_eight hs.2.2) (by decide) halign) l hl
  | .union s store, base, hs, hm, he, halign, l, hl => by
    rw [scalars] at hl
    exact scalarsOf_aligned hs.2.2 hm he.2
      (members_aligned hs.2.2 he.1 hs.1.2.2.1 halign) l hl

theorem scalarsOf_aligned : ∀ {ts : List TypeObj} {n base : ℕ}, Stacked.allStacked n ts →
    Marshallable.allMarshallable ts → UnionsAligned.allUnionsAligned ts →
    (∀ m ∈ ts, m.align = 0 ∨ m.align ∣ base + m.offset) →
    ∀ l ∈ scalars.scalarsOf ts base, l.size ∣ l.offset
  | [], _, _, _, _, _, _, l, hl => by
    rw [scalars.scalarsOf] at hl
    cases hl
  | m :: ms, n, base, hs, hmarshal, he, hal, l, hl => by
    rw [scalars.scalarsOf, List.mem_append] at hl
    obtain ⟨hm, hms⟩ := List.forall_mem_cons.mp hal
    rcases hl with hl | hl
    · exact scalars_aligned hs.1.2.2 hmarshal.1 he.1 hm l hl
    · exact scalarsOf_aligned hs.2 hmarshal.2 he.2 hms l hl

end

/-- No scalar of a descriptor that is aligned sends an eightbyte to memory. -/
theorem sysvClass_ne_memory {a : DCaggr} (hbuilt : BuiltUp a)
    (haligned : ∀ l ∈ leavesIn a 0, l.size ∣ l.offset) (index : ℕ) :
    sysvClass index (leavesIn a 0) ≠ .memory := by
  have hle : sysvClass index (leavesIn a 0) ≤ .integer := sysvClass_le_iff.mpr fun l hl => by
    rw [Leaf.gives, if_pos (haligned l hl)]
    split
    · rcases (leaves_sized hbuilt l hl).2 with h | ⟨h, -⟩
      · exact h.le
      · rw [h]
        decide
    · exact bot_le
  exact fun h => absurd (h ▸ hle) (by decide)

/-- **The classes of a type.** A struct of more than sixteen bytes goes to memory; of any other,
each eightbyte has the greatest class of the scalars in it, by what the type says of them. If no
aggregate in the type is without members, arguments can be carried with the descriptor. -/
theorem classes_of_type {d : Decl} {t : TypeObj} (h : ValueType d t) :
    ∃ a, aggregate t = .ok a ∧ (dcCloseAggr a).size = t.sizeof ∧
      ((dcCloseAggr a).sysv_classes =
        if 16 < t.sizeof then [.memory]
        else [sysvClass 0 (scalars t 0), sysvClass 1 (scalars t 0), .none]) ∧
      leavesIn a 0 = scalars t 0 ∧ (Peopled t → Regular a) := by
  have hsized := type_induction wellSized_closed h.built
  have hstacked := type_induction stacked_closed h.built
  obtain ⟨a, ha, hmirrors⟩ := (aggregate_iff hsized h.marshallable h.aggregate).mpr h.fits
  have hsize := size_of_mirrors hmirrors
  have hbuilt := built_aggregate ha
  have hleaves := @leaves_eq_scalars _ _ 0 hmirrors hbuilt
  have hplaced := placed_of_mirrors hmirrors hbuilt hstacked h.unions (Or.inr (dvd_zero _))
  refine ⟨a, ha, hsize, ?_, hleaves, regular_of_mirrors hstacked hmirrors hbuilt hplaced⟩
  have hmemory : ∀ index, sysvClass index (scalars t 0) ≠ .memory := by
    rw [← hleaves]
    refine sysvClass_ne_memory hbuilt fun l hl => ?_
    rw [hleaves] at hl
    exact scalars_aligned hstacked h.marshallable h.unions (Or.inr (dvd_zero _)) l hl
  show dc_get_sysv_classes_for_aggr a = _
  unfold dc_get_sysv_classes_for_aggr
  rw [hsize]
  by_cases hlarge : 16 < t.sizeof
  · rw [if_pos hlarge, if_pos hlarge]
  · have hclass : ∀ index < 2,
        dc_get_sysv_class_for_8byte index a 0 = sysvClass index (scalars t 0) := by
      intro index hindex
      have := class_eq hindex hbuilt hplaced (by omega)
      rwa [Nat.cast_zero, hleaves] at this
    rw [if_neg hlarge, if_neg hlarge]
    dsimp only
    rw [hclass 0 (by decide), hclass 1 (by decide), if_neg (hmemory 0), if_neg (hmemory 1)]

/-- A float, and an integer in a union that begins within the eightbyte. -/
def floatAndUnion : Decl :=
  .struct [(.ofBytes [0x66], .scalar .Float),
    (.ofBytes [0x75], .union [(.ofBytes [0x69], .scalar .Int)])]

theorem classes_of_type_floatAndUnion : ∃ t a, floatAndUnion.type = .ok t ∧ aggregate t = .ok a ∧
    (dcCloseAggr a).sysv_classes = [.integer, .none, .none] := by
  have hfloat : DescriptorFits (scalarType .Float) := ⟨by decide, by decide, by decide⟩
  have hint : DescriptorFits (scalarType .Int) := ⟨by decide, by decide, by decide⟩
  have hvalue : ValueType floatAndUnion _ := ⟨rfl, rfl,
    ⟨⟨by decide, by decide⟩, ⟨⟨by decide, by decide⟩, trivial⟩, trivial⟩,
    ⟨⟨Or.inl (by decide), hfloat⟩, ⟨Or.inl (by decide), ⟨Or.inl (by decide), hint⟩, trivial⟩,
      trivial⟩, trivial, ⟨fun m hm => ?_, trivial, trivial⟩, trivial⟩
  · obtain ⟨a, ha, -, hclasses, -⟩ := classes_of_type hvalue
    exact ⟨_, a, rfl, ha, hclasses.trans (by decide)⟩
  · obtain rfl := List.mem_singleton.mp hm
    decide

end Affix.Analysis
