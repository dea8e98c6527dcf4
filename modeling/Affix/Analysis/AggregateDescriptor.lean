import Affix.Analysis.WellBuilt
import Affix.Model.Aggregate

/-!
# The descriptor and the type

A type object and the dyncall descriptor made from it are two tables of one
layout. `Mirrors` says that they tell the same story. They do unless a member is
a `Bool` (whose entry is an `int`), an `SChar` (which has no entry), a `WChar`
(whose entry is a `long long`) or lies beyond what a `DCint` offset can say.

The loop of `_aggregate` appends one entry a turn, so the proof is a step lemma,
what one member becomes, and an induction over the members with the entries so
far as a prefix.

SOURCE: Aggregate.cxx:3-169, dyncall_aggregate.c:56-101
-/

set_option autoImplicit false

namespace Affix.Analysis

open Affix.Foundation Affix.Model Affix.Interface

/-! ## What a faithful descriptor is -/

/-- How a member travels: in integer registers, in floating-point registers, or as an
aggregate of its own. -/
inductive RegClass where
  | integer | float | aggregate
deriving DecidableEq, Repr

/-- The class of a member. -/
def memberClass : Flag → RegClass
  | .float | .double => .float
  | .struct | .cppstruct | .union => .aggregate
  | _ => .integer

/-- The class of an entry kind. -/
def entryClass : DCsigchar → RegClass
  | .float | .double => .float
  | .aggregate => .aggregate
  | _ => .integer

mutual

/-- The descriptor has the size of the type and, in order, one faithful entry for each
member. -/
def Mirrors : TypeObj → DCaggr → Prop
  | .struct s store, a => a.size = s.sizeof ∧ mirrorsAll store a.fields
  | .union s store, a => a.size = s.sizeof ∧ mirrorsAll store a.fields
  | .scalar .., _ => False
  | .pointer .., _ => False
  | .codeRef .., _ => False

/-- The entries are those of the members. An entry is faithful when it stands alone at
the member's offset, with the member's size and class, and, for an aggregate member,
with a faithful descriptor of it. -/
def mirrorsAll : List TypeObj → List (DCfield × Option DCaggr) → Prop
  | [], [] => True
  | t :: ts, e :: es =>
    (e.1.offset = t.offset ∧ e.1.arrayLen = 1 ∧ e.1.size = t.sizeof ∧
      entryClass e.1.type = memberClass t.flag ∧
      (memberClass t.flag = .aggregate → ∃ a, e.2 = some a ∧ Mirrors t a)) ∧ mirrorsAll ts es
  | [], _ :: _ => False
  | _ :: _, [] => False

end

/-- The types a member may have for `sv2ptr` to marshal it, through nested aggregates. -/
def Marshallable : TypeObj → Prop
  | .scalar k _ => k ≠ .Void ∧ k ≠ .SV
  | .pointer .. => True
  | .codeRef .. => True
  | .struct _ store => allMarshallable store
  | .union _ store => allMarshallable store
where
  /-- Every member may be marshalled. -/
  allMarshallable : List TypeObj → Prop
    | [] => True
    | t :: ts => Marshallable t ∧ allMarshallable ts

/-- A `DCint` can carry the offset to a `DCsize`: it is below `2 ^ 31`, or within `2 ^ 31`
of the end of the address space, where it passes as a negative number. -/
def OffsetFits (n : ℕ) : Prop := n < 2 ^ 31 ∨ 2 ^ 64 - 2 ^ 31 ≤ n ∧ n < 2 ^ 64

/-- No member is a `Bool`, an `SChar` or a `WChar`, and every offset fits a `DCint`, at
every depth. -/
def DescriptorFits : TypeObj → Prop
  | .scalar k _ => k ≠ .Bool ∧ k ≠ .SChar ∧ k ≠ .WChar
  | .pointer .. => True
  | .codeRef .. => True
  | .struct _ store => allFit store
  | .union _ store => allFit store
where
  /-- Every member fits, and so does its offset. -/
  allFit : List TypeObj → Prop
    | [] => True
    | t :: ts => (OffsetFits t.offset ∧ DescriptorFits t) ∧ allFit ts

/-! ## One entry -/

/-- The offsets that come back from a `DCint` parameter unchanged.
SOURCE: dyncall_aggregate.c:56-60 -/
theorem wrap_offset_iff (n : ℕ) : culong.wrap (cint.wrap n) = n ↔ OffsetFits n := by
  unfold OffsetFits
  simp only [CIntType.wrap, CIntType.minValue, CIntType.card, culong, cint, if_true,
    Bool.false_eq_true, if_false]
  norm_num
  omega

/-- The entry `_aggregate` makes of a member, on its own. -/
def memberEntry (t : TypeObj) : Except Halt (DCfield × Option DCaggr) :=
  match aggregateField t (aggregate t) with
  | .error e => .error e
  | .ok (c, sub) =>
    match dcFieldExtent c sub with
    | .error e => .error e
    | .ok (size, alignment) =>
      .ok (⟨culong.wrap (cint.wrap t.offset), size, alignment, 1, c⟩, sub)

/-- Appending an entry to a descriptor. -/
def pushEntry (ag : DCaggr) (e : DCfield × Option DCaggr) : DCaggr :=
  .mk ag.size (if ag.alignment < e.1.alignment then e.1.alignment else ag.alignment)
    (ag.fields ++ [e])

/-- One turn of the loop makes the member's entry and appends it.
SOURCE: Aggregate.cxx:43-118 -/
theorem aggregateFields_cons (ag : DCaggr) (t : TypeObj) (ts : List TypeObj) :
    aggregateFields ag (t :: ts) =
      match memberEntry t with
      | .error e => .error e
      | .ok e => aggregateFields (pushEntry ag e) ts := by
  rw [aggregateFields, memberEntry]
  cases aggregateField t (aggregate t) with
  | error e => rfl
  | ok r =>
    obtain ⟨c, sub⟩ := r
    dsimp only
    rw [dcAggrField]
    cases dcFieldExtent c sub with
    | error e => rfl
    | ok x => rfl

/-- What the loop returns keeps the size and extends the entries.
SOURCE: Aggregate.cxx:43-119 -/
theorem aggregateFields_extends {ts : List TypeObj} {ag a : DCaggr}
    (h : aggregateFields ag ts = .ok a) : a.size = ag.size ∧ ∃ es, a.fields = ag.fields ++ es := by
  induction ts generalizing ag with
  | nil =>
    rw [aggregateFields, Except.ok.injEq] at h
    subst h
    exact ⟨rfl, [], by simp⟩
  | cons t ts ih =>
    rw [aggregateFields_cons] at h
    cases he : memberEntry t with
    | error e => simp [he] at h
    | ok e =>
      simp only [he] at h
      obtain ⟨hsize, es, hes⟩ := ih h
      exact ⟨hsize, e :: es, by rw [hes]; simp [pushEntry, DCaggr.fields]⟩

/-- A descriptor of an aggregate has the recorded size. SOURCE: Aggregate.cxx:35 -/
theorem size_aggregate {t : TypeObj} {a : DCaggr} (h : aggregate t = .ok a) :
    a.size = t.sizeof := by
  cases t with
  | struct s store => exact (aggregateFields_extends h).1
  | union s store => exact (aggregateFields_extends h).1
  | scalar k s => simp [aggregate] at h
  | pointer s t => simp [aggregate] at h
  | codeRef s as sig r => simp [aggregate] at h

/-! ## The kinds of member -/

/-- The entry of a member that is an aggregate is faithful exactly when the descriptor of
the member is and the offset survives. -/
theorem entry_aggregate_iff {t : TypeObj} (hflag : t.flag = .struct ∨ t.flag = .union) :
    (∃ e, memberEntry t = .ok e ∧ mirrorsAll [t] [e]) ↔
      OffsetFits t.offset ∧ ∃ a, aggregate t = .ok a ∧ Mirrors t a := by
  have hfield : aggregateField t (aggregate t) =
      (aggregate t).map fun sub => (.aggregate, some sub) := by
    rcases hflag with h | h <;> simp [aggregateField, h]
  have hclass : memberClass t.flag = .aggregate := by
    rcases hflag with h | h <;> simp [memberClass, h]
  rw [memberEntry, hfield]
  cases ha : aggregate t with
  | error e => simp [Except.map]
  | ok a =>
    have hsize := size_aggregate ha
    simp [Except.map, dcFieldExtent, mirrorsAll, hclass, entryClass, wrap_offset_iff, hsize]

/-- The entry of a member that is no aggregate. SOURCE: Aggregate.cxx:54-118 -/
theorem memberEntry_eq {t : TypeObj} (h : memberClass t.flag ≠ .aggregate) :
    memberEntry t =
      match aggregateSigchar t.flag with
      | none => .error (.croak (text "Unhandled type in aggregate: " ++ t.slots.stringify))
      | some c =>
        match c.fieldSize with
        | none => .error .fault
        | some n => .ok (⟨culong.wrap (cint.wrap t.offset), n, n, 1, c⟩, none) := by
  rw [memberEntry, aggregateField]
  cases hf : t.flag <;> simp_all [memberClass, aggregateSigchar, dcFieldExtent, DCsigchar.fieldSize]

theorem memberClass_kind (k : Kind) : memberClass k.flag ≠ .aggregate := by
  cases k <;> decide

/-- The kinds that have an entry of their own size and class.
SOURCE: Aggregate.cxx:54-118, dyncall_aggregate.c:63-83 -/
theorem entry_kind_iff {k : Kind} (hm : k ≠ .Void ∧ k ≠ .SV) :
    (∃ c, aggregateSigchar k.flag = some c ∧ c.fieldSize = some k.sizeof ∧
      entryClass c = memberClass k.flag) ↔ k ≠ .Bool ∧ k ≠ .SChar ∧ k ≠ .WChar := by
  cases k <;> simp_all [aggregateSigchar, Kind.flag, DCsigchar.fieldSize, Kind.sizeof,
    entryClass, memberClass]

/-- The entry of a member that is no aggregate is faithful exactly when its kind and its
offset fit. -/
theorem entry_plain_iff {t : TypeObj} (hclass : memberClass t.flag ≠ .aggregate) :
    (∃ e, memberEntry t = .ok e ∧ mirrorsAll [t] [e]) ↔
      OffsetFits t.offset ∧ ∃ c, aggregateSigchar t.flag = some c ∧
        c.fieldSize = some t.sizeof ∧ entryClass c = memberClass t.flag := by
  rw [memberEntry_eq hclass, ← wrap_offset_iff]
  cases aggregateSigchar t.flag with
  | none => simp
  | some c =>
    cases hn : c.fieldSize with
    | none => simp [hn]
    | some n =>
      simp [hn, mirrorsAll, hclass]

/-- **The entry of one member** is faithful exactly when the member fits, given that this
is so of the descriptor of an aggregate member. -/
theorem entry_iff {t : TypeObj} (hsized : WellSized t) (hm : Marshallable t)
    (ih : memberClass t.flag = .aggregate →
      ((∃ a, aggregate t = .ok a ∧ Mirrors t a) ↔ DescriptorFits t)) :
    (∃ e, memberEntry t = .ok e ∧ mirrorsAll [t] [e]) ↔
      OffsetFits t.offset ∧ DescriptorFits t := by
  cases t with
  | struct s store => rw [entry_aggregate_iff (Or.inl rfl), ih rfl]
  | union s store => rw [entry_aggregate_iff (Or.inr rfl), ih rfl]
  | scalar k s =>
    rw [entry_plain_iff (t := .scalar k s) (memberClass_kind k)]
    refine and_congr_right fun _ => ?_
    have hsize : (TypeObj.scalar k s).sizeof = k.sizeof := hsized
    rw [hsize]
    exact entry_kind_iff hm
  | pointer s t =>
    rw [entry_plain_iff (t := .pointer s t) (show memberClass .pointer ≠ .aggregate by decide)]
    have hsize : (TypeObj.pointer s t).sizeof = 8 := hsized
    simp [TypeObj.flag, aggregateSigchar, DCsigchar.fieldSize, hsize, entryClass, memberClass,
      DescriptorFits]
  | codeRef s as sig r =>
    rw [entry_plain_iff (t := .codeRef s as sig r)
      (show memberClass .codeRef ≠ .aggregate by decide)]
    have hsize : (TypeObj.codeRef s as sig r).sizeof = 8 := hsized
    simp [TypeObj.flag, aggregateSigchar, DCsigchar.fieldSize, hsize, entryClass, memberClass,
      DescriptorFits]

/-! ## All entries -/

theorem mirrorsAll_cons {t : TypeObj} {ts : List TypeObj} {e : DCfield × Option DCaggr}
    {es : List (DCfield × Option DCaggr)} :
    mirrorsAll (t :: ts) (e :: es) ↔ mirrorsAll [t] [e] ∧ mirrorsAll ts es := by
  simp [mirrorsAll]

/-- Starting from a new descriptor, the entries are all there is. -/
theorem aggregateFields_new_iff (n : ℕ) (ts : List TypeObj) :
    (∃ a, aggregateFields (dcNewAggr n) ts = .ok a ∧ a.size = n ∧ mirrorsAll ts a.fields) ↔
      ∃ a es, aggregateFields (dcNewAggr n) ts = .ok a ∧
        a.fields = (dcNewAggr n).fields ++ es ∧ mirrorsAll ts es := by
  constructor
  · rintro ⟨a, ha, -, hmir⟩
    exact ⟨a, a.fields, ha, rfl, hmir⟩
  · rintro ⟨a, es, ha, hes, hmir⟩
    have hes' : a.fields = es := hes
    exact ⟨a, ha, (aggregateFields_extends ha).1, hes' ▸ hmir⟩

mutual

/-- A descriptor of an aggregate exists and mirrors it exactly when its members fit. -/
theorem aggregate_iff : ∀ {t : TypeObj}, WellSized t → Marshallable t →
    memberClass t.flag = .aggregate →
      ((∃ a, aggregate t = .ok a ∧ Mirrors t a) ↔ DescriptorFits t)
  | .struct s store, hw, hm, _ =>
    (aggregateFields_new_iff s.sizeof store).trans (aggregateFields_iff _ hw hm)
  | .union s store, hw, hm, _ =>
    (aggregateFields_new_iff s.sizeof store).trans (aggregateFields_iff _ hw hm)
  | .scalar k _, _, _, h => absurd h (memberClass_kind k)
  | .pointer .., _, _, h => RegClass.noConfusion h
  | .codeRef .., _, _, h => RegClass.noConfusion h

/-- The loop of `_aggregate` appends faithful entries exactly when its members fit. -/
theorem aggregateFields_iff : ∀ {ts : List TypeObj} (ag : DCaggr),
    WellSized.allWellSized ts → Marshallable.allMarshallable ts →
      ((∃ a es, aggregateFields ag ts = .ok a ∧ a.fields = ag.fields ++ es ∧ mirrorsAll ts es) ↔
        DescriptorFits.allFit ts)
  | [], ag, _, _ => by
    simp only [DescriptorFits.allFit, iff_true]
    exact ⟨ag, [], rfl, by simp, trivial⟩
  | t :: ts, ag, hw, hm => by
    have hentry := entry_iff hw.1 hm.1 fun h => aggregate_iff hw.1 hm.1 h
    rw [DescriptorFits.allFit, ← hentry, aggregateFields_cons]
    constructor
    · rintro ⟨a, es, ha, hes, hmir⟩
      cases he : memberEntry t with
      | error e => simp [he] at ha
      | ok e =>
        simp only [he] at ha
        obtain ⟨-, es', hes'⟩ := aggregateFields_extends ha
        have heq : es = e :: es' := by
          rw [hes'] at hes
          simpa [pushEntry, DCaggr.fields] using hes.symm
        subst heq
        obtain ⟨h1, h2⟩ := mirrorsAll_cons.mp hmir
        exact ⟨⟨e, rfl, h1⟩, (aggregateFields_iff _ hw.2 hm.2).mp ⟨a, es', ha, hes', h2⟩⟩
    · rintro ⟨⟨e, he, h1⟩, hfit⟩
      obtain ⟨a, es, ha, hes, h2⟩ := (aggregateFields_iff (pushEntry ag e) hw.2 hm.2).mpr hfit
      refine ⟨a, e :: es, by simpa only [he] using ha, ?_, mirrorsAll_cons.mpr ⟨h1, h2⟩⟩
      rw [hes]
      simp [pushEntry, DCaggr.fields]

end

/-! ## The result -/

/-- **When the descriptor mirrors the type.** `_aggregate` succeeds on a struct or a union
and returns a descriptor that mirrors it if and only if no member at any depth is a `Bool`,
an `SChar` or a `WChar` and every offset fits a `DCint`.
SOURCE: Aggregate.cxx:3-169, dyncall_aggregate.c:56-101 -/
theorem aggregate_mirrors_iff_descriptorFits {d : Decl} {t : TypeObj} (h : d.type = .ok t)
    (hagg : t.flag = .struct ∨ t.flag = .union) (hm : Marshallable t) :
    (∃ a, aggregate t = .ok a ∧ Mirrors t a) ↔ DescriptorFits t := by
  refine aggregate_iff (type_induction wellSized_closed h) hm ?_
  rcases hagg with h | h <;> simp [memberClass, h]

/-- `Struct[ c => Char, u => Union[ d => Double, s => Short ],
r => Struct[ p => Pointer[Int], f => Float ], h => CodeRef[ [Int] => Int ] ]`. -/
def nestedRecord : Decl :=
  .struct [(.ofBytes [0x63], .scalar .Char),
    (.ofBytes [0x75], .union [(.ofBytes [0x64], .scalar .Double),
      (.ofBytes [0x73], .scalar .Short)]),
    (.ofBytes [0x72], .struct [(.ofBytes [0x70], .pointer (.scalar .Int)),
      (.ofBytes [0x66], .scalar .Float)]),
    (.ofBytes [0x68], .codeRef [.scalar .Int] (.scalar .Int))]

/-- It has a descriptor that mirrors it. -/
theorem aggregate_mirrors_nested :
    ∃ t, nestedRecord.type = .ok t ∧ ∃ a, aggregate t = .ok a ∧ Mirrors t a := by
  obtain ⟨t, ht, hmembers⟩ : ∃ t, nestedRecord.type = .ok t ∧
      t.flag = .struct ∧ Marshallable t ∧ DescriptorFits t := by
    refine ⟨_, rfl, rfl, ⟨⟨by decide, by decide⟩, ⟨⟨by decide, by decide⟩, ⟨by decide, by decide⟩,
      trivial⟩, ⟨trivial, ⟨by decide, by decide⟩, trivial⟩, trivial, trivial⟩, ?_⟩
    refine ⟨⟨Or.inl (by decide), by decide, by decide, by decide⟩, ⟨Or.inl (by decide),
      ⟨Or.inl (by decide), by decide, by decide, by decide⟩,
      ⟨Or.inl (by decide), by decide, by decide, by decide⟩, trivial⟩, ⟨Or.inl (by decide),
      ⟨Or.inl (by decide), trivial⟩, ⟨Or.inl (by decide), by decide, by decide, by decide⟩,
      trivial⟩, ⟨Or.inl (by decide), trivial⟩, trivial⟩
  obtain ⟨hflag, hm, hfits⟩ := hmembers
  exact ⟨t, ht, (aggregate_mirrors_iff_descriptorFits ht (Or.inl hflag) hm).mpr hfits⟩

/-- A struct of one `signed char`, which `sv2ptr` marshals, has no descriptor at all.
SOURCE: Aggregate.cxx:54-118 -/
theorem aggregate_croaks_schar :
    ∃ t, Decl.type (.struct [(.ofBytes [0x78], .scalar .SChar)]) = .ok t ∧ t.flag = .struct ∧
      Marshallable t ∧
      aggregate t = .error (.croak (text "Unhandled type in aggregate: " ++ text "SChar")) :=
  ⟨_, rfl, rfl, ⟨⟨by decide, by decide⟩, trivial⟩, rfl⟩

end Affix.Analysis
