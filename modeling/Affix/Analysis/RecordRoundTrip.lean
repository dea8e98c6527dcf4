import Affix.Analysis.RecordDecoding

/-!
# A record through memory and back

A hash written by `sv2ptr` and read by `ptr2sv` should be the same hash. It is,
but for two things. A name that is flagged and not seven-bit is looked up by its
bytes, and is not found. An unsigned 64-bit number in the upper half of its range
comes back negative.
-/

set_option autoImplicit false

namespace Affix.Analysis

open Affix.Foundation Affix.Model Affix.Interface

/-- `ptr2sv(T, sv2ptr(T, v))` returns, and returns the same value. -/
def RoundTrips (t : TypeObj) (v : SV) (h : Heap) : Prop :=
  ∃ p h₁ w h₂, sv2ptr t v 0 h = .ok (p, h₁) ∧ ptr2sv t p h₁ = .ok (w, h₂) ∧ ReadsSame t v w

mutual

/-- A value that was written has plain names only, where no name spells another. -/
theorem plainNames_of_sv2ptr : ∀ {t : TypeObj} {v : SV}, HasValue t v → NoClash t →
    ∀ {a q : ℕ} {h h' : Heap}, sv2ptr t v a h = .ok (q, h') → PlainNames t
  | .scalar .., _, _, _, _, _, _, _, _ => trivial
  | .pointer .., _, _, _, _, _, _, _, _ => trivial
  | .codeRef .., _, _, _, _, _, _, _, _ => trivial
  | .union .., _, _, _, _, _, _, _, _ => trivial
  | .struct s fields, v, hv, hclash, a, q, h, h', hrun => by
    have hconst := not_undef_constant hv
    obtain ⟨es, hes, hkeys, hvals⟩ := hv
    simp only [sv2ptr, hconst, Bool.false_eq_true, if_false, asHash, hes] at hrun
    obtain ⟨ret, h₁, -, hrest⟩ := Exec.bind_eq_ok.mp hrun
    obtain ⟨u, h₂, hloop, -⟩ := Exec.bind_eq_ok.mp hrest
    refine plainNames_of_sv2ptrFields hvals hclash.2 (fun field hmem name hname hin => ?_) hloop
    exact hclash.1 field hmem name hname ((hkeys _).mp hin)

theorem plainNames_of_sv2ptrFields : ∀ {fields : List TypeObj} {es : List (Text × SV)},
    HasValue.hasValues es fields → NoClash.allNoClash fields →
    (∀ field ∈ fields, ∀ name ∈ field.field,
      name.bytes.map UInt8.toNat ∈ es.map Prod.fst → name.Plain) →
    ∀ {a : ℕ} {u : Unit} {h h' : Heap}, sv2ptrFields es a fields h = .ok (u, h') →
    PlainNames.allPlain fields
  | [], _, _, _, _, _, _, _, _, _ => trivial
  | field :: rest, es, hvals, hclash, hspell, a, u, h, h', hrun => by
    obtain ⟨⟨v, hlookup, hv⟩, hvrest⟩ := hvals
    have hspellRest := fun f hf => hspell f (List.mem_cons_of_mem _ hf)
    cases hname : field.field with
    | none =>
      simp only [sv2ptrFields, hname] at hrun
      cases hrun
    | some name =>
      cases hfetch : hvFetch es name with
      | none =>
        simp only [sv2ptrFields, hname, hfetch] at hrun
        cases hrun
      | some v' =>
        have hmem : name.bytes.map UInt8.toNat ∈ es.map Prod.fst := by
          by_contra hnot
          have hnone : hvFetch es name = none := by
            refine List.lookup_eq_none_iff.mpr fun p hp => bne_iff_ne.mpr fun heq => hnot ?_
            rw [heq]
            exact List.mem_map_of_mem hp
          cases hfetch.symm.trans hnone
        have hplain : name.Plain := hspell field List.mem_cons_self name hname hmem
        have hv' : v' = v := by
          have hsame := (hvFetch_of_plain hname hplain es).trans hlookup
          exact Option.some.inj (hfetch.symm.trans hsame)
        subst hv'
        simp only [sv2ptrFields, hname, hfetch] at hrun
        by_cases hptr : field.isPointer = true
        · simp only [hptr, if_true] at hrun
          obtain ⟨q, h₁, -, hrest⟩ := Exec.bind_eq_ok.mp hrun
          obtain ⟨u', h₂, -, hloop⟩ := Exec.bind_eq_ok.mp hrest
          refine ⟨?_, ?_, plainNames_of_sv2ptrFields hvrest hclash.2 hspellRest hloop⟩
          · intro n hn
            cases hname.symm.trans hn
            exact hplain
          · cases field with
            | pointer s subtype => trivial
            | _ => cases hptr
        · simp only [hptr, if_false, Bool.false_eq_true] at hrun
          obtain ⟨q, h₁, hfield, hloop⟩ := Exec.bind_eq_ok.mp hrun
          refine ⟨?_, plainNames_of_sv2ptr hv hclash.1 hfield,
            plainNames_of_sv2ptrFields hvrest hclash.2 hspellRest hloop⟩
          intro n hn
          cases hname.symm.trans hn
          exact hplain

end

/-- **A record with plain names** is written and read back, and is the same exactly when its
unsigned numbers are in the lower half. -/
theorem roundTrips_iff_lowerHalf {s : Slots} {fields : List TypeObj} {v : SV}
    (ht : Marshals (.struct s fields)) (hv : HasValue (.struct s fields) v)
    (hn : PlainNames (.struct s fields)) {h : Heap}
    (hmem : sv2ptr (.struct s fields) v 0 h ≠ .error .outOfMemory) :
    RoundTrips (.struct s fields) v h ↔ LowerHalf (.struct s fields) v := by
  have hconst := not_undef_constant hv
  have hv' := hv
  obtain ⟨es, hes, -, hvals⟩ := hv'
  have hrun : sv2ptr (.struct s fields) v 0 = (do
      let ret ← orNew 0 (Newxz 1 s.sizeof)
      sv2ptrFields es ret fields
      pure ret) := by
    simp only [sv2ptr, hconst, Bool.false_eq_true, if_false, asHash, hes]
  -- the block of the record is new, and its end bounds what the record writes from below
  have hends : Exec.Ends (· = .outOfMemory) (sv2ptr (.struct s fields) v 0) h fun p h₁ =>
      h₁.mem.InBlock p s.sizeof ∧ Stored h₁.mem (p + s.sizeof) (.struct s fields) p v := by
    rw [hrun]
    refine (ends_Newxz (Nat.one_mul s.sizeof) h).bind fun p h₁ hnew => ?_
    obtain ⟨-, -, hin, hend, -, -⟩ := hnew
    refine (sv2ptrFields_stores ht.2.1 ht.2.2 hvals hn hin (le_refl _) hend).bind fun _ h₂ hw => ?_
    exact Exec.ends_of_ok rfl ⟨hw.1.inBlock hin, es, hes, hw.2⟩
  obtain ⟨p, h₁, hwrite, hin, hstored⟩ := hends.exists_ok (fun e he => he ▸ hmem)
  obtain ⟨w, hread, hsame⟩ := ptr2svField_reads ht hv hin hstored
  have hread' : ptr2sv (.struct s fields) p h₁ = .ok (w, h₁) := hread
  rw [← hsame]
  constructor
  · rintro ⟨p', h₁', w', h₂', hw', hr', hs'⟩
    cases hwrite.symm.trans hw'
    cases hread'.symm.trans hr'
    exact hs'
  · intro hs
    exact ⟨p, h₁, w, h₁, hwrite, hread', hs⟩

/-- **A hash comes back from memory** when all names in the record are plain and all its
unsigned 64-bit numbers are below `2 ^ 63`, and, where no name spells another, only then. -/
theorem roundTrips_iff_plain_and_lowerHalf {fields : List (PerlStr × Decl)} {t : TypeObj}
    (hd : (Decl.struct fields).Record) (ht : (Decl.struct fields).type = .ok t) {v : SV}
    (hv : HasValue t v) {h : Heap} (hmem : sv2ptr t v 0 h ≠ .error .outOfMemory) :
    (PlainNames t ∧ LowerHalf t v → RoundTrips t v h) ∧
      (NoClash t → RoundTrips t v h → PlainNames t ∧ LowerHalf t v) := by
  have hm : Marshals t := marshals_of_record hd ht
  obtain ⟨ts, -, hS⟩ := Decl.type_struct_eq_ok.mp ht
  obtain ⟨-, s, rfl, -⟩ := Struct_cases hS
  constructor
  · rintro ⟨hn, hlow⟩
    exact (roundTrips_iff_lowerHalf hm hv hn hmem).mpr hlow
  · intro hclash hround
    obtain ⟨p, h₁, w, h₂, hwrite, -⟩ := id hround
    have hn : PlainNames _ := plainNames_of_sv2ptr hv hclash hwrite
    exact ⟨hn, (roundTrips_iff_lowerHalf hm hv hn hmem).mp hround⟩

def oneField (k : Kind) : Decl := .struct [(.ofBytes [0x6e], .scalar k)]

/-- The type object of `Struct[ n => … ]`. -/
def oneFieldType (k : Kind) : TypeObj :=
  .struct (Struct.slots ⟨k.sizeof, 0, [],
      [memberText (.ofBytes [0x6e]) (scalarType k)]⟩)
    [(scalarType k).withMember 0 (.ofBytes [0x6e])]

/-- `{ n => … }`. -/
def oneEntry (n : ℤ) (h : -2 ^ 63 ≤ n ∧ n < 2 ^ 64) : SV := .href (.new []) [([0x6e], .int n h)]

theorem hasValue_oneEntry {k : Kind} {c : CIntType} (hk : reading k = some (.number c)) {n : ℤ}
    (h : -2 ^ 63 ≤ n ∧ n < 2 ^ 64) (hn : c.InRange n) :
    HasValue (oneFieldType k) (oneEntry n h) := by
  refine ⟨_, rfl, fun key => Iff.rfl, ⟨_, rfl, ?_⟩, trivial⟩
  show ScalarValue k (.int n h)
  unfold ScalarValue
  rw [hk]
  exact ⟨_, n, rfl, rfl, hn⟩

theorem plainNames_oneField (k : Kind) : PlainNames (oneFieldType k) := by
  refine ⟨fun name hname => ?_, trivial, trivial⟩
  cases hname
  rfl

/-- `{ n => 5 }` as a `Struct[ n => ULong ]`. -/
theorem roundTrips_five :
    (PlainNames (oneFieldType .ULong) ∧ LowerHalf (oneFieldType .ULong) (oneEntry 5 (by decide)) →
      RoundTrips (oneFieldType .ULong) (oneEntry 5 (by decide)) .empty) ∧
    (NoClash (oneFieldType .ULong) →
      RoundTrips (oneFieldType .ULong) (oneEntry 5 (by decide)) .empty →
      PlainNames (oneFieldType .ULong) ∧
        LowerHalf (oneFieldType .ULong) (oneEntry 5 (by decide))) :=
  have hd : (oneField .ULong).Record := ⟨by decide, rfl, trivial⟩
  roundTrips_iff_plain_and_lowerHalf hd rfl (hasValue_oneEntry rfl _ (by decide)) nofun

/-- `{ n => 2 ** 63 }` comes back as `{ n => -(2 ** 63) }`. -/
theorem roundTrips_not_large :
    ¬ RoundTrips (oneFieldType .ULong) (oneEntry (2 ^ 63) (by decide)) .empty := by
  intro hround
  have hm : Marshals (oneFieldType .ULong) :=
    marshals_of_record (d := oneField .ULong) ⟨by decide, rfl, trivial⟩ rfl
  have hmem : sv2ptr (oneFieldType .ULong) (oneEntry (2 ^ 63) (by decide)) 0 .empty ≠
      .error .outOfMemory := nofun
  have hlow := (roundTrips_iff_lowerHalf hm (hasValue_oneEntry rfl _ (by decide))
    (plainNames_oneField .ULong) hmem).mp hround
  have hlt : (2 ^ 63 : ℤ) < 2 ^ 63 := (hlow _ rfl).1 _ rfl (Or.inl rfl)
  exact absurd hlt (lt_irrefl _)

end Affix.Analysis
