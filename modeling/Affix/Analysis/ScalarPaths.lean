import Affix.Analysis.RecordEncoding
import Affix.Interface.Conversion

/-!
# When the conversion paths agree

The argument switch and the result switch read a number off any scalar, and a
character off a string as its first byte. The branches of `sv2ptr` take numbers
only from scalars that carry an integer, and characters only from strings, of
which they copy all bytes.

SOURCE: Affix.cxx:342-422, marshal.cxx:31-281, Callback.cxx:137-204
-/

set_option autoImplicit false

namespace Affix.Analysis

open Affix.Foundation Affix.Model Affix.Interface

variable {k : Kind} {s : Scalar} {h : Heap}

/-! ## Numbers -/

theorem cType_number {c : CIntType} (hk : reading k = some (.number c)) :
    cType k = c ∧ c.Bytewise ∧ c.bits ≤ 64 := by
  cases k <;> simp only [reading, Option.some.injEq, reduceCtorEq, Reading.number.injEq] at hk <;>
    subst hk <;> exact ⟨rfl, by decide, by decide⟩

/-- The word of an argument has the value of the scalar at the type of the parameter. -/
theorem passed_number {c : CIntType} (hk : reading k = some (.number c)) (v : SV) :
    passed k v h = .value (c.wrap (svSlot v)) := by
  have hword : ∃ (t : CIntType) (read : SV → ℤ), c.bits ≤ t.bits ∧
      c.wrap (read v) = c.wrap (svSlot v) ∧
      argument (scalarType k) v = pure (some (.int (t.wrap (read v)))) := by
    cases k <;> simp only [reading, Option.some.injEq, reduceCtorEq, Reading.number.injEq] at hk <;>
      subst hk
    case UShort => exact ⟨cshort, SvUV, by decide, wrap_SvUV (by decide) v, rfl⟩
    case UInt => exact ⟨cint, SvUV, by decide, wrap_SvUV (by decide) v, rfl⟩
    case ULong => exact ⟨clong, SvUV, by decide, wrap_SvUV (by decide) v, rfl⟩
    case ULongLong => exact ⟨clonglong, SvUV, by decide, wrap_SvUV (by decide) v, rfl⟩
    all_goals exact ⟨_, SvIV, le_refl _, wrap_SvIV (by decide) v, rfl⟩
  obtain ⟨t, read, hbits, hread, hrun⟩ := hword
  obtain ⟨hc, -, -⟩ := cType_number hk
  simp only [passed, hrun, Exec.pure_apply, Outcome.ofResult, hc]
  rw [CIntType.wrap_wrap_of_le hbits, hread]

theorem returnedBack_number {c : CIntType} (hk : reading k = some (.number c)) (v : SV) :
    returnedBack k v h = .value (c.wrap (svSlot v)) := by
  have hmember : ∃ ret m, cbReturn (scalarType k) v = pure (ret, .int m (c.wrap (SvIV v))) := by
    cases k <;> simp only [reading, Option.some.injEq, reduceCtorEq, Reading.number.injEq] at hk <;>
      subst hk <;> exact ⟨_, _, rfl⟩
  obtain ⟨ret, m, hrun⟩ := hmember
  obtain ⟨hc, -, hbits⟩ := cType_number hk
  simp only [returnedBack, hrun, Exec.pure_apply, Outcome.ofResult, hc]
  rw [CIntType.wrap_wrap_of_le (le_refl _), wrap_SvIV hbits]

/-! ## Fields -/

/-- The loop over the fields hands a scalar field to the branch of its type. -/
theorem stored_eq (f : FieldSlot k (.val s) h) : ∃ sl, stored f =
    .ofResult (fun r => .value ((cType k).decode (r.2.mem.peek (f.base + f.offset) k.sizeof)))
      (sv2ptrScalar k sl (.val s) (f.base + f.offset) h) := by
  refine ⟨{ (scalarType k).slots with offset := some f.offset, field := some f.name }, ?_⟩
  have hname : ((scalarType k).withMember f.offset f.name).field = some f.name :=
    TypeObj.field_withMember _ _ _
  have hoffset : ((scalarType k).withMember f.offset f.name).offset = f.offset :=
    TypeObj.offset_withMember _ _ _
  have hptr : ((scalarType k).withMember f.offset f.name).isPointer = false := rfl
  have hconv : ∀ a, sv2ptr ((scalarType k).withMember f.offset f.name) (.val s) a = sv2ptrScalar k
      { (scalarType k).slots with offset := some f.offset, field := some f.name } (.val s) a := by
    intro a
    simp only [scalarType, TypeObj.withMember, TypeObj.mapSlots, sv2ptr, SV.SvOK, Bool.not_true,
      Bool.false_and, Bool.false_eq_true, if_false]
    rfl
  unfold stored
  rw [sv2ptrFields]
  simp only [hname, f.found, hptr, Bool.false_eq_true, if_false, hconv, hoffset]
  cases hrun : sv2ptrScalar k
      { (scalarType k).slots with offset := some f.offset, field := some f.name } (.val s)
      (f.base + f.offset) h with
  | error e => rw [Exec.bind_of_error hrun]; cases e <;> rfl
  | ok r => rw [Exec.bind_of_ok hrun]; simp only [sv2ptrFields]; rfl

/-- A branch that lays bytes over the field stores what the field then reads as. -/
theorem stored_of_poke (f : FieldSlot k (.val s) h) (bs : List UInt8)
    (hrun : ∀ sl, sv2ptrScalar k sl (.val s) (f.base + f.offset) h =
      .ok (f.base + f.offset, { h with mem := h.mem.poke (f.base + f.offset) bs })) :
    stored f = .value ((cType k).decode
      ((h.mem.poke (f.base + f.offset) bs).peek (f.base + f.offset) k.sizeof)) := by
  obtain ⟨sl, hstored⟩ := stored_eq f
  rw [hstored, hrun]
  rfl

/-- **A number field** takes an integer, and nothing else. -/
theorem stored_number {c : CIntType} (hk : reading k = some (.number c))
    (f : FieldSlot k (.val s) h) :
    stored f = if s.iv.isSome then .value (c.wrap (svSlot (.val s))) else .rejected := by
  obtain ⟨hsize, read, hread, hrun⟩ := sv2ptrScalar_number hk
  obtain ⟨hc, hbytes, -⟩ := cType_number hk
  cases hiv : s.iv with
  | none =>
    obtain ⟨sl, hstored⟩ := stored_eq f
    have hIOK : (SV.val s).SvIOK = false := by rw [SV.SvIOK, hiv]; rfl
    rw [hstored, hrun, sv2ptrInt]
    simp only [SV.SvOK, hIOK, Bool.false_eq_true, if_false, SV.elems]
    rfl
  | some n =>
    have hlen : (c.encode (read (.val s))).length = k.sizeof := by
      rw [CIntType.length_encode, hsize]
    have hpoke := stored_of_poke f (c.encode (read (.val s))) fun sl => by
      simp only [hrun, sv2ptrInt, SV.SvOK, if_true, SvIOK_of_iv hiv]
      exact fill_given f.inBlock.pos.ne' (by rw [hlen]; exact f.inBlock)
    rw [hpoke, ← hlen, Mem.peek_poke_same, hc, CIntType.decode_encode hbytes rfl, hread]
    rfl

/-! ## Truth values -/

theorem paths_truth (hk : reading k = some .truth) (f : FieldSlot k (.val s) h) :
    PathsAgree f := by
  have hbool := reading_truth hk
  subst hbool
  have hpoke := stored_of_poke f (boolByte (SvTRUE (.val s))) fun sl =>
    fill_given f.inBlock.pos.ne' f.inBlock
  have hvalue : stored f = .value (if SvTRUE (.val s) then 1 else 0) := by
    rw [hpoke]
    show Outcome.value ((cType .Bool).decode ((h.mem.poke _ (boolByte _)).peek _
      (boolByte (SvTRUE (.val s))).length)) = _
    rw [Mem.peek_poke_same]
    cases SvTRUE (.val s) <;> decide
  have hpassed : passed .Bool (.val s) h = .value (if SvTRUE (.val s) then 1 else 0) := by
    show Outcome.value ((cType .Bool).wrap (if SvTRUE (.val s) then 1 else 0)) = _
    cases SvTRUE (.val s) <;> decide
  have hback : returnedBack .Bool (.val s) h = .value (if SvTRUE (.val s) then 1 else 0) := by
    show Outcome.value ((cType .Bool).wrap (cint.wrap (if SvTRUE (.val s) then 1 else 0))) = _
    cases SvTRUE (.val s) <;> decide
  exact ⟨by rw [hvalue]; exact nofun, by rw [hpassed, hvalue], by rw [hback, hvalue]⟩

/-! ## Characters -/

/-- The C type of a type of characters has eight bits. -/
theorem cType_character (hk : reading k = some .character) :
    (cType k).bits = 8 ∧ (cType k).Bytewise ∧ k.sizeof = 1 ∧
      (∀ v, argument (scalarType k) v = some <$> argChar (cType k) v) ∧
      ∀ v, ∃ ret m, cbReturn (scalarType k) v = pure (ret, .int m ((cType k).wrap
        (if v.SvIOK then (if k = .UChar then SvUV v else SvIV v) else svFirstByte v))) := by
  cases k <;> simp only [reading, Option.some.injEq, reduceCtorEq] at hk
  all_goals exact ⟨rfl, by decide, rfl, fun _ => rfl, fun _ => ⟨_, _, rfl⟩⟩

/-- Different bytes are different characters. -/
theorem wrap_byte_inj {c : CIntType} (hc : c.bits = 8) {b b' : UInt8}
    (h : c.wrap (b.toNat : ℤ) = c.wrap (b'.toNat : ℤ)) : b = b' := by
  have hcard : c.card = 256 := by rw [CIntType.card, hc]; norm_num
  have hmod := c.wrap_emod (b.toNat : ℤ)
  rw [h, c.wrap_emod, hcard] at hmod
  have hb := b.toNat_lt
  have hb' := b'.toNat_lt
  exact UInt8.toNat_inj.mp (by omega)

theorem peek_poke_one (m : Mem) (a : ℕ) (bs : List UInt8) :
    (m.poke a bs).peek a 1 = [bs.headD (m.bytes a)] := by
  cases bs with
  | nil => simp [Mem.peek, Mem.poke, Mem.overlay]
  | cons b bs => simp [Mem.peek, Mem.poke, Mem.overlay]

/-- **A field of characters** takes the first byte of the string, if all of them fit. -/
theorem stored_character (hk : reading k = some .character) (f : FieldSlot k (.val s) h) :
    stored f = if (SvPV (.val s)).bytes = [] ∨
        h.mem.InBlock (f.base + f.offset) (SvPV (.val s)).bytes.length
      then .value ((cType k).wrap (firstByte (SvPV (.val s)).bytes).toNat) else .broken := by
  obtain ⟨hsize, c, read, count, wide, hrun⟩ := sv2ptrScalar_character hk
  have hbytes := (cType_character hk).2.1
  have hbranch : ∀ sl, sv2ptrScalar k sl (.val s) (f.base + f.offset) = (do
      let ret ← orNew (f.base + f.offset) (Newxz ((SvPV (.val s)).bytes.length + 1) 1)
      store ret (SvPV (.val s)).bytes
      pure ret) := fun sl => by
    simp only [hrun, sv2ptrChar, SV.SvOK, if_true, SV.elems]
  have hnew := orNew_of_ne f.inBlock.pos.ne' (Newxz ((SvPV (.val s)).bytes.length + 1) 1) h
  by_cases hfits : (SvPV (.val s)).bytes = [] ∨
      h.mem.InBlock (f.base + f.offset) (SvPV (.val s)).bytes.length
  · have hpoke := stored_of_poke f (SvPV (.val s)).bytes fun sl => by
      rw [hbranch]
      exact (Exec.bind_of_ok hnew).trans (Exec.bind_of_ok (store_eq_ok.mpr ⟨hfits, rfl⟩))
    have hzero : h.mem.bytes (f.base + f.offset) = 0 := by
      have hz := f.zeroed
      rw [hsize] at hz
      exact List.singleton_inj.mp hz
    rw [if_pos hfits, hpoke, hsize, peek_poke_one, hzero]
    show Outcome.value ((cType k).wrap ((firstByte (SvPV (.val s)).bytes).toNat + 256 * 0 : ℕ)) = _
    rw [Nat.mul_zero, Nat.add_zero]
  · obtain ⟨sl, hstored⟩ := stored_eq f
    have hfault : store (f.base + f.offset) (SvPV (.val s)).bytes h = .error .fault := by
      rw [store, Mem.write, if_neg hfits]
    rw [hstored, hbranch, Exec.bind_of_ok hnew, Exec.bind_of_error hfault, if_neg hfits]
    rfl

/-- An argument is the number of the scalar, or the first byte of its characters. -/
theorem passed_character (hk : reading k = some .character) (s : Scalar) :
    passed k (.val s) h =
      match s.iv with
      | some n => .value ((cType k).wrap n)
      | none =>
        match (SvPV (.val s)).pvbyte with
        | some bs => .value ((cType k).wrap (firstByte bs).toNat)
        | none => .rejected := by
  obtain ⟨hbits, -, -, harg, -⟩ := cType_character hk
  have hnarrow : ∀ x, (cType k).wrap (cchar.wrap ((cType k).wrap x)) = (cType k).wrap x := by
    intro x
    rw [CIntType.wrap_wrap_of_le (u := cchar) (by rw [hbits]; decide),
      CIntType.wrap_wrap_of_le (le_refl _)]
  rw [passed, harg, argChar]
  cases hiv : s.iv with
  | some n =>
    have hslot : svSlot (.val s) = n := svSlot_of_iv hiv
    simp only [SvIOK_of_iv hiv, if_true]
    show Outcome.value ((cType k).wrap (cchar.wrap ((cType k).wrap (SvIV (.val s))))) = _
    rw [hnarrow, wrap_SvIV (by rw [hbits]; decide), hslot]
  | none =>
    have hIOK : (SV.val s).SvIOK = false := by rw [SV.SvIOK, hiv]; rfl
    simp only [hIOK, Bool.false_eq_true, if_false, SvPVbyte]
    cases (SvPV (.val s)).pvbyte with
    | none => rfl
    | some bs =>
      show Outcome.value ((cType k).wrap (cchar.wrap ((cType k).wrap (firstByte bs).toNat))) = _
      rw [hnarrow]

/-- A result is the number of the scalar, or the first byte of its string. -/
theorem returnedBack_character (hk : reading k = some .character) (s : Scalar) :
    returnedBack k (.val s) h =
      match s.iv with
      | some n => .value ((cType k).wrap n)
      | none => .value ((cType k).wrap (firstByte (SvPV (.val s)).bytes).toNat) := by
  obtain ⟨hbits, -, -, -, hret⟩ := cType_character hk
  obtain ⟨ret, m, hrun⟩ := hret (.val s)
  have h64 : (cType k).bits ≤ 64 := by rw [hbits]; decide
  rw [returnedBack, hrun]
  cases hiv : s.iv with
  | some n =>
    have hslot : svSlot (.val s) = n := svSlot_of_iv hiv
    have hread : (cType k).wrap (if k = .UChar then SvUV (.val s) else SvIV (.val s)) =
        (cType k).wrap n := by
      split
      · rw [wrap_SvUV h64, hslot]
      · rw [wrap_SvIV h64, hslot]
    simp only [SvIOK_of_iv hiv, if_true, Exec.pure_apply, Outcome.ofResult, hread]
    rw [CIntType.wrap_wrap_of_le (le_refl _)]
  | none =>
    have hIOK : (SV.val s).SvIOK = false := by rw [SV.SvIOK, hiv]; rfl
    simp only [hIOK, Bool.false_eq_true, if_false, Exec.pure_apply, Outcome.ofResult, svFirstByte]
    rw [CIntType.wrap_wrap_of_le (le_refl _)]

theorem paths_character (hk : reading k = some .character) (f : FieldSlot k (.val s) h) :
    PathsAgree f ↔ ((SvPV (.val s)).bytes = [] ∨
        h.mem.InBlock (f.base + f.offset) (SvPV (.val s)).bytes.length) ∧
      match s.iv with
      | some n => (cType k).wrap n = (cType k).wrap (firstByte (SvPV (.val s)).bytes).toNat
      | none => (SvPV (.val s)).pvbyte.map firstByte = some (firstByte (SvPV (.val s)).bytes) := by
  have hbits := (cType_character hk).1
  unfold PathsAgree
  rw [stored_character hk, passed_character hk, returnedBack_character hk]
  by_cases hfits : (SvPV (.val s)).bytes = [] ∨
      h.mem.InBlock (f.base + f.offset) (SvPV (.val s)).bytes.length
  · rw [if_pos hfits, and_iff_right hfits]
    cases s.iv with
    | some n => simp
    | none =>
      cases (SvPV (.val s)).pvbyte with
      | none => simp
      | some bs =>
        simp only [ne_eq, reduceCtorEq, not_false_eq_true, Outcome.value.injEq, true_and,
          and_true, Option.map_some, Option.some.injEq]
        exact ⟨fun hsame => wrap_byte_inj hbits hsame, fun hsame => by rw [hsame]⟩
  · rw [if_neg hfits]
    simp [hfits]

/-! ## All scalars -/

/-- **When the three conversion paths agree.** SOURCE: Affix.cxx:342-422,
marshal.cxx:31-281, Callback.cxx:137-204 -/
theorem pathsAgree_iff_agreeable (hk : (reading k).isSome = true) (f : FieldSlot k (.val s) h) :
    PathsAgree f ↔ Agreeable f := by
  obtain ⟨r, hr⟩ := Option.isSome_iff_exists.mp hk
  unfold Agreeable
  rw [hr]
  cases r with
  | truth => exact iff_true_intro (paths_truth hr f)
  | character => exact paths_character hr f
  | number c =>
    unfold PathsAgree
    rw [stored_number hr, passed_number hr, returnedBack_number hr]
    cases s.iv <;> simp

/-- Eight zero bytes, as for `Struct[ n => … ]`. -/
def eightBytes : Heap :=
  ⟨⟨fun _ => 0, [(4096, 8)], 4104, by decide, by decide, by simp, by simp⟩, [], []⟩

def slotOf (k : Kind) (v : SV) (hsize : k.sizeof ≤ 8)
    (hzero : eightBytes.mem.peek 4096 k.sizeof = List.replicate k.sizeof 0) :
    FieldSlot k v eightBytes where
  base := 4096
  offset := 0
  name := .ofBytes [0x6e]
  entries := [([0x6e], v)]
  found := rfl
  inBlock := ⟨(4096, 8), List.mem_singleton_self _, le_refl _, Nat.add_le_add_left hsize 4096⟩
  zeroed := hzero

/-- An integer as an `Int`. -/
theorem pathsAgree_int : PathsAgree (slotOf .Int (.int 12 (by decide)) (by decide) rfl) ↔
    Agreeable (slotOf .Int (.int 12 (by decide)) (by decide) rfl) :=
  pathsAgree_iff_agreeable (by decide) _

/-- The number of a character: passed and returned it is `65`, stored it is the code of the
digit six. SOURCE: t/222_types_char.t:10-29 -/
theorem pathsDisagree_char :
    passed .Char (.int 65 (by decide)) eightBytes = .value 65 ∧
      returnedBack .Char (.int 65 (by decide)) eightBytes = .value 65 ∧
      stored (slotOf .Char (.int 65 (by decide)) (by decide) rfl) = .value 54 ∧
      ¬ PathsAgree (slotOf .Char (.int 65 (by decide)) (by decide) rfl) := by
  have hpassed : passed .Char (.int 65 (by decide)) eightBytes = .value 65 := by decide
  have hstored : stored (slotOf .Char (.int 65 (by decide)) (by decide) rfl) = .value 54 := rfl
  refine ⟨hpassed, by decide, hstored, fun h => ?_⟩
  have hsame := hpassed.symm.trans (h.2.1.trans hstored)
  exact absurd hsame (by decide)

end Affix.Analysis
