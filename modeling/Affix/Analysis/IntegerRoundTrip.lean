import Affix.Analysis.Calls
import Affix.Interface.CTypes

/-!
# Integers through a wrapped function

A C function that returns its only argument, declared `[T] => T`, should hand a
Perl integer back as it is. On the way in every integer type keeps the residue of
the value at its width, whatever casts the branch makes. On the way out two
branches read the result back at the wrong type: `UChar` widens a signed `char`,
and `UInt` widens a signed `int`. Those are the only losses.
-/

set_option autoImplicit false

namespace Affix.Analysis

open Affix.Foundation Affix.Model Affix.Interface

/-- A C function that returns its only argument, a value of type `t`. -/
def ReturnsItsArgument (t : CIntType) (callee : Callee) : Prop :=
  ∀ a h, ∃ r h', callee [.int a] h = .ok (r, h') ∧ t.wrap r.int = t.wrap a

/-- The value the return switch makes of a word. -/
def readBack (k : Kind) (t : CIntType) (w : ℤ) : ℤ :=
  match k with
  | .UChar => cchar.wrap w
  | .UInt => culong.wrap (cint.wrap w)
  | _ => t.wrap w

/-- **The way in**: every integer type passes a word with the residue of the value. -/
theorem argument_int {k : Kind} {t : CIntType} (hk : cInt k = some t) (sl : Slots) {s : Scalar}
    {v : ℤ} (hs : s.iv = some v) (h : Heap) :
    ∃ w, argument (.scalar k sl) (.val s) h = .ok (some (.int w), h) ∧ t.wrap w = t.wrap v := by
  have hiok := SvIOK_of_iv hs
  have hIV : ∀ t : CIntType, t.bits ≤ 64 → t.wrap (SvIV (.val s)) = t.wrap v := fun t ht => by
    rw [wrap_SvIV ht, svSlot_of_iv hs]
  have hUV : ∀ t : CIntType, t.bits ≤ 64 → t.wrap (SvUV (.val s)) = t.wrap v := fun t ht => by
    rw [wrap_SvUV ht, svSlot_of_iv hs]
  cases k <;> simp only [cInt, Option.some.injEq, reduceCtorEq] at hk <;> subst hk
  case Char | SChar =>
    refine ⟨cchar.wrap (cchar.wrap (SvIV (.val s))), ?_, ?_⟩
    · simp only [argument, argChar, hiok, if_true]
      rfl
    · rw [CIntType.wrap_wrap_of_le le_rfl, CIntType.wrap_wrap_of_le le_rfl,
        hIV _ (by decide)]
  case UChar =>
    refine ⟨cchar.wrap (cuchar.wrap (SvIV (.val s))), ?_, ?_⟩
    · simp only [argument, argChar, hiok, if_true]
      rfl
    · rw [CIntType.wrap_wrap_of_le (by decide), CIntType.wrap_wrap_of_le le_rfl,
        hIV _ (by decide)]
  case Short | Int | Long | LongLong =>
    exact ⟨_, rfl, (CIntType.wrap_wrap_of_le le_rfl _).trans (hIV _ (by decide))⟩
  all_goals
    exact ⟨_, rfl, (CIntType.wrap_wrap_of_le (by decide) _).trans (hUV _ (by decide))⟩

/-- **The way out**: the number of the scalar the return switch makes of a word. -/
theorem returned_int {k : Kind} {t : CIntType} (hk : cInt k = some t) (sl : Slots)
    (r : Returned) (h : Heap) :
    ∃ sv, returned (.scalar k sl) r h = .ok (some sv, h) ∧ svSlot sv = readBack k t r.int := by
  cases k <;> simp only [cInt, Option.some.injEq, reduceCtorEq] at hk <;> subst hk
  case UShort =>
    refine ⟨_, rfl, ?_⟩
    show culong.wrap (cushort.wrap (cshort.wrap r.int)) = cushort.wrap r.int
    rw [CIntType.Fits.wrap_wrap (t := cushort) (by decide),
      CIntType.wrap_wrap_of_le (t := cushort) (by decide)]
  case ULong | ULongLong | Size_t =>
    exact ⟨_, rfl, CIntType.wrap_wrap_of_le (by decide) r.int⟩
  case Short =>
    refine ⟨_, rfl, ?_⟩
    show clong.wrap (cshort.wrap (cshort.wrap r.int)) = cshort.wrap r.int
    rw [CIntType.Fits.wrap_wrap (t := cshort) (by decide), CIntType.wrap_wrap_of_le le_rfl]
  case UInt => exact ⟨_, rfl, rfl⟩
  all_goals exact ⟨_, rfl, CIntType.Fits.wrap_wrap (by decide) r.int⟩

/-- What is read back depends on the word only through its C value. -/
theorem readBack_congr {k : Kind} {t : CIntType} (hk : cInt k = some t) {w w' : ℤ}
    (h : t.wrap w = t.wrap w') : readBack k t w = readBack k t w' := by
  cases k <;> simp only [cInt, Option.some.injEq, reduceCtorEq] at hk <;> subst hk <;>
    simp only [readBack]
  case UChar =>
    rw [← CIntType.wrap_wrap_of_le (t := cchar) (u := cuchar) le_rfl w, h]
    exact CIntType.wrap_wrap_of_le (t := cchar) (u := cuchar) le_rfl w'
  case UInt =>
    rw [← CIntType.wrap_wrap_of_le (t := cint) (u := cuint) le_rfl w, h,
      CIntType.wrap_wrap_of_le (t := cint) (u := cuint) le_rfl]
  all_goals exact h

/-- The values a type reads back as they are: the lower half of `UChar` and of `UInt`, and
all of every other type. -/
def ReadsBack (k : Kind) (v : ℤ) : Prop := (k = .UChar → v < 2 ^ 7) ∧ (k = .UInt → v < 2 ^ 31)

instance (k : Kind) (v : ℤ) : Decidable (ReadsBack k v) := inferInstanceAs (Decidable (_ ∧ _))

/-- A value in range is read back exactly when it is in the half that survives. -/
theorem readBack_eq_self_iff {k : Kind} {t : CIntType} (hk : cInt k = some t) {v : ℤ}
    (hv : t.InRange v) : readBack k t v = v ↔ ReadsBack k v := by
  have hself : t.wrap v = v := CIntType.wrap_of_inRange hv
  cases k <;> simp only [cInt, Option.some.injEq, reduceCtorEq] at hk <;> subst hk <;>
    simp only [readBack, ReadsBack, reduceCtorEq, false_imp_iff, true_imp_iff, and_true, true_and,
      hself]
  case UChar => exact CIntType.signed_eq_self_iff (n := 7) hv
  case UInt => exact CIntType.sign_extend_eq_self_iff (n := 31) (m := 64) (by decide) hv

/-- A call handed back a Perl integer. -/
def HandsBack (outcome : Except Halt (Option ℕ × Interp)) (v : ℤ) : Prop :=
  ∃ c st sv, outcome = .ok (some c, st) ∧ st.cells[c]? = some sv ∧ svSlot sv = v

section Wrapper

variable {k : Kind} {t : CIntType} {v : ℤ} {s : Scalar} {callee : Callee} {st : Interp} {c : ℕ}

/-- One call of a function that returns its argument: the result cell holds what is read
back of the value. -/
theorem trigger_identity (hk : cInt k = some t) (hs : s.iv = some v)
    (hid : ReturnsItsArgument t callee) (inMemory : DCaggr → Bool) (lib : Option ℕ)
    (entryPoint : ℕ) (symbol : List UInt8) (sa sr : Slots) (hres : st.res = some c) :
    ∃ st' sv, Fiction_trigger inMemory
        (wrapper lib entryPoint symbol (some [.scalar k sa]) (some (.scalar k sr))) callee
        [.val s] st = .ok (some c, st') ∧
      st'.cells = st.cells.set c sv ∧ svSlot sv = readBack k t v := by
  obtain ⟨w, harg, hw⟩ := argument_int hk sa hs st.heap
  obtain ⟨r, h', hcall, hr⟩ := hid w st.heap
  obtain ⟨sv, hsv, hnum⟩ := returned_int hk sr r h'
  have hstruct : k.flag ≠ .struct := by cases k <;> decide
  refine ⟨{ st with heap := h', vm := ⟨false, [.int w]⟩, cells := st.cells.set c sv }, sv, ?_,
    rfl, ?_⟩
  · refine (trigger_eq_ok rfl).mpr ⟨⟨?_, rfl⟩, _, r, h',
      (prepare_eq_ok rfl rfl).mpr
        ⟨rfl, false, [.int w], st.heap, ?_, ?_, rfl⟩, hcall, ?_, ?_⟩
    · cases k <;> first | rfl | cases hk
    · simp [aggrSetup, wrapper, TypeObj.flag, hstruct]
    · simp only [convertAll, Exec.bind_of_ok harg]
      rfl
    · have hcell : replacesCell (.scalar k sr) = false := by cases k <;> first | rfl | cases hk
      exact returnSwitch_eq_ok.mpr ⟨some sv, h', hsv, putResult_overwrites hcell hres⟩
    · exact hres.symm
  · rw [hnum, readBack_congr hk (hr.trans hw)]

/-- The result cell of the wrapper holds the value itself exactly when it reads back. -/
theorem handsBack_iff_readBack (hk : cInt k = some t) (hs : s.iv = some v)
    (hid : ReturnsItsArgument t callee) (inMemory : DCaggr → Bool) (lib : Option ℕ)
    (entryPoint : ℕ) (symbol : List UInt8) (sa sr : Slots) (hres : st.res = some c)
    (hc : c < st.cells.length) :
    HandsBack (Fiction_trigger inMemory
      (wrapper lib entryPoint symbol (some [.scalar k sa]) (some (.scalar k sr))) callee
      [.val s] st) v ↔ readBack k t v = v := by
  obtain ⟨st', sv, hrun, hcells, hnum⟩ :=
    trigger_identity hk hs hid inMemory lib entryPoint symbol sa sr hres
  have hcell : st'.cells[c]? = some sv := by simp [hcells, hc]
  rw [← hnum]
  constructor
  · rintro ⟨c', st'', sv', hout, hcell', hv⟩
    cases hrun.symm.trans hout
    cases hcell.symm.trans hcell'
    exact hv
  · intro hv
    exact ⟨c, st', sv, hrun, hcell, hv⟩

/-- **An integer comes back from a function that returns its argument exactly when its type
reads it back**: any value of any integer type, but for the upper half of `UChar`, which
comes back less `2 ^ 8`, and the upper half of `UInt`, which comes back
`2 ^ 64 - 2 ^ 32` too large. -/
theorem identity_handsBack_iff_readsBack (hk : cInt k = some t) (hv : t.InRange v)
    (hs : s.iv = some v) (hid : ReturnsItsArgument t callee) (inMemory : DCaggr → Bool)
    (lib : Option ℕ) (entryPoint : ℕ) (symbol : List UInt8) (sa sr : Slots)
    (hres : st.res = some c) (hc : c < st.cells.length) :
    HandsBack (Fiction_trigger inMemory
      (wrapper lib entryPoint symbol (some [.scalar k sa]) (some (.scalar k sr))) callee
      [.val s] st) v ↔ ReadsBack k v := by
  rw [handsBack_iff_readBack hk hs hid inMemory lib entryPoint symbol sa sr hres hc]
  exact readBack_eq_self_iff hk hv

end Wrapper

/-- The C function `t fn(t arg) { return arg; }`. -/
def echo : Callee
  | [.int a], h => .ok (⟨a, 0, 0, []⟩, h)
  | _, _ => .error .fault

/-- `affix(…, 'fn', [UInt], UInt)` and one call. SOURCE: t/227_types_uint.t:20-28 -/
def callEchoUInt (v : ℤ) (h : -2 ^ 63 ≤ v ∧ v < 2 ^ 64) : Except Halt (Option ℕ × Interp) :=
  Fiction_trigger (fun _ => false)
    (wrapper none 1 [] (some [scalarType .UInt]) (some (scalarType .UInt))) echo [.int v h]
    (.wrapped .empty [] (some (scalarType .UInt)))

/-- A small `UInt` comes back. -/
theorem identity_handsBack_uint :
    HandsBack (callEchoUInt 60000 (by decide)) 60000 ↔ ReadsBack .UInt 60000 :=
  identity_handsBack_iff_readsBack (k := .UInt) (t := cuint) (s := .ofInt 60000 (by decide))
    (c := 0) rfl (by decide) rfl (fun a h => ⟨⟨a, 0, 0, []⟩, h, rfl, rfl⟩) _ none 1 [] _ _ rfl
    (by decide)

/-- The least `UInt` with the top bit set does not. -/
theorem identity_loses_uint : ¬ HandsBack (callEchoUInt (2 ^ 31) (by decide)) (2 ^ 31) := by
  intro h
  have hback := (handsBack_iff_readBack (k := .UInt) (t := cuint)
    (s := .ofInt (2 ^ 31) (by decide)) (c := 0) rfl rfl
    (fun a h => ⟨⟨a, 0, 0, []⟩, h, rfl, rfl⟩) _ none 1 [] _ _ rfl (by decide)).mp h
  revert hback
  decide

end Affix.Analysis
