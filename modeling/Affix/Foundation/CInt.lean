import Mathlib.Data.Int.ModEq
import Mathlib.Tactic.Ring
import Mathlib.Tactic.Linarith

/-!
# C integer types

A C integer type is a width and a signedness; its values are mathematical
integers in its range, and a conversion to it keeps the residue modulo
`2 ^ bits` and picks the representative in range. Everything a chain of C
casts can do to a value is a composition of these conversions, so the facts
below are about composition: a conversion is the identity on its range, and a
later narrower one forgets an earlier wider one.
-/

set_option autoImplicit false

namespace Affix.Foundation

/-- A C integer type: its width in bits and whether it is signed. -/
structure CIntType where
  bits : ℕ
  signed : Bool
deriving DecidableEq, Repr

namespace CIntType

def card (t : CIntType) : ℤ := 2 ^ t.bits

def minValue (t : CIntType) : ℤ := if t.signed then -(2 ^ (t.bits - 1)) else 0

/-- Conversion of an integer to the type: the representative, in the range of the
type, of the residue modulo `2 ^ bits`. -/
def wrap (t : CIntType) (x : ℤ) : ℤ := (x - t.minValue) % t.card + t.minValue

def InRange (t : CIntType) (x : ℤ) : Prop := t.minValue ≤ x ∧ x < t.minValue + t.card

instance (t : CIntType) (x : ℤ) : Decidable (t.InRange x) :=
  inferInstanceAs (Decidable (_ ∧ _))

theorem card_pos (t : CIntType) : 0 < t.card := by
  unfold card
  positivity

theorem wrap_inRange (t : CIntType) (x : ℤ) : t.InRange (t.wrap x) := by
  have hpos := t.card_pos
  have hlo := Int.emod_nonneg (x - t.minValue) hpos.ne'
  have hhi := Int.emod_lt_of_pos (x - t.minValue) hpos
  unfold InRange wrap
  exact ⟨by omega, by omega⟩

theorem wrap_of_inRange {t : CIntType} {x : ℤ} (h : t.InRange x) : t.wrap x = x := by
  obtain ⟨hlo, hhi⟩ := h
  unfold wrap
  rw [Int.emod_eq_of_lt (by omega) (by omega)]
  omega

theorem wrap_eq_self_iff {t : CIntType} {x : ℤ} : t.wrap x = x ↔ t.InRange x := by
  constructor
  · intro h
    rw [← h]
    exact t.wrap_inRange x
  · exact wrap_of_inRange

/-- A conversion keeps the residue modulo the number of values. -/
theorem wrap_emod (t : CIntType) (x : ℤ) : t.wrap x % t.card = x % t.card := by
  unfold wrap
  rw [Int.emod_add_emod, Int.sub_add_cancel]

theorem wrap_congr {t : CIntType} {x y : ℤ} (h : x % t.card = y % t.card) :
    t.wrap x = t.wrap y := by
  unfold wrap
  rw [Int.sub_emod, h, ← Int.sub_emod]

theorem card_dvd {t u : CIntType} (h : t.bits ≤ u.bits) : t.card ∣ u.card :=
  pow_dvd_pow 2 h

/-- A narrowing conversion forgets an earlier conversion that was at least as wide.
This is why a value survives any detour through wider C types. -/
theorem wrap_wrap_of_le {t u : CIntType} (h : t.bits ≤ u.bits) (x : ℤ) :
    t.wrap (u.wrap x) = t.wrap x := by
  apply wrap_congr
  calc u.wrap x % t.card
      = u.wrap x % u.card % t.card := (Int.emod_emod_of_dvd _ (card_dvd h)).symm
    _ = x % u.card % t.card := by rw [u.wrap_emod]
    _ = x % t.card := Int.emod_emod_of_dvd _ (card_dvd h)

/-- Two integers that convert to one value convert to one value of every type as wide. -/
theorem wrap_eq_wrap_of_bits {t u : CIntType} (h : u.bits = t.bits) {x y : ℤ}
    (hxy : t.wrap x = t.wrap y) : u.wrap x = u.wrap y := by
  calc u.wrap x
      = u.wrap (t.wrap x) := (wrap_wrap_of_le h.le x).symm
    _ = u.wrap (t.wrap y) := by rw [hxy]
    _ = u.wrap y := wrap_wrap_of_le h.le y

/-- Every value of the first type is one of the second. -/
def Fits (t u : CIntType) : Prop :=
  u.minValue ≤ t.minValue ∧ t.minValue + t.card ≤ u.minValue + u.card

instance (t u : CIntType) : Decidable (t.Fits u) := inferInstanceAs (Decidable (_ ∧ _))

theorem Fits.inRange {t u : CIntType} (h : t.Fits u) {x : ℤ} (hx : t.InRange x) : u.InRange x := by
  obtain ⟨hlo, hhi⟩ := h
  obtain ⟨hxlo, hxhi⟩ := hx
  exact ⟨by omega, by omega⟩

/-- A widening conversion leaves the values of the narrower type alone. -/
theorem Fits.wrap_wrap {t u : CIntType} (h : t.Fits u) (x : ℤ) : u.wrap (t.wrap x) = t.wrap x :=
  wrap_of_inRange (h.inRange (t.wrap_inRange x))

/-- Sign extension of an unsigned value to a wider unsigned type keeps the value exactly in
the lower half of its range. -/
theorem sign_extend_eq_self_iff {n m : ℕ} (hnm : n + 1 < m) {v : ℤ}
    (hv : (⟨n + 1, false⟩ : CIntType).InRange v) :
    (⟨m, false⟩ : CIntType).wrap ((⟨n + 1, true⟩ : CIntType).wrap v) = v ↔ v < 2 ^ n := by
  have hpow : (2 : ℤ) ^ (n + 1) = 2 * 2 ^ n := by ring
  have hpos : (0 : ℤ) < 2 ^ n := by positivity
  have hwide : (4 : ℤ) * 2 ^ n ≤ 2 ^ m := by
    calc (4 : ℤ) * 2 ^ n = 2 ^ (n + 2) := by ring
      _ ≤ 2 ^ m := pow_le_pow_right₀ (by norm_num) (by omega)
  simp only [InRange, minValue, card, Bool.false_eq_true, if_false, zero_add] at hv
  constructor
  · intro h
    have hs := (⟨n + 1, true⟩ : CIntType).wrap_inRange v
    generalize (⟨n + 1, true⟩ : CIntType).wrap v = w at h hs
    simp only [InRange, minValue, card, if_true, Nat.add_sub_cancel] at hs
    have hdvd : (2 : ℤ) ^ m ∣ w - v := by
      have hmod := (⟨m, false⟩ : CIntType).wrap_emod w
      rw [h] at hmod
      exact Int.ModEq.dvd hmod
    have hzero := Int.eq_zero_of_abs_lt_dvd hdvd (abs_lt.mpr ⟨by omega, by omega⟩)
    omega
  · intro h
    rw [wrap_of_inRange (t := ⟨n + 1, true⟩)]
    · apply wrap_of_inRange
      simp only [InRange, minValue, card, Bool.false_eq_true, if_false, zero_add]
      omega
    · simp only [InRange, minValue, card, if_true, Nat.add_sub_cancel]
      omega

/-- Reading an unsigned value at the signed type of its width keeps it exactly in the lower
half of its range. -/
theorem signed_eq_self_iff {n : ℕ} {v : ℤ} (hv : (⟨n + 1, false⟩ : CIntType).InRange v) :
    (⟨n + 1, true⟩ : CIntType).wrap v = v ↔ v < 2 ^ n := by
  have hpow : (2 : ℤ) ^ (n + 1) = 2 * 2 ^ n := by ring
  rw [wrap_eq_self_iff]
  simp only [InRange, minValue, card, Bool.false_eq_true, if_false, zero_add, if_true,
    Nat.add_sub_cancel] at hv ⊢
  omega

end CIntType

/-! ## The integer types of an LP64 platform with signed `char`

`int` is also `wchar_t`, `long` is also Perl's `IV` and `unsigned long` its `UV`. -/

def cchar : CIntType := ⟨8, true⟩
def cuchar : CIntType := ⟨8, false⟩
def cshort : CIntType := ⟨16, true⟩
def cushort : CIntType := ⟨16, false⟩
def cint : CIntType := ⟨32, true⟩
def cuint : CIntType := ⟨32, false⟩
def clong : CIntType := ⟨64, true⟩
def culong : CIntType := ⟨64, false⟩
def clonglong : CIntType := ⟨64, true⟩
def culonglong : CIntType := ⟨64, false⟩

end Affix.Foundation
