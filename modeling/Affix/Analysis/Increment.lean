import Affix.Model.Enum
import Mathlib.Data.List.TakeWhile

/-!
# The texts of integers

Counting up the text of an integer gives the text of the next one: a numeral is digits
only, so `++` carries through it as one does by hand, and a text with a sign is taken
for a number.
-/

set_option autoImplicit false

namespace Affix.Analysis

open Affix.Foundation Affix.Model

theorem integer_of_nonneg (n : ℕ) : integer n = numeral 10 n := by
  rw [integer, if_neg (by omega), Int.natAbs_natCast]

theorem integer_of_neg {z : ℤ} (h : z < 0) : integer z = '-' :: numeral 10 z.natAbs := by
  rw [integer, if_pos h]

theorem numeral_all (n : ℕ) : (numeral 10 n).all Char.isDigit = true :=
  List.all_eq_true.mpr (numeral_isDigit n)

theorem hasNonDigit_numeral (n : ℕ) : hasNonDigit (numeral 10 n) = false := by
  rw [hasNonDigit, List.any_eq_false]
  intro c hc
  simp [numeral_isDigit n c hc]

theorem hasNonDigit_integer (z : ℤ) : hasNonDigit (integer z) = decide (z < 0) := by
  by_cases h : z < 0
  · rw [integer_of_neg h, decide_eq_true h]
    rfl
  · obtain ⟨n, rfl⟩ := Int.eq_ofNat_of_zero_le (Int.not_lt.mp h)
    rw [integer_of_nonneg, hasNonDigit_numeral, decide_eq_false h]

/-! ## Read back as a number -/

theorem isDigit_ne {c d : Char} (hc : c.isDigit = true) (hd : d.isDigit = false) : c ≠ d := by
  rintro rfl
  rw [hc] at hd
  cases hd

theorem dropWhile_numeral {p : Char → Bool} (hp : ∀ c : Char, c.isDigit = true → p c = false)
    (n : ℕ) : (numeral 10 n).dropWhile p = numeral 10 n := by
  obtain ⟨c, cs, hcs⟩ := List.exists_cons_of_ne_nil (numeral_ne_nil 10 n)
  have hc : c.isDigit = true := numeral_isDigit n c (by simp [hcs])
  rw [hcs, List.dropWhile_cons, hp c hc]
  rfl

theorem takeWhile_numeral (n : ℕ) : (numeral 10 n).takeWhile Char.isDigit = numeral 10 n :=
  List.takeWhile_eq_self_iff.mpr (numeral_isDigit n)

theorem isSpace_of_isDigit {c : Char} (h : c.isDigit = true) :
    (c == ' ' || ('\t' ≤ c && c ≤ '\r')) = false := by
  have hrange : '0' ≤ c := by
    rw [Char.isDigit, Bool.and_eq_true, decide_eq_true_eq] at h
    exact h.1
  have hspace : c ≠ ' ' := isDigit_ne h rfl
  have hlate : ¬ c ≤ '\r' := by
    intro hle
    exact absurd (Char.le_trans hrange hle) (by decide)
  simp [hspace, hlate]

theorem numeric_integer (z : ℤ) : numeric (integer z) = z := by
  by_cases h : z < 0
  · rw [integer_of_neg h, numeric]
    show -(readDigits 10 ((numeral 10 z.natAbs).takeWhile Char.isDigit) : ℤ) = z
    rw [takeWhile_numeral, readDigits_numeral (by omega) (by omega)]
    omega
  · obtain ⟨n, rfl⟩ := Int.eq_ofNat_of_zero_le (Int.not_lt.mp h)
    obtain ⟨c, cs, hcs⟩ := List.exists_cons_of_ne_nil (numeral_ne_nil 10 n)
    have hc : c.isDigit = true := numeral_isDigit n c (by simp [hcs])
    rw [integer_of_nonneg, numeric, dropWhile_numeral fun _ => isSpace_of_isDigit]
    split
    · rename_i hsign
      rw [hcs] at hsign
      exact absurd (List.cons.inj hsign).1 (isDigit_ne hc rfl)
    · rename_i hsign
      rw [hcs] at hsign
      exact absurd (List.cons.inj hsign).1 (isDigit_ne hc rfl)
    · rw [takeWhile_numeral, readDigits_numeral (by omega) (by omega)]

/-! ## Counted up -/

theorem carry_digit {d : ℕ} (h : d < 9) (grown : Char) (cs : Chars) :
    carry grown (digitChar d :: cs) = digitChar (d + 1) :: cs := by
  have hone : ∀ d : Fin 9, digitChar d ≠ '9' ∧ digitChar d ≠ 'z' ∧ digitChar d ≠ 'Z' ∧
      Char.ofNat ((digitChar d).toNat + 1) = digitChar (d + 1) := by
    decide
  obtain ⟨hnine, hz, hZ, hnext⟩ := hone ⟨d, h⟩
  rw [carry, if_neg hnine, if_neg hz, if_neg hZ, hnext]

/-- A carry through a numeral, last digit first. -/
theorem carry_numeral (n : ℕ) :
    carry '1' (numeral 10 n).reverse = (numeral 10 (n + 1)).reverse := by
  induction n using Nat.strong_induction_on with
  | _ n ih =>
    rcases Nat.lt_trichotomy n 9 with hlt | rfl | hgt
    · rw [numeral_of_lt (by omega), numeral_of_lt (by omega)]
      exact carry_digit hlt '1' []
    · rfl
    · rw [numeral_of_le (show 2 ≤ 10 by omega) (show 10 ≤ n by omega),
        numeral_of_le (show 2 ≤ 10 by omega) (show 10 ≤ n + 1 by omega), List.reverse_append,
        List.reverse_append]
      by_cases hnine : n % 10 = 9
      · have hdiv : (n + 1) / 10 = n / 10 + 1 := by omega
        have hmod : (n + 1) % 10 = 0 := by omega
        rw [hnine, hdiv, hmod, ← ih (n / 10) (by omega)]
        rfl
      · have hdiv : (n + 1) / 10 = n / 10 := by omega
        have hmod : (n + 1) % 10 = n % 10 + 1 := by omega
        rw [hdiv, hmod]
        exact carry_digit (by omega) '1' _

theorem isAlpha_of_isDigit {c : Char} (h : c.isDigit = true) : c.isAlpha = false := by
  have hone : ∀ d : Fin 10, (digitChar d).isAlpha = false := by
    decide
  obtain ⟨hlt, hd⟩ := digitValue_of_isDigit h
  rw [← hd]
  exact hone ⟨digitValue c, hlt⟩

theorem isMagical_numeral (n : ℕ) : isMagical (numeral 10 n) = true := by
  rw [isMagical, dropWhile_numeral fun _ => isAlpha_of_isDigit]
  exact numeral_all n

theorem sv_inc_integer (z : ℤ) : sv_inc (integer z) = integer (z + 1) := by
  by_cases h : z < 0
  · have hsign : integer z = '-' :: numeral 10 z.natAbs := integer_of_neg h
    have hmagic : isMagical (integer z) = false := by
      rw [hsign]
      rfl
    have hne : integer z ≠ [] := by
      rw [hsign]
      simp
    rw [sv_inc, if_neg hne, if_neg (by simp [hmagic]), numeric_integer]
  · obtain ⟨n, rfl⟩ := Int.eq_ofNat_of_zero_le (Int.not_lt.mp h)
    rw [integer_of_nonneg, sv_inc, if_neg (numeral_ne_nil 10 n), if_pos (isMagical_numeral n),
      carry_numeral, List.reverse_reverse, ← integer_of_nonneg]
    rfl

end Affix.Analysis
