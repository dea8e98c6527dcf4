import Mathlib.Algebra.Order.Group.Nat
import Mathlib.Tactic.Common

/-!
# Numbers written in a base

Positional notation with the digits `0` to `9` and `A` to `Z`, most significant
first. In a base of two to thirty-six a number can be read back from its digits, so
no two numbers are written alike.
-/

set_option autoImplicit false

namespace Affix.Foundation

def digitChar (d : ℕ) : Char := if d < 10 then Char.ofNat (48 + d) else Char.ofNat (55 + d)

def digitValue (c : Char) : ℕ := if c.toNat < 58 then c.toNat - 48 else c.toNat - 55

/-- The digits of a number, of which there are no more than `fuel`. -/
def digitsOf (base : ℕ) : (fuel n : ℕ) → List Char
  | 0, _ => []
  | fuel + 1, n =>
    if n < base then [digitChar n] else digitsOf base fuel (n / base) ++ [digitChar (n % base)]

/-- A number in a base. -/
def numeral (base n : ℕ) : List Char := digitsOf base (n + 1) n

/-- The number that digits stand for. -/
def readDigits (base : ℕ) (cs : List Char) : ℕ := cs.foldl (fun v c => base * v + digitValue c) 0

theorem digitChar_spec (d : Fin 36) :
    digitValue (digitChar d) = d ∧ digitChar d ≠ '_' := by
  revert d
  decide

theorem digitValue_digitChar {d : ℕ} (h : d < 36) : digitValue (digitChar d) = d :=
  (digitChar_spec ⟨d, h⟩).1

theorem readDigits_append (base : ℕ) (cs : List Char) (c : Char) :
    readDigits base (cs ++ [c]) = base * readDigits base cs + digitValue c := by
  simp [readDigits, List.foldl_append]

/-- Digits written in one base and read in another that is no smaller stand for a number that
is no smaller, and for the same one exactly when the bases or the digits leave no choice. -/
theorem readDigits_digitsOf {base base' : ℕ} (htwo : 2 ≤ base) (hle : base ≤ base')
    (hmax : base ≤ 36) :
    ∀ {fuel n : ℕ}, n < fuel →
      n ≤ readDigits base' (digitsOf base fuel n) ∧
        (base = base' → readDigits base' (digitsOf base fuel n) = n) ∧
        (base < base' → base ≤ n → n < readDigits base' (digitsOf base fuel n)) := by
  intro fuel
  induction fuel with
  | zero =>
    intro n hn
    cases hn
  | succ fuel ih =>
    intro n hn
    rw [digitsOf]
    by_cases hsmall : n < base
    · have hread : readDigits base' [digitChar n] = n := by
        simp [readDigits, digitValue_digitChar (hsmall.trans_le hmax)]
      rw [if_pos hsmall, hread]
      exact ⟨le_refl n, fun _ => rfl, fun _ hn => absurd hsmall (not_lt.mpr hn)⟩
    · have hpos : 0 < n / base := Nat.div_pos (not_lt.mp hsmall) (by omega)
      have hdiv : n / base < n := Nat.div_lt_self (by omega) (by omega)
      obtain ⟨hge, heq, -⟩ := ih (n := n / base) (by omega)
      have hsplit : base * (n / base) + n % base = n := Nat.div_add_mod n base
      rw [if_neg hsmall, readDigits_append,
        digitValue_digitChar ((Nat.mod_lt n (by omega)).trans_le hmax)]
      refine ⟨?_, ?_, ?_⟩
      · have hmul := Nat.mul_le_mul hle hge
        omega
      · intro hbase
        rw [heq hbase, ← hbase]
        exact hsplit
      · intro hbase _
        have hmul := Nat.mul_le_mul_left base' hge
        have hmore := Nat.mul_lt_mul_of_pos_right hbase hpos
        omega

theorem numeral_ne_nil (base n : ℕ) : numeral base n ≠ [] := by
  rw [numeral, digitsOf]
  split <;> simp

/-- No two numbers are written alike. -/
theorem numeral_inj {base m n : ℕ} (htwo : 2 ≤ base) (hmax : base ≤ 36) :
    numeral base m = numeral base n ↔ m = n := by
  constructor
  · intro h
    have hm := (readDigits_digitsOf htwo (le_refl base) hmax (Nat.lt_succ_self m)).2.1 rfl
    have hn := (readDigits_digitsOf htwo (le_refl base) hmax (Nat.lt_succ_self n)).2.1 rfl
    have hread := congrArg (readDigits base) h
    unfold numeral at hread
    rw [hm, hn] at hread
    exact hread
  · rintro rfl
    rfl

/-- Two bases write a number alike when it is one digit of the smaller. -/
theorem numeral_eq_numeral_iff {base base' n : ℕ} (htwo : 2 ≤ base) (hlt : base < base')
    (hmax : base' ≤ 36) : numeral base n = numeral base' n ↔ n < base := by
  constructor
  · intro h
    by_contra hn
    have hmore := (readDigits_digitsOf htwo hlt.le (hlt.le.trans hmax) (Nat.lt_succ_self n)).2.2
      hlt (not_lt.mp hn)
    have hsame := (readDigits_digitsOf (htwo.trans hlt.le) (le_refl base') hmax
      (Nat.lt_succ_self n)).2.1 rfl
    have hread := congrArg (readDigits base') h
    unfold numeral at hread
    rw [hsame] at hread
    exact absurd hread hmore.ne'
  · intro hn
    simp only [numeral, digitsOf, hn, hn.trans hlt, if_true]

theorem underscore_notMem_numeral {base : ℕ} (hpos : 0 < base) (hmax : base ≤ 36) (n : ℕ) :
    '_' ∉ numeral base n := by
  have hdigits : ∀ fuel m : ℕ, '_' ∉ digitsOf base fuel m := by
    intro fuel
    induction fuel with
    | zero => simp [digitsOf]
    | succ fuel ih =>
      intro m
      have hdigit : ∀ d : ℕ, d < base → '_' ≠ digitChar d :=
        fun d hd => (digitChar_spec ⟨d, hd.trans_le hmax⟩).2.symm
      rw [digitsOf]
      split
      · rename_i hm
        simpa using hdigit m hm
      · simpa using ⟨ih (m / base), hdigit _ (Nat.mod_lt m hpos)⟩
  exact hdigits (n + 1) n

/-! ## One digit at a time -/

theorem digitsOf_fuel {base : ℕ} (htwo : 2 ≤ base) {m : ℕ} :
    ∀ {k n : ℕ}, n < m → n < k → digitsOf base m n = digitsOf base k n := by
  induction m with
  | zero =>
    intro k n hm
    cases hm
  | succ m ih =>
    intro k n hm hk
    obtain ⟨k, rfl⟩ := Nat.exists_eq_succ_of_ne_zero (Nat.ne_zero_of_lt hk)
    rw [digitsOf, digitsOf]
    by_cases hsmall : n < base
    · rw [if_pos hsmall, if_pos hsmall]
    · have hdiv : n / base < n := Nat.div_lt_self (by omega) (by omega)
      rw [if_neg hsmall, if_neg hsmall,
        ih (show n / base < m by omega) (show n / base < k by omega)]

theorem numeral_of_lt {base n : ℕ} (h : n < base) : numeral base n = [digitChar n] := by
  rw [numeral, digitsOf, if_pos h]

theorem numeral_of_le {base n : ℕ} (htwo : 2 ≤ base) (h : base ≤ n) :
    numeral base n = numeral base (n / base) ++ [digitChar (n % base)] := by
  have hdiv : n / base < n := Nat.div_lt_self (by omega) (by omega)
  rw [numeral, digitsOf, if_neg (by omega), numeral,
    digitsOf_fuel htwo hdiv (Nat.lt_succ_self (n / base))]

theorem readDigits_numeral {base : ℕ} (htwo : 2 ≤ base) (hmax : base ≤ 36) (n : ℕ) :
    readDigits base (numeral base n) = n :=
  (readDigits_digitsOf htwo (le_refl base) hmax (Nat.lt_succ_self n)).2.1 rfl

/-! ## Decimal digits -/

theorem isDigit_digitChar {d : ℕ} (h : d < 10) : (digitChar d).isDigit = true := by
  revert d
  decide

theorem digitValue_of_isDigit {c : Char} (h : c.isDigit = true) :
    digitValue c < 10 ∧ digitChar (digitValue c) = c := by
  have hrange : 48 ≤ c.toNat ∧ c.toNat ≤ 57 := by
    rw [Char.isDigit, Bool.and_eq_true, decide_eq_true_eq, decide_eq_true_eq] at h
    exact h
  have hvalue : digitValue c = c.toNat - 48 := by
    rw [digitValue, if_pos (by omega)]
  refine ⟨by omega, ?_⟩
  rw [hvalue, digitChar, if_pos (by omega), Nat.add_sub_cancel' hrange.1, Char.ofNat_toNat]

theorem numeral_isDigit (n : ℕ) : ∀ c ∈ numeral 10 n, c.isDigit = true := by
  induction n using Nat.strong_induction_on with
  | _ n ih =>
    intro c hc
    by_cases hsmall : n < 10
    · rw [numeral_of_lt hsmall, List.mem_singleton] at hc
      exact hc ▸ isDigit_digitChar hsmall
    · rw [numeral_of_le (by omega) (by omega), List.mem_append, List.mem_singleton] at hc
      rcases hc with hc | rfl
      · exact ih (n / 10) (by omega) c hc
      · exact isDigit_digitChar (Nat.mod_lt n (by omega))

/-- No numeral starts with a zero, but that of zero. -/
theorem numeral_head (n : ℕ) : (numeral 10 n).head? = some '0' → n = 0 := by
  induction n using Nat.strong_induction_on with
  | _ n ih =>
    intro hhead
    by_cases hsmall : n < 10
    · rw [numeral_of_lt hsmall] at hhead
      have hread := congrArg digitValue (Option.some.inj hhead)
      rwa [digitValue_digitChar (by omega)] at hread
    · -- a number of two digits or more starts like its tenth part, which is not zero
      exfalso
      obtain ⟨c, cs, hcs⟩ := List.exists_cons_of_ne_nil (numeral_ne_nil 10 (n / 10))
      rw [numeral_of_le (by omega) (by omega), hcs] at hhead
      have hzero : n / 10 = 0 := by
        apply ih (n / 10) (by omega)
        rw [hcs]
        exact hhead
      omega

end Affix.Foundation
