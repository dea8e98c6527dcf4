import Affix.Analysis.Increment
import Affix.Interface.CEnum

/-!
# Expressions by substitution

Affix replaces the names of an expression by the texts of their values and evaluates
the result. Cut into tokens, the result is what C reads with every name replaced by
one or two tokens, which read like an operand; only where the second of two minus
signs comes from a value do the two become one operator, and the evaluation fails.
-/

set_option autoImplicit false

namespace Affix.Analysis

open Affix.Foundation Affix.Model Affix.Interface

/-! ## Values as texts -/

/-- The table after enumerators with these values. -/
def printed (env : Values) : Table := env.map fun entry => (entry.1, integer entry.2)

theorem lookup_printed (env : Values) (w : Chars) :
    (printed env).lookup w = (env.lookup w).map integer := by
  induction env with
  | nil => rfl
  | cons entry env ih =>
    rw [printed, List.map_cons, List.lookup_cons, List.lookup_cons]
    cases w == entry.1
    · exact ih
    · rfl

/-- The keys are identifiers. -/
def Named (env : Values) : Prop := ∀ entry ∈ env, isIdentifier entry.1 = true

theorem isIdentifier_numeral (n : ℕ) : isIdentifier (numeral 10 n) = false := by
  obtain ⟨c, cs, hcs⟩ := List.exists_cons_of_ne_nil (numeral_ne_nil 10 n)
  have hc : c.isDigit = true := numeral_isDigit n c (by simp [hcs])
  simp [isIdentifier, hcs, hc]

theorem lookup_numeral {env : Values} (hnamed : Named env) (n : ℕ) :
    env.lookup (numeral 10 n) = none := by
  apply List.lookup_eq_none_iff.mpr
  intro entry hentry
  rw [bne_iff_ne]
  intro hkey
  have hname := hnamed entry hentry
  rw [← hkey, isIdentifier_numeral] at hname
  cases hname

/-! ## An integer, cut and read -/

def signPieces (z : ℤ) : List Piece :=
  if z < 0 then [.char '-', .word (numeral 10 z.natAbs)] else [.word (numeral 10 z.natAbs)]

def signTokens (z : ℤ) : List (Tok ℤ) :=
  if z < 0 then [.minus, .operand (-z)] else [.operand z]

theorem pieces_numeral (n : ℕ) : pieces (numeral 10 n) = [.word (numeral 10 n)] := by
  apply pieces_word (numeral_ne_nil 10 n)
  rw [List.all_eq_true]
  intro c hc
  simp [isWordChar, Char.isAlphanum, numeral_isDigit n c hc]

theorem pieces_integer (z : ℤ) : pieces (integer z) = signPieces z := by
  rw [integer, signPieces]
  split
  · rw [pieces, pieces_numeral, cons_of_not_word rfl]
  · exact pieces_numeral z.natAbs

theorem readNumber_numeral (n : ℕ) : readNumber (numeral 10 n) = some (n : ℤ) := by
  have hall : ¬ (numeral 10 n).all Char.isDigit = false := by
    simp [numeral_all n]
  rw [readNumber, if_neg hall]
  by_cases hzero : (numeral 10 n).head? = some '0'
  · obtain rfl := numeral_head n hzero
    rfl
  · rw [if_neg hzero, readDigits_numeral (by omega) (by omega)]

theorem reads_operand (z : ℤ) : Reads [.operand z] z .primary := by
  intro f outer
  rfl

theorem reads_signTokens (z : ℤ) : Reads (signTokens z) z .primary := by
  rw [signTokens]
  split
  · have hneg := reads_neg (show Reads [.operand (-z)] (-z) .unary from reads_operand (-z))
    rw [neg_neg] at hneg
    exact hneg
  · exact reads_operand z

theorem lex_signPieces (z : ℤ) (ps : List Piece) :
    lex readNumber (signPieces z ++ ps) = (lex readNumber ps).map (signTokens z ++ ·) := by
  rw [signPieces, signTokens]
  by_cases hz : z < 0
  · have habs : (z.natAbs : ℤ) = -z := by omega
    rw [if_pos hz, if_pos hz, List.cons_append, List.singleton_append, lex_char, lex_word,
      readNumber_numeral, habs]
    cases lex readNumber ps <;> rfl
  · have habs : (z.natAbs : ℤ) = z := by omega
    rw [if_neg hz, if_neg hz, List.singleton_append, lex_word, readNumber_numeral, habs]
    rfl

/-! ## The text Affix evaluates -/

/-- What a word is replaced by. -/
def recalled (env : Values) (w : Chars) : Chars := ((printed env).lookup w).getD w

/-- Every word of a text is an operand with a value. -/
def Legible (env : Values) (ps : List Piece) : Prop :=
  ∀ w, .word w ∈ ps → ∃ a v, readAtom w = some a ∧ a.value env = some v

/-- The tokens that stand for an operand. -/
def spelled (env : Values) (a : CAtom) : List (Tok ℤ) := ((a.value env).map signTokens).getD []

/-- An operand is replaced by the text of its value, which has a sign when it is a name and the
value is negative. -/
theorem recalled_spec {env : Values} (hnamed : Named env) {w : Chars} {a : CAtom} {v : ℤ}
    (hread : readAtom w = some a) (hv : a.value env = some v) :
    recalled env w = integer v ∧ isNegative env w = decide (v < 0) := by
  rw [readAtom] at hread
  split at hread
  · rename_i hdigits
    obtain rfl := Option.some.inj hread
    obtain rfl : ((readDigits 10 w : ℕ) : ℤ) = v := Option.some.inj hv
    have hnone : env.lookup w = none := by
      rw [hdigits]
      exact lookup_numeral hnamed _
    rw [recalled, isNegative, lookup_printed, hnone, integer_of_nonneg, ← hdigits]
    exact ⟨rfl, (decide_eq_false (by omega)).symm⟩
  · split at hread
    · obtain rfl := Option.some.inj hread
      have hsome : env.lookup w = some v := hv
      rw [recalled, isNegative, lookup_printed, hsome]
      exact ⟨rfl, rfl⟩
    · cases hread

/-- A sign is doubled in the new text when the character after it is the sign of a value. -/
theorem doubled_recalled {env : Values} (hnamed : Named env) {c : Char} {ps : List Piece}
    (hread : Legible env ps) (hsingle : doubled c ps = false) :
    doubled c (ps.flatMap (Piece.substitute (recalled env))) =
      (c == '-' && leads (isNegative env) ps) := by
  cases ps with
  | nil => simp [doubled, leads]
  | cons p ps =>
    cases p with
    | char d => simpa [doubled, leads, Piece.substitute] using hsingle
    | word w =>
      obtain ⟨a, v, ha, hv⟩ := hread w (by simp)
      obtain ⟨htext, hneg⟩ := recalled_spec hnamed ha hv
      rw [leads, hneg, List.flatMap_cons, Piece.substitute, htext, pieces_integer, signPieces]
      by_cases hz : v < 0
      · by_cases hc : c = '-'
        · simp [doubled, hz, hc]
        · simp [doubled, hz, hc, Ne.symm hc]
      · simp [doubled, hz]

theorem lex_recalled {env : Values} (hnamed : Named env) {ps : List Piece} :
    ∀ {ts : List (Tok CAtom)}, lex readAtom ps = some ts → Legible env ps →
      lex readNumber (ps.flatMap (Piece.substitute (recalled env))) =
        if minusBefore (isNegative env) ps then none
        else some (ts.flatMap (Tok.expand (spelled env))) := by
  induction ps with
  | nil =>
    intro ts hlex _
    obtain rfl := Option.some.inj hlex
    rfl
  | cons p ps ih =>
    intro ts hlex hread
    have hrest : Legible env ps := fun w hw => hread w (List.mem_cons_of_mem _ hw)
    cases p with
    | word w =>
      obtain ⟨a, v, ha, hv⟩ := hread w (by simp)
      obtain ⟨htext, -⟩ := recalled_spec hnamed ha hv
      rw [lex_word, ha, Option.bind_some] at hlex
      obtain ⟨us, hus, rfl⟩ := Option.map_eq_some_iff.mp hlex
      rw [List.flatMap_cons, Piece.substitute, htext, pieces_integer, lex_signPieces, ih hus hrest,
        minusBefore, List.flatMap_cons, Tok.expand, spelled, hv]
      cases minusBefore (isNegative env) ps <;> rfl
    | char c =>
      rw [lex_char] at hlex
      split at hlex
      · cases hlex
      · rename_i hsingle
        obtain ⟨t, ht, hmap⟩ := Option.bind_eq_some_iff.mp hlex
        obtain ⟨us, hus, rfl⟩ := Option.map_eq_some_iff.mp hmap
        rw [Bool.not_eq_true] at hsingle
        rw [List.flatMap_cons, Piece.substitute, List.singleton_append, lex_char,
          doubled_recalled hnamed hrest hsingle, ih hus hrest, minusBefore, List.flatMap_append]
        cases c == '-' && leads (isNegative env) ps
        · have hpunct := punctuation_expand (spelled env) ht
          rw [hpunct]
          cases minusBefore (isNegative env) ps <;> rfl
        · rfl

end Affix.Analysis
