import Mathlib.Data.List.Basic
import Mathlib.Tactic.Common

/-!
# Texts cut into words

A text is a row of words, which are its longest runs of word characters, with single
other characters between them. Replacing words by texts and cutting the result gives
the pieces of the replacements: what stood beside a word is not a word character, so
no replacement runs into its neighbour.
-/

set_option autoImplicit false

namespace Affix.Foundation

/-- What `\w` matches in a text of single bytes. -/
def isWordChar (c : Char) : Bool := c.isAlphanum || c == '_'

inductive Piece where
  | word (w : List Char)
  | char (c : Char)
deriving DecidableEq, Repr

/-- A character in front of a text that is already cut. -/
def Piece.cons (c : Char) : List Piece → List Piece
  | .word w :: ps => if isWordChar c then .word (c :: w) :: ps else .char c :: .word w :: ps
  | ps => if isWordChar c then .word [c] :: ps else .char c :: ps

/-- A text cut into its words and the characters between them. -/
def pieces : List Char → List Piece
  | [] => []
  | c :: cs => Piece.cons c (pieces cs)

def Piece.text : Piece → List Char
  | .word w => w
  | .char c => [c]

/-- `s[(\w+)][f($1)]eg`: every word replaced. -/
def substituteWords (f : List Char → List Char) (s : List Char) : List Char :=
  (pieces s).flatMap fun
    | .word w => f w
    | .char c => [c]

/-- The pieces that stand for a piece once words are replaced. -/
def Piece.substitute (f : List Char → List Char) : Piece → List Piece
  | .word w => pieces (f w)
  | .char c => [.char c]

/-- What cutting a text leaves: no word follows a word, and the characters between words are
no word characters. -/
def Cut : List Piece → Prop
  | [] => True
  | .word _ :: .word _ :: _ => False
  | .word _ :: ps => Cut ps
  | .char c :: ps => isWordChar c = false ∧ Cut ps

theorem cons_of_not_word {c : Char} (h : isWordChar c = false) (ps : List Piece) :
    Piece.cons c ps = .char c :: ps := by
  cases ps with
  | nil => simp [Piece.cons, h]
  | cons p ps => cases p <;> simp [Piece.cons, h]

theorem cut_cons {c : Char} {ps : List Piece} (hps : Cut ps) : Cut (Piece.cons c ps) := by
  by_cases hc : isWordChar c
  · cases ps with
    | nil => simp [Piece.cons, hc, Cut]
    | cons p ps =>
      cases p with
      | char d => simpa [Piece.cons, hc, Cut] using hps
      | word w =>
        cases ps with
        | nil => simp [Piece.cons, hc, Cut]
        | cons q qs => cases q <;> simp_all [Piece.cons, Cut]
  · rw [Bool.not_eq_true] at hc
    rw [cons_of_not_word hc]
    exact ⟨hc, hps⟩

theorem cut_pieces (s : List Char) : Cut (pieces s) := by
  induction s with
  | nil => trivial
  | cons c cs ih => exact cut_cons ih

/-- A cut text and a text that does not start inside a word, one after the other. -/
theorem pieces_append {s t : List Char}
    (ht : ∀ c ∈ t.head?, isWordChar c = false) : pieces (s ++ t) = pieces s ++ pieces t := by
  induction s with
  | nil => rfl
  | cons c cs ih =>
    rw [List.cons_append, pieces, pieces, ih]
    cases hcs : pieces cs with
    | cons p ps => cases p <;> simp only [Piece.cons, List.cons_append] <;> split <;> rfl
    | nil =>
      cases t with
      | nil => simp [pieces]
      | cons d t =>
        have hd : isWordChar d = false := ht d rfl
        rw [pieces, cons_of_not_word hd]
        by_cases hc : isWordChar c <;> simp [Piece.cons, hc]

/-- Replacing words and cutting is cutting and replacing. -/
theorem pieces_substituteWords (f : List Char → List Char) (s : List Char) :
    pieces (substituteWords f s) = (pieces s).flatMap (Piece.substitute f) := by
  have hcut := cut_pieces s
  rw [substituteWords]
  generalize pieces s = ps at hcut
  induction ps with
  | nil => rfl
  | cons p ps ih =>
    rw [List.flatMap_cons, List.flatMap_cons]
    cases p with
    | char c =>
      have hrest := ih hcut.2
      rw [List.singleton_append, pieces, cons_of_not_word hcut.1, hrest]
      rfl
    | word w =>
      -- after a word stands nothing, or a character that is no word character
      cases ps with
      | nil => simp [Piece.substitute]
      | cons q qs =>
        cases q with
        | word w' => exact hcut.elim
        | char c =>
          have hrest := ih hcut
          rw [pieces_append, hrest]
          · rfl
          · intro d hd
            obtain rfl : c = d := by simpa using hd
            exact hcut.1

/-- A text of word characters is one word. -/
theorem pieces_word {w : List Char} (hne : w ≠ []) (h : w.all isWordChar = true) :
    pieces w = [.word w] := by
  induction w with
  | nil => exact absurd rfl hne
  | cons c cs ih =>
    rw [List.all_cons, Bool.and_eq_true] at h
    cases cs with
    | nil => simp [pieces, Piece.cons, h.1]
    | cons d ds =>
      rw [pieces, ih (by simp) h.2]
      simp [Piece.cons, h.1]

end Affix.Foundation
