import Affix.Foundation.Words
import Mathlib.Algebra.Order.Group.Int
import Mathlib.Tactic.Ring

/-!
# Sums, products and signs

The grammar of expressions made of operands, unary minus, `*`, binary `+` and `-`,
and parentheses; its values; and a machine that reads the tokens once from left to
right and keeps, for every open parenthesis, the sum and the product so far. The machine
comes to the value of the tree, also where an operand is given by several tokens, so
long as those read like one operand.
-/

set_option autoImplicit false

namespace Affix.Foundation

variable {α : Type}

inductive Tok (α : Type) where
  | operand (a : α)
  | minus | plus | star | lparen | rparen
deriving DecidableEq, Repr

/-- The token a character between words is, and none for a space. -/
def punctuation : Char → Option (List (Tok α))
  | ' ' => some []
  | '-' => some [.minus]
  | '+' => some [.plus]
  | '*' => some [.star]
  | '(' => some [.lparen]
  | ')' => some [.rparen]
  | _ => none

/-- Two signs in a row are one operator, which needs a variable beside it. -/
def doubled (c : Char) (ps : List Piece) : Bool :=
  (c == '-' || c == '+') && decide (ps.head? = some (.char c))

/-- The tokens of a text that is cut into pieces. -/
def lex (read : List Char → Option α) : List Piece → Option (List (Tok α))
  | [] => some []
  | .word w :: ps => do
    let a ← read w
    let ts ← lex read ps
    pure (.operand a :: ts)
  | .char c :: ps => do
    guard (doubled c ps = false)
    let t ← punctuation c
    let ts ← lex read ps
    pure (t ++ ts)

theorem lex_word (read : List Char → Option α) (w : List Char) (ps : List Piece) :
    lex read (.word w :: ps) = (read w).bind fun a => (lex read ps).map (.operand a :: ·) := by
  rw [lex]
  cases read w <;> cases lex read ps <;> rfl

theorem lex_char (read : List Char → Option α) (c : Char) (ps : List Piece) :
    lex read (.char c :: ps) =
      if doubled c ps then none
      else (punctuation c).bind fun t => (lex read ps).map (t ++ ·) := by
  rw [lex]
  cases doubled c ps
  · cases (punctuation c : Option (List (Tok α))) <;> cases lex read ps <;> rfl
  · rfl

/-- The words of a text are its operands. -/
theorem operand_of_word {read : List Char → Option α} {w : List Char} {ps : List Piece} :
    ∀ {ts : List (Tok α)}, lex read ps = some ts → .word w ∈ ps →
      ∃ a, read w = some a ∧ .operand a ∈ ts := by
  induction ps with
  | nil =>
    intro ts _ hw
    cases hw
  | cons p ps ih =>
    intro ts hlex hw
    cases p with
    | word u =>
      rw [lex_word] at hlex
      obtain ⟨a, ha, hmap⟩ := Option.bind_eq_some_iff.mp hlex
      obtain ⟨us, hus, rfl⟩ := Option.map_eq_some_iff.mp hmap
      rcases List.mem_cons.mp hw with heq | hrest
      · rw [Piece.word.inj heq]
        exact ⟨a, ha, List.mem_cons_self⟩
      · obtain ⟨b, hb, hmem⟩ := ih hus hrest
        exact ⟨b, hb, List.mem_cons_of_mem _ hmem⟩
    | char c =>
      rw [lex_char] at hlex
      split at hlex
      · cases hlex
      · obtain ⟨t, -, hmap⟩ := Option.bind_eq_some_iff.mp hlex
        obtain ⟨us, hus, rfl⟩ := Option.map_eq_some_iff.mp hmap
        rcases List.mem_cons.mp hw with heq | hrest
        · cases heq
        · obtain ⟨b, hb, hmem⟩ := ih hus hrest
          exact ⟨b, hb, List.mem_append_right t hmem⟩

/-! ## Trees -/

inductive Level where
  | primary | unary | product | sum
deriving DecidableEq, Repr

inductive Expr (α : Type) : Level → Type where
  | operand (a : α) : Expr α .primary
  | paren (e : Expr α .sum) : Expr α .primary
  | primary (e : Expr α .primary) : Expr α .unary
  | neg (e : Expr α .unary) : Expr α .unary
  | unary (e : Expr α .unary) : Expr α .product
  | mul (l : Expr α .product) (r : Expr α .unary) : Expr α .product
  | product (e : Expr α .product) : Expr α .sum
  | add (l : Expr α .sum) (r : Expr α .product) : Expr α .sum
  | sub (l : Expr α .sum) (r : Expr α .product) : Expr α .sum
deriving Repr

namespace Expr

def tokens : {l : Level} → Expr α l → List (Tok α)
  | _, operand a => [.operand a]
  | _, paren e => .lparen :: e.tokens ++ [.rparen]
  | _, primary e => e.tokens
  | _, neg e => .minus :: e.tokens
  | _, unary e => e.tokens
  | _, mul l r => l.tokens ++ .star :: r.tokens
  | _, product e => e.tokens
  | _, add l r => l.tokens ++ .plus :: r.tokens
  | _, sub l r => l.tokens ++ .minus :: r.tokens

/-- The value of a tree, when every number on the way to it fits. -/
def value (fits : ℤ → Bool) (atom : α → Option ℤ) : {l : Level} → Expr α l → Option ℤ
  | _, operand a => (atom a).filter fits
  | _, paren e => e.value fits atom
  | _, primary e => e.value fits atom
  | _, neg e => ((e.value fits atom).map Neg.neg).filter fits
  | _, unary e => e.value fits atom
  | _, mul l r => (Option.map₂ (· * ·) (l.value fits atom) (r.value fits atom)).filter fits
  | _, product e => e.value fits atom
  | _, add l r => (Option.map₂ (· + ·) (l.value fits atom) (r.value fits atom)).filter fits
  | _, sub l r => (Option.map₂ (· - ·) (l.value fits atom) (r.value fits atom)).filter fits

theorem tokens_ne_nil {l : Level} (e : Expr α l) : e.tokens ≠ [] := by
  induction e with
  | primary e ih => exact ih
  | unary e ih => exact ih
  | product e ih => exact ih
  | operand | paren | neg | mul | add | sub => simp [tokens]

/-- A tree with a value has a value for each of its operands. -/
theorem isSome_of_value {fits : ℤ → Bool} {atom : α → Option ℤ} {a : α} {l : Level}
    (e : Expr α l) : ∀ {v : ℤ}, e.value fits atom = some v → .operand a ∈ e.tokens →
      ∃ z, atom a = some z := by
  induction e with
  | operand b =>
    intro v hv ha
    obtain rfl : a = b := by simpa [tokens] using ha
    exact ⟨v, (Option.filter_eq_some_iff.mp hv).1⟩
  | paren e ih =>
    intro v hv ha
    exact ih hv (by simpa [tokens] using ha)
  | primary e ih => exact ih
  | neg e ih =>
    intro v hv ha
    obtain ⟨w, hw, -⟩ := Option.map_eq_some_iff.mp (Option.filter_eq_some_iff.mp hv).1
    exact ih hw (by simpa [tokens] using ha)
  | unary e ih => exact ih
  | product e ih => exact ih
  | mul l r ihl ihr | add l r ihl ihr | sub l r ihl ihr =>
    intro v hv ha
    obtain ⟨x, y, hx, hy, -⟩ := Option.map₂_eq_some_iff.mp (Option.filter_eq_some_iff.mp hv).1
    have hside : .operand a ∈ l.tokens ∨ .operand a ∈ r.tokens := by
      simpa [tokens] using ha
    rcases hside with hl | hr
    · exact ihl hx hl
    · exact ihr hy hr

end Expr

/-! ## The machine -/

/-- What is pending inside one pair of parentheses: the sum so far, the sign of the term that is
being read, its product so far, and whether an odd number of signs stands before the next factor. -/
structure Frame where
  total : ℤ
  minus : Bool
  prod : ℤ
  neg : Bool
deriving DecidableEq, Repr

namespace Frame

def empty : Frame := ⟨0, false, 1, false⟩

def operand (f : Frame) (z : ℤ) : Frame :=
  { f with prod := f.prod * (if f.neg then -z else z), neg := false }

def close (f : Frame) : ℤ := if f.minus then f.total - f.prod else f.total + f.prod

def next (f : Frame) (minus : Bool) : Frame := ⟨f.close, minus, 1, false⟩

end Frame

structure Machine where
  frame : Frame
  outer : List Frame
  /-- An operand has been read, and an operator or a closing parenthesis may follow. -/
  ready : Bool
deriving DecidableEq, Repr

namespace Machine

def step (m : Machine) (t : Tok ℤ) : Option Machine :=
  match m.ready, t with
  | false, .operand z => some ⟨m.frame.operand z, m.outer, true⟩
  | false, .minus => some ⟨{ m.frame with neg := !m.frame.neg }, m.outer, false⟩
  | false, .plus => some m
  | false, .lparen => some ⟨Frame.empty, m.frame :: m.outer, false⟩
  | true, .plus => some ⟨m.frame.next false, m.outer, false⟩
  | true, .minus => some ⟨m.frame.next true, m.outer, false⟩
  | true, .star => some ⟨m.frame, m.outer, false⟩
  | true, .rparen =>
    match m.outer with
    | f :: fs => some ⟨f.operand m.frame.close, fs, true⟩
    | [] => none
  | _, _ => none

def run (m : Machine) (ts : List (Tok ℤ)) : Option Machine := ts.foldlM step m

theorem run_append (m : Machine) (ts us : List (Tok ℤ)) :
    m.run (ts ++ us) = (m.run ts).bind fun m' => m'.run us :=
  List.foldlM_append

theorem run_cons (m : Machine) (t : Tok ℤ) (ts : List (Tok ℤ)) :
    m.run (t :: ts) = (m.step t).bind fun m' => m'.run ts :=
  List.foldlM_cons

end Machine

/-- The value of a row of tokens. -/
def evaluate (ts : List (Tok ℤ)) : Option ℤ :=
  match Machine.run ⟨Frame.empty, [], false⟩ ts with
  | some ⟨f, [], true⟩ => some f.close
  | _ => none

/-! ## The machine on a tree -/

/-- What reading tokens that stand for a number does at a level of the grammar. -/
def Reads (ts : List (Tok ℤ)) (v : ℤ) : Level → Prop
  | .primary | .unary => ∀ f outer,
    Machine.run ⟨f, outer, false⟩ ts = some ⟨f.operand v, outer, true⟩
  | .product => ∀ f outer, f.prod = 1 → f.neg = false →
    Machine.run ⟨f, outer, false⟩ ts = some ⟨{ f with prod := v }, outer, true⟩
  | .sum => ∀ outer, ∃ f, f.close = v ∧
    Machine.run ⟨Frame.empty, outer, false⟩ ts = some ⟨f, outer, true⟩

/-- Operands replaced by the tokens that give them. -/
def Tok.expand (spell : α → List (Tok ℤ)) : Tok α → List (Tok ℤ)
  | .operand a => spell a
  | .minus => [.minus]
  | .plus => [.plus]
  | .star => [.star]
  | .lparen => [.lparen]
  | .rparen => [.rparen]

theorem punctuation_expand (spell : α → List (Tok ℤ)) {c : Char} {t : List (Tok α)}
    (h : punctuation c = some t) : punctuation c = some (t.flatMap (Tok.expand spell)) := by
  unfold punctuation at h ⊢
  split at h
  case h_7 => cases h
  all_goals
    obtain rfl := Option.some.inj h
    rfl

theorem reads_paren {ts : List (Tok ℤ)} {v : ℤ} (h : Reads ts v .sum) :
    Reads (.lparen :: (ts ++ [.rparen])) v .primary := by
  intro f outer
  obtain ⟨g, hclose, hrun⟩ := h (f :: outer)
  rw [Machine.run_cons]
  show Machine.run ⟨Frame.empty, f :: outer, false⟩ (ts ++ [.rparen]) = _
  rw [Machine.run_append, hrun, ← hclose]
  rfl

theorem reads_neg {ts : List (Tok ℤ)} {v : ℤ} (h : Reads ts v .unary) :
    Reads (.minus :: ts) (-v) .unary := by
  intro f outer
  rw [Machine.run_cons]
  show Machine.run ⟨{ f with neg := !f.neg }, outer, false⟩ ts = _
  rw [h]
  cases hneg : f.neg <;> simp [Frame.operand, hneg]

theorem reads_factor {ts : List (Tok ℤ)} {v : ℤ} (h : Reads ts v .unary) :
    Reads ts v .product := by
  intro f outer hprod hneg
  rw [h f outer]
  simp [Frame.operand, hprod, hneg]

theorem reads_mul {ts us : List (Tok ℤ)} {v w : ℤ} (hts : Reads ts v .product)
    (hus : Reads us w .unary) : Reads (ts ++ .star :: us) (v * w) .product := by
  intro f outer hprod hneg
  rw [Machine.run_append, hts f outer hprod hneg]
  show Machine.run ⟨{ f with prod := v }, outer, true⟩ (.star :: us) = _
  rw [Machine.run_cons]
  show Machine.run ⟨{ f with prod := v }, outer, false⟩ us = _
  rw [hus]
  simp [Frame.operand, hneg]

theorem reads_term {ts : List (Tok ℤ)} {v : ℤ} (h : Reads ts v .product) : Reads ts v .sum := by
  intro outer
  refine ⟨_, ?_, h Frame.empty outer rfl rfl⟩
  simp [Frame.close, Frame.empty]

theorem reads_add {ts us : List (Tok ℤ)} {v w : ℤ} (hts : Reads ts v .sum)
    (hus : Reads us w .product) : Reads (ts ++ .plus :: us) (v + w) .sum := by
  intro outer
  obtain ⟨f, hclose, hrun⟩ := hts outer
  refine ⟨{ f.next false with prod := w }, ?_, ?_⟩
  · simp [Frame.close, Frame.next, ← hclose]
  · rw [Machine.run_append, hrun]
    show Machine.run ⟨f, outer, true⟩ (.plus :: us) = _
    rw [Machine.run_cons]
    exact hus (f.next false) outer rfl rfl

theorem reads_sub {ts us : List (Tok ℤ)} {v w : ℤ} (hts : Reads ts v .sum)
    (hus : Reads us w .product) : Reads (ts ++ .minus :: us) (v - w) .sum := by
  intro outer
  obtain ⟨f, hclose, hrun⟩ := hts outer
  refine ⟨{ f.next true with prod := w }, ?_, ?_⟩
  · simp [Frame.close, Frame.next, ← hclose]
  · rw [Machine.run_append, hrun]
    show Machine.run ⟨f, outer, true⟩ (.minus :: us) = _
    rw [Machine.run_cons]
    exact hus (f.next true) outer rfl rfl

/-- The machine reads the tokens of a tree as the value of the tree. -/
theorem reads_tokens (fits : ℤ → Bool) (atom : α → Option ℤ) (spell : α → List (Tok ℤ))
    (hspell : ∀ a z, atom a = some z → Reads (spell a) z .primary) {l : Level} (e : Expr α l) :
    ∀ {v : ℤ}, e.value fits atom = some v → Reads (e.tokens.flatMap (Tok.expand spell)) v l := by
  induction e with
  | operand a =>
    intro v hv
    have hatom : atom a = some v := (Option.filter_eq_some_iff.mp hv).1
    simpa [Expr.tokens, Tok.expand] using hspell a v hatom
  | paren e ih =>
    intro v hv
    have hread := reads_paren (ih hv)
    simpa [Expr.tokens, Tok.expand] using hread
  | primary e ih =>
    intro v hv
    exact ih hv
  | neg e ih =>
    intro v hv
    obtain ⟨w, hw, rfl⟩ := Option.map_eq_some_iff.mp (Option.filter_eq_some_iff.mp hv).1
    have hread := reads_neg (ih hw)
    simpa [Expr.tokens, Tok.expand] using hread
  | unary e ih =>
    intro v hv
    exact reads_factor (ih hv)
  | mul l r ihl ihr =>
    intro v hv
    obtain ⟨x, y, hx, hy, rfl⟩ := Option.map₂_eq_some_iff.mp (Option.filter_eq_some_iff.mp hv).1
    have hread := reads_mul (ihl hx) (ihr hy)
    simpa [Expr.tokens, Tok.expand] using hread
  | product e ih =>
    intro v hv
    exact reads_term (ih hv)
  | add l r ihl ihr =>
    intro v hv
    obtain ⟨x, y, hx, hy, rfl⟩ := Option.map₂_eq_some_iff.mp (Option.filter_eq_some_iff.mp hv).1
    have hread := reads_add (ihl hx) (ihr hy)
    simpa [Expr.tokens, Tok.expand] using hread
  | sub l r ihl ihr =>
    intro v hv
    obtain ⟨x, y, hx, hy, rfl⟩ := Option.map₂_eq_some_iff.mp (Option.filter_eq_some_iff.mp hv).1
    have hread := reads_sub (ihl hx) (ihr hy)
    simpa [Expr.tokens, Tok.expand] using hread

/-- So it evaluates them to that value. -/
theorem evaluate_tokens (fits : ℤ → Bool) (atom : α → Option ℤ) (spell : α → List (Tok ℤ))
    (hspell : ∀ a z, atom a = some z → Reads (spell a) z .primary) (e : Expr α .sum) {v : ℤ}
    (hv : e.value fits atom = some v) :
    evaluate (e.tokens.flatMap (Tok.expand spell)) = some v := by
  obtain ⟨f, hclose, hrun⟩ := reads_tokens fits atom spell hspell e hv []
  rw [evaluate, hrun, ← hclose]

end Affix.Foundation
