import Mathlib.Data.List.Pairwise
import Mathlib.Data.Nat.Notation
import Mathlib.Tactic.Common

/-!
# Nested regions

An object occupies a region of bytes and has members, each at an offset in it; a
member is an object of its own. A path of indices leads from an object to one
nested in it and adds up the offsets on the way. Where every object holds its
members, whatever is nested lies inside the whole, and where the members of an
object follow one another, what is nested in one is apart from what is nested in
the others.
-/

set_option autoImplicit false

namespace Affix.Foundation

/-- What is seen of the objects of a type: their members, where a member lies in the object
it belongs to, and how many bytes an object has. -/
structure Nesting (τ : Type) where
  members : τ → List τ
  offset : τ → ℕ
  size : τ → ℕ

namespace Nesting

variable {τ : Type} (N : Nesting τ)

/-- The object at the end of a path, with its offset from the object the path starts in. -/
def locate : τ → List ℕ → Option (ℕ × τ)
  | t, [] => some (0, t)
  | t, i :: path =>
    match (N.members t)[i]? with
    | some m => (locate m path).map fun p => (N.offset m + p.1, p.2)
    | none => none

/-- The members of the object lie inside it. -/
def Holds (t : τ) : Prop := ∀ m ∈ N.members t, N.offset m + N.size m ≤ N.size t

/-- The members of the object lie one after another. -/
def Apart (t : τ) : Prop := (N.members t).Pairwise fun m m' => N.offset m + N.size m ≤ N.offset m'

variable {N}

theorem locate_cons_eq_some {t : τ} {i : ℕ} {path : List ℕ} {o : ℕ} {m : τ} :
    N.locate t (i :: path) = some (o, m) ↔ ∃ f o', (N.members t)[i]? = some f ∧
      N.locate f path = some (o', m) ∧ o = N.offset f + o' := by
  rw [locate]
  cases hf : (N.members t)[i]? with
  | none => simp
  | some f =>
    simp only [Option.map_eq_some_iff, Prod.exists, Prod.mk.injEq, Option.some.injEq]
    constructor
    · rintro ⟨o', m', hm, rfl, rfl⟩
      exact ⟨f, o', rfl, hm, rfl⟩
    · rintro ⟨f', o', rfl, hm, rfl⟩
      exact ⟨o', m, hm, rfl, rfl⟩

/-- A path goes on from where its first part leads. -/
theorem locate_append {t : τ} {p q : List ℕ} {o : ℕ} {m : τ} :
    N.locate t (p ++ q) = some (o, m) ↔ ∃ o₁ f o₂, N.locate t p = some (o₁, f) ∧
      N.locate f q = some (o₂, m) ∧ o = o₁ + o₂ := by
  induction p generalizing t o with
  | nil =>
    simp only [List.nil_append, locate, Option.some.injEq, Prod.mk.injEq]
    constructor
    · intro h
      exact ⟨0, t, o, ⟨rfl, rfl⟩, h, (Nat.zero_add o).symm⟩
    · rintro ⟨o₁, f, o₂, ⟨rfl, rfl⟩, h, rfl⟩
      rw [Nat.zero_add]
      exact h
  | cons i p ih =>
    rw [List.cons_append, locate_cons_eq_some]
    constructor
    · rintro ⟨f, o', hf, hloc, rfl⟩
      obtain ⟨o₁, g, o₂, hg, hq, rfl⟩ := ih.mp hloc
      refine ⟨N.offset f + o₁, g, o₂, ?_, hq, by omega⟩
      exact locate_cons_eq_some.mpr ⟨f, o₁, hf, hg, rfl⟩
    · rintro ⟨o₁, g, o₂, hp, hq, rfl⟩
      obtain ⟨f, o', hf, hg, rfl⟩ := locate_cons_eq_some.mp hp
      exact ⟨f, o' + o₂, hf, ih.mpr ⟨o', g, o₂, hg, hq, rfl⟩, by omega⟩

section Invariant

variable {P : τ → Prop} (hP : ∀ t, P t → N.Holds t ∧ ∀ m ∈ N.members t, P m)

include hP

/-- **The rule for nested objects**: what holds of an object and passes to its members holds
of everything nested in it. -/
theorem locate_invariant {t : τ} (ht : P t) {path : List ℕ} {o : ℕ} {m : τ}
    (h : N.locate t path = some (o, m)) : P m := by
  induction path generalizing t o with
  | nil =>
    simp only [locate, Option.some.injEq, Prod.mk.injEq] at h
    exact h.2 ▸ ht
  | cons i path ih =>
    obtain ⟨f, o', hf, hloc, -⟩ := locate_cons_eq_some.mp h
    exact ih ((hP t ht).2 f (List.mem_of_getElem? hf)) hloc

/-- **What is nested lies inside the whole.** -/
theorem locate_inside {t : τ} (ht : P t) {path : List ℕ} {o : ℕ} {m : τ}
    (h : N.locate t path = some (o, m)) : o + N.size m ≤ N.size t := by
  induction path generalizing t o with
  | nil =>
    simp only [locate, Option.some.injEq, Prod.mk.injEq] at h
    obtain ⟨rfl, rfl⟩ := h
    exact Nat.le_of_eq (Nat.zero_add _)
  | cons i path ih =>
    obtain ⟨f, o', hf, hloc, rfl⟩ := locate_cons_eq_some.mp h
    have hmem := List.mem_of_getElem? hf
    have hfield := (hP t ht).1 f hmem
    have hrest := ih ((hP t ht).2 f hmem) hloc
    omega

/-- **What is nested in different members is apart**, where the members follow one another. -/
theorem locate_apart {t : τ} (ht : P t) (hapart : N.Apart t) {i j : ℕ} (hij : i < j)
    {p q : List ℕ} {o o' : ℕ} {m m' : τ} (hp : N.locate t (i :: p) = some (o, m))
    (hq : N.locate t (j :: q) = some (o', m')) : o + N.size m ≤ o' := by
  obtain ⟨f, o₁, hf, hlocf, rfl⟩ := locate_cons_eq_some.mp hp
  obtain ⟨g, o₂, hg, -, rfl⟩ := locate_cons_eq_some.mp hq
  have hinside := locate_inside hP ((hP t ht).2 f (List.mem_of_getElem? hf)) hlocf
  have hfirst : N.offset f + N.size f ≤ N.offset g := by
    obtain ⟨hi, rfl⟩ := List.getElem?_eq_some_iff.mp hf
    obtain ⟨hj, rfl⟩ := List.getElem?_eq_some_iff.mp hg
    exact List.pairwise_iff_getElem.mp hapart i j hi hj hij
  omega

end Invariant

end Nesting

end Affix.Foundation
