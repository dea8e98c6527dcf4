import Mathlib.Order.Bounds.Basic
import Mathlib.Order.MinMax
import Mathlib.Order.Nat
import Mathlib.Tactic.Common

/-!
# Sequential placement

The arithmetic behind every record layout: rounding an address up to an
alignment, and placing a list of extents one after another, each at the first
address its alignment allows. Nothing here knows what the extents are of.
-/

set_option autoImplicit false

namespace Affix.Foundation

/-- The least multiple of `a` that is not below `n`. -/
def alignUp (n a : ℕ) : ℕ := (n + a - 1) / a * a

theorem le_alignUp {n a : ℕ} (ha : 0 < a) : n ≤ alignUp n a := by
  have h := Nat.div_add_mod (n + a - 1) a
  have hlt := Nat.mod_lt (n + a - 1) ha
  unfold alignUp
  rw [Nat.mul_comm] at h
  omega

theorem dvd_alignUp (n a : ℕ) : a ∣ alignUp n a := ⟨(n + a - 1) / a, Nat.mul_comm ..⟩

theorem alignUp_lt {n a : ℕ} (ha : 0 < a) : alignUp n a < n + a := by
  have h := Nat.div_add_mod (n + a - 1) a
  unfold alignUp
  rw [Nat.mul_comm] at h
  omega

/-- Rounding up is rounding to the least multiple that is not below. -/
theorem isLeast_alignUp {n a : ℕ} (ha : 0 < a) : IsLeast {m | a ∣ m ∧ n ≤ m} (alignUp n a) := by
  refine ⟨⟨dvd_alignUp n a, le_alignUp ha⟩, ?_⟩
  rintro m ⟨⟨k, rfl⟩, hm⟩
  obtain ⟨j, hj⟩ := dvd_alignUp n a
  have hlt := alignUp_lt (n := n) ha
  rw [hj] at hlt ⊢
  by_contra hcon
  have hjk : k + 1 ≤ j := by
    by_contra h
    exact hcon (Nat.mul_le_mul_left a (by omega))
  have := Nat.mul_le_mul_left a hjk
  rw [Nat.mul_succ] at this
  omega

structure Extent where
  size : ℕ
  align : ℕ
deriving DecidableEq, Repr

/-- The offsets of the extents when placing starts at `e`. -/
def offsets : ℕ → List Extent → List ℕ
  | _, [] => []
  | e, x :: xs => alignUp e x.align :: offsets (alignUp e x.align + x.size) xs

def placeEnd : ℕ → List Extent → ℕ
  | e, [] => e
  | e, x :: xs => placeEnd (alignUp e x.align + x.size) xs

@[simp] theorem length_offsets (e : ℕ) (xs : List Extent) : (offsets e xs).length = xs.length := by
  induction xs generalizing e with
  | nil => rfl
  | cons x xs ih => simp [offsets, ih]

theorem le_placeEnd {e : ℕ} {xs : List Extent} (h : ∀ x ∈ xs, 0 < x.align) :
    e ≤ placeEnd e xs := by
  induction xs generalizing e with
  | nil => exact le_refl _
  | cons x xs ih =>
    have hx := le_alignUp (n := e) (h x (List.mem_cons_self ..))
    have hxs := ih (e := alignUp e x.align + x.size) fun y hy => h y (List.mem_cons_of_mem _ hy)
    rw [placeEnd]
    omega

/-- The greatest alignment of a list of extents, at least `1`. -/
def maxAlign (xs : List Extent) : ℕ := (xs.map Extent.align).foldr max 1

/-- The greatest size of a list of extents. -/
def maxSize (xs : List Extent) : ℕ := (xs.map Extent.size).foldr max 0

/-- A running maximum is bounded by what bounds its start and its members. -/
theorem foldr_max_le_iff {l : List ℕ} {b n : ℕ} :
    l.foldr max b ≤ n ↔ b ≤ n ∧ ∀ x ∈ l, x ≤ n := by
  induction l with
  | nil => simp
  | cons a l ih =>
    rw [List.foldr_cons, max_le_iff, ih, List.forall_mem_cons]
    exact and_left_comm

theorem maxAlign_le_iff {xs : List Extent} {n : ℕ} :
    maxAlign xs ≤ n ↔ 1 ≤ n ∧ ∀ x ∈ xs, x.align ≤ n := by
  rw [maxAlign, foldr_max_le_iff, List.forall_mem_map]

theorem maxSize_le_iff {xs : List Extent} {n : ℕ} :
    maxSize xs ≤ n ↔ ∀ x ∈ xs, x.size ≤ n := by
  rw [maxSize, foldr_max_le_iff, List.forall_mem_map]
  exact and_iff_right (Nat.zero_le n)

theorem one_le_maxAlign (xs : List Extent) : 1 ≤ maxAlign xs :=
  (maxAlign_le_iff.mp (le_refl _)).1

theorem size_le_maxSize {xs : List Extent} {x : Extent} (h : x ∈ xs) : x.size ≤ maxSize xs :=
  maxSize_le_iff.mp (le_refl _) x h

/-- The end of a placement is past the first extent, so it is positive when that one is. -/
theorem placeEnd_pos {xs : List Extent} (hne : xs ≠ [])
    (h : ∀ x ∈ xs, 0 < x.size ∧ 0 < x.align) : 0 < placeEnd 0 xs := by
  obtain ⟨x, xs, rfl⟩ := List.exists_cons_of_ne_nil hne
  have hx := h x (List.mem_cons_self ..)
  have hle := le_placeEnd (e := alignUp 0 x.align + x.size) fun y hy =>
    (h y (List.mem_cons_of_mem _ hy)).2
  rw [placeEnd]
  omega

theorem alignUp_pos {n a : ℕ} (hn : 0 < n) (ha : 0 < a) : 0 < alignUp n a :=
  hn.trans_le (le_alignUp ha)

end Affix.Foundation
