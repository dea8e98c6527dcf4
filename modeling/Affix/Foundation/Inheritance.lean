import Mathlib.Data.List.Forall2
import Mathlib.Logic.Relation
import Mathlib.Logic.Function.Basic

/-!
# Linear inheritance

Classes with their parents, in order. A linearization lists a class, then what each
parent is linearized to; it is given up below a depth, so that a class that inherits
from itself has none. Putting one class under a single new parent keeps what the new
parent inherits, unless the class is among it.
-/

set_option autoImplicit false

namespace Affix.Foundation

variable {κ : Type}

/-- Depth first, from the left, at most `depth` levels. -/
def linearize (parents : κ → List κ) : (depth : ℕ) → κ → Option (List κ)
  | 0, _ => none
  | depth + 1, c => ((parents c).mapM (linearize parents depth)).map fun ls => c :: ls.flatten

/-- A class and all it inherits from. -/
def Inherits (parents : κ → List κ) : κ → κ → Prop :=
  Relation.ReflTransGen fun c d => d ∈ parents c

/-- `p` put under the single parent `q`. -/
def reparent [DecidableEq κ] (parents : κ → List κ) (p q : κ) : κ → List κ :=
  Function.update parents p [q]

section

variable {parents : κ → List κ}

theorem mapM_eq_some {α β : Type} {f : α → Option β} {xs : List α} :
    ∀ {ys : List β}, xs.mapM f = some ys ↔ List.Forall₂ (fun x y => f x = some y) xs ys := by
  induction xs with
  | nil =>
    intro ys
    rw [List.mapM_nil, List.forall₂_nil_left_iff]
    exact ⟨fun h => (Option.some.inj h).symm, fun h => congrArg some h.symm⟩
  | cons x xs ih =>
    intro ys
    rw [List.mapM_cons, List.forall₂_cons_left_iff]
    constructor
    · intro h
      obtain ⟨y, hy, hrest⟩ := Option.bind_eq_some_iff.mp h
      obtain ⟨zs, hzs, hcons⟩ := Option.bind_eq_some_iff.mp hrest
      exact ⟨y, zs, hy, ih.mp hzs, (Option.some.inj hcons).symm⟩
    · rintro ⟨y, zs, hy, hzs, rfl⟩
      rw [hy, ih.mpr hzs]
      rfl

theorem linearize_succ {n : ℕ} {c : κ} {l : List κ} :
    linearize parents (n + 1) c = some l ↔
      ∃ ls, List.Forall₂ (fun p l => linearize parents n p = some l) (parents c) ls ∧
        c :: ls.flatten = l := by
  rw [linearize, Option.map_eq_some_iff]
  constructor
  · rintro ⟨ls, hls, rfl⟩
    exact ⟨ls, mapM_eq_some.mp hls, rfl⟩
  · rintro ⟨ls, hls, rfl⟩
    exact ⟨ls, mapM_eq_some.mpr hls, rfl⟩

/-- A parent of what has a linearization has one a level lower. -/
theorem linearize_parent {n : ℕ} {c d : κ} {l : List κ}
    (h : linearize parents (n + 1) c = some l) (hd : d ∈ parents c) :
    ∃ l', linearize parents n d = some l' := by
  obtain ⟨ls, hls, -⟩ := linearize_succ.mp h
  obtain ⟨i, hi, rfl⟩ := List.mem_iff_getElem.mp hd
  have hlen : i < ls.length := hls.length_eq ▸ hi
  exact ⟨ls[i], hls.get hi hlen⟩

theorem linearize_mono {m : ℕ} :
    ∀ {n : ℕ} {c : κ} {l : List κ}, m ≤ n → linearize parents m c = some l →
      linearize parents n c = some l := by
  induction m with
  | zero =>
    intro n c l _ h
    cases h
  | succ m ih =>
    intro n c l hle h
    obtain ⟨n, rfl⟩ := Nat.exists_eq_add_of_le' (Nat.le_trans (Nat.le_add_left 1 m) hle)
    obtain ⟨ls, hls, rfl⟩ := linearize_succ.mp h
    exact linearize_succ.mpr ⟨ls, hls.imp fun _ _ hp => ih (by omega) hp, rfl⟩

/-- Whatever a class inherits from has a linearization where the class has one. -/
theorem linearize_of_inherits {n : ℕ} {c d : κ} {l : List κ}
    (h : linearize parents n c = some l) (hd : Inherits parents c d) :
    ∃ l', linearize parents n d = some l' := by
  induction hd with
  | refl => exact ⟨l, h⟩
  | tail _ hedge ih =>
    obtain ⟨l', hl'⟩ := ih
    cases n with
    | zero => cases hl'
    | succ n =>
      obtain ⟨l'', hl''⟩ := linearize_parent hl' hedge
      exact ⟨l'', linearize_mono (Nat.le_succ n) hl''⟩

/-- What has a linearization does not inherit from itself. -/
theorem not_inherits_of_parent {n : ℕ} :
    ∀ {c d : κ} {l : List κ}, linearize parents n c = some l → d ∈ parents c →
      ¬ Inherits parents d c := by
  induction n with
  | zero =>
    intro c d l h
    cases h
  | succ n ih =>
    intro c d l h hd hback
    obtain ⟨l', hl'⟩ := linearize_parent h hd
    obtain ⟨l'', hl''⟩ := linearize_of_inherits hl' hback
    exact ih hl'' hd hback

/-- The members of a linearization are what the class inherits from. -/
theorem mem_linearize {n : ℕ} :
    ∀ {c d : κ} {l : List κ}, linearize parents n c = some l → (d ∈ l ↔ Inherits parents c d) := by
  induction n with
  | zero =>
    intro c d l h
    cases h
  | succ n ih =>
    intro c d l h
    obtain ⟨ls, hls, rfl⟩ := linearize_succ.mp h
    rw [List.mem_cons, List.mem_flatten]
    constructor
    · rintro (rfl | ⟨l', hmem, hd⟩)
      · exact Relation.ReflTransGen.refl
      · obtain ⟨i, hi, rfl⟩ := List.mem_iff_getElem.mp hmem
        have hlen : i < (parents c).length := hls.length_eq ▸ hi
        have hinherits := (ih (hls.get hlen hi)).mp hd
        exact Relation.ReflTransGen.head (List.getElem_mem hlen) hinherits
    · intro hd
      rcases Relation.ReflTransGen.cases_head hd with rfl | ⟨e, hedge, hrest⟩
      · exact Or.inl rfl
      · obtain ⟨i, hi, rfl⟩ := List.mem_iff_getElem.mp hedge
        have hlen : i < ls.length := hls.length_eq ▸ hi
        exact Or.inr ⟨ls[i], List.getElem_mem hlen, (ih (hls.get hi hlen)).mpr hrest⟩

/-! ## A new parent -/

variable [DecidableEq κ]

/-- Classes that do not inherit from `p` are linearized as before. -/
theorem linearize_reparent_of_not_inherits {p q : κ} {n : ℕ} :
    ∀ {c : κ} {l : List κ}, ¬ Inherits parents c p → linearize parents n c = some l →
      linearize (reparent parents p q) n c = some l := by
  induction n with
  | zero =>
    intro c l _ h
    cases h
  | succ n ih =>
    intro c l hnot h
    have hc : c ≠ p := by
      rintro rfl
      exact hnot Relation.ReflTransGen.refl
    have hparents : reparent parents p q c = parents c := Function.update_of_ne hc _ _
    obtain ⟨ls, hls, rfl⟩ := linearize_succ.mp h
    refine linearize_succ.mpr ⟨ls, ?_, rfl⟩
    rw [hparents, List.forall₂_iff_get]
    refine ⟨hls.length_eq, fun i hi hlen => ih ?_ (hls.get hi hlen)⟩
    intro hback
    exact hnot (Relation.ReflTransGen.head (List.getElem_mem hi) hback)

theorem inherits_reparent_or {p q c d : κ} (h : Inherits parents c d) :
    Inherits (reparent parents p q) c d ∨ Inherits (reparent parents p q) c p := by
  induction h using Relation.ReflTransGen.head_induction_on with
  | refl => exact Or.inl Relation.ReflTransGen.refl
  | @head c e hedge _ ih =>
    by_cases hc : c = p
    · rw [hc]
      exact Or.inr Relation.ReflTransGen.refl
    · have hedge' : e ∈ reparent parents p q c := by
        rwa [reparent, Function.update_of_ne hc]
      exact ih.imp (Relation.ReflTransGen.head hedge') (Relation.ReflTransGen.head hedge')

/-- The class put under a new parent inherits what the parent inherited, if it can still be
linearized. -/
theorem inherits_reparent {p q d : κ} {n : ℕ} {l : List κ}
    (hlin : linearize (reparent parents p q) n p = some l) (h : Inherits parents q d) :
    Inherits (reparent parents p q) p d := by
  have hedge : q ∈ reparent parents p q p := by
    simp [reparent]
  rcases inherits_reparent_or (p := p) (q := q) h with hkept | hback
  · exact Relation.ReflTransGen.head hedge hkept
  · exact absurd hback (not_inherits_of_parent hlin hedge)

/-- What a class inherits stays, if the new place of `p` has it as well. -/
theorem inherits_reparent_of {p q c d : κ} (h : Inherits parents c d)
    (hp : Inherits (reparent parents p q) p d) : Inherits (reparent parents p q) c d := by
  rcases inherits_reparent_or (p := p) (q := q) h with hkept | hthrough
  · exact hkept
  · exact hthrough.trans hp

end

end Affix.Foundation
