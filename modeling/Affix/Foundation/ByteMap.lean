import Affix.Foundation.Bytes
import Affix.Foundation.Memory

/-!
# Bytes without blocks

Where code works on buffers of its own, or below the level of C, memory is no more than
a map from addresses to bytes. A part of it is read as a list, a list is laid over a
part of it, and a machine word is eight bytes of it.
-/

set_option autoImplicit false

namespace Affix.Foundation

open Mem (overlay)

/-- The bytes from an address on. -/
def slice (f : ℕ → UInt8) (a n : ℕ) : List UInt8 := (List.range n).map fun i => f (a + i)

section Bytes

variable {f g : ℕ → UInt8} {a b n i x : ℕ} {bs : List UInt8}

@[simp] theorem length_slice (f : ℕ → UInt8) (a n : ℕ) : (slice f a n).length = n := by
  simp [slice]

theorem getElem?_slice (h : i < n) : (slice f a n)[i]? = some (f (a + i)) := by
  simp [slice, h]

theorem slice_congr (h : ∀ i < n, f (a + i) = g (b + i)) : slice f a n = slice g b n :=
  List.map_congr_left fun i hi => h i (List.mem_range.mp hi)

theorem overlay_of_inside (h : i < bs.length) : overlay f a bs (a + i) = bs[i] := by
  rw [overlay, if_pos (Nat.le_add_right a i), Nat.add_sub_cancel_left,
    List.getElem?_eq_getElem h, Option.getD_some]

theorem overlay_of_outside (h : x < a ∨ a + bs.length ≤ x) : overlay f a bs x = f x := by
  unfold overlay
  rcases h with h | h
  · rw [if_neg (not_le.mpr h)]
  · rw [List.getElem?_eq_none (by omega), Option.getD_none, ite_self]

theorem slice_overlay_same : slice (overlay f a bs) a bs.length = bs := by
  apply List.ext_getElem
  · rw [length_slice]
  · intro i hi hi'
    simp only [slice, List.getElem_map, List.getElem_range]
    exact overlay_of_inside hi'

theorem slice_overlay_disjoint (h : a + n ≤ b ∨ b + bs.length ≤ a) :
    slice (overlay f b bs) a n = slice f a n :=
  slice_congr fun i hi => overlay_of_outside (by omega)

/-- Bytes in two places, in either order. -/
theorem overlay_comm {cs : List UInt8} (h : a + bs.length ≤ b ∨ b + cs.length ≤ a) :
    overlay (overlay f a bs) b cs = overlay (overlay f b cs) a bs := by
  funext x
  by_cases hx : b ≤ x ∧ x < b + cs.length
  · obtain ⟨i, rfl⟩ := Nat.exists_eq_add_of_le hx.1
    have hi : i < cs.length := by omega
    rw [overlay_of_inside hi, overlay_of_outside (by omega), overlay_of_inside hi]
  rw [overlay_of_outside (by omega)]
  by_cases hx : a ≤ x ∧ x < a + bs.length
  · obtain ⟨i, rfl⟩ := Nat.exists_eq_add_of_le hx.1
    have hi : i < bs.length := by omega
    rw [overlay_of_inside hi, overlay_of_inside hi]
  · rw [overlay_of_outside (by omega), overlay_of_outside (by omega), overlay_of_outside (by omega)]

end Bytes

/-! ## Words of eight bytes -/

def loadWord (f : ℕ → UInt8) (a : ℕ) : ℕ := decodeLE (slice f a 8)

def storeWord (f : ℕ → UInt8) (a w : ℕ) : ℕ → UInt8 := overlay f a (encodeLE 8 w)

section Words

variable {f g : ℕ → UInt8} {a b w x : ℕ}

theorem loadWord_congr (h : ∀ i < 8, f (a + i) = g (b + i)) : loadWord f a = loadWord g b :=
  congrArg decodeLE (slice_congr h)

theorem loadWord_storeWord (h : w < 2 ^ 64) : loadWord (storeWord f a w) a = w := by
  have hslice : slice (overlay f a (encodeLE 8 w)) a 8 = encodeLE 8 w := by
    have := @slice_overlay_same f a (encodeLE 8 w)
    rwa [length_encodeLE] at this
  rw [loadWord, storeWord, hslice]
  exact decodeLE_encodeLE_of_lt (h.trans_le (by norm_num))

theorem storeWord_of_outside (h : x < a ∨ a + 8 ≤ x) : storeWord f a w x = f x :=
  overlay_of_outside (by rwa [length_encodeLE])

theorem loadWord_storeWord_disjoint (h : a + 8 ≤ b ∨ b + 8 ≤ a) :
    loadWord (storeWord f b w) a = loadWord f a :=
  loadWord_congr fun i hi => storeWord_of_outside (by omega)

theorem decodeLE_lt (bs : List UInt8) : decodeLE bs < 256 ^ bs.length := by
  induction bs with
  | nil => exact Nat.one_pos
  | cons b bs ih =>
    have hb : b.toNat < 256 := b.toNat_lt
    rw [decodeLE, List.length_cons, pow_succ]
    omega

/-- A byte string is the image of the number it stands for. -/
theorem encodeLE_decodeLE (bs : List UInt8) : encodeLE bs.length (decodeLE bs) = bs := by
  induction bs with
  | nil => rfl
  | cons b bs ih =>
    have hb : b.toNat < 256 := b.toNat_lt
    have hmod : (b.toNat + 256 * decodeLE bs) % 256 = b.toNat := by omega
    have hdiv : (b.toNat + 256 * decodeLE bs) / 256 = decodeLE bs := by omega
    rw [List.length_cons, decodeLE, encodeLE, hmod, hdiv, ih, UInt8.ofNat_toNat]

/-- The low bytes of a number. -/
theorem take_encodeLE (k n v : ℕ) : (encodeLE (k + n) v).take k = encodeLE k (v % 256 ^ k) := by
  induction k generalizing v with
  | zero => rfl
  | succ k ih =>
    have hmod : v % 256 ^ (k + 1) % 256 = v % 256 :=
      Nat.mod_mod_of_dvd v (dvd_pow_self 256 k.succ_ne_zero)
    have hdiv : v % 256 ^ (k + 1) / 256 = v / 256 % 256 ^ k := by
      rw [pow_succ']
      exact Nat.mod_mul_right_div_self v 256 (256 ^ k)
    rw [show k + 1 + n = k + n + 1 by omega, encodeLE, List.take_succ_cons, ih, encodeLE, hmod,
      hdiv]

theorem loadWord_lt (f : ℕ → UInt8) (a : ℕ) : loadWord f a < 2 ^ 64 := by
  have h := decodeLE_lt (slice f a 8)
  rw [length_slice] at h
  exact h.trans_le (by norm_num)

/-! ### Words in a row -/

def storeWords (f : ℕ → UInt8) (a : ℕ) (ws : List ℕ) : ℕ → UInt8 :=
  overlay f a (ws.flatMap (encodeLE 8))

theorem length_words (ws : List ℕ) : (ws.flatMap (encodeLE 8)).length = 8 * ws.length := by
  induction ws with
  | nil => rfl
  | cons w ws ih =>
    rw [List.flatMap_cons, List.length_append, length_encodeLE, ih, List.length_cons]
    omega

/-- Bytes laid in front of others. -/
theorem overlay_append (f : ℕ → UInt8) (a : ℕ) (bs cs : List UInt8) :
    overlay (overlay f (a + bs.length) cs) a bs = overlay f a (bs ++ cs) := by
  funext x
  by_cases hlo : x < a
  · rw [overlay_of_outside (Or.inl hlo), overlay_of_outside (Or.inl (by omega)),
      overlay_of_outside (Or.inl hlo)]
  obtain ⟨i, rfl⟩ := Nat.exists_eq_add_of_le (not_lt.mp hlo)
  by_cases hbs : i < bs.length
  · rw [overlay_of_inside hbs, overlay_of_inside (by rw [List.length_append]; omega),
      List.getElem_append_left hbs]
  rw [overlay_of_outside (Or.inr (by omega))]
  by_cases hcs : i < bs.length + cs.length
  · have hrest : i - bs.length < cs.length := by omega
    rw [show a + i = a + bs.length + (i - bs.length) by omega, overlay_of_inside hrest,
      show a + bs.length + (i - bs.length) = a + i by omega,
      overlay_of_inside (by rw [List.length_append]; omega),
      List.getElem_append_right (not_lt.mp hbs)]
  · rw [overlay_of_outside (Or.inr (by omega)),
      overlay_of_outside (Or.inr (by rw [List.length_append]; omega))]

theorem storeWord_eq_storeWords (f : ℕ → UInt8) (a w : ℕ) :
    storeWord f a w = storeWords f a [w] := by
  rw [storeWords, List.flatMap_singleton, storeWord]

/-- A word that is pushed. -/
theorem storeWord_storeWords {ws : List ℕ} (hb : b = a + 8) :
    storeWord (storeWords f b ws) a w = storeWords f a (w :: ws) := by
  have := overlay_append f a (encodeLE 8 w) (ws.flatMap (encodeLE 8))
  rw [length_encodeLE, ← hb] at this
  rw [storeWord, storeWords, this, storeWords, List.flatMap_cons]

/-- A word that is stored after others. -/
theorem storeWord_after {ws : List ℕ} (hb : b = a + 8 * ws.length) :
    storeWord (storeWords f a ws) b w = storeWords f a (ws ++ [w]) := by
  have hlen := length_words ws
  rw [storeWord, storeWords, overlay_comm (Or.inl (by omega)), hb, ← hlen, overlay_append,
    storeWords, List.flatMap_append, List.flatMap_singleton]

theorem storeWords_of_outside {ws : List ℕ} (h : x < a ∨ a + 8 * ws.length ≤ x) :
    storeWords f a ws x = f x :=
  overlay_of_outside (by rwa [length_words])

theorem slice_storeWords {ws : List ℕ} {k : ℕ} (hk : ws[k]? = some w) :
    slice (storeWords f a ws) (a + 8 * k) 8 = encodeLE 8 w := by
  induction ws generalizing a k f with
  | nil => simp at hk
  | cons v ws ih =>
    rw [← storeWord_storeWords rfl]
    cases k with
    | zero =>
      obtain rfl := Option.some.inj hk
      have := @slice_overlay_same (storeWords f (a + 8) ws) a (encodeLE 8 v)
      rwa [length_encodeLE] at this
    | succ k =>
      have hrest := ih (a := a + 8) (f := f) hk
      rw [show a + 8 + 8 * k = a + 8 * (k + 1) by omega] at hrest
      rw [← hrest]
      exact slice_overlay_disjoint (Or.inr (by rw [length_encodeLE]; omega))

theorem loadWord_storeWords {ws : List ℕ} {k : ℕ} (hk : ws[k]? = some w) (hw : w < 2 ^ 64) :
    loadWord (storeWords f a ws) (a + 8 * k) = w := by
  rw [loadWord, slice_storeWords hk]
  exact decodeLE_encodeLE_of_lt (hw.trans_le (by norm_num))

theorem encodeLE_loadWord (f : ℕ → UInt8) (a : ℕ) : encodeLE 8 (loadWord f a) = slice f a 8 := by
  have := encodeLE_decodeLE (slice f a 8)
  rwa [length_slice] at this

/-- Half of a word. -/
theorem slice_take {n k : ℕ} (h : k ≤ n) : slice f a k = (slice f a n).take k := by
  apply List.ext_getElem
  · simp [h]
  · intro i hi hi'
    simp [slice]

theorem slice_drop (n k : ℕ) : slice f (a + k) n = (slice f a (k + n)).drop k := by
  apply List.ext_getElem
  · simp
  · intro i hi hi'
    simp [slice, Nat.add_assoc]

/-- The low bytes of a word stand for its residue. -/
theorem decodeLE_slice_low {n : ℕ} (h : n ≤ 8) :
    decodeLE (slice f a n) = loadWord f a % 256 ^ n := by
  obtain ⟨k, hk⟩ := Nat.exists_eq_add_of_le h
  rw [slice_take h, ← encodeLE_loadWord, hk, take_encodeLE, decodeLE_encodeLE, Nat.mod_mod]

end Words

end Affix.Foundation
