import Affix.Analysis.CallThrough
import Affix.Interface.Classification

/-!
# How structs are classified

`dcCloseAggr` walks the fields of a descriptor once for each of two eightbytes. The walk
finds the class that the convention gives, provided that nested aggregates begin with an
eightbyte: the element of an array to start with is computed by an unsigned difference
that is taken the wrong way round where the array begins within the eightbyte. A union of
eight bytes is found even so.

SOURCE: dyncall_aggregate_x64.c:35-150, dyncall_aggregate.c:46-110
-/

set_option autoImplicit false

namespace Affix.Analysis

open Affix.Foundation Affix.Model Affix.Interface

/-! ## Classes -/

section Classes

variable {index : ℕ} {ls ls' : List Leaf} {c c' : SysvClass}

/-- The classes are merged by their order. -/
theorem dc_merge_sysv_classes_eq (c c' : SysvClass) : dc_merge_sysv_classes c c' = max c c' := by
  cases c <;> cases c' <;> rfl

theorem le_memory (c : SysvClass) : c ≤ .memory := by
  cases c <;> decide

theorem eq_of_forall_le (h : ∀ b, c ≤ b ↔ c' ≤ b) : c = c' := eq_of_forall_ge_iff h

theorem sysvClass_cons (l : Leaf) (ls : List Leaf) :
    sysvClass index (l :: ls) = max (l.gives index) (sysvClass index ls) := rfl

theorem sysvClass_le_iff : sysvClass index ls ≤ c ↔ ∀ l ∈ ls, l.gives index ≤ c := by
  induction ls with
  | nil => exact ⟨fun _ => List.forall_mem_nil _, fun _ => bot_le⟩
  | cons l ls ih => rw [sysvClass_cons, max_le_iff, ih, List.forall_mem_cons]

theorem sysvClass_append :
    sysvClass index (ls ++ ls') = max (sysvClass index ls) (sysvClass index ls') := by
  refine eq_of_forall_le fun b => ?_
  rw [max_le_iff, sysvClass_le_iff, sysvClass_le_iff, sysvClass_le_iff, List.forall_mem_append]

theorem gives_eq_bot {l : Leaf} (h : ¬ l.Reaches index) : l.gives index = ⊥ := if_neg h

theorem gives_eq {l : Leaf} (h : l.Reaches index) :
    l.gives index = if l.size ∣ l.offset then l.clz else .memory := if_pos h

/-- Scalars within a stretch that is outside of the eightbyte. -/
theorem sysvClass_outside {lo hi : ℕ} (h : ∀ l ∈ ls, lo ≤ l.offset ∧ l.stop ≤ hi)
    (hout : index * 8 + 8 ≤ lo ∨ hi ≤ index * 8) : sysvClass index ls = ⊥ := by
  refine le_bot_iff.mp (sysvClass_le_iff.mpr fun l hl => ?_)
  obtain ⟨hlo, hhi⟩ := h l hl
  have hreach : ¬ l.Reaches index := by
    rintro ⟨h1, h2⟩
    omega
  rw [gives_eq_bot hreach]

theorem foldl_merge_le_iff {g : ℕ → SysvClass} {n : ℕ} :
    (List.range n).foldl (fun (b : SysvClass) (i : ℕ) => dc_merge_sysv_classes b (g i)) c ≤ c' ↔
      c ≤ c' ∧ ∀ i < n, g i ≤ c' := by
  induction n with
  | zero => simp
  | succ n ih =>
    rw [List.range_succ, List.foldl_concat, dc_merge_sysv_classes_eq, max_le_iff, ih, and_assoc]
    refine and_congr_right fun _ => ⟨fun h i hi => ?_, fun h => ⟨fun i hi => h i (by omega),
      h n (by omega)⟩⟩
    rcases Nat.lt_succ_iff_lt_or_eq.mp hi with hi | rfl
    · exact h.1 i hi
    · exact h.2

end Classes

/-! ## Numbers that are small -/

theorem dcSize_natCast {n : ℕ} (h : n < 2 ^ 64) : dcSize n = n := by
  have hrange : culong.InRange (n : ℤ) := by
    have hcast : (n : ℤ) < 2 ^ 64 := by exact_mod_cast h
    exact ⟨Int.natCast_nonneg n, hcast.trans_eq (zero_add _).symm⟩
  rw [dcSize, CIntType.wrap_of_inRange hrange, Int.toNat_natCast]

theorem cint_natCast {n : ℕ} (h : n < 2 ^ 31) : cint.wrap n = n := by
  refine CIntType.wrap_of_inRange ⟨?_, ?_⟩
  · simp only [cint, CIntType.minValue]
    omega
  · simp only [cint, CIntType.minValue, CIntType.card]
    omega

/-! ## Where the scalars are -/

section Within

variable {f : DCfield} {sub : Option DCaggr} {a : DCaggr}
  {rest fields : List (DCfield × Option DCaggr)} {base n : ℕ}

theorem leavesOf_scalar (h : f.type ≠ .aggregate) : leavesOf ((f, sub) :: rest) base =
    ⟨base + f.offset.toNat, f.size, f.arrayLen, f.type.sysvClass⟩ :: leavesOf rest base := by
  rw [leavesOf.eq_def]
  dsimp only
  rw [if_neg h, List.singleton_append]

theorem leavesOf_aggregate (h : f.type = .aggregate) : leavesOf ((f, some a) :: rest) base =
    ((List.range f.arrayLen).flatMap fun j => leavesIn a (base + f.offset.toNat + f.size * j)) ++
      leavesOf rest base := by
  rw [leavesOf.eq_def]
  dsimp only
  rw [if_pos h]

theorem natural_fieldSize {c : DCsigchar} {n : ℕ} (h : c.fieldSize = some n) : Natural n := by
  unfold Natural
  cases c <;> simp_all [DCsigchar.fieldSize]

mutual

/-- The alignment of a descriptor is that of an entry. -/
theorem natural_alignment : ∀ {a : DCaggr}, BuiltUp a → Natural a.alignment
  | .mk n alignment fields, hb => by
    rw [BuiltUp] at hb
    obtain ⟨rfl | ⟨e, he, rfl⟩, hbs⟩ := hb
    · exact Or.inl rfl
    · exact natural_field hbs e he

theorem natural_field : ∀ {fields : List (DCfield × Option DCaggr)}, builtFields fields →
    ∀ e ∈ fields, Natural e.1.alignment
  | [], _, e, he => absurd he List.not_mem_nil
  | (f, sub) :: rest, hb, e, he => by
    rw [builtFields.eq_def] at hb
    obtain ⟨hkind, hbs⟩ := hb
    rcases List.mem_cons.mp he with rfl | he
    · show Natural f.alignment
      by_cases hagg : f.type = .aggregate
      · rw [if_pos hagg] at hkind
        cases sub with
        | none => exact hkind.elim
        | some a =>
          obtain ⟨-, halign, hba⟩ := hkind
          rw [halign]
          exact natural_alignment hba
      · rw [if_neg hagg] at hkind
        rw [hkind.2]
        exact natural_fieldSize hkind.1
    · exact natural_field hbs e he

end

mutual

/-- **The scalars lie within the descriptor.** -/
theorem leaves_within : ∀ {a : DCaggr} {base : ℕ}, BuiltUp a → Placed a base →
    ∀ l ∈ leavesIn a base, base ≤ l.offset ∧ l.stop ≤ base + a.size
  | .mk n _ fields, base, hb, hp, l, hl => by
    rw [leavesIn] at hl
    rw [BuiltUp] at hb
    rw [Placed] at hp
    exact leavesOf_within hb.2 hp l hl

theorem leavesOf_within : ∀ {fields : List (DCfield × Option DCaggr)} {n base : ℕ},
    builtFields fields → placedFields n fields base →
    ∀ l ∈ leavesOf fields base, base ≤ l.offset ∧ l.stop ≤ base + n
  | [], _, _, _, _, l, hl => by
    rw [leavesOf] at hl
    cases hl
  | (f, sub) :: rest, n, base, hb, hp, l, hl => by
    rw [builtFields.eq_def] at hb
    rw [placedFields.eq_def] at hp
    obtain ⟨hkind, hbs⟩ := hb
    obtain ⟨⟨-, -, hfit, hsub⟩, hps⟩ := hp
    by_cases hagg : f.type = .aggregate
    · rw [if_pos hagg] at hkind
      cases sub with
      | none => exact hkind.elim
      | some a =>
        obtain ⟨hsize, -, hba⟩ := hkind
        obtain ⟨-, -, hplaced⟩ := hsub hagg
        rw [leavesOf_aggregate hagg, List.mem_append, List.mem_flatMap] at hl
        obtain ⟨j, hj, hl⟩ | hl := hl
        · rw [List.mem_range] at hj
          obtain ⟨hlo, hhi⟩ := leaves_within hba (hplaced j hj) l hl
          have hlast : f.size * (j + 1) ≤ f.size * f.arrayLen := Nat.mul_le_mul_left _ hj
          rw [Nat.mul_succ] at hlast
          constructor <;> omega
        · exact leavesOf_within hbs hps l hl
    · rw [leavesOf_scalar hagg] at hl
      rcases List.mem_cons.mp hl with rfl | hl
      · exact ⟨Nat.le_add_right _ _, by simp only [Leaf.stop]; omega⟩
      · exact leavesOf_within hbs hps l hl

end

end Within

/-! ## The walk over the fields -/

section Walk

variable {index : ℕ} {f : DCfield} {sub : Option DCaggr} {a : DCaggr}
  {rest fields : List (DCfield × Option DCaggr)} {base n : ℕ} {base_offset : ℤ} {clz : SysvClass}

theorem merge_step (c c' : SysvClass) :
    (if c = c' then c else dc_merge_sysv_classes c c') = max c c' := by
  split
  · rename_i h
    rw [h, max_self]
  · exact dc_merge_sysv_classes_eq c c'

theorem classForFields_cons : classForFields index ((f, sub) :: rest) base_offset clz =
    if outsideEightbyte index (dcSize (base_offset + f.offset)) f then
      classForFields index rest base_offset clz
    else if unaligned (dcSize (base_offset + f.offset)) f then .memory
    else classForFields index rest base_offset
      (max clz (classForField index (dcSize (base_offset + f.offset)) f sub)) := by
  rw [classForFields]
  simp only [merge_step]

theorem classForField_scalar {offset : ℕ} (h : f.type ≠ .aggregate) :
    classForField index offset f sub = f.type.sysvClass := by
  cases sub with
  | none => rw [classForField]
  | some a => rw [classForField, if_neg h]

/-- The offset of a field, where it is small. -/
theorem dcSize_offset (hoffset : 0 ≤ f.offset) (hsmall : base + f.offset.toNat < 2 ^ 64) :
    dcSize (base + f.offset) = base + f.offset.toNat := by
  have hcast : (base : ℤ) + f.offset = (base + f.offset.toNat : ℕ) := by
    rw [Nat.cast_add, Int.toNat_of_nonneg hoffset]
  rw [hcast, dcSize_natCast hsmall]

theorem outsideEightbyte_iff {offset : ℕ} (hsmall : offset + f.size * f.arrayLen < 2 ^ 64) :
    outsideEightbyte index offset f = true ↔
      index * 8 + 8 ≤ offset ∨ offset + f.size * f.arrayLen ≤ index * 8 := by
  have hcast : (offset : ℤ) + f.size * f.arrayLen = (offset + f.size * f.arrayLen : ℕ) := by
    push_cast
    rfl
  rw [outsideEightbyte, hcast, dcSize_natCast hsmall, Bool.or_eq_true, decide_eq_true_iff,
    decide_eq_true_iff]

/-- A scalar is aligned by its size. -/
theorem unaligned_scalar {offset : ℕ} {type : DCsigchar} (htype : type.fieldSize = some f.size)
    (halign : f.alignment = f.size) : unaligned offset f = true ↔ ¬ f.size ∣ offset := by
  have hsizes : f.size = 2 ^ 0 ∨ f.size = 2 ^ 1 ∨ f.size = 2 ^ 2 ∨ f.size = 2 ^ 3 := by
    cases type <;> simp_all [DCsigchar.fieldSize]
  have hpow : ∀ k, f.size = 2 ^ k → (unaligned offset f = true ↔ ¬ f.size ∣ offset) := by
    intro k hk
    have hpos : 0 < 2 ^ k := Nat.two_pow_pos k
    rw [unaligned, halign, hk, Nat.and_two_pow_sub_one_eq_mod, Nat.dvd_iff_mod_eq_zero]
    simp
  rcases hsizes with h | h | h | h
  · exact hpow 0 h
  · exact hpow 1 h
  · exact hpow 2 h
  · exact hpow 3 h

theorem natural_dvd {n k : ℕ} (hn : Natural n) (hk : Natural k) (hle : n ≤ k) :
    n = 0 ∨ n ∣ k := by
  unfold Natural at hn hk
  rcases hn with rfl | rfl | rfl | rfl | rfl <;> rcases hk with rfl | rfl | rfl | rfl | rfl <;>
    first | decide | exact absurd hle (by decide)

/-- An aggregate that is found is aligned. -/
theorem unaligned_aggregate {offset : ℕ} (halign : Natural f.alignment)
    (hfound : Found f a offset) : unaligned offset f = false := by
  have hdvd : f.alignment = 0 ∨ f.alignment ∣ offset := by
    obtain h8 | ⟨-, -, -, h⟩ := hfound
    · refine (natural_dvd halign (k := 8) (by decide) ?_).imp_right fun h => h.trans h8
      unfold Natural at halign
      omega
    · exact h
  have hpow : ∀ i, f.alignment = 2 ^ i → unaligned offset f = false := by
    intro i h
    have hmod : offset % 2 ^ i = 0 := by
      rcases hdvd with h' | h'
      · exact absurd (h ▸ h') (Nat.two_pow_pos i).ne'
      · exact Nat.mod_eq_zero_of_dvd (h ▸ h')
    rw [unaligned, h, Nat.and_two_pow_sub_one_eq_mod, hmod]
    simp
  rcases halign with h | h | h | h | h
  · rw [unaligned, h]
    rfl
  · exact hpow 0 h
  · exact hpow 1 h
  · exact hpow 2 h
  · exact hpow 3 h

/-! ### The elements of an array -/

section Elements

theorem firstElement_eq {o : ℕ} (h8 : 8 ∣ o) (hindex : index < 2) (hlo : o < index * 8 + 8) :
    firstElement index o f = ((index * 8 - o) / f.size : ℕ) := by
  have hle : o ≤ index * 8 := by omega
  have hcast : (index : ℤ) * 8 - o = (index * 8 - o : ℕ) := by
    push_cast [hle]
    rfl
  have hquot := Nat.div_le_self (index * 8 - o) f.size
  rw [firstElement, hcast, dcSize_natCast (by omega), cint_natCast (by omega)]

variable {o : ℕ} (h8 : 8 ∣ o) (hsize : 0 < f.size) (hfit : o + f.size * f.arrayLen ≤ 16)
  (hindex : index < 2) (hlo : o < index * 8 + 8)

include h8 hsize hfit hindex hlo

theorem lastElement_eq : lastElement index o f =
    (min f.arrayLen (8 / f.size + (index * 8 - o) / f.size + 1) : ℕ) := by
  have hquot := Nat.div_le_self (index * 8 - o) f.size
  have hquot' := Nat.div_le_self 8 f.size
  have hlen : f.arrayLen ≤ f.size * f.arrayLen := Nat.le_mul_of_pos_left _ hsize
  have hcast : ((8 / f.size : ℕ) : ℤ) + firstElement index o f + 1 =
      (8 / f.size + (index * 8 - o) / f.size + 1 : ℕ) := by
    rw [firstElement_eq h8 hindex hlo]
    push_cast
    rfl
  unfold lastElement
  dsimp only
  rw [hcast, dcSize_natCast (by omega), cint_natCast (by omega), dcSize_natCast (by omega)]
  split
  · rw [cint_natCast (by omega), min_eq_left (by omega)]
  · rw [min_eq_right (by omega)]

/-- An element that is not walked does not reach into the eightbyte. -/
theorem not_walked {j : ℕ} (hj : j < f.arrayLen)
    (hwalk : j < (index * 8 - o) / f.size ∨ 8 / f.size + (index * 8 - o) / f.size + 1 ≤ j) :
    index * 8 + 8 ≤ o + f.size * j ∨ o + f.size * j + f.size ≤ index * 8 := by
  have hlast : f.size * (j + 1) ≤ f.size * f.arrayLen := Nat.mul_le_mul_left _ hj
  rw [Nat.mul_succ] at hlast
  have hstart : f.size * ((index * 8 - o) / f.size) ≤ index * 8 - o := Nat.mul_div_le _ _
  have hnext : 8 < f.size * (8 / f.size + 1) := Nat.lt_mul_div_succ 8 hsize
  rcases hwalk with hwalk | hwalk
  · have hle : f.size * (j + 1) ≤ f.size * ((index * 8 - o) / f.size) :=
      Nat.mul_le_mul_left _ hwalk
    rw [Nat.mul_succ] at hle
    omega
  · left
    have hle : f.size * (8 / f.size + (index * 8 - o) / f.size + 1) ≤ f.size * j :=
      Nat.mul_le_mul_left _ hwalk
    rcases Nat.lt_or_ge o (index * 8) with hbefore | hfrom
    · -- the array begins with the eightbyte before: it has no room for the element
      have ho : o = 0 ∧ index * 8 = 8 := by omega
      rw [ho.1, ho.2, Nat.sub_zero] at hle
      rw [Nat.mul_add, Nat.mul_one] at hnext
      rw [Nat.mul_add, Nat.mul_add, Nat.mul_one] at hle
      omega
    · rw [Nat.sub_eq_zero_of_le hfrom, Nat.zero_div, Nat.add_zero] at hle
      omega

/-- **The walk over an array** finds what the elements have that reach into the eightbyte. -/
theorem classForField_aggregate (hagg : f.type = .aggregate) {g : ℕ → SysvClass}
    (hg : ∀ j < f.arrayLen, dc_get_sysv_class_for_8byte index a (o + f.size * j : ℕ) = g j)
    (hout : ∀ j < f.arrayLen,
      index * 8 + 8 ≤ o + f.size * j ∨ o + f.size * j + f.size ≤ index * 8 → g j = ⊥)
    {c : SysvClass} : classForField index o f (some a) ≤ c ↔ ∀ j < f.arrayLen, g j ≤ c := by
  have hfirst := firstElement_eq (f := f) h8 hindex hlo
  have hlast := lastElement_eq h8 hsize hfit hindex hlo
  have hlen : f.arrayLen ≤ f.size * f.arrayLen := Nat.le_mul_of_pos_left _ hsize
  have hcount : (lastElement index o f - firstElement index o f).toNat =
      min f.arrayLen (8 / f.size + (index * 8 - o) / f.size + 1) - (index * 8 - o) / f.size := by
    rw [hfirst, hlast]
    omega
  have helement : ∀ j < f.arrayLen, elementOffset o f j = (o + f.size * j : ℕ) := fun j hj => by
    have hle : f.size * j ≤ f.size * f.arrayLen := Nat.mul_le_mul_left _ hj.le
    have hcast : (o : ℤ) + f.size * j = (o + f.size * j : ℕ) := by
      push_cast
      rfl
    rw [elementOffset, hcast, dcSize_natCast (by omega), cint_natCast (by omega)]
  rw [classForField, if_pos hagg, if_neg hsize.ne']
  dsimp only
  rw [hcount, foldl_merge_le_iff, hfirst]
  constructor
  · rintro ⟨-, hwalked⟩ j hj
    by_cases hin : (index * 8 - o) / f.size ≤ j ∧ j < 8 / f.size + (index * 8 - o) / f.size + 1
    · have := hwalked (j - (index * 8 - o) / f.size) (by omega)
      have hsum : (((index * 8 - o) / f.size : ℕ) : ℤ) +
          (j - (index * 8 - o) / f.size : ℕ) = j := by omega
      rwa [hsum, helement j hj, hg j hj] at this
    · rw [hout j hj (not_walked h8 hsize hfit hindex hlo hj (by omega))]
      exact bot_le
  · refine fun hall => ⟨bot_le, fun i hi => ?_⟩
    have hj : (index * 8 - o) / f.size + i < f.arrayLen := by omega
    have hsum : (((index * 8 - o) / f.size : ℕ) : ℤ) + i =
        ((index * 8 - o) / f.size + i : ℕ) := by
      push_cast
      rfl
    rw [hsum, helement _ hj, hg _ hj]
    exact hall _ hj

end Elements

/-! ### A union within an eightbyte -/

section Union

/-- Nothing of a union that begins before the struct is in an eightbyte of it. -/
theorem classForFields_before {b : ℤ} (hlo : -8 ≤ b) (hhi : b < 0) :
    ∀ {fields : List (DCfield × Option DCaggr)} {clz : SysvClass},
    (∀ e ∈ fields, e.1.offset = 0) → classForFields 0 fields b clz = clz
  | [], _, _ => by rw [classForFields]
  | (f, sub) :: rest, clz, h => by
    obtain ⟨hf, hrest⟩ := List.forall_mem_cons.mp h
    have hf' : f.offset = 0 := hf
    have hwrapped : 8 ≤ dcSize (b + f.offset) := by
      rw [hf', add_zero]
      simp only [dcSize, CIntType.wrap, culong, CIntType.minValue, CIntType.card,
        Bool.false_eq_true, if_false]
      omega
    have hout : outsideEightbyte 0 (dcSize (b + f.offset)) f = true := by
      rw [outsideEightbyte, Bool.or_eq_true, decide_eq_true_iff]
      exact Or.inl hwrapped
    rw [classForFields_cons, if_pos hout]
    exact classForFields_before hlo hhi hrest

variable {o : ℕ} (hsize : f.size = 8) (hlen : f.arrayLen = 1) (ho : 0 < o) (ho' : o < 8)

include hsize ho ho'

/-- The element to start with is the one before the union, by a difference that wraps. -/
theorem firstElement_union : firstElement 0 o f = -1 ∧ firstElement 1 o f = 0 := by
  unfold firstElement
  rw [hsize]
  have hcases : o = 1 ∨ o = 2 ∨ o = 3 ∨ o = 4 ∨ o = 5 ∨ o = 6 ∨ o = 7 := by omega
  rcases hcases with rfl | rfl | rfl | rfl | rfl | rfl | rfl <;> decide

include hlen

theorem lastElement_union : lastElement 0 o f = 1 ∧ lastElement 1 o f = 1 := by
  obtain ⟨hzero, hone⟩ := firstElement_union hsize ho ho'
  unfold lastElement
  rw [hzero, hone, hsize, hlen]
  decide

/-- **The walk over a union that begins within an eightbyte** starts with the element before it, and
finds the union. -/
theorem classForField_union (hagg : f.type = .aggregate) (hzero : ∀ e ∈ a.fields, e.1.offset = 0)
    (hindex : index < 2) :
    classForField index o f (some a) = dc_get_sysv_class_for_8byte index a o := by
  obtain ⟨hfirst, hfirst'⟩ := firstElement_union hsize ho ho'
  obtain ⟨hlast, hlast'⟩ := lastElement_union hsize hlen ho ho'
  have helement : ∀ j : ℤ, -1 ≤ j → j ≤ 0 → elementOffset o f j = o + 8 * j := by
    intro j hlo hhi
    unfold elementOffset
    rw [hsize]
    simp only [dcSize, CIntType.wrap, culong, cint, CIntType.minValue, CIntType.card,
      Bool.false_eq_true, if_false, if_true]
    omega
  have hbefore : dc_get_sysv_class_for_8byte 0 a (o + 8 * (-1)) = .none := by
    cases a with
    | mk n alignment fields =>
      rw [dc_get_sysv_class_for_8byte]
      exact classForFields_before (by omega) (by omega) hzero
  rw [classForField, if_pos hagg, if_neg (by omega)]
  dsimp only
  obtain rfl | rfl : index = 0 ∨ index = 1 := by omega
  · rw [hfirst, hlast, show ((1 : ℤ) - -1).toNat = 2 by decide, List.range_succ, List.range_one,
      List.foldl_concat, List.foldl_cons, List.foldl_nil, helement _ (by decide) (by decide),
      helement _ (by decide) (by decide), show (-1 : ℤ) + (0 : ℕ) = -1 by decide, hbefore,
      show (-1 : ℤ) + (1 : ℕ) = 0 by decide, mul_zero, add_zero]
    rfl
  · rw [hfirst', hlast', show ((1 : ℤ) - 0).toNat = 1 by decide, List.range_one, List.foldl_cons,
      List.foldl_nil, helement _ (by decide) (by decide), show (0 : ℤ) + (0 : ℕ) = 0 by decide,
      mul_zero, add_zero]
    rfl

end Union

end Walk

/-! ## The class of an eightbyte -/

section Eightbyte

variable {index : ℕ}

mutual

/-- **The class that the walk finds is that of the convention**, where nested aggregates begin with
an eightbyte and everything lies within sixteen bytes. -/
theorem class_eq (hindex : index < 2) : ∀ {a : DCaggr} {base : ℕ}, BuiltUp a → Placed a base →
    base + a.size ≤ 16 →
      dc_get_sysv_class_for_8byte index a base = sysvClass index (leavesIn a base)
  | .mk n _ fields, base, hb, hp, hfit => by
    rw [BuiltUp] at hb
    rw [Placed] at hp
    rw [dc_get_sysv_class_for_8byte, leavesIn,
      classForFields_eq hindex hb.2 hp hfit]
    exact max_eq_right bot_le

theorem classForFields_eq (hindex : index < 2) :
    ∀ {fields : List (DCfield × Option DCaggr)} {n base : ℕ} {clz : SysvClass},
    builtFields fields → placedFields n fields base → base + n ≤ 16 →
      classForFields index fields base clz = max clz (sysvClass index (leavesOf fields base))
  | [], _, _, clz, _, _, _ => by
    rw [classForFields, leavesOf]
    exact (max_eq_left bot_le).symm
  | (f, sub) :: rest, n, base, clz, hb, hp, hfit => by
    rw [builtFields.eq_def] at hb
    rw [placedFields.eq_def] at hp
    obtain ⟨hkind, hbs⟩ := hb
    obtain ⟨⟨hoffset, -, hwithin, hsub⟩, hps⟩ := hp
    have hrest : ∀ clz, classForFields index rest base clz =
        max clz (sysvClass index (leavesOf rest base)) := fun clz =>
      classForFields_eq hindex hbs hps hfit
    have hout := @outsideEightbyte_iff index f (base + f.offset.toNat)
      (by omega)
    rw [classForFields_cons, dcSize_offset hoffset (by omega)]
    by_cases hagg : f.type = .aggregate
    · rw [if_pos hagg] at hkind
      cases sub with
      | none => exact hkind.elim
      | some a =>
        obtain ⟨hsize, halign, hba⟩ := hkind
        obtain ⟨hpos, hfound, hplaced⟩ := hsub hagg
        have hnatural : Natural f.alignment := halign ▸ natural_alignment hba
        have helement : ∀ j < f.arrayLen, base + f.offset.toNat + f.size * j + a.size ≤
            base + f.offset.toNat + f.size * f.arrayLen := fun j hj => by
          have hlast : f.size * (j + 1) ≤ f.size * f.arrayLen := Nat.mul_le_mul_left _ hj
          rw [Nat.mul_succ] at hlast
          omega
        have hleaves := fun j hj => leaves_within hba (hplaced j hj)
        rw [leavesOf_aggregate hagg, sysvClass_append, ← max_assoc]
        by_cases houtside : outsideEightbyte index (base + f.offset.toNat) f = true
        · have harray : ∀ l ∈ (List.range f.arrayLen).flatMap fun j =>
              leavesIn a (base + f.offset.toNat + f.size * j), base + f.offset.toNat ≤ l.offset ∧
                l.stop ≤ base + f.offset.toNat + f.size * f.arrayLen := fun l hl => by
            obtain ⟨j, hj, hl⟩ := List.mem_flatMap.mp hl
            rw [List.mem_range] at hj
            have := hleaves j hj l hl
            have := helement j hj
            omega
          rw [if_pos houtside, hrest, sysvClass_outside harray (hout.mp houtside),
            max_eq_left (b := (⊥ : SysvClass)) bot_le]
        · have hin := mt hout.mpr houtside
          have hwalk : ∀ c, classForField index (base + f.offset.toNat) f (some a) ≤ c ↔
              ∀ j < f.arrayLen,
                sysvClass index (leavesIn a (base + f.offset.toNat + f.size * j)) ≤ c := by
            intro c
            have heach := fun j (hj : j < f.arrayLen) =>
              class_eq hindex hba (hplaced j hj) (by have := helement j hj; omega)
            by_cases h8 : 8 ∣ base + f.offset.toNat
            · exact classForField_aggregate h8 hpos (by omega) hindex (by omega) hagg heach
                fun j hj h => sysvClass_outside (hleaves j hj) (by omega)
            · obtain ⟨height, hlen, hzero, -⟩ := hfound.resolve_left h8
              have hspan : f.size * f.arrayLen = 8 := by rw [height, hlen]
              have hunion := heach 0 (by omega)
              rw [Nat.mul_zero, Nat.add_zero] at hunion
              rw [classForField_union height hlen (by omega) (by omega) hagg hzero hindex, hunion,
                hlen]
              refine ⟨fun h j hj => ?_, fun h => h 0 Nat.one_pos⟩
              obtain rfl := Nat.lt_one_iff.mp hj
              exact h
          rw [if_neg houtside, unaligned_aggregate hnatural hfound, if_neg Bool.false_ne_true,
            hrest]
          congr 2
          refine eq_of_forall_le fun c => ?_
          rw [hwalk, sysvClass_le_iff]
          simp only [sysvClass_le_iff, List.mem_flatMap, List.mem_range]
          exact ⟨fun h l ⟨j, hj, hl⟩ => h j hj l hl, fun h j hj l hl => h l ⟨j, hj, hl⟩⟩
    · rw [if_neg hagg] at hkind
      rw [leavesOf_scalar hagg, sysvClass_cons, ← max_assoc, classForField_scalar hagg]
      by_cases houtside : outsideEightbyte index (base + f.offset.toNat) f = true
      · rw [if_pos houtside, hrest, gives_eq_bot, max_eq_left (b := (⊥ : SysvClass)) bot_le]
        rintro ⟨h1, h2⟩
        have := hout.mp houtside
        simp only [Leaf.stop] at h1 h2
        omega
      · have hin := mt hout.mpr houtside
        have halign := @unaligned_scalar f (base + f.offset.toNat) _ hkind.1 hkind.2
        rw [if_neg houtside, gives_eq ⟨by dsimp only; omega, by simp only [Leaf.stop]; omega⟩]
        by_cases hdvd : f.size ∣ base + f.offset.toNat
        · rw [if_neg (mt halign.mp (not_not.mpr hdvd)), hrest, if_pos hdvd]
        · rw [if_pos (halign.mpr hdvd), if_neg hdvd, max_eq_right (le_memory clz),
            max_eq_left (le_memory _)]

end

/-- A struct of three integers that begins within the eightbyte is not found: the class should be
that of the first. -/
example : dc_get_sysv_class_for_8byte 0 (.mk 16 4 [(⟨0, 4, 4, 1, .float⟩, none),
    (⟨4, 12, 4, 1, .aggregate⟩, some (.mk 12 4 [(⟨0, 4, 4, 1, .int⟩, none),
      (⟨4, 4, 4, 1, .int⟩, none), (⟨8, 4, 4, 1, .int⟩, none)]))]) 0 = .sse := by decide

end Eightbyte

/-! ## Closed descriptors -/

section Closed

variable {a : DCaggr}

theorem fieldSize_spec {c : DCsigchar} {n : ℕ} (h : c.fieldSize = some n) :
    n ∣ 8 ∧ (c.sysvClass = .integer ∨ c.sysvClass = .sse ∧ (n = 4 ∨ n = 8)) := by
  cases c with
  | void | aggregate => cases h
  | _ =>
    obtain rfl := Option.some.inj h
    decide

mutual

/-- What the scalars of a descriptor can be. -/
theorem leaves_sized : ∀ {a : DCaggr} {base : ℕ}, BuiltUp a → ∀ l ∈ leavesIn a base,
    l.size ∣ 8 ∧ (l.clz = .integer ∨ l.clz = .sse ∧ (l.size = 4 ∨ l.size = 8))
  | .mk _ _ fields, base, hb, l, hl => by
    rw [leavesIn] at hl
    rw [BuiltUp] at hb
    exact leavesOf_sized hb.2 l hl

theorem leavesOf_sized : ∀ {fields : List (DCfield × Option DCaggr)} {base : ℕ},
    builtFields fields → ∀ l ∈ leavesOf fields base,
      l.size ∣ 8 ∧ (l.clz = .integer ∨ l.clz = .sse ∧ (l.size = 4 ∨ l.size = 8))
  | [], _, _, l, hl => by
    rw [leavesOf] at hl
    cases hl
  | (f, sub) :: rest, base, hb, l, hl => by
    rw [builtFields.eq_def] at hb
    obtain ⟨hkind, hbs⟩ := hb
    by_cases hagg : f.type = .aggregate
    · rw [if_pos hagg] at hkind
      cases sub with
      | none => exact hkind.elim
      | some a =>
        rw [leavesOf_aggregate hagg, List.mem_append, List.mem_flatMap] at hl
        obtain ⟨j, -, hl⟩ | hl := hl
        · exact leaves_sized hkind.2.2 l hl
        · exact leavesOf_sized hbs l hl
    · rw [if_neg hagg] at hkind
      rw [leavesOf_scalar hagg] at hl
      rcases List.mem_cons.mp hl with rfl | hl
      · exact fieldSize_spec hkind.1
      · exact leavesOf_sized hbs l hl

end

/-- The classes that are written, of a descriptor that may be passed in registers. -/
theorem dcCloseAggr_registers (hregular : Regular a) (hmem : (dcCloseAggr a).inMemory = false) :
    a.size ≤ 16 ∧ (dcCloseAggr a).sysv_classes =
        [sysvClass 0 (leavesIn a 0), sysvClass 1 (leavesIn a 0), .none] ∧
      sysvClass 0 (leavesIn a 0) ≠ .memory ∧ sysvClass 1 (leavesIn a 0) ≠ .memory := by
  unfold dcCloseAggr dc_get_sysv_classes_for_aggr SysvAggr.inMemory at hmem
  unfold dcCloseAggr dc_get_sysv_classes_for_aggr
  dsimp only at hmem ⊢
  by_cases hsize : 16 < a.size
  · rw [if_pos hsize] at hmem
    cases hmem
  · rw [if_neg hsize] at hmem ⊢
    have hclass : ∀ index < 2,
        dc_get_sysv_class_for_8byte index a 0 = sysvClass index (leavesIn a 0) := by
      intro index hindex
      have := class_eq hindex hregular.built hregular.placed (by omega)
      rwa [Nat.cast_zero] at this
    rw [hclass 0 (by decide), hclass 1 (by decide)] at hmem ⊢
    by_cases hfirst : sysvClass 0 (leavesIn a 0) = .memory
    · rw [if_pos hfirst] at hmem
      cases hmem
    · rw [if_neg hfirst] at hmem ⊢
      by_cases hsecond : sysvClass 1 (leavesIn a 0) = .memory
      · rw [if_pos hsecond] at hmem
        cases hmem
      · rw [if_neg hsecond]
        exact ⟨not_lt.mp hsize, rfl, hfirst, hsecond⟩

/-- A scalar that gives an eightbyte its class. -/
theorem exists_gives {index : ℕ} {ls : List Leaf} (h : sysvClass index ls ≠ ⊥) :
    ∃ l ∈ ls, l.Reaches index ∧ l.gives index ≠ ⊥ ∧ l.gives index ≤ sysvClass index ls := by
  have hsome : ∃ l ∈ ls, l.gives index ≠ ⊥ := by
    by_contra hnone
    push Not at hnone
    exact h (le_bot_iff.mp (sysvClass_le_iff.mpr fun l hl => (hnone l hl).le))
  obtain ⟨l, hl, hgives⟩ := hsome
  refine ⟨l, hl, ?_, hgives, sysvClass_le_iff.mp le_rfl l hl⟩
  by_contra hreach
  exact hgives (gives_eq_bot hreach)

/-- A floating eightbyte is as long as a double, or as a float. -/
theorem sse_eightbyte (hregular : Regular a) {index : ℕ}
    (hclass : sysvClass index (leavesIn a 0) = .sse) :
    8 * index + 8 ≤ a.size ∨ 8 * index + 4 = a.size := by
  obtain ⟨l, hl, hreach, hne, hle⟩ := exists_gives (h := by rw [hclass]; decide)
  rw [hclass] at hle
  have hstop := (leaves_within hregular.built hregular.placed l hl).2
  have hpadded := hregular.padded l hl
  rw [gives_eq hreach] at hle hne
  by_cases hdvd : l.size ∣ l.offset
  · rw [if_pos hdvd] at hle
    have hsize : l.size = 4 ∨ l.size = 8 := by
      rcases (leaves_sized hregular.built l hl).2 with h | ⟨-, h⟩
      · rw [h] at hle
        exact absurd hle (by decide)
      · exact h
    obtain ⟨hlo, hhi⟩ := hreach
    rcases hsize with h | h
    · rw [h] at hpadded
      obtain ⟨k, hk⟩ := hpadded
      omega
    · rw [h] at hdvd
      obtain ⟨k, hk⟩ := hdvd
      have hspan : l.stop = 8 * k + 8 * l.count := by rw [Leaf.stop, hk, h]
      omega
  · rw [if_neg hdvd] at hle
    exact absurd hle (by decide)

/-- The eightbytes that are passed, by their classes. -/
theorem eightbytes_of_classes {ag : SysvAggr} {c c' : SysvClass}
    (h : ag.sysv_classes = [c, c', .none]) :
    ag.eightbytes = if c = ⊥ then [] else if c' = ⊥ then [c] else [c, c'] := by
  rw [SysvAggr.eightbytes, h]
  cases c <;> cases c' <;> rfl

/-- **A closed descriptor can be used** by both sides of a call. -/
theorem proper_of_regular (hregular : Regular a) (hmem : (dcCloseAggr a).inMemory = false) :
    SysvAggr.Proper (dcCloseAggr a) := by
  obtain ⟨hsize, hclasses, hfirst, hsecond⟩ := dcCloseAggr_registers hregular hmem
  have heightbytes := eightbytes_of_classes hclasses
  have heach : ∀ i c, (dcCloseAggr a).eightbytes[i]? = some c →
      c = sysvClass i (leavesIn a 0) ∧ c ≠ ⊥ ∧ c ≠ .memory := by
    intro i c hi
    rw [heightbytes] at hi
    split at hi
    · cases hi
    · rename_i hne
      split at hi
      · match i, hi with
        | 0, hi =>
          obtain rfl := Option.some.inj hi
          exact ⟨rfl, hne, hfirst⟩
      · rename_i hne'
        match i, hi with
        | 0, hi =>
          obtain rfl := Option.some.inj hi
          exact ⟨rfl, hne, hfirst⟩
        | 1, hi =>
          obtain rfl := Option.some.inj hi
          exact ⟨rfl, hne', hsecond⟩
  refine ⟨hsize, fun i hi => ?_, fun i c hi => ?_⟩
  · obtain ⟨hc, hne, -⟩ := heach i _ (List.getElem?_eq_getElem hi)
    obtain ⟨l, hl, hreach, -⟩ := @exists_gives i (leavesIn a 0) (by rwa [← hc])
    have hstop := (leaves_within hregular.built hregular.placed l hl).2
    obtain ⟨-, hhi⟩ := hreach
    show 8 * i < a.size
    omega
  · obtain ⟨hc, hne, hmemory⟩ := heach i c hi
    cases c with
    | none => exact absurd rfl hne
    | memory => exact absurd rfl hmemory
    | integer => exact Or.inl rfl
    | sse => exact Or.inr ⟨rfl, sse_eightbyte hregular hc.symm⟩

/-- Every byte of a scalar is in an eightbyte that is passed. -/
theorem covered_of_regular (hregular : Regular a) (hmem : (dcCloseAggr a).inMemory = false)
    {l : Leaf} (hl : l ∈ leavesIn a 0) {x : ℕ} (hlo : l.offset ≤ x) (hhi : x < l.stop) :
    x / 8 < (dcCloseAggr a).eightbytes.length := by
  obtain ⟨hsize, hclasses, -, -⟩ := dcCloseAggr_registers hregular hmem
  have hne : ∀ index, (∃ l ∈ leavesIn a 0, l.Reaches index) →
      sysvClass index (leavesIn a 0) ≠ ⊥ := by
    rintro index ⟨l, hl, hreach⟩ hbot
    have hle := sysvClass_le_iff.mp hbot.le l hl
    rw [gives_eq hreach] at hle
    split at hle
    · rcases (leaves_sized hregular.built l hl).2 with h | ⟨h, -⟩ <;>
        exact absurd hle (by rw [h]; decide)
    · exact absurd hle (by decide)
  have hfirst := hne 0 (hregular.begins (List.ne_nil_of_mem hl))
  have hstop := (leaves_within hregular.built hregular.placed l hl).2
  rw [eightbytes_of_classes hclasses, if_neg hfirst]
  by_cases hx : x < 8
  · split <;> simp only [List.length_cons] <;> omega
  · have hsecond := hne 1 ⟨l, hl, by omega, by omega⟩
    rw [if_neg hsecond]
    simp only [List.length_cons, List.length_nil]
    omega

/-! ## Arguments -/

variable {mem mem₀ : ℕ → UInt8} {base total : ℕ}

theorem takeable_of_carries {arg : DCArg} {p : Passed} (h : CarriedAs mem base total arg p) :
    p.Takeable base total := by
  cases p with
  | word x => trivial
  | float upper x => trivial
  | double x => trivial
  | aggr ag x target =>
    cases arg with
    | aggr a bytes =>
      obtain ⟨hregular, rfl, -, hapart⟩ := h
      exact ⟨proper_of_regular hregular, hapart⟩
    | _ => exact h.elim

/-- What arrives of an argument is the argument. -/
theorem received_of_arrives {arg : DCArg} {p : Passed} {b : Got}
    (h : CarriedAs mem base total arg p) (hb : Arrives mem p b) : Received arg b := by
  cases p with
  | word x =>
    cases arg with
    | int v =>
      obtain rfl := h
      cases b with
      | word y => exact hb
      | _ => exact hb.elim
    | _ => exact h.elim
  | float upper x =>
    cases arg with
    | float bits =>
      obtain rfl := h
      cases b with
      | float y => exact hb
      | _ => exact hb.elim
    | _ => exact h.elim
  | double x =>
    cases arg with
    | double bits =>
      obtain rfl := h
      cases b with
      | double y => exact hb
      | _ => exact hb.elim
    | _ => exact h.elim
  | aggr ag x target =>
    cases arg with
    | aggr a bytes =>
      obtain ⟨hregular, rfl, rfl, -⟩ := h
      cases b with
      | aggr got =>
        obtain ⟨hlen, hbytes⟩ := hb
        refine ⟨hlen, fun l hl k hlo hhi => ?_⟩
        have hk : k < a.size := by
          have := (leaves_within hregular.built hregular.placed l hl).2
          omega
        rw [getElem?_slice hk]
        refine hbytes k hk ?_
        cases hmem : (dcCloseAggr a).inMemory with
        | true => exact Or.inl rfl
        | false => exact Or.inr (covered_of_regular hregular hmem hl hlo hhi)
      | _ => exact hb.elim
    | _ => exact h.elim

theorem forall_takeable {args : List DCArg} {ps : List Passed}
    (h : List.Forall₂ (CarriedAs mem base total) args ps) : ∀ p ∈ ps, p.Takeable base total := by
  induction h with
  | nil => exact List.forall_mem_nil _
  | cons harg _ ih => exact List.forall_mem_cons.mpr ⟨takeable_of_carries harg, ih⟩

theorem forall₂_received {args : List DCArg} {ps : List Passed} {bs : List Got}
    (h : List.Forall₂ (CarriedAs mem base total) args ps) (hbs : List.Forall₂ (Arrives mem) ps bs) :
    List.Forall₂ Received args bs := by
  induction h generalizing bs with
  | nil =>
    cases hbs
    exact .nil
  | cons harg _ ih =>
    cases hbs with
    | cons hb hbs => exact .cons (received_of_arrives harg hb) (ih hbs)

/-- **What a call is made with is what the callback receives**: the arguments of the abstract
machine go through the concrete one, both kernels and the readers, with their order and their
values, and of every struct each scalar. -/
theorem arguments_received {args : List DCArg} {ps : List Passed} {vm : DCCallVM_x64}
    {result : Option (Option SysvAggr)} {sig : List Char} {m : Processor} {ra pcb ret : ℕ}
    {aggrsAt : ℕ → List (Option SysvAggr)}
    (hargs : List.Forall₂ (CarriedAs mem₀ (argumentsAt m) vm.mVecHead.mTotal) args ps)
    (hroom : (ps.map Passed.room).sum ≤ vm.mVecHead.mTotal)
    (hsig : Signs sig (descriptors ps) result)
    (hloaded : Loaded
      (((calling mem₀).puts ps (beginResult result vm, [])).1.withReturnAddress ret) m)
    (hcb : CallbackAt (dcbInitCallback2 sig (descriptors ps ++ result.toList)) aggrsAt m pcb)
    (hlimit : m.reg .rsp < 2 ^ 64) {p : DCArgs} {h : Processor} (hh : h = enterHandler m ra pcb)
    (hp : p = DCArgs.inMemory h.mem aggrsAt (h.reg .rsi)) :
    ∃ bs p' mem', (calling mem₀).takes (ps.map Passed.wanted) (p, h.mem) = some (bs, p', mem') ∧
      List.Forall₂ Received args bs ∧ p'.aggrs = result.toList ∧
      p'.reg_data = p.reg_data ∧ p'.aggr_return_register = p.aggr_return_register := by
  subst hh
  obtain ⟨bs, p', mem', htakes, hall, hrest⟩ :=
    call_carries hsig hroom (forall_takeable hargs) hloaded hcb hlimit hp
  exact ⟨bs, p', mem', htakes, forall₂_received hargs hall, hrest⟩

/-- Two integers in a struct of their own, and a double. -/
def mixedStruct : DCaggr :=
  .mk 16 8 [(⟨0, 8, 4, 1, .aggregate⟩,
      some (.mk 8 4 [(⟨0, 4, 4, 1, .int⟩, none), (⟨4, 4, 4, 1, .int⟩, none)])),
    (⟨8, 8, 8, 1, .double⟩, none)]

theorem mixedStruct_regular : Regular mixedStruct where
  built := ⟨by decide, ⟨rfl, rfl, by decide, ⟨rfl, rfl⟩, ⟨rfl, rfl⟩, trivial⟩, ⟨rfl, rfl⟩, trivial⟩
  placed := by
    refine ⟨⟨by decide, by decide, by decide, fun _ =>
      ⟨by decide, Or.inl (by decide), fun j hj => ?_⟩⟩,
      ⟨by decide, by decide, by decide, fun h => absurd h (by decide)⟩, trivial⟩
    obtain rfl := Nat.lt_one_iff.mp hj
    exact ⟨⟨by decide, by decide, by decide, fun h => absurd h (by decide)⟩,
      ⟨by decide, by decide, by decide, fun h => absurd h (by decide)⟩, trivial⟩
  padded := by decide
  begins _ := by decide

def countingMemory (x : ℕ) : UInt8 := UInt8.ofNat x

def manyArgs : List DCArg :=
  [.float 1, .int (-1), .int 2, .int 3, .int 4, .aggr mixedStruct (slice countingMemory 1000 16),
    .int 6]

/-- The address of a result and five integers take the registers, and one is left. -/
def manyPassed : List Passed :=
  [.float 9 1, .word (-1), .word 2, .word 3, .word 4, .aggr (dcCloseAggr mixedStruct) 1000 5000,
    .word 6]

/-- The kernel is called for them. -/
def manyCall : Processor where
  reg
    | .rdi => 8
    | .rsi => 10000
    | .rdx => 11000
    | .rcx => 12000
    | .rsp => 4000
    | _ => 0
  xmm _ := 0
  mem := storeWords (storeWords (storeWords (fun _ => 0) 10000 [6]) 11000
    [7000, 2 ^ 64 - 1, 2, 3, 4, loadWord countingMemory 1000]) 12000
    [1 + 2 ^ 32 * 9, loadWord countingMemory 1008]

def manyDescriptors (_ : ℕ) : List (Option SysvAggr) :=
  [some (dcCloseAggr mixedStruct), some largeAggr]

theorem arguments_received_many : ∃ bs p' mem', (calling countingMemory).takes
      (manyPassed.map Passed.wanted)
      (DCArgs.inMemory (enterHandler manyCall 0 13000).mem manyDescriptors
        ((enterHandler manyCall 0 13000).reg .rsi), (enterHandler manyCall 0 13000).mem) =
        some (bs, p', mem') ∧
      List.Forall₂ Received manyArgs bs ∧ p'.aggrs = [some largeAggr] := by
  have hreceived := @arguments_received countingMemory manyArgs manyPassed
    (DCCallVM_x64.dcNewCallVM 176 ⟨fun _ => 0, fun _ => 0⟩ fun _ => 0) (some (some largeAggr))
    ['f', 'i', 'i', 'i', 'i', 'A', 'i', ')', 'A'] manyCall 0 13000 7000 manyDescriptors
    ?_ (by decide) ⟨by decide, by decide, by decide⟩ ?_ ?_ (by decide) _ _ rfl rfl
  · obtain ⟨bs, p', mem', htakes, hall, hrest, -⟩ := hreceived
    exact ⟨bs, p', mem', htakes, hall, hrest⟩
  · exact .cons rfl (.cons rfl (.cons rfl (.cons rfl (.cons rfl (.cons
      ⟨mixedStruct_regular, rfl, rfl, Or.inr (by decide)⟩ (.cons rfl .nil))))))
  · refine ⟨by decide +kernel, by decide +kernel, by decide +kernel, by decide +kernel,
      by decide, ?_⟩
    unfold Untouched
    decide +kernel
  · refine ⟨by decide +kernel, rfl, ?_⟩
    unfold Untouched
    decide

end Closed

end Affix.Analysis
