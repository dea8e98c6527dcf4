import Affix.Interface.ArgumentPassing

/-!
# The arguments arrive

An argument leaves alone what has been put before it, wherever that was put. So once
all are put, a reader that has taken as many as the writer had put at some time finds
the next one where the writer put it, and is where the writer was afterwards.

SOURCE: dyncall_callvm_x64.c:80-203, dyncall_args_x64.c:33-149
-/

set_option autoImplicit false

namespace Affix.Analysis

open Affix.Foundation Affix.Model Affix.Interface DCCallVM_x64 DCVecHead

/-! ## What stays in the machine -/

/-- What was put into the machine `w` is still there in `e`. -/
structure Retained (w e : DCCallVM_x64) : Prop where
  returnReg : e.mAggrReturnReg = w.mAggrReturnReg
  total : e.mVecHead.mTotal = w.mVecHead.mTotal
  i_le : w.mRegCount.i ≤ e.mRegCount.i
  f_le : w.mRegCount.f ≤ e.mRegCount.f
  size_le : w.mVecHead.mSize ≤ e.mVecHead.mSize
  ints : ∀ j < w.mRegCount.i, e.mRegData.i j = w.mRegData.i j
  floats : ∀ j < w.mRegCount.f, e.mRegData.f j = w.mRegData.f j
  data : ∀ j < w.mVecHead.mSize, e.mVecHead.data j = w.mVecHead.data j

section Machine

variable {w w' e : DCCallVM_x64} {mem : ℕ → UInt8}

theorem Retained.refl (w : DCCallVM_x64) : Retained w w :=
  ⟨rfl, rfl, le_rfl, le_rfl, le_rfl, fun _ _ => rfl, fun _ _ => rfl, fun _ _ => rfl⟩

theorem Retained.trans (h : Retained w w') (h' : Retained w' e) : Retained w e where
  returnReg := h'.returnReg.trans h.returnReg
  total := h'.total.trans h.total
  i_le := h.i_le.trans h'.i_le
  f_le := h.f_le.trans h'.f_le
  size_le := h.size_le.trans h'.size_le
  ints j hj := (h'.ints j (hj.trans_le h.i_le)).trans (h.ints j hj)
  floats j hj := (h'.floats j (hj.trans_le h.f_le)).trans (h.floats j hj)
  data j hj := (h'.data j (hj.trans_le h.size_le)).trans (h.data j hj)

theorem le_skipReturnReg (i : ℕ) (r : ℤ) : i ≤ skipReturnReg i r := by
  unfold skipReturnReg
  split <;> omega

theorem skipReturnReg_ne (i : ℕ) (r : ℤ) : (skipReturnReg i r : ℤ) ≠ r := by
  unfold skipReturnReg
  split <;> omega

/-! ### The buffer -/

theorem append_of_room {vec : DCVecHead} {bs : List UInt8}
    (h : vec.mSize + bs.length ≤ vec.mTotal) :
    vec.dcVecAppend bs =
      ⟨vec.mTotal, vec.mSize + bs.length, Mem.overlay vec.data vec.mSize bs⟩ := by
  rw [dcVecAppend, if_pos h]

theorem mTotal_append (vec : DCVecHead) (bs : List UInt8) :
    (vec.dcVecAppend bs).mTotal = vec.mTotal := by
  unfold dcVecAppend
  split <;> rfl

theorem mSize_le_append (vec : DCVecHead) (bs : List UInt8) :
    vec.mSize ≤ (vec.dcVecAppend bs).mSize := by
  unfold dcVecAppend
  split
  · exact Nat.le_add_right _ _
  · exact le_rfl

/-- Nothing that is there is written over, whether there is room or not. -/
theorem data_append (vec : DCVecHead) (bs : List UInt8) {j : ℕ} (hj : j < vec.mSize) :
    (vec.dcVecAppend bs).data j = vec.data j := by
  unfold dcVecAppend
  split
  · exact overlay_of_outside (Or.inl hj)
  · rfl

/-! ### Each argument keeps what there is -/

theorem kept_longlong (x : ℤ) (w : DCCallVM_x64) : Retained w (w.dc_callvm_argLongLong_x64 x) := by
  have hle := le_skipReturnReg w.mRegCount.i w.mAggrReturnReg
  unfold dc_callvm_argLongLong_x64
  dsimp only
  split
  · refine ⟨rfl, rfl, hle.trans (Nat.le_succ _), le_rfl, le_rfl, fun j hj => ?_,
      fun _ _ => rfl, fun _ _ => rfl⟩
    exact Function.update_of_ne (hj.trans_le hle).ne _ _
  · exact ⟨rfl, mTotal_append _ _, hle, le_rfl, mSize_le_append _ _, fun _ _ => rfl,
      fun _ _ => rfl, fun _ hj => data_append _ _ hj⟩

theorem kept_double (x : ℕ) (w : DCCallVM_x64) : Retained w (w.dc_callvm_argDouble_x64 x) := by
  unfold dc_callvm_argDouble_x64
  dsimp only
  split
  · refine ⟨rfl, rfl, le_rfl, Nat.le_succ _, le_rfl, fun _ _ => rfl, fun j hj => ?_,
      fun _ _ => rfl⟩
    exact Function.update_of_ne hj.ne _ _
  · exact ⟨rfl, mTotal_append _ _, le_rfl, le_rfl, mSize_le_append _ _, fun _ _ => rfl,
      fun _ _ => rfl, fun _ hj => data_append _ _ hj⟩

theorem kept_eightbytes (x : ℕ) (cs : List SysvClass) :
    ∀ (i : ℕ) (w : DCCallVM_x64), Retained w (argEightbytes mem x i cs w) := by
  induction cs with
  | nil => exact fun i w => Retained.refl w
  | cons c cs ih =>
    intro i w
    cases c with
    | integer => exact (kept_longlong _ w).trans (ih _ _)
    | sse => exact (kept_double _ w).trans (ih _ _)
    | none => exact ih _ _
    | memory => exact ih _ _

theorem kept_aggr (ag : Option SysvAggr) (x : ℕ) (w : DCCallVM_x64) :
    Retained w (w.dc_callvm_argAggr_x64 mem ag x) := by
  cases ag with
  | none => exact kept_longlong _ w
  | some ag =>
    unfold dc_callvm_argAggr_x64
    dsimp only
    split
    · exact ⟨rfl, mTotal_append _ _, le_rfl, le_rfl,
        (mSize_le_append _ _).trans (Nat.le_add_right _ _), fun _ _ => rfl, fun _ _ => rfl,
        fun _ hj => data_append _ _ hj⟩
    · exact kept_eightbytes x _ 0 w

theorem kept_put (a : Passed) (w : DCCallVM_x64) : Retained w (a.put mem w) := by
  cases a with
  | word x => exact kept_longlong x w
  | float upper x => exact kept_double _ w
  | double x => exact kept_double x w
  | aggr ag x target => exact kept_aggr (some ag) x w

end Machine

/-! ## A reader in step -/

/-- The reader is where the writer was at `w`, and finds what there is in the end. -/
structure Abreast (base : ℕ) (e w : DCCallVM_x64) (p : DCArgs) (mem : ℕ → UInt8) : Prop where
  count : p.reg_count = w.mRegCount
  place : p.stack_ptr = base + w.mVecHead.mSize
  returnReg : ∀ i : ℕ, (i : ℤ) = p.aggr_return_register ↔ (i : ℤ) = w.mAggrReturnReg
  ints : ∀ i < numIntRegs, (i : ℤ) ≠ w.mAggrReturnReg → p.reg_data.i i = e.mRegData.i i
  floats : ∀ i < numFloatRegs, p.reg_data.f i = e.mRegData.f i
  stack : ∀ j < e.mVecHead.mSize, mem (base + j) = e.mVecHead.data j

section Reader

variable {base x : ℕ} {e w : DCCallVM_x64} {p : DCArgs} {mem mem' : ℕ → UInt8}

theorem Abreast.skip (h : Abreast base e w p mem) :
    skipReturnReg p.reg_count.i p.aggr_return_register =
      skipReturnReg w.mRegCount.i w.mAggrReturnReg := by
  unfold skipReturnReg
  rw [h.count]
  simp only [h.returnReg]

/-- What was appended is on the stack. -/
theorem Abreast.slice_append {bs : List UInt8} {w' : DCCallVM_x64} (h : Abreast base e w p mem)
    (hroom : w.mVecHead.mSize + bs.length ≤ w.mVecHead.mTotal)
    (hsize : (w.mVecHead.dcVecAppend bs).mSize ≤ w'.mVecHead.mSize)
    (hdata : w'.mVecHead.data = (w.mVecHead.dcVecAppend bs).data) (hkept : Retained w' e) :
    slice mem p.stack_ptr bs.length = bs := by
  rw [append_of_room hroom] at hsize hdata
  have hend := hkept.size_le
  dsimp only at hsize
  apply List.ext_getElem
  · exact length_slice _ _ _
  · intro i hi hi'
    have hbyte : mem (p.stack_ptr + i) = e.mVecHead.data (w.mVecHead.mSize + i) := by
      rw [h.place, Nat.add_assoc]
      exact h.stack _ (by omega)
    simp only [slice, List.getElem_map, List.getElem_range]
    rw [hbyte, hkept.data _ (by omega), hdata]
    exact overlay_of_inside hi'

/-- **An integer is found** where it was put. -/
theorem take_longlong (v : ℤ) (h : Abreast base e w p mem)
    (hkept : Retained (w.dc_callvm_argLongLong_x64 v) e)
    (hroom : skipReturnReg w.mRegCount.i w.mAggrReturnReg < numIntRegs ∨
      w.mVecHead.mSize + 8 ≤ w.mVecHead.mTotal) :
    (p.dcbArgLongLong mem).1 = clonglong.wrap v ∧
      Abreast base e (w.dc_callvm_argLongLong_x64 v) (p.dcbArgLongLong mem).2 mem := by
  have hskip := h.skip
  have hne := skipReturnReg_ne w.mRegCount.i w.mAggrReturnReg
  unfold dc_callvm_argLongLong_x64 at hkept ⊢
  unfold DCArgs.dcbArgLongLong
  dsimp only at hkept ⊢
  rw [hskip]
  generalize skipReturnReg w.mRegCount.i w.mAggrReturnReg = i at hkept hroom hne ⊢
  by_cases hi : i < numIntRegs
  · rw [if_pos hi] at hkept
    rw [if_pos hi, if_pos hi]
    refine ⟨?_, ?_, h.place, h.returnReg, h.ints, h.floats, h.stack⟩
    · have hreg := hkept.ints i (Nat.lt_succ_self i)
      dsimp only at hreg ⊢
      rw [h.ints i hi hne, hreg, Function.update_self]
    · dsimp only
      rw [h.count]
  · have hroom' := hroom.resolve_left hi
    have hlen : (clonglong.encode v).length = 8 := CIntType.length_encode _ _
    rw [if_neg hi] at hkept
    rw [if_neg hi, if_neg hi]
    have hslice := h.slice_append (by rw [hlen]; exact hroom') le_rfl rfl hkept
    rw [hlen] at hslice
    refine ⟨?_, ?_, ?_, h.returnReg, h.ints, h.floats, h.stack⟩
    · dsimp only
      rw [hslice, CIntType.decode_encode (by decide) rfl]
    · dsimp only
      rw [h.count]
    · dsimp only
      rw [append_of_room (by rw [hlen]; exact hroom'), hlen, h.place, Nat.add_assoc]

/-- **A floating number is found** where it was put. -/
theorem take_double (v : ℕ) (h : Abreast base e w p mem)
    (hkept : Retained (w.dc_callvm_argDouble_x64 v) e)
    (hroom : w.mRegCount.f < numFloatRegs ∨ w.mVecHead.mSize + 8 ≤ w.mVecHead.mTotal) :
    (p.dcbArgDouble mem).1 = v % 2 ^ 64 ∧
      Abreast base e (w.dc_callvm_argDouble_x64 v) (p.dcbArgDouble mem).2 mem := by
  unfold dc_callvm_argDouble_x64 at hkept ⊢
  unfold DCArgs.dcbArgDouble
  dsimp only at hkept ⊢
  have hcount : p.reg_count.f = w.mRegCount.f := by rw [h.count]
  rw [hcount]
  by_cases hf : w.mRegCount.f < numFloatRegs
  · rw [if_pos hf] at hkept
    rw [if_pos hf, if_pos hf]
    refine ⟨?_, ?_, h.place, h.returnReg, h.ints, h.floats, h.stack⟩
    · have hreg := hkept.floats _ (Nat.lt_succ_self _)
      dsimp only at hreg ⊢
      rw [h.floats _ hf, hreg, Function.update_self]
    · dsimp only
      rw [h.count]
  · have hroom' := hroom.resolve_left hf
    have hlen : (encodeLE 8 v).length = 8 := length_encodeLE _ _
    rw [if_neg hf] at hkept
    rw [if_neg hf, if_neg hf]
    have hslice := h.slice_append (by rw [hlen]; exact hroom') le_rfl rfl hkept
    rw [hlen] at hslice
    refine ⟨?_, h.count, ?_, h.returnReg, h.ints, h.floats, h.stack⟩
    · dsimp only
      rw [loadWord, hslice, decodeLE_encodeLE]
      norm_num
    · dsimp only
      rw [append_of_room (by rw [hlen]; exact hroom'), hlen, h.place, Nat.add_assoc]

theorem Abreast.memory (h : Abreast base e w p mem)
    (hsame : ∀ j < e.mVecHead.mSize, mem' (base + j) = mem (base + j)) :
    Abreast base e w p mem' :=
  ⟨h.count, h.place, h.returnReg, h.ints, h.floats, fun j hj => (hsame j hj).trans (h.stack j hj)⟩

theorem aggrs_longlong (mem : ℕ → UInt8) (p : DCArgs) :
    (p.dcbArgLongLong mem).2.aggrs = p.aggrs := by
  unfold DCArgs.dcbArgLongLong
  dsimp only
  split <;> rfl

theorem aggrs_double (mem : ℕ → UInt8) (p : DCArgs) :
    (p.dcbArgDouble mem).2.aggrs = p.aggrs := by
  unfold DCArgs.dcbArgDouble
  split <;> rfl

end Reader

/-! ## The eightbytes of a struct -/

section Eightbytes

variable {base size target x : ℕ} {e : DCCallVM_x64} {mem₀ : ℕ → UInt8}

theorem encode_decode_word {bs : List UInt8} (h : bs.length = 8) :
    clonglong.encode (clonglong.wrap (clonglong.decode bs)) = bs := by
  have hlt : decodeLE bs < 256 ^ 8 := h ▸ decodeLE_lt bs
  have hmod : clonglong.wrap (clonglong.decode bs) % clonglong.card = decodeLE bs := by
    have hcard : clonglong.card = 256 ^ 8 := by decide
    rw [CIntType.wrap_emod, CIntType.decode, CIntType.wrap_emod, hcard]
    exact Int.emod_eq_of_lt (Int.natCast_nonneg _) (by exact_mod_cast hlt)
  have hbytes := encodeLE_decodeLE bs
  rw [h] at hbytes
  rw [CIntType.encode, hmod, Int.toNat_natCast]
  exact hbytes

/-- A register that is used is counted. -/
theorem count_longlong {w : DCCallVM_x64} (v : ℤ)
    (hroom : skipReturnReg w.mRegCount.i w.mAggrReturnReg < numIntRegs) :
    (w.dc_callvm_argLongLong_x64 v).mRegCount =
        ⟨skipReturnReg w.mRegCount.i w.mAggrReturnReg + 1, w.mRegCount.f⟩ ∧
      (w.dc_callvm_argLongLong_x64 v).mAggrReturnReg = w.mAggrReturnReg := by
  unfold dc_callvm_argLongLong_x64
  dsimp only
  rw [if_pos hroom]
  exact ⟨rfl, rfl⟩

theorem count_double {w : DCCallVM_x64} (v : ℕ) (hroom : w.mRegCount.f < numFloatRegs) :
    (w.dc_callvm_argDouble_x64 v).mRegCount = ⟨w.mRegCount.i, w.mRegCount.f + 1⟩ ∧
      (w.dc_callvm_argDouble_x64 v).mAggrReturnReg = w.mAggrReturnReg := by
  unfold dc_callvm_argDouble_x64
  dsimp only
  rw [if_pos hroom]
  exact ⟨rfl, rfl⟩

theorem skipReturnReg_succ {i : ℕ} {r : ℤ} (hr : r ≤ 0) : skipReturnReg (i + 1) r = i + 1 := by
  unfold skipReturnReg
  rw [if_neg (by omega)]

/-- What is left of the struct from an eightbyte on. -/
theorem left_eq {i : ℕ} (hsize : size ≤ 16) (hi : 8 * i < size) :
    (2 ^ 64 + size - i * 8) % 2 ^ 64 = size - 8 * i := by
  omega

/-- The classes from an index on fit the struct. -/
def ClassesFit (size i : ℕ) (cs : List SysvClass) : Prop :=
  ∀ k c, cs[k]? = some c → 8 * (i + k) < size ∧
    (c = .integer ∨ c = .sse ∧ (8 * (i + k) + 8 ≤ size ∨ 8 * (i + k) + 4 = size))

theorem ClassesFit.tail {i : ℕ} {c : SysvClass} {cs : List SysvClass}
    (h : ClassesFit size i (c :: cs)) : ClassesFit size (i + 1) cs := by
  intro k c' hk
  have := h (k + 1) c' hk
  rwa [show i + (k + 1) = i + 1 + k by omega] at this

/-- The eightbytes of the struct from an index on have been written where they are wanted. -/
structure Refilled (mem₀ : ℕ → UInt8) (x target size i n : ℕ) (mem mem' : ℕ → UInt8) : Prop where
  bytes : ∀ j < size, 8 * i ≤ j → j < 8 * (i + n) → mem' (target + j) = mem₀ (x + j)
  frame : ∀ y, y < target + 8 * i ∨ target + size ≤ y → mem' y = mem y

/-- One eightbyte, and the others. -/
theorem Refilled.cons {i n : ℕ} {mem mem' : ℕ → UInt8} {bs : List UInt8}
    (hbs : bs = (slice mem₀ (x + 8 * i) 8).take (min 8 (size - 8 * i))) (hi : 8 * i < size)
    (h : Refilled mem₀ x target size (i + 1) n (Mem.overlay mem (target + 8 * i) bs) mem') :
    Refilled mem₀ x target size i (n + 1) mem mem' := by
  have hlen : bs.length = min 8 (size - 8 * i) := by
    rw [hbs, List.length_take, length_slice]
    omega
  refine ⟨fun j hj hlo hhi => ?_, fun y hy => ?_⟩
  · by_cases hnext : 8 * (i + 1) ≤ j
    · exact h.bytes j hj hnext (by omega)
    · have hin : j - 8 * i < bs.length := by omega
      rw [h.frame _ (by omega), show target + j = target + 8 * i + (j - 8 * i) by omega,
        overlay_of_inside hin]
      simp only [hbs, List.getElem_take, slice, List.getElem_map, List.getElem_range]
      rw [show x + 8 * i + (j - 8 * i) = x + j by omega]
  · rw [h.frame y (by omega), overlay_of_outside (by omega)]

/-- **The eightbytes are found** where they were put. -/
theorem take_eightbytes (hsmall : size ≤ 16)
    (hapart : target + size ≤ base ∨ base + e.mVecHead.mSize ≤ target) (cs : List SysvClass) :
    ∀ (i : ℕ) {w : DCCallVM_x64} {p : DCArgs} {mem : ℕ → UInt8}, Abreast base e w p mem →
      Retained (argEightbytes mem₀ x i cs w) e → w.mAggrReturnReg ≤ 0 →
      skipReturnReg w.mRegCount.i w.mAggrReturnReg + cs.count .integer ≤ numIntRegs →
      w.mRegCount.f + cs.count .sse ≤ numFloatRegs → ClassesFit size i cs →
      ∃ mem' p', DCArgs.takeEightbytes size target i cs mem p = some (mem', p') ∧
        Abreast base e (argEightbytes mem₀ x i cs w) p' mem' ∧
        Refilled mem₀ x target size i cs.length mem mem' ∧ p'.aggrs = p.aggrs := by
  induction cs with
  | nil =>
    intro i w p mem h _ _ _ _ _
    exact ⟨mem, p, rfl, h, ⟨fun j _ hlo hhi => by simp at hhi; omega, fun _ _ => rfl⟩, rfl⟩
  | cons c cs ih =>
    intro i w p mem h hkept hreg hints hfloats hfit
    obtain ⟨hi, hclass⟩ := hfit 0 c rfl
    rw [Nat.add_zero] at hi hclass
    have hsize : (if (2 ^ 64 + size - i * 8) % 2 ^ 64 < 8 then (2 ^ 64 + size - i * 8) % 2 ^ 64
        else 8) = min 8 (size - 8 * i) := by
      rw [left_eq hsmall hi]
      split <;> omega
    have hmemory : ∀ (q : DCArgs) {w' : DCCallVM_x64} (bs : List UInt8),
        bs.length ≤ size - 8 * i → Abreast base e w' q mem →
        Abreast base e w' q (Mem.overlay mem (target + 8 * i) bs) := fun q w' bs hlen h' =>
      h'.memory fun j hj => overlay_of_outside (by omega)
    rcases hclass with rfl | ⟨rfl, hend⟩
    · -- an integer register
      have hroom : skipReturnReg w.mRegCount.i w.mAggrReturnReg < numIntRegs := by
        rw [List.count_cons_self] at hints
        omega
      obtain ⟨hval, hstep⟩ := take_longlong (clonglong.decode (slice mem₀ (x + 8 * i) 8)) h
        ((kept_eightbytes x cs (i + 1) _).trans hkept) (Or.inl hroom)
      obtain ⟨hcount, hreturn⟩ := count_longlong (clonglong.decode (slice mem₀ (x + 8 * i) 8)) hroom
      have hbytes := encode_decode_word (length_slice mem₀ (x + 8 * i) 8)
      obtain ⟨mem', p', htake, hin, hwritten, haggrs⟩ := ih (i + 1)
        (hmemory _ ((slice mem₀ (x + 8 * i) 8).take (min 8 (size - 8 * i)))
          (by rw [List.length_take]; omega) hstep) hkept (by rw [hreturn]; exact hreg)
        (by
          rw [hcount, hreturn, skipReturnReg_succ hreg]
          rw [List.count_cons_self] at hints
          omega)
        (by
          rw [hcount]
          rw [List.count_cons_of_ne (by decide)] at hfloats
          exact hfloats) hfit.tail
      refine ⟨mem', p', ?_, hin, hwritten.cons rfl hi, haggrs.trans (aggrs_longlong _ _)⟩
      rw [← htake, DCArgs.takeEightbytes]
      dsimp only
      rw [hsize, hval, hbytes]
    · -- a floating register
      have hroom : w.mRegCount.f < numFloatRegs := by
        rw [List.count_cons_self] at hfloats
        omega
      obtain ⟨hval, hstep⟩ := take_double (loadWord mem₀ (x + 8 * i)) h
        ((kept_eightbytes x cs (i + 1) _).trans hkept) (Or.inl hroom)
      obtain ⟨hcount, hreturn⟩ := count_double (loadWord mem₀ (x + 8 * i)) hroom
      rw [Nat.mod_eq_of_lt (loadWord_lt _ _)] at hval
      have hbytes := encodeLE_loadWord mem₀ (x + 8 * i)
      obtain ⟨mem', p', htake, hin, hwritten, haggrs⟩ := ih (i + 1)
        (hmemory _ ((slice mem₀ (x + 8 * i) 8).take (min 8 (size - 8 * i)))
          (by rw [List.length_take]; omega) hstep) hkept (by rw [hreturn]; exact hreg)
        (by
          rw [hcount, hreturn]
          rw [List.count_cons_of_ne (by decide)] at hints
          exact hints)
        (by
          rw [hcount]
          rw [List.count_cons_self] at hfloats
          dsimp only
          omega) hfit.tail
      refine ⟨mem', p', ?_, hin, hwritten.cons rfl hi, haggrs.trans (aggrs_double _ _)⟩
      rw [← htake, DCArgs.takeEightbytes]
      dsimp only
      rw [hsize]
      rcases hend with hend | hend
      · -- a double
        rw [show min 8 (size - 8 * i) = 8 by omega, if_pos rfl, hval, storeWord, hbytes,
          List.take_of_length_le (length_slice _ _ _).le]
      · -- a float
        have hfloat : encodeLE 4 (loadWord mem₀ (x + 8 * i) % 2 ^ 32) =
            (slice mem₀ (x + 8 * i) 8).take 4 := by
          rw [← hbytes]
          exact (take_encodeLE 4 4 _).symm
        rw [show min 8 (size - 8 * i) = 4 by omega, if_neg (by decide), if_pos rfl]
        dsimp only [DCArgs.dcbArgFloat, Prod.map]
        rw [hval, hfloat]
        rfl

end Eightbytes

/-! ## Structs -/

section Structs

variable {base x target : ℕ} {ag : SysvAggr} {e w : DCCallVM_x64} {p : DCArgs}
  {mem mem₀ : ℕ → UInt8}

theorem few_of_proper (h : SysvAggr.Proper ag) : ag.eightbytes.length ≤ 2 := by
  by_contra hmany
  have := h.starts 2 (by omega)
  have := h.small
  omega

theorem fit_of_proper (h : SysvAggr.Proper ag) : ClassesFit ag.size 0 ag.eightbytes := by
  intro k c hk
  rw [Nat.zero_add]
  obtain ⟨hlt, -⟩ := List.getElem?_eq_some_iff.mp hk
  exact ⟨h.starts k hlt, h.classes k c hk⟩

/-- There are the registers for a struct that is not on the stack. -/
theorem registers_of_not_onStack (hfew : ag.eightbytes.length ≤ 2) (hreg : w.mAggrReturnReg ≤ 0)
    (hstack : onStack w.mRegCount ag = false) :
    skipReturnReg w.mRegCount.i w.mAggrReturnReg + ag.eightbytes.count .integer ≤ numIntRegs ∧
      w.mRegCount.f + ag.eightbytes.count .sse ≤ numFloatRegs := by
  have hcount := (List.count_le_length (a := SysvClass.integer)).trans hfew
  simp only [onStack, Bool.or_eq_false_iff, decide_eq_false_iff_not, not_lt] at hstack
  obtain ⟨⟨hmem, hi⟩, hf⟩ := hstack
  simp only [reclassify, hmem, Bool.false_eq_true, if_false] at hi hf
  refine ⟨?_, hf⟩
  unfold skipReturnReg
  split
  · -- the register of the result is the first
    have : numIntRegs = 6 := rfl
    omega
  · exact hi

/-- **A struct is found**, in registers or on the stack. -/
theorem take_aggr (h : Abreast base e w p mem)
    (hkept : Retained (w.dc_callvm_argAggr_x64 mem₀ (some ag) x) e) {aggrs : List (Option SysvAggr)}
    (haggrs : p.aggrs = some ag :: aggrs) (hproper : ag.inMemory = false → SysvAggr.Proper ag)
    (hreg : w.mAggrReturnReg ≤ 0)
    (hroom : w.mVecHead.mSize + (ag.size + realign ag.size) ≤ w.mVecHead.mTotal)
    (hapart : target + ag.size ≤ base ∨ base + e.mVecHead.mSize ≤ target) :
    ∃ mem' p', p.dcbArgAggr target mem = some (target, mem', p') ∧ p'.aggrs = aggrs ∧
      Abreast base e (w.dc_callvm_argAggr_x64 mem₀ (some ag) x) p' mem' ∧
      ∀ j < ag.size, ag.inMemory = true ∨ j / 8 < ag.eightbytes.length →
        mem' (target + j) = mem₀ (x + j) := by
  have hin : Abreast base e w { p with aggrs := aggrs } mem :=
    ⟨h.count, h.place, h.returnReg, h.ints, h.floats, h.stack⟩
  unfold dc_callvm_argAggr_x64 at hkept ⊢
  dsimp only at hkept ⊢
  have hsame : onStack p.reg_count ag = onStack w.mRegCount ag := by rw [h.count]
  simp only [DCArgs.dcbArgAggr, haggrs, hsame]
  cases hstack : onStack w.mRegCount ag with
  | true =>
    rw [hstack, if_pos rfl] at hkept
    rw [if_pos rfl, if_pos rfl]
    have hlen : (slice mem₀ x ag.size).length = ag.size := length_slice _ _ _
    have hslice := @Abreast.slice_append _ _ _ _ _ (slice mem₀ x ag.size) _ h (by rw [hlen]; omega)
      (Nat.le_add_right _ _) rfl hkept
    rw [hlen] at hslice
    refine ⟨_, _, rfl, rfl, ⟨h.count, ?_, h.returnReg, h.ints, h.floats, fun j hj => ?_⟩,
      fun j hj _ => ?_⟩
    · have hnext : (ag.size + 7) / 8 * 8 = ag.size + realign ag.size := by
        unfold realign
        omega
      have happend := @append_of_room w.mVecHead (slice mem₀ x ag.size)
        (by rw [hlen]; omega)
      dsimp only [dcVecSkip]
      rw [happend, hlen, h.place, hnext]
      dsimp only
      omega
    · rw [overlay_of_outside (by rw [length_slice]; omega)]
      exact h.stack j hj
    · rw [hslice, overlay_of_inside (by rw [hlen]; exact hj)]
      simp [slice]
  | false =>
    have hmem : ag.inMemory = false := by
      simp only [onStack, Bool.or_eq_false_iff] at hstack
      exact hstack.1.1
    have hok := hproper hmem
    obtain ⟨hints, hfloats⟩ := registers_of_not_onStack (few_of_proper hok) hreg hstack
    rw [hstack, if_neg Bool.false_ne_true] at hkept
    rw [if_neg Bool.false_ne_true, if_neg Bool.false_ne_true]
    obtain ⟨mem', p', htake, hstep, hwritten, hrest⟩ := take_eightbytes hok.small hapart
      ag.eightbytes 0 hin hkept hreg hints hfloats (fit_of_proper hok)
    refine ⟨mem', p', ?_, hrest, hstep, fun j hj hcovered => ?_⟩
    · rw [htake]
    · have hj8 : j / 8 < ag.eightbytes.length :=
        hcovered.resolve_left (by rw [hmem]; exact Bool.false_ne_true)
      exact hwritten.bytes j hj (Nat.zero_le _) (by omega)

end Structs

/-! ## The whole list -/

section Lists

variable {base total : ℕ} {mem₀ : ℕ → UInt8} {others : List (Option SysvAggr)}

/-- The conditions on an argument, when it is put. -/
structure Puttable (base total : ℕ) (a : Passed) (w : DCCallVM_x64 × List (Option SysvAggr)) :
    Prop where
  takeable : a.Takeable base total
  returnReg : w.1.mAggrReturnReg ≤ 0
  room : w.1.mVecHead.mSize + a.room ≤ w.1.mVecHead.mTotal

/-- The reader with the descriptors that are left, those that are no argument's at the end. -/
structure Following (base total : ℕ) (others : List (Option SysvAggr))
    (e w : DCCallVM_x64 × List (Option SysvAggr)) (r : DCArgs × (ℕ → UInt8)) : Prop
    extends Abreast base e.1 w.1 r.1 r.2 where
  bound : e.1.mVecHead.mSize ≤ total
  aggrs : r.1.aggrs = e.2.drop w.2.length ++ others

/-- **The convention is kept** by both sides. -/
theorem calling_keeps : (calling mem₀).Keeps (Puttable base total) (Arrives mem₀)
    (fun w e => Retained w.1 e.1 ∧ w.2 <+: e.2) (Following base total others) where
  refl w := ⟨Retained.refl _, List.prefix_rfl⟩
  put {a w e} _ h := ⟨(kept_put a w.1).trans h.1, (List.prefix_append _ _).trans h.2⟩
  take {a w e r} hfits hkept h := by
    obtain ⟨w, ds⟩ := w
    obtain ⟨p, mem⟩ := r
    obtain ⟨hkept, hds⟩ := hkept
    obtain ⟨hin, hbound, haggrs⟩ := h
    have hroom := hfits.room
    cases a with
    | word x =>
      obtain ⟨hval, hstep⟩ := take_longlong x hin hkept (Or.inr hroom)
      refine ⟨_, _, rfl, hval, hstep, hbound, ?_⟩
      exact (aggrs_longlong _ _).trans (by rw [haggrs]; simp [calling, Passed.descriptor])
    | float upper x =>
      obtain ⟨hval, hstep⟩ := take_double _ hin hkept (Or.inr hroom)
      refine ⟨_, _, rfl, ?_, hstep, hbound, ?_⟩
      · show (p.dcbArgDouble mem).1 % 2 ^ 32 = x % 2 ^ 32
        rw [hval]
        omega
      · exact (aggrs_double _ _).trans (by rw [haggrs]; simp [calling, Passed.descriptor])
    | double x =>
      obtain ⟨hval, hstep⟩ := take_double x hin hkept (Or.inr hroom)
      refine ⟨_, _, rfl, hval, hstep, hbound, ?_⟩
      exact (aggrs_double _ _).trans (by rw [haggrs]; simp [calling, Passed.descriptor])
    | aggr ag x target =>
      obtain ⟨hproper, hapart⟩ := hfits.takeable
      obtain ⟨rest, hds⟩ := hds
      have he : e.2 = ds ++ some ag :: rest := by
        rw [← hds]
        simp [calling, Passed.descriptor]
      have hdrop : p.aggrs = some ag :: (rest ++ others) := by
        rw [haggrs, he, List.drop_left]
        rfl
      obtain ⟨mem', p', htake, hrest, hstep, hbytes⟩ :=
        @take_aggr _ _ target _ _ _ _ _ _ hin hkept _ hdrop hproper hfits.returnReg hroom (by omega)
      refine ⟨.aggr (slice mem' target ag.size), (p', mem'), ?_, ⟨length_slice _ _ _, ?_⟩, hstep,
        hbound, ?_⟩
      · show Wanted.take (.aggr ag.size target) (p, mem) = _
        rw [Wanted.take, htake]
      · intro j hj hcovered
        rw [getElem?_slice hj, hbytes j hj hcovered]
      · rw [hrest, he]
        simp [calling, Passed.descriptor]

/-! ### Room -/

theorem mSize_append (vec : DCVecHead) (bs : List UInt8) :
    (vec.dcVecAppend bs).mSize ≤ vec.mSize + bs.length := by
  unfold dcVecAppend
  split
  · exact le_rfl
  · exact Nat.le_add_right _ _

theorem mSize_longlong (x : ℤ) (w : DCCallVM_x64) :
    (w.dc_callvm_argLongLong_x64 x).mVecHead.mSize ≤ w.mVecHead.mSize + 8 := by
  unfold dc_callvm_argLongLong_x64
  dsimp only
  split
  · exact Nat.le_add_right _ _
  · have := mSize_append w.mVecHead (clonglong.encode x)
    rwa [CIntType.length_encode] at this

theorem mSize_double (x : ℕ) (w : DCCallVM_x64) :
    (w.dc_callvm_argDouble_x64 x).mVecHead.mSize ≤ w.mVecHead.mSize + 8 := by
  unfold dc_callvm_argDouble_x64
  dsimp only
  split
  · exact Nat.le_add_right _ _
  · have := mSize_append w.mVecHead (encodeLE 8 x)
    rwa [length_encodeLE] at this

theorem mSize_eightbytes (x : ℕ) (cs : List SysvClass) : ∀ (i : ℕ) (w : DCCallVM_x64),
    (argEightbytes mem₀ x i cs w).mVecHead.mSize ≤ w.mVecHead.mSize + 8 * cs.length := by
  induction cs with
  | nil => exact fun i w => le_rfl
  | cons c cs ih =>
    intro i w
    rw [List.length_cons]
    cases c with
    | integer =>
      have hone := mSize_longlong (clonglong.decode (slice mem₀ (x + 8 * i) 8)) w
      have hrest := ih (i + 1) (w.dc_callvm_argLongLong_x64
        (clonglong.decode (slice mem₀ (x + 8 * i) 8)))
      rw [argEightbytes]
      omega
    | sse =>
      have hone := mSize_double (loadWord mem₀ (x + 8 * i)) w
      have hrest := ih (i + 1) (w.dc_callvm_argDouble_x64 (loadWord mem₀ (x + 8 * i)))
      rw [argEightbytes]
      omega
    | none | memory =>
      have hrest := ih (i + 1) w
      rw [argEightbytes]
      omega

/-- An argument takes no more than its room. -/
theorem mSize_put {a : Passed} (ha : a.Takeable base total) (w : DCCallVM_x64) :
    (a.put mem₀ w).mVecHead.mSize ≤ w.mVecHead.mSize + a.room := by
  cases a with
  | word x => exact mSize_longlong x w
  | float upper x => exact mSize_double _ w
  | double x => exact mSize_double x w
  | aggr ag x target =>
    show (w.dc_callvm_argAggr_x64 mem₀ (some ag) x).mVecHead.mSize ≤ _
    unfold dc_callvm_argAggr_x64 Passed.room
    dsimp only
    split
    · have := mSize_append w.mVecHead (slice mem₀ x ag.size)
      rw [length_slice] at this
      dsimp only [dcVecSkip]
      omega
    · rename_i hstack
      have hmem : ag.inMemory = false := by
        simp only [onStack, Bool.or_eq_true, not_or] at hstack
        exact Bool.eq_false_iff.mpr hstack.1.1
      have hproper := ha.1 hmem
      have hsize := @mSize_eightbytes mem₀ x ag.eightbytes 0 w
      have hlen : 8 * ag.eightbytes.length ≤ ag.size + realign ag.size := by
        unfold realign
        by_cases hnone : ag.eightbytes.length = 0
        · omega
        · have := hproper.starts (ag.eightbytes.length - 1) (by omega)
          omega
      omega

/-- Arguments that have room in all have room each. -/
theorem throughout_of_room : ∀ {as : List Passed} {w : DCCallVM_x64 × List (Option SysvAggr)},
    (∀ a ∈ as, a.Takeable base total) → w.1.mAggrReturnReg ≤ 0 →
    w.1.mVecHead.mSize + (as.map Passed.room).sum ≤ w.1.mVecHead.mTotal →
    (calling mem₀).Throughout (Puttable base total) as w ∧
      ((calling mem₀).puts as w).1.mVecHead.mSize ≤ w.1.mVecHead.mSize + (as.map Passed.room).sum
  | [], w, _, _, _ => ⟨trivial, Nat.le_add_right _ _⟩
  | a :: as, w, htake, hreg, hroom => by
    obtain ⟨ha, has⟩ := List.forall_mem_cons.mp htake
    rw [List.map_cons, List.sum_cons] at hroom ⊢
    have hkept := @kept_put mem₀ a w.1
    have hsize := @mSize_put _ _ mem₀ _ ha w.1
    have htotal : ((calling mem₀).put a w).1.mVecHead.mTotal = w.1.mVecHead.mTotal := hkept.total
    have hput : ((calling mem₀).put a w).1.mVecHead.mSize ≤ w.1.mVecHead.mSize + a.room := hsize
    obtain ⟨hrest, hend⟩ := throughout_of_room (w := (calling mem₀).put a w) has
      (hkept.returnReg.trans_le hreg) (by omega)
    exact ⟨⟨⟨ha, hreg, by omega⟩, hrest⟩, hend.trans (by omega)⟩

/-- **Every argument arrives**: whatever is passed, in whatever order, and wherever it goes, the
callee gets it by its type, if there is room in the buffer for what does not go in registers. The
descriptors of the arguments are used up. -/
theorem arguments_arrive {vm : DCCallVM_x64} (hfresh : Begun vm) {as : List Passed}
    (htake : ∀ a ∈ as, a.Takeable base vm.mVecHead.mTotal)
    (hroom : (as.map Passed.room).sum ≤ vm.mVecHead.mTotal) {p : DCArgs} {mem : ℕ → UInt8}
    (hentered : Entered base ((calling mem₀).puts as (vm, [])) others p mem) :
    ∃ bs p' mem', (calling mem₀).takes (as.map Passed.wanted) (p, mem) = some (bs, p', mem') ∧
      List.Forall₂ (Arrives mem₀) as bs ∧ p'.aggrs = others := by
  have hreg : vm.mAggrReturnReg ≤ 0 := by rcases hfresh.returnReg with h | h <;> omega
  have hempty : vm.mVecHead.mSize = 0 := hfresh.empty
  have hbegin : vm.mVecHead.mSize + (as.map Passed.room).sum ≤ vm.mVecHead.mTotal := by omega
  obtain ⟨hthroughout, hsize⟩ := throughout_of_room (w := (vm, [])) htake hreg hbegin
  have hP := @calling_keeps base vm.mVecHead.mTotal mem₀ others
  have hkept := (hP.kept_puts hthroughout).1
  have hreturn : ((calling mem₀).puts as (vm, [])).1.mAggrReturnReg = vm.mAggrReturnReg :=
    hkept.returnReg
  have hstart : Following base vm.mVecHead.mTotal others ((calling mem₀).puts as (vm, []))
      (vm, []) (p, mem) := by
    refine ⟨⟨?_, ?_, ?_, ?_, hentered.floats, hentered.stack⟩, ?_, hentered.descriptors⟩
    · rw [hentered.count, hfresh.count]
    · rw [hentered.start, hempty, Nat.add_zero]
    · rw [← hreturn]
      exact hentered.returnReg
    · rw [← hreturn]
      exact hentered.ints
    · rw [hempty, Nat.zero_add] at hsize
      exact hsize.trans hroom
  obtain ⟨bs, ⟨p', mem'⟩, htakes, hall, hend⟩ := hP.takes_puts hthroughout hstart
  exact ⟨bs, p', mem', htakes, hall, by simpa using hend.aggrs⟩

end Lists

end Affix.Analysis
