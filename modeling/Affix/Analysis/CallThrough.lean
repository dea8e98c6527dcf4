import Affix.Analysis.AggregateReturn

/-!
# A call through both kernels

A call is made of the machine it was prepared in, two kernels and a callback that knows
the signature alone. What was put into the machine is what the handler takes out, and
the descriptor of the result is the one that is left.

SOURCE: dyncall_callvm_x64.c:66-323, dyncall_call_x64.S:47-101,
dyncall_callback_x64.S:58-135, dyncall_callback_x64.c:51-88, dyncall_args_x64.c:33-149
-/

set_option autoImplicit false

namespace Affix.Analysis

open Affix.Foundation Affix.Model Affix.Interface DCCallVM_x64

/-! ## What reading leaves alone -/

section Readers

variable {mem mem' mem₀ : ℕ → UInt8} {p p' : DCArgs}

/-- The registers that were spilled, and where the result goes. -/
def SameSpill (p p' : DCArgs) : Prop :=
  p'.reg_data = p.reg_data ∧ p'.aggr_return_register = p.aggr_return_register

theorem SameSpill.trans {p'' : DCArgs} (h : SameSpill p p') (h' : SameSpill p' p'') :
    SameSpill p p'' :=
  ⟨h'.1.trans h.1, h'.2.trans h.2⟩

theorem sameSpill_longlong (mem : ℕ → UInt8) (p : DCArgs) :
    SameSpill p (p.dcbArgLongLong mem).2 := by
  unfold DCArgs.dcbArgLongLong
  dsimp only
  split <;> exact ⟨rfl, rfl⟩

theorem sameSpill_double (mem : ℕ → UInt8) (p : DCArgs) : SameSpill p (p.dcbArgDouble mem).2 := by
  unfold DCArgs.dcbArgDouble
  split <;> exact ⟨rfl, rfl⟩

theorem sameSpill_eightbytes {size target : ℕ} : ∀ {cs : List SysvClass} {i : ℕ}
    {mem : ℕ → UInt8} {p : DCArgs},
    DCArgs.takeEightbytes size target i cs mem p = some (mem', p') → SameSpill p p'
  | [], _, _, p, h => by
    obtain ⟨-, rfl⟩ := Prod.mk.inj (Option.some.inj h)
    exact ⟨rfl, rfl⟩
  | c :: cs, i, mem, p, h => by
    unfold DCArgs.takeEightbytes at h
    dsimp only at h
    cases c with
    | none | memory => cases h
    | integer => exact (sameSpill_longlong mem p).trans (sameSpill_eightbytes h)
    | sse =>
      dsimp only at h
      generalize (if (2 ^ 64 + size - i * 8) % 2 ^ 64 < 8 then (2 ^ 64 + size - i * 8) % 2 ^ 64
        else 8) = s at h
      split at h
      · exact (sameSpill_double mem p).trans (sameSpill_eightbytes h)
      · split at h
        · exact (sameSpill_double mem p).trans (sameSpill_eightbytes h)
        · cases h

theorem sameSpill_aggr {target ptr : ℕ} (h : p.dcbArgAggr target mem = some (ptr, mem', p')) :
    SameSpill p p' := by
  unfold DCArgs.dcbArgAggr at h
  split at h
  · cases h
  · rename_i aggrs _
    cases h
    exact sameSpill_longlong mem { p with aggrs := aggrs }
  · rename_i ag aggrs _
    dsimp only at h
    split at h
    · cases h
      exact ⟨rfl, rfl⟩
    · split at h
      · rename_i heq
        cases h
        exact sameSpill_eightbytes (p := { p with aggrs := aggrs }) heq
      · cases h

/-- Taking arguments keeps what the result will need. -/
theorem sameSpill_takes : ∀ {ss : List Wanted} {mem : ℕ → UInt8} {p : DCArgs} {bs : List Got},
    (calling mem₀).takes ss (p, mem) = some (bs, p', mem') → SameSpill p p'
  | [], _, p, _, h => by
    cases h
    exact ⟨rfl, rfl⟩
  | s :: ss, mem, p, bs, h => by
    rw [Handover.takes] at h
    split at h
    · rename_i b r htake
      obtain ⟨⟨bs', r'⟩, hrest, hq⟩ := Option.map_eq_some_iff.mp h
      obtain ⟨p₁, mem₁⟩ := r
      cases hq
      refine SameSpill.trans ?_ (sameSpill_takes hrest)
      cases s with
      | word =>
        cases htake
        exact sameSpill_longlong mem p
      | float | double =>
        cases htake
        exact sameSpill_double mem p
      | aggr size target =>
        change Wanted.take (.aggr size target) (p, mem) = _ at htake
        rw [Wanted.take] at htake
        cases hag : p.dcbArgAggr target mem with
        | none =>
          rw [hag] at htake
          cases htake
        | some q =>
          obtain ⟨ptr, mem', p'⟩ := q
          rw [hag] at htake
          cases htake
          exact sameSpill_aggr hag
    · cases h

end Readers

/-! ## What the caller and the callee make of the signature -/

section Signature

variable {ds : List (Option SysvAggr)} {result : Option (Option SysvAggr)} {sig : List Char}

/-- What a callback is made of, by the result its signature has. -/
theorem dcbInitCallback2_of_signs (hsig : Signs sig ds result) :
    dcbInitCallback2 sig (ds ++ result.toList) =
      ⟨match result with
        | none => -2
        | some none => 0
        | some (some ag) => if ag.inMemory then 0 else -1, ds ++ result.toList⟩ := by
  have hcount := hsig.aggregates
  cases result with
  | none =>
    have hlast : sig.getLast? ≠ some 'A' := fun h => Bool.false_ne_true (hsig.result.mp h)
    simp only [Option.toList_none, List.length_nil, Nat.add_zero] at hcount
    simp only [dcbInitCallback2, if_neg hsig.plain, hcount, if_neg hlast, Option.toList_none,
      List.append_nil]
    split
    · rename_i hnone
      rw [List.length_eq_zero_iff.mp hnone]
    · rfl
  | some ag =>
    have hlast : sig.getLast? = some 'A' := hsig.result.mpr rfl
    simp only [Option.toList_some, List.length_singleton] at hcount
    simp only [dcbInitCallback2, if_neg hsig.plain, hcount, if_neg (Nat.succ_ne_zero ds.length),
      if_pos hlast, Option.toList_some, Nat.add_sub_cancel, List.getElem?_concat_length,
      Option.join_some]
    cases ag with
    | none => rfl
    | some ag => rfl

/-- **The caller and the callback agree** on whether the address of the result is passed. -/
theorem returnReg_agrees (hsig : Signs sig ds result) (vm : DCCallVM_x64) (i : ℕ) :
    (i : ℤ) = (dcbInitCallback2 sig (ds ++ result.toList)).aggr_return_register ↔
      (i : ℤ) = (beginResult result vm).mAggrReturnReg := by
  rw [dcbInitCallback2_of_signs hsig]
  match result with
  | none =>
    show (i : ℤ) = -2 ↔ (i : ℤ) = -1
    omega
  | some none => exact Iff.rfl
  | some (some ag) =>
    simp only [beginResult, dc_callvm_begin_aggr_x64]
    split
    · exact Iff.rfl
    · exact Iff.rfl

theorem fresh_beginResult (result : Option (Option SysvAggr)) (vm : DCCallVM_x64) :
    Begun (beginResult result vm) := by
  match result with
  | none => exact ⟨rfl, rfl, Or.inl rfl⟩
  | some none => exact ⟨rfl, rfl, Or.inr rfl⟩
  | some (some ag) =>
    simp only [beginResult, dc_callvm_begin_aggr_x64]
    split
    · exact ⟨rfl, rfl, Or.inr rfl⟩
    · exact ⟨rfl, rfl, Or.inl rfl⟩

theorem mTotal_beginResult (result : Option (Option SysvAggr)) (vm : DCCallVM_x64) :
    (beginResult result vm).mVecHead.mTotal = vm.mVecHead.mTotal := by
  match result with
  | none => rfl
  | some none => rfl
  | some (some ag) =>
    simp only [beginResult, dc_callvm_begin_aggr_x64]
    split <;> rfl

end Signature

/-! ## The whole call -/

section Call

variable {mem₀ : ℕ → UInt8}

theorem descriptors_cons (a : Passed) (as : List Passed) :
    descriptors (a :: as) = (a.descriptor.map some).toList ++ descriptors as := by
  unfold descriptors
  cases h : a.descriptor with
  | none => rw [List.filterMap_cons_none h]; rfl
  | some ag => rw [List.filterMap_cons_some h]; rfl

/-- The descriptors that have been passed. -/
theorem descriptors_puts (as : List Passed) : ∀ (w : DCCallVM_x64 × List (Option SysvAggr)),
    ((calling mem₀).puts as w).2 = w.2 ++ descriptors as := by
  induction as with
  | nil => exact fun w => (List.append_nil w.2).symm
  | cons a as ih =>
    intro w
    rw [Handover.puts, ih, descriptors_cons, ← List.append_assoc]
    rfl

/-- The address of the result takes a register that holds no argument. -/
theorem entered_withoutAddress {base ret : ℕ} {w : DCCallVM_x64 × List (Option SysvAggr)}
    {others : List (Option SysvAggr)} {p : DCArgs} {mem : ℕ → UInt8}
    (h : Entered base (w.1.withReturnAddress ret, w.2) others p mem)
    (hno : -1 ≤ w.1.mAggrReturnReg) : Entered base w others p mem := by
  have hsame : (w.1.withReturnAddress ret).mAggrReturnReg = w.1.mAggrReturnReg ∧
      (w.1.withReturnAddress ret).mVecHead = w.1.mVecHead ∧
      (w.1.withReturnAddress ret).mRegData.f = w.1.mRegData.f := by
    unfold withReturnAddress
    split <;> exact ⟨rfl, rfl, rfl⟩
  obtain ⟨hreg, hvec, hfloat⟩ := hsame
  refine ⟨h.count, h.start, fun i => ?_, fun i hi hne => ?_, fun i hi => ?_, fun j hj => ?_,
    h.descriptors⟩
  · rw [← hreg]
    exact h.returnReg i
  · have hint : (w.1.withReturnAddress ret).mRegData.i i = w.1.mRegData.i i := by
      unfold withReturnAddress
      split
      · exact Function.update_of_ne (fun heq => by omega) _ _
      · rfl
    rw [← hint]
    exact h.ints i hi (by rwa [hreg])
  · rw [← hfloat]
    exact h.floats i hi
  · rw [← hvec] at hj ⊢
    exact h.stack j hj

/-- **A call carries its arguments** from the machine through both kernels to the readers of the
callback, which knows the signature and the descriptors alone. What is left is the descriptor of
the result, and where the result goes is as it was. -/
theorem call_carries {vm : DCCallVM_x64} {as : List Passed} {result : Option (Option SysvAggr)}
    {sig : List Char} {m : Processor} {ra pcb ret : ℕ} {aggrsAt : ℕ → List (Option SysvAggr)}
    (hsig : Signs sig (descriptors as) result)
    (hroom : (as.map Passed.room).sum ≤ vm.mVecHead.mTotal)
    (htake : ∀ a ∈ as, a.Takeable (argumentsAt m) vm.mVecHead.mTotal)
    (hloaded : Loaded
      (((calling mem₀).puts as (beginResult result vm, [])).1.withReturnAddress ret) m)
    (hcb : CallbackAt (dcbInitCallback2 sig (descriptors as ++ result.toList)) aggrsAt m pcb)
    (hlimit : m.reg .rsp < 2 ^ 64) {p : DCArgs}
    (hp : p = DCArgs.inMemory (enterHandler m ra pcb).mem aggrsAt
      ((enterHandler m ra pcb).reg .rsi)) :
    ∃ bs p' mem', (calling mem₀).takes (as.map Passed.wanted) (p, (enterHandler m ra pcb).mem) =
        some (bs, p', mem') ∧
      List.Forall₂ (Arrives mem₀) as bs ∧ p'.aggrs = result.toList ∧
      p'.reg_data = p.reg_data ∧ p'.aggr_return_register = p.aggr_return_register := by
  subst hp
  have hfresh := fresh_beginResult result vm
  have htotal := mTotal_beginResult result vm
  rw [← htotal] at hroom htake
  have hreg : (beginResult result vm).mAggrReturnReg ≤ 0 ∧
      -1 ≤ (beginResult result vm).mAggrReturnReg := by
    rcases hfresh.returnReg with h | h <;> omega
  have hempty : (beginResult result vm).mVecHead.mSize = 0 := hfresh.empty
  obtain ⟨hthroughout, -⟩ := @throughout_of_room _ _ mem₀ _ (beginResult result vm, [])
   
    htake hreg.1 (by dsimp only; omega)
  have hkept := ((@calling_keeps (argumentsAt m) _ _ result.toList).kept_puts
    hthroughout).1
  have hreturn : ((calling mem₀).puts as (beginResult result vm, [])).1.mAggrReturnReg =
      (beginResult result vm).mAggrReturnReg := hkept.returnReg
  have hds := @descriptors_puts mem₀ as (beginResult result vm, [])
  rw [List.nil_append] at hds
  have hentered := @handler_entered _ _ _ ra _ _ (descriptors as) result.toList
    hloaded hcb (fun i => ?_) ?_ hlimit
  · rw [← hds] at hentered
    have hplain := entered_withoutAddress
      (w := (calling mem₀).puts as (beginResult result vm, [])) hentered
      (by rw [hreturn]; exact hreg.2)
    obtain ⟨bs, p', mem', htakes, hall, hrest⟩ := arguments_arrive hfresh htake hroom hplain
    exact ⟨bs, p', mem', htakes, hall, hrest, sameSpill_takes htakes⟩
  · have hsame : (((calling mem₀).puts as
        (beginResult result vm, [])).1.withReturnAddress ret).mAggrReturnReg =
          (beginResult result vm).mAggrReturnReg := by
      rw [← hreturn]
      unfold withReturnAddress
      split <;> rfl
    rw [hsame]
    exact returnReg_agrees hsig vm i
  · rw [dcbInitCallback2_of_signs hsig]

end Call

end Affix.Analysis
