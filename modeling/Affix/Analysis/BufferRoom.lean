import Affix.Analysis.Classification
import Affix.Interface.SharedMachine

/-!
# Arguments that have no room

How many registers are in use does not depend on the room in the buffer. So machines of
different sizes that are told the same are in step, but for what the smaller one drops,
and that is missing at the end.

SOURCE: dyncall_vector.c:30-51, dyncall_callvm_x64.c:66-203
-/

set_option autoImplicit false

namespace Affix.Analysis

open Affix.Foundation Affix.Model Affix.Interface DCCallVM_x64 DCVecHead

variable {upper n : ℕ} {vm vm' : DCCallVM_x64} {a : DCArg} {mem : ℕ → UInt8}

/-! ## Eightbytes in registers -/

/-- What `dcCloseAggr` writes of the classes. -/
theorem classes_cases (ag : DCaggr) :
    (dcCloseAggr ag).sysv_classes = [.memory] ∨ (dcCloseAggr ag).sysv_classes = [.memory, .memory] ∨
      ∃ c c', (dcCloseAggr ag).sysv_classes = [c, c', .none] := by
  unfold dcCloseAggr dc_get_sysv_classes_for_aggr
  dsimp only
  split
  · exact Or.inl rfl
  · split
    · exact Or.inl rfl
    · split
      · exact Or.inr (Or.inl rfl)
      · exact Or.inr (Or.inr ⟨_, _, rfl⟩)

/-- A closed descriptor has at most two eightbytes. -/
theorem few_eightbytes (ag : DCaggr) : (dcCloseAggr ag).eightbytes.length ≤ 2 := by
  rcases classes_cases ag with h | h | ⟨c, c', h⟩
  · rw [SysvAggr.eightbytes, h]
    decide
  · rw [SysvAggr.eightbytes, h]
    decide
  · rw [eightbytes_of_classes h]
    split
    · exact Nat.zero_le _
    · split
      · exact Nat.le_succ 1
      · exact le_rfl

/-- A word that there is a register for leaves the buffer as it is. -/
theorem longlong_register (x : ℤ)
    (hroom : skipReturnReg vm.mRegCount.i vm.mAggrReturnReg < numIntRegs) :
    (vm.dc_callvm_argLongLong_x64 x).mVecHead = vm.mVecHead ∧
      (withRoom n vm).dc_callvm_argLongLong_x64 x =
        withRoom n (vm.dc_callvm_argLongLong_x64 x) := by
  simp only [dc_callvm_argLongLong_x64, withRoom, hroom, if_true, and_self]

theorem double_register (x : ℕ) (hroom : vm.mRegCount.f < numFloatRegs) :
    (vm.dc_callvm_argDouble_x64 x).mVecHead = vm.mVecHead ∧
      (withRoom n vm).dc_callvm_argDouble_x64 x = withRoom n (vm.dc_callvm_argDouble_x64 x) := by
  simp only [dc_callvm_argDouble_x64, withRoom, hroom, if_true, and_self]

/-- Eightbytes that there are registers for leave the buffer as it is. -/
theorem buffer_eightbytes (x : ℕ) (cs : List SysvClass) : ∀ (i : ℕ) {vm : DCCallVM_x64},
    vm.mAggrReturnReg ≤ 0 →
    skipReturnReg vm.mRegCount.i vm.mAggrReturnReg + cs.count .integer ≤ numIntRegs →
    vm.mRegCount.f + cs.count .sse ≤ numFloatRegs →
    (argEightbytes mem x i cs vm).mVecHead = vm.mVecHead ∧
      argEightbytes mem x i cs (withRoom n vm) = withRoom n (argEightbytes mem x i cs vm) := by
  induction cs with
  | nil => exact fun i vm _ _ _ => ⟨rfl, rfl⟩
  | cons c cs ih =>
    intro i vm hreg hints hfloats
    cases c with
    | integer =>
      rw [List.count_cons_self] at hints
      rw [List.count_cons_of_ne (by decide)] at hfloats
      have hroom : skipReturnReg vm.mRegCount.i vm.mAggrReturnReg < numIntRegs := by omega
      obtain ⟨hcount, hreturn⟩ := count_longlong (clonglong.decode (slice mem (x + 8 * i) 8)) hroom
      obtain ⟨hbuffer, hsame⟩ :=
        longlong_register (n := n) (clonglong.decode (slice mem (x + 8 * i) 8)) hroom
      obtain ⟨hrest, hrestSame⟩ := ih (i + 1) (hreturn.trans_le hreg)
        (by rw [hcount, hreturn, skipReturnReg_succ hreg]; omega) (by rw [hcount]; exact hfloats)
      rw [argEightbytes, argEightbytes, hsame]
      exact ⟨hrest.trans hbuffer, hrestSame⟩
    | sse =>
      rw [List.count_cons_of_ne (by decide)] at hints
      rw [List.count_cons_self] at hfloats
      have hroom : vm.mRegCount.f < numFloatRegs := by omega
      obtain ⟨hcount, hreturn⟩ := count_double (loadWord mem (x + 8 * i)) hroom
      obtain ⟨hbuffer, hsame⟩ := double_register (n := n) (loadWord mem (x + 8 * i)) hroom
      obtain ⟨hrest, hrestSame⟩ := ih (i + 1) (hreturn.trans_le hreg)
        (by rw [hcount, hreturn]; exact hints) (by rw [hcount]; dsimp only; omega)
      rw [argEightbytes, argEightbytes, hsame]
      exact ⟨hrest.trans hbuffer, hrestSame⟩
    | none | memory =>
      rw [List.count_cons_of_ne (by decide)] at hints hfloats
      exact ih (i + 1) hreg hints hfloats

/-! ## The buffer -/

section Buffer

variable {vec : DCVecHead} {bs : List UInt8}

theorem append_withRoom (hroom : bs.length = 0 ∨ vec.mSize + bs.length ≤ vec.mTotal)
    (hn : vec.mTotal ≤ n) :
    dcVecAppend { vec with mTotal := n } bs = { vec.dcVecAppend bs with mTotal := n } := by
  rcases hroom with hnone | hroom
  · obtain rfl := List.eq_nil_of_length_eq_zero hnone
    have hdata : Mem.overlay vec.data vec.mSize [] = vec.data := by
      funext x
      simp [Mem.overlay]
    unfold dcVecAppend
    split <;> split <;> simp only [hdata, List.length_nil, Nat.add_zero]
  · have hmore := @append_of_room { vec with mTotal := n } bs (hroom.trans hn)
    rw [append_of_room hroom, hmore]

theorem mSize_append_eq (vec : DCVecHead) (bs : List UInt8) :
    (vec.dcVecAppend bs).mSize = vec.mSize +
      if bs.length = 0 ∨ vec.mSize + bs.length ≤ vec.mTotal then bs.length else 0 := by
  unfold dcVecAppend
  by_cases hroom : vec.mSize + bs.length ≤ vec.mTotal
  · simp only [hroom, or_true, if_true]
  · by_cases hnone : bs.length = 0
    · rw [if_neg hroom, if_pos (Or.inl hnone), hnone, Nat.add_zero]
    · rw [if_neg hroom, if_neg (not_or.mpr ⟨hnone, hroom⟩), Nat.add_zero]

end Buffer

/-! ## One argument -/

/-- What is skipped behind an argument, whether there was room for it or not. -/
def skipped (vm : DCCallVM_x64) : DCArg → ℕ
  | .aggr ag _ => if onStack vm.mRegCount (dcCloseAggr ag) then realign ag.size else 0
  | _ => 0

theorem longlong_withRoom (x : ℤ) (h : HasRoom vm (.int x)) (hn : vm.mVecHead.mTotal ≤ n) :
    (withRoom n vm).dc_callvm_argLongLong_x64 x = withRoom n (vm.dc_callvm_argLongLong_x64 x) := by
  by_cases hreg : skipReturnReg vm.mRegCount.i vm.mAggrReturnReg < numIntRegs
  · exact (longlong_register x hreg).2
  · simp only [HasRoom, appended, hreg, if_false, OfNat.ofNat_ne_zero, false_or] at h
    have hlen : (clonglong.encode x).length = 8 := CIntType.length_encode _ _
    simp only [dc_callvm_argLongLong_x64, withRoom, hreg, if_false]
    rw [append_withRoom (Or.inr (by rw [hlen]; exact h)) hn]

theorem double_withRoom (x : ℕ) (h : HasRoom vm (.double x)) (hn : vm.mVecHead.mTotal ≤ n) :
    (withRoom n vm).dc_callvm_argDouble_x64 x = withRoom n (vm.dc_callvm_argDouble_x64 x) := by
  by_cases hreg : vm.mRegCount.f < numFloatRegs
  · exact (double_register x hreg).2
  · simp only [HasRoom, appended, hreg, if_false, OfNat.ofNat_ne_zero, false_or] at h
    have hlen : (encodeLE 8 x).length = 8 := length_encodeLE _ _
    simp only [dc_callvm_argDouble_x64, withRoom, hreg, if_false]
    rw [append_withRoom (Or.inr (by rw [hlen]; exact h)) hn]

/-- There are the registers for an aggregate that does not go to the buffer. -/
theorem aggr_registers {ag : DCaggr} {bytes : List UInt8} (hreg : vm.mAggrReturnReg ≤ 0)
    (hstack : onStack vm.mRegCount (dcCloseAggr ag) = false) :
    ((DCArg.aggr ag bytes).put upper vm).mVecHead = vm.mVecHead ∧
      (DCArg.aggr ag bytes).put upper (withRoom n vm) =
        withRoom n ((DCArg.aggr ag bytes).put upper vm) := by
  obtain ⟨hints, hfloats⟩ := registers_of_not_onStack (few_eightbytes ag) hreg hstack
  have hboth := @buffer_eightbytes n (fun x => bytes.getD x 0) 0 (dcCloseAggr ag).eightbytes 0 vm
    hreg hints hfloats
  simp only [DCArg.put, dc_callvm_argAggr_x64, withRoom, hstack, Bool.false_eq_true, if_false]
  exact hboth

/-- **An argument that there is room for** is put where it would be with more. -/
theorem put_withRoom (hreg : vm.mAggrReturnReg ≤ 0) (h : HasRoom vm a)
    (hn : vm.mVecHead.mTotal ≤ n) :
    a.put upper (withRoom n vm) = withRoom n (a.put upper vm) := by
  cases a with
  | int v => exact longlong_withRoom v h hn
  | float bits => exact double_withRoom _ h hn
  | double bits => exact double_withRoom bits h hn
  | aggr ag bytes =>
    cases hstack : onStack vm.mRegCount (dcCloseAggr ag) with
    | false => exact (aggr_registers hreg hstack).2
    | true =>
      simp only [HasRoom, appended, hstack, if_true] at h
      have hlen : (slice (fun x => bytes.getD x 0) 0 (dcCloseAggr ag).size).length = ag.size :=
        length_slice _ _ _
      simp only [DCArg.put, dc_callvm_argAggr_x64, withRoom, hstack, if_true]
      rw [append_withRoom (by rwa [hlen]) hn]
      rfl

/-- How much the buffer grows. -/
theorem mSize_put_eq (upper : ℕ) (a : DCArg) (hreg : vm.mAggrReturnReg ≤ 0) :
    (a.put upper vm).mVecHead.mSize = vm.mVecHead.mSize +
      (if HasRoom vm a then appended vm a else 0) + skipped vm a := by
  have hword : ∀ v, (vm.dc_callvm_argLongLong_x64 v).mVecHead.mSize = vm.mVecHead.mSize +
      if HasRoom vm (.int v) then appended vm (.int v) else 0 := by
    intro v
    by_cases h : skipReturnReg vm.mRegCount.i vm.mAggrReturnReg < numIntRegs
    · rw [(longlong_register (n := 0) v h).1]
      simp only [appended, h, if_true, ite_self, Nat.add_zero]
    · have hlen : (clonglong.encode v).length = 8 := CIntType.length_encode _ _
      have hsize := mSize_append_eq vm.mVecHead (clonglong.encode v)
      rw [hlen] at hsize
      simp only [dc_callvm_argLongLong_x64, HasRoom, appended, h, if_false]
      exact hsize
  have hdouble : ∀ v, (vm.dc_callvm_argDouble_x64 v).mVecHead.mSize = vm.mVecHead.mSize +
      if HasRoom vm (.double v) then appended vm (.double v) else 0 := by
    intro v
    by_cases h : vm.mRegCount.f < numFloatRegs
    · rw [(double_register (n := 0) v h).1]
      simp only [appended, h, if_true, ite_self, Nat.add_zero]
    · have hlen : (encodeLE 8 v).length = 8 := length_encodeLE _ _
      have hsize := mSize_append_eq vm.mVecHead (encodeLE 8 v)
      rw [hlen] at hsize
      simp only [dc_callvm_argDouble_x64, HasRoom, appended, h, if_false]
      exact hsize
  cases a with
  | int v => exact hword v
  | float bits => exact hdouble _
  | double bits => exact hdouble bits
  | aggr ag bytes =>
    cases hstack : onStack vm.mRegCount (dcCloseAggr ag) with
    | false =>
      rw [(aggr_registers (n := 0) hreg hstack).1]
      simp only [appended, skipped, hstack, Bool.false_eq_true, if_false, ite_self, Nat.add_zero]
    | true =>
      have hlen : (slice (fun x => bytes.getD x 0) 0 (dcCloseAggr ag).size).length = ag.size :=
        length_slice _ _ _
      have hsize := mSize_append_eq vm.mVecHead
        (slice (fun x => bytes.getD x 0) 0 (dcCloseAggr ag).size)
      rw [hlen] at hsize
      simp only [DCArg.put, dc_callvm_argAggr_x64, HasRoom, appended, skipped, hstack, if_true,
        dcVecSkip, hsize]
      rfl

/-! ## Machines in step -/

/-- The same registers are in use. -/
structure SameRegisters (vm vm' : DCCallVM_x64) : Prop where
  count : vm'.mRegCount = vm.mRegCount
  returnReg : vm'.mAggrReturnReg = vm.mAggrReturnReg

theorem SameRegisters.longlong (h : SameRegisters vm vm') (x : ℤ) :
    SameRegisters (vm.dc_callvm_argLongLong_x64 x) (vm'.dc_callvm_argLongLong_x64 x) := by
  unfold dc_callvm_argLongLong_x64
  rw [h.count, h.returnReg]
  dsimp only
  split
  · exact ⟨rfl, rfl⟩
  · exact ⟨rfl, rfl⟩

theorem SameRegisters.double (h : SameRegisters vm vm') (x : ℕ) :
    SameRegisters (vm.dc_callvm_argDouble_x64 x) (vm'.dc_callvm_argDouble_x64 x) := by
  unfold dc_callvm_argDouble_x64
  rw [h.count]
  dsimp only
  split
  · exact ⟨rfl, h.returnReg⟩
  · exact ⟨rfl, h.returnReg⟩

theorem SameRegisters.eightbytes (x : ℕ) (cs : List SysvClass) :
    ∀ (i : ℕ) {vm vm' : DCCallVM_x64}, SameRegisters vm vm' →
      SameRegisters (argEightbytes mem x i cs vm) (argEightbytes mem x i cs vm') := by
  induction cs with
  | nil => exact fun _ _ _ h => h
  | cons c cs ih =>
    intro i vm vm' h
    cases c with
    | integer => exact ih _ (h.longlong _)
    | sse => exact ih _ (h.double _)
    | none | memory => exact ih _ h

theorem SameRegisters.put (h : SameRegisters vm vm') (upper : ℕ) (a : DCArg) :
    SameRegisters (a.put upper vm) (a.put upper vm') := by
  cases a with
  | int v => exact h.longlong v
  | float bits => exact h.double _
  | double bits => exact h.double bits
  | aggr ag bytes =>
    simp only [DCArg.put, dc_callvm_argAggr_x64, h.count]
    split
    · exact ⟨rfl, h.returnReg⟩
    · exact h.eightbytes 0 _ 0

theorem SameRegisters.appended (h : SameRegisters vm vm') (a : DCArg) :
    Interface.appended vm' a = Interface.appended vm a := by
  cases a <;> simp only [Interface.appended, h.count, h.returnReg]

theorem SameRegisters.skipped (h : SameRegisters vm vm') (a : DCArg) :
    Analysis.skipped vm' a = Analysis.skipped vm a := by
  cases a <;> simp only [Analysis.skipped, h.count]

theorem kept_dcArg (upper : ℕ) (a : DCArg) (vm : DCCallVM_x64) : Retained vm (a.put upper vm) := by
  cases a with
  | int v => exact kept_longlong v vm
  | float bits => exact kept_double _ vm
  | double bits => exact kept_double bits vm
  | aggr ag bytes => exact kept_aggr (some (dcCloseAggr ag)) 0 vm

/-! ## All the arguments -/

theorem retained_putAll (as : List DCArg) (vm : DCCallVM_x64) :
    Retained vm (putAll upper as vm) := by
  induction as generalizing vm with
  | nil => exact Retained.refl vm
  | cons a as ih => exact (kept_dcArg upper a vm).trans (ih (a.put upper vm))

/-- **With room for all arguments** the machine keeps what one with more room does. -/
theorem putAll_withRoom {as : List DCArg} (hreg : vm.mAggrReturnReg ≤ 0)
    (h : AllHaveRoom upper as vm) (hn : vm.mVecHead.mTotal ≤ n) :
    putAll upper as (withRoom n vm) = withRoom n (putAll upper as vm) := by
  induction as generalizing vm with
  | nil => rfl
  | cons a as ih =>
    obtain ⟨ha, has⟩ := h
    have hkept := kept_dcArg upper a vm
    have hrest := ih (hkept.returnReg.trans_le hreg) has (hkept.total.trans_le hn)
    show putAll upper as (a.put upper (withRoom n vm)) = _
    rw [put_withRoom hreg ha hn]
    exact hrest

/-- What is behind stays behind. -/
theorem putAll_behind {as : List DCArg} {d : ℕ} (hreg : vm.mAggrReturnReg ≤ 0)
    (h : SameRegisters vm vm') (hroom : AllHaveRoom upper as vm')
    (hd : vm.mVecHead.mSize + d ≤ vm'.mVecHead.mSize) :
    (putAll upper as vm).mVecHead.mSize + d ≤ (putAll upper as vm').mVecHead.mSize := by
  induction as generalizing vm vm' with
  | nil => exact hd
  | cons a as ih =>
    obtain ⟨ha, has⟩ := hroom
    refine ih ((kept_dcArg upper a vm).returnReg.trans_le hreg) (h.put upper a) has ?_
    rw [mSize_put_eq upper a hreg, mSize_put_eq upper a (h.returnReg.trans_le hreg), if_pos ha,
      h.appended, h.skipped]
    split <;> omega

/-- **What is dropped is missing**: where another machine has room for all arguments and does not
get further, there is room for all of them. -/
theorem allHaveRoom_of_mSize {as : List DCArg} (hreg : vm.mAggrReturnReg ≤ 0)
    (h : SameRegisters vm vm') (hroom : AllHaveRoom upper as vm')
    (hsize : vm.mVecHead.mSize = vm'.mVecHead.mSize)
    (hend : (putAll upper as vm').mVecHead.mSize ≤ (putAll upper as vm).mVecHead.mSize) :
    AllHaveRoom upper as vm := by
  induction as generalizing vm vm' with
  | nil => trivial
  | cons a as ih =>
    obtain ⟨ha, has⟩ := hroom
    have hreg₁ := (kept_dcArg upper a vm).returnReg.trans_le hreg
    have hgrown := mSize_put_eq upper a hreg
    have hgrown' := mSize_put_eq upper a (h.returnReg.trans_le hreg)
    rw [if_pos ha, h.appended, h.skipped] at hgrown'
    by_cases hhere : HasRoom vm a
    · rw [if_pos hhere] at hgrown
      exact ⟨hhere, ih hreg₁ (h.put upper a) has (by omega) hend⟩
    · rw [if_neg hhere] at hgrown
      have hsome : Interface.appended vm a ≠ 0 := fun hnone => hhere (Or.inl hnone)
      have hbehind := putAll_behind (d := Interface.appended vm a) hreg₁ (h.put upper a) has
        (by omega)
      have hshort : (putAll upper as (a.put upper vm')).mVecHead.mSize ≤
          (putAll upper as (a.put upper vm)).mVecHead.mSize := hend
      omega

/-- The bytes that an argument can take of the buffer. -/
def roomOf : DCArg → ℕ
  | .aggr ag _ => ag.size + realign ag.size
  | _ => 8

theorem grown_le (vm : DCCallVM_x64) (a : DCArg) : appended vm a + skipped vm a ≤ roomOf a := by
  cases a with
  | int v => simp only [appended, skipped, roomOf]; split <;> omega
  | float bits => simp only [appended, skipped, roomOf]; split <;> omega
  | double bits => simp only [appended, skipped, roomOf]; split <;> omega
  | aggr ag bytes => simp only [appended, skipped, roomOf]; split <;> omega

/-- Arguments that have room in all have room each. -/
theorem allHaveRoom_of_sum {as : List DCArg} (hreg : vm.mAggrReturnReg ≤ 0)
    (hroom : vm.mVecHead.mSize + (as.map roomOf).sum ≤ vm.mVecHead.mTotal) :
    AllHaveRoom upper as vm := by
  induction as generalizing vm with
  | nil => trivial
  | cons a as ih =>
    rw [List.map_cons, List.sum_cons] at hroom
    have hle := grown_le vm a
    have hkept := kept_dcArg upper a vm
    have hgrown := mSize_put_eq upper a hreg
    refine ⟨Or.inr (by omega), ih (hkept.returnReg.trans_le hreg) ?_⟩
    rw [hkept.total, hgrown]
    split <;> omega

/-! ## A call -/

theorem begin_withRoom (told : DCCallVM) (vm : DCCallVM_x64) :
    told.begin (withRoom n vm) = withRoom n (told.begin vm) := by
  unfold DCCallVM.begin
  split <;> rfl

theorem begin_fresh (told : DCCallVM) (vm : DCCallVM_x64) :
    (told.begin vm).mAggrReturnReg ≤ 0 ∧ (told.begin vm).mVecHead.mSize = 0 ∧
      (told.begin vm).mVecHead.mTotal = vm.mVecHead.mTotal := by
  unfold DCCallVM.begin
  split
  · exact ⟨le_rfl, rfl, rfl⟩
  · exact ⟨Int.neg_nonpos_of_nonneg Int.one_nonneg, rfl, rfl⟩

/-- There is room for a call whose arguments would all have room in the buffer. -/
theorem machineFits_of_sum {room : ℕ} {told : DCCallVM}
    (h : (told.args.map roomOf).sum ≤ room) : MachineFits room told := by
  intro upper vm hroom
  obtain ⟨hreg, hempty, htotal⟩ := begin_fresh told vm
  exact allHaveRoom_of_sum hreg (by omega)

/-- **A machine keeps what it is told if and only if it has room for it**: then it hands over the
same as with any more room. -/
theorem keeps_iff_fits {room : ℕ} {told : DCCallVM} :
    (∀ (upper : ℕ) (vm : DCCallVM_x64), vm.mVecHead.mTotal = room → ∀ n, room ≤ n →
      handed (told.tell upper vm) = handed (told.tell upper (withRoom n vm))) ↔
    MachineFits room told := by
  constructor
  · intro hkeeps upper vm hroom
    -- a machine that has room for all of it
    obtain ⟨hreg, -, -⟩ := begin_fresh told vm
    set n := max room (told.args.map roomOf).sum with hn
    have hample : AllHaveRoom upper told.args (withRoom n (told.begin vm)) := by
      rw [← begin_withRoom]
      exact machineFits_of_sum (le_max_right _ _) upper (withRoom n vm) rfl
    have hstep : SameRegisters (told.begin vm) (withRoom n (told.begin vm)) := ⟨rfl, rfl⟩
    have hsame := congrArg (fun h => h.stack.length) (hkeeps upper vm hroom n (le_max_left _ _))
    simp only [handed, List.length_map, List.length_range, DCCallVM.tell, begin_withRoom] at hsame
    exact allHaveRoom_of_mSize hreg hstep hample rfl hsame.ge
  · intro hfits upper vm hroom n hn
    obtain ⟨hreg, -, htotal⟩ := begin_fresh told vm
    rw [DCCallVM.tell, DCCallVM.tell, begin_withRoom,
      putAll_withRoom hreg (hfits upper vm hroom) (by omega)]
    rfl

/-- Without a buffer there is no room for a seventh word. -/
example : ¬ MachineFits 0 ⟨false, List.replicate 7 (.int 0)⟩ := by
  intro h
  have hlast : HasRoom (putAll 0 (List.replicate 6 (.int 0)) (DCCallVM.begin ⟨false, []⟩
      (dcNewCallVM 0 ⟨fun _ => 0, fun _ => 0⟩ fun _ => 0))) (.int 0) :=
    (h 0 (dcNewCallVM 0 ⟨fun _ => 0, fun _ => 0⟩ fun _ => 0) rfl).2.2.2.2.2.2.1
  exact absurd hlast (by decide)

end Affix.Analysis
