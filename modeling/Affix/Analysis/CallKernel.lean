import Affix.Analysis.ArgumentPassing

/-!
# The kernels hand over what the machine holds

The stack that the kernels build is a row of words, pushed downwards: run to their
calls, the two are known by what they leave in the registers and in that row.

SOURCE: dyncall_call_x64.S:47-101, dyncall_callback_x64.S:58-135
-/

set_option autoImplicit false

namespace Affix.Analysis

open Affix.Foundation Affix.Model Affix.Interface

/-! ## Registers and memory -/

section Processor

variable (m : Processor) (r : Reg) (v : ℕ)

@[simp] theorem set_reg : (m.set r v).reg = Function.update m.reg r v := rfl
@[simp] theorem set_xmm : (m.set r v).xmm = m.xmm := rfl
@[simp] theorem set_mem : (m.set r v).mem = m.mem := rfl
@[simp] theorem pushWord_reg :
    (m.pushWord v).reg = Function.update m.reg .rsp (m.reg .rsp - 8) := rfl
@[simp] theorem pushWord_xmm : (m.pushWord v).xmm = m.xmm := rfl
@[simp] theorem pushWord_mem :
    (m.pushWord v).mem = storeWord m.mem (m.reg .rsp - 8) v := rfl

end Processor

/-- Bytes that are copied one at a time to a place apart. -/
theorem repMovsb_eq {n src dst : ℕ} (h : dst + n ≤ src ∨ src + n ≤ dst) (mem : ℕ → UInt8) :
    repMovsb n src dst mem = Mem.overlay mem dst (slice mem src n) := by
  induction n generalizing src dst mem with
  | zero =>
    funext x
    exact (overlay_of_outside (by rw [length_slice]; omega)).symm
  | succ n ih =>
    have hrest : slice (Mem.overlay mem dst [mem src]) (src + 1) n = slice mem (src + 1) n :=
      slice_overlay_disjoint (by rw [List.length_singleton]; omega)
    have hslice : slice mem src (n + 1) = [mem src] ++ slice mem (src + 1) n := by
      rw [slice, List.range_succ_eq_map, List.map_cons, List.map_map, Nat.add_zero,
        List.singleton_append, slice]
      refine congrArg _ (List.map_congr_left fun i _ => ?_)
      rw [Function.comp_apply, Nat.succ_eq_add_one, Nat.add_assoc, Nat.add_comm 1 i]
    have hrow := overlay_append mem dst [mem src] (slice mem (src + 1) n)
    rw [List.length_singleton] at hrow
    rw [repMovsb, ih (by omega), hrest, hslice, ← hrow]
    exact overlay_comm (Or.inl le_rfl)

/-! ## The caller's kernel -/

/-- The registers of the first six integers. -/
def argReg : List Reg := [.rdi, .rsi, .rdx, .rcx, .r8, .r9]

section Caller

variable {m : Processor}

/-- The memory before the buffer is copied. -/
def savedMem (m : Processor) : ℕ → UInt8 :=
  storeWords m.mem (m.reg .rsp - 16) [m.reg .rbx, m.reg .rbp]

/-- The memory when the buffer has been copied. -/
def copiedMem (m : Processor) : ℕ → UInt8 :=
  repMovsb (frameSize (m.reg .rdi)) (m.reg .rsi) (argumentsAt m) (savedMem m)

/-- **What the caller's kernel leaves** in the registers and in memory. -/
theorem run_enter (hstack : 16 ≤ m.reg .rsp) :
    (m.run dcCall_x64_sysv_enter).mem = copiedMem m ∧
      (m.run dcCall_x64_sysv_enter).reg .rsp = argumentsAt m ∧
      (m.run dcCall_x64_sysv_enter).reg .rbp = m.reg .rsp - 16 ∧
      (m.run dcCall_x64_sysv_enter).reg .rbx = m.reg .r8 ∧
      (∀ k r, argReg[k]? = some r →
        (m.run dcCall_x64_sysv_enter).reg r = loadWord (copiedMem m) (m.reg .rdx + 8 * k)) ∧
      ∀ k < numFloatRegs,
        (m.run dcCall_x64_sysv_enter).xmm k = loadWord (savedMem m) (m.reg .rcx + 8 * k) := by
  have hpush : storeWord (storeWord m.mem (m.reg .rsp - 8) (m.reg .rbp)) (m.reg .rsp - 8 - 8)
      (m.reg .rbx) = savedMem m := by
    rw [storeWord_eq_storeWords m.mem, storeWord_storeWords
      (show m.reg .rsp - 8 = m.reg .rsp - 8 - 8 + 8 by omega), savedMem, Nat.sub_sub]
  have hcopied : repMovsb ((m.reg .rdi + 31) / 32 * 32 + 8) (m.reg .rsi)
      (m.reg .rsp - 8 - 8 - ((m.reg .rdi + 31) / 32 * 32 + 8)) (savedMem m) = copiedMem m := by
    rw [copiedMem, argumentsAt, frameSize, Nat.sub_sub _ 8 8]
  simp only [Processor.run, dcCall_x64_sysv_enter, List.foldl, Processor.step, pushWord_mem,
    pushWord_reg, pushWord_xmm, set_reg, set_mem, set_xmm, Function.update_apply, reduceCtorEq,
    if_false, if_true, hpush, hcopied]
  refine ⟨trivial, ?_, Nat.sub_sub _ _ _, trivial, fun k r hk => ?_, fun k hk => ?_⟩
  · rw [argumentsAt, frameSize, Nat.sub_sub _ 8 8]
  · match k with
    | 0 | 1 | 2 | 3 | 4 | 5 =>
      obtain rfl := Option.some.inj hk
      rfl
    | k + 6 => cases hk
  · match k with
    | 0 | 1 | 2 | 3 | 4 | 5 | 6 | 7 => rfl
    | k + 8 => exact absurd hk (by simp [numFloatRegs])

/-- The copy writes its place alone. -/
theorem repMovsb_outside {n src dst x : ℕ} (h : x < dst ∨ dst + n ≤ x) (mem : ℕ → UInt8) :
    repMovsb n src dst mem x = mem x := by
  induction n generalizing src dst mem with
  | zero => rfl
  | succ n ih =>
    rw [repMovsb, ih (by omega), overlay_of_outside (by rw [List.length_singleton]; omega)]

theorem savedMem_outside {x : ℕ} (h : x + 16 < m.reg .rsp ∨ m.reg .rsp ≤ x)
    (hstack : 16 ≤ m.reg .rsp) : savedMem m x = m.mem x :=
  storeWords_of_outside (by simp only [List.length_cons, List.length_nil]; omega)

/-- Nothing is written but the saved registers and the arguments. -/
theorem copiedMem_outside {x : ℕ} (h : x < argumentsAt m ∨ m.reg .rsp ≤ x)
    (hstack : frameSize (m.reg .rdi) + 16 ≤ m.reg .rsp) : copiedMem m x = m.mem x := by
  have hat : argumentsAt m + frameSize (m.reg .rdi) + 16 = m.reg .rsp := by
    unfold argumentsAt
    omega
  rw [copiedMem, repMovsb_outside (by omega), savedMem_outside (by omega) (by omega)]

/-- The arguments lie on the stack as they lay in the buffer. -/
theorem copiedMem_arguments (hstack : frameSize (m.reg .rdi) + 16 ≤ m.reg .rsp)
    (hapart : m.reg .rsi + frameSize (m.reg .rdi) ≤ argumentsAt m ∨ m.reg .rsp ≤ m.reg .rsi)
    {j : ℕ} (hj : j < frameSize (m.reg .rdi)) :
    copiedMem m (argumentsAt m + j) = m.mem (m.reg .rsi + j) := by
  have hat : argumentsAt m + frameSize (m.reg .rdi) + 16 = m.reg .rsp := by
    unfold argumentsAt
    omega
  have hlen := length_slice (savedMem m) (m.reg .rsi) (frameSize (m.reg .rdi))
  rw [copiedMem, repMovsb_eq (by omega), overlay_of_inside (by rw [hlen]; exact hj)]
  simp only [slice, List.getElem_map, List.getElem_range]
  exact savedMem_outside (by omega) (by omega)

end Caller

/-! ## The entry of a callback -/

section Callback

variable {m : Processor}

/-- The words on the stack when the handler is called, from the `DCArgs` up. -/
def callbackFrame (m : Processor) (aggrs returnReg : ℕ) : List ℕ :=
  [m.reg .rsp + 8, 0, returnReg, aggrs,
    m.reg .rdi, m.reg .rsi, m.reg .rdx, m.reg .rcx, m.reg .r8, m.reg .r9,
    m.xmm 0, m.xmm 1, m.xmm 2, m.xmm 3, m.xmm 4, m.xmm 5, m.xmm 6, m.xmm 7, m.reg .rbp]

theorem run_callback_enter {b : ℕ} (hb : m.reg .rsp = b + 184)
    (hapart : m.reg .rax + 56 ≤ b ∨ b + 184 ≤ m.reg .rax) :
    (m.run dcCallback_x64_sysv_enter).mem =
        storeWords m.mem (b + 32) (callbackFrame m (loadWord m.mem (m.reg .rax + 48))
          (decodeLE (slice m.mem (m.reg .rax + 40) 4))) ∧
      (m.run dcCallback_x64_sysv_enter).reg .rsp = b ∧
      (m.run dcCallback_x64_sysv_enter).reg .rbp = b + 176 ∧
      (m.run dcCallback_x64_sysv_enter).reg .rbx = m.reg .rbx ∧
      (m.run dcCallback_x64_sysv_enter).reg .rdi = m.reg .rax ∧
      (m.run dcCallback_x64_sysv_enter).reg .rsi = b + 32 ∧
      (m.run dcCallback_x64_sysv_enter).reg .rdx = b ∧
      (m.run dcCallback_x64_sysv_enter).reg .rcx = loadWord m.mem (m.reg .rax + 32) := by
  have hload : ∀ (a : ℕ) (ws : List ℕ) (o : ℕ), o + 8 ≤ 56 → b ≤ a →
      a + 8 * ws.length ≤ b + 184 →
      loadWord (storeWords m.mem a ws) (m.reg .rax + o) = loadWord m.mem (m.reg .rax + o) :=
    fun a ws o ho ha hlen => loadWord_congr fun i hi => storeWords_of_outside (by omega)
  have hslice : ∀ (a : ℕ) (ws : List ℕ) (o : ℕ), o + 4 ≤ 56 → b ≤ a →
      a + 8 * ws.length ≤ b + 184 →
      slice (storeWords m.mem a ws) (m.reg .rax + o) 4 = slice m.mem (m.reg .rax + o) 4 :=
    fun a ws o ho ha hlen => slice_congr fun i hi => storeWords_of_outside (by omega)
  simp only [Processor.run, dcCallback_x64_sysv_enter, List.foldl, Processor.step, pushWord_mem,
    pushWord_reg, pushWord_xmm, set_reg, set_mem, set_xmm, Function.update_apply, reduceCtorEq,
    if_false, if_true, hb, Nat.reduceSubDiff, Nat.add_zero, Nat.reduceAdd, Nat.add_assoc,
    storeWord_eq_storeWords m.mem]
  -- the stores are pushes, and the loads are from the callback
  simp (disch := omega) only [storeWord_storeWords]
  simp (disch := first | omega | (simp only [List.length_cons, List.length_nil]; omega)) only
    [hload, hslice, callbackFrame, hb, Nat.reduceAdd, Nat.add_assoc, and_self]

end Callback

/-! ## From the machine to the handler -/

section Handler

variable {m : Processor} {vm : DCCallVM_x64} {cb : DCCallback} {ra pcb : ℕ}
  {aggrsAt : ℕ → List (Option SysvAggr)}

theorem argumentsAt_eq (hloaded : Loaded vm m) :
    argumentsAt m + frameSize (m.reg .rdi) + 16 = m.reg .rsp ∧ 192 ≤ argumentsAt m ∧
      m.reg .rsp - stackDepth (m.reg .rdi) = argumentsAt m - 192 := by
  have hstack := hloaded.stack
  unfold argumentsAt
  unfold stackDepth at hstack ⊢
  omega

/-- Bytes that the kernels do not write are as they were when the callback is entered. -/
theorem enterCallback_mem (hloaded : Loaded vm m) {x : ℕ}
    (hx : x + 192 < argumentsAt m ∨ m.reg .rsp ≤ x) : (enterCallback m ra pcb).mem x = m.mem x := by
  obtain ⟨hat, hlow, -⟩ := argumentsAt_eq hloaded
  obtain ⟨hmem, hrsp, -⟩ := run_enter (m := m) (by omega)
  show storeWord (m.run dcCall_x64_sysv_enter).mem
    ((m.run dcCall_x64_sysv_enter).reg .rsp - 8) ra x = m.mem x
  rw [hmem, hrsp, storeWord_of_outside (by omega), copiedMem_outside (by omega) (by omega)]

theorem slice_enterCallback (hloaded : Loaded vm m) {a n : ℕ} (ha : Untouched m a n) :
    slice (enterCallback m ra pcb).mem a n = slice m.mem a n := by
  obtain ⟨hat, hlow, hdepth⟩ := argumentsAt_eq hloaded
  rw [Untouched, hdepth] at ha
  exact slice_congr fun i hi => enterCallback_mem hloaded (by omega)

theorem untouched_part {a n o k : ℕ} (h : Untouched m a n) (hk : o + k ≤ n) :
    Untouched m (a + o) k := by
  unfold Untouched at h ⊢
  omega

theorem loadWord_enterCallback (hloaded : Loaded vm m) {a : ℕ} (ha : Untouched m a 8) :
    loadWord (enterCallback m ra pcb).mem a = loadWord m.mem a := by
  rw [loadWord, slice_enterCallback hloaded ha, loadWord]

variable (ra pcb) in
/-- The registers when the callback is entered. -/
theorem enterCallback_regs (hloaded : Loaded vm m) :
    (enterCallback m ra pcb).reg .rsp = argumentsAt m - 8 ∧
      (enterCallback m ra pcb).reg .rax = pcb ∧
      (∀ k r, argReg[k]? = some r →
        (enterCallback m ra pcb).reg r = loadWord m.mem (m.reg .rdx + 8 * k)) ∧
      ∀ k < numFloatRegs,
        (enterCallback m ra pcb).xmm k = loadWord m.mem (m.reg .rcx + 8 * k) := by
  obtain ⟨hat, hlow, hdepth⟩ := argumentsAt_eq hloaded
  obtain ⟨-, hrsp, -, -, hints, hfloats⟩ := run_enter (m := m) (by omega)
  obtain ⟨-, hrdx, hrcx⟩ := hloaded.apart
  refine ⟨?_, rfl, fun k r hk => ?_, fun k hk => ?_⟩
  · show (m.run dcCall_x64_sysv_enter).reg .rsp - 8 = _
    rw [hrsp]
  · have hk6 : k < 6 := (List.getElem?_eq_some_iff.mp hk).1
    have hne : r ≠ .rax ∧ r ≠ .rsp := by
      have hmem := List.mem_of_getElem? hk
      simp only [argReg, List.mem_cons, List.not_mem_nil, or_false] at hmem
      rcases hmem with rfl | rfl | rfl | rfl | rfl | rfl <;> decide
    have hsame : (enterCallback m ra pcb).reg r = (m.run dcCall_x64_sysv_enter).reg r := by
      simp [enterCallback, Processor.call, Function.update_of_ne hne.1, Function.update_of_ne hne.2]
    have ha := untouched_part hrdx (o := 8 * k) (k := 8) (by omega)
    rw [Untouched, hdepth] at ha
    rw [hsame, hints k r hk]
    exact loadWord_congr fun i hi => copiedMem_outside (by omega) (by omega)
  · have hk8 : k < 8 := hk
    have ha := untouched_part hrcx (o := 8 * k) (k := 8) (by omega)
    rw [Untouched, hdepth] at ha
    show (m.run dcCall_x64_sysv_enter).xmm k = _
    rw [hfloats k hk]
    exact loadWord_congr fun i hi => savedMem_outside (by omega) (by omega)

variable (ra) in
/-- The frame of the callback, with what it is made of. -/
theorem handler_frame (hloaded : Loaded vm m) (hcb : CallbackAt cb aggrsAt m pcb) :
    (enterHandler m ra pcb).reg .rsi = argumentsAt m - 160 ∧
      (enterHandler m ra pcb).mem =
        storeWords (enterCallback m ra pcb).mem (argumentsAt m - 160)
          (callbackFrame (enterCallback m ra pcb) (loadWord m.mem (pcb + 48))
            (decodeLE (slice m.mem (pcb + 40) 4))) := by
  obtain ⟨hat, hlow, hdepth⟩ := argumentsAt_eq hloaded
  obtain ⟨hrsp, hrax, -⟩ := enterCallback_regs ra pcb hloaded
  have hapart := hcb.apart
  rw [Untouched, hdepth] at hapart
  obtain ⟨hmem, -, -, -, -, hrsi, -⟩ := run_callback_enter (m := enterCallback m ra pcb)
    (b := argumentsAt m - 192) (by omega) (by rw [hrax]; omega)
  have h48 := untouched_part hcb.apart (o := 48) (k := 8) (by omega)
  have h40 := untouched_part hcb.apart (o := 40) (k := 4) (by omega)
  rw [hrax, loadWord_enterCallback hloaded h48, slice_enterCallback hloaded h40,
    show argumentsAt m - 192 + 32 = argumentsAt m - 160 by omega] at hmem
  exact ⟨hrsi.trans (by omega), hmem⟩

variable (ra) in
/-- A word of the frame, from where the handler finds its `DCArgs`. -/
theorem handler_word (hloaded : Loaded vm m) (hcb : CallbackAt cb aggrsAt m pcb) {k w : ℕ}
    (hk : (callbackFrame (enterCallback m ra pcb) (loadWord m.mem (pcb + 48))
      (decodeLE (slice m.mem (pcb + 40) 4)))[k]? = some w) :
    slice (enterHandler m ra pcb).mem ((enterHandler m ra pcb).reg .rsi + 8 * k) 8 =
      encodeLE 8 w := by
  obtain ⟨hrsi, hmem⟩ := handler_frame ra hloaded hcb
  rw [hrsi, hmem]
  exact slice_storeWords hk

/-- The number that says where the address of the result is. -/
theorem handler_returnReg (hloaded : Loaded vm m) (hcb : CallbackAt cb aggrsAt m pcb) :
    slice (enterHandler m ra pcb).mem ((enterHandler m ra pcb).reg .rsi + 16) 4 =
      slice m.mem (pcb + 40) 4 := by
  have hret := handler_word ra hloaded hcb (k := 2) rfl
  have hlt := decodeLE_lt (slice m.mem (pcb + 40) 4)
  have hbytes := encodeLE_decodeLE (slice m.mem (pcb + 40) 4)
  rw [length_slice] at hlt hbytes
  rw [slice_take (show 4 ≤ 8 by omega), hret, take_encodeLE 4 4, Nat.mod_eq_of_lt hlt, hbytes]

/-- The integers are those of the machine, the address of the result among them. -/
theorem handler_ints (hloaded : Loaded vm m) (hcb : CallbackAt cb aggrsAt m pcb) {k : ℕ}
    (hk : k < numIntRegs) :
    (DCArgs.inMemory (enterHandler m ra pcb).mem aggrsAt
      ((enterHandler m ra pcb).reg .rsi)).reg_data.i k = vm.mRegData.i k := by
  obtain ⟨-, -, hints, -⟩ := enterCallback_regs ra pcb hloaded
  have hlen : k < argReg.length := hk
  have hreg : (callbackFrame (enterCallback m ra pcb) (loadWord m.mem (pcb + 48))
      (decodeLE (slice m.mem (pcb + 40) 4)))[k + 4]? =
        some ((enterCallback m ra pcb).reg argReg[k]) := by
    match k, hk with
    | 0, _ | 1, _ | 2, _ | 3, _ | 4, _ | 5, _ => rfl
  show clonglong.decode (slice _ (_ + 32 + 8 * k) 8) = _
  rw [Nat.add_assoc, show 32 + 8 * k = 8 * (k + 4) by omega, handler_word ra hloaded hcb hreg,
    hints k _ (List.getElem?_eq_getElem hlen), encodeLE_loadWord]
  exact hloaded.ints k hk

/-- **The handler is given what the machine holds**: the arguments it can read are those that were
put in, if the callback passes the address of its result as the caller does. -/
theorem handler_entered {ds others : List (Option SysvAggr)} (hloaded : Loaded vm m)
    (hcb : CallbackAt cb aggrsAt m pcb)
    (hreg : ∀ i : ℕ, (i : ℤ) = cb.aggr_return_register ↔ (i : ℤ) = vm.mAggrReturnReg)
    (hds : cb.aggrs = ds ++ others) (hlimit : m.reg .rsp < 2 ^ 64) :
    Entered (argumentsAt m) (vm, ds) others
      (DCArgs.inMemory (enterHandler m ra pcb).mem aggrsAt ((enterHandler m ra pcb).reg .rsi))
      (enterHandler m ra pcb).mem := by
  obtain ⟨hat, hlow, hdepth⟩ := argumentsAt_eq hloaded
  obtain ⟨hrsp, -, -, hfloats⟩ := enterCallback_regs ra pcb hloaded
  obtain ⟨-, hmem⟩ := handler_frame ra hloaded hcb
  refine ⟨?_, ?_, fun i => ?_, fun k hk _ => handler_ints hloaded hcb hk, fun k hk => ?_,
    fun j hj => ?_, ?_⟩
  · -- the counts start at zero
    have hzero := handler_word ra hloaded hcb (k := 1) (w := 0) rfl
    show (⟨decodeLE (slice _ (_ + 8) 4), decodeLE (slice _ (_ + 12) 4)⟩ : DCRegCount_x64) = _
    rw [slice_take (show 4 ≤ 8 by omega), hzero, show (12 : ℕ) = 8 * 1 + 4 by rfl, ← Nat.add_assoc,
      slice_drop 4 4, hzero]
    rfl
  · -- the address of the arguments
    have hptr := handler_word ra hloaded hcb (k := 0) rfl
    show decodeLE (slice _ _ 8) = _
    rw [← Nat.add_zero ((enterHandler m ra pcb).reg .rsi), ← Nat.mul_zero 8, hptr, hrsp,
      decodeLE_encodeLE_of_lt (by norm_num; omega)]
    omega
  · show (i : ℤ) = cint.decode (slice _ (_ + 16) 4) ↔ _
    rw [handler_returnReg hloaded hcb, hcb.returnReg]
    exact hreg i
  · -- the floating numbers
    have hxmm : (callbackFrame (enterCallback m ra pcb) (loadWord m.mem (pcb + 48))
        (decodeLE (slice m.mem (pcb + 40) 4)))[k + 10]? =
          some ((enterCallback m ra pcb).xmm k) := by
      match k, hk with
      | 0, _ | 1, _ | 2, _ | 3, _ | 4, _ | 5, _ | 6, _ | 7, _ => rfl
    show decodeLE (slice _ (_ + 80 + 8 * k) 8) = _
    rw [Nat.add_assoc, show 80 + 8 * k = 8 * (k + 10) by omega, handler_word ra hloaded hcb hxmm,
      hfloats k hk, encodeLE_loadWord]
    exact hloaded.floats k hk
  · -- the arguments on the stack lie above the frame
    have hframe : j < frameSize (m.reg .rdi) := by
      have hsize : vm.mVecHead.mSize = m.reg .rdi := hloaded.size.symm
      rw [hsize] at hj
      unfold frameSize
      omega
    have hsrc := hloaded.apart.1
    rw [Untouched, hdepth] at hsrc
    obtain ⟨hcopied, hat', -⟩ := run_enter (m := m) (by omega)
    have hentry : (enterCallback m ra pcb).mem (argumentsAt m + j) =
        copiedMem m (argumentsAt m + j) := by
      show storeWord (m.run dcCall_x64_sysv_enter).mem
        ((m.run dcCall_x64_sysv_enter).reg .rsp - 8) ra _ = _
      rw [hcopied, hat', storeWord_of_outside (by omega)]
    rw [hmem, storeWords_of_outside (by
      simp only [callbackFrame, List.length_cons, List.length_nil]; omega), hentry,
      copiedMem_arguments (by omega) (by omega) hframe]
    exact hloaded.data j hj
  · have haggrs := handler_word ra hloaded hcb (k := 3) (w := loadWord m.mem (pcb + 48)) rfl
    show aggrsAt (decodeLE (slice _ (_ + 24) 8)) = _
    rw [show (24 : ℕ) = 8 * 3 by rfl, haggrs,
      decodeLE_encodeLE_of_lt ((loadWord_lt _ _).trans_le (by norm_num)), hcb.aggrs]
    exact hds

end Handler

end Affix.Analysis
