import Affix.Analysis.CallKernel

/-!
# The way back from a callback

The two kernels restore what they have saved, so a call comes back to where it was made
with the registers a function has to keep, and the result passes through both.

SOURCE: dyncall_call_x64.S:81-101, dyncall_callback_x64.S:110-134
-/

set_option autoImplicit false

namespace Affix.Analysis

open Affix.Foundation Affix.Model Affix.Interface

section Return

variable {m h h' : Processor} {vm : DCCallVM_x64} {cb : DCCallback} {ra pcb : ℕ}
  {aggrsAt : ℕ → List (Option SysvAggr)}

variable (ra) in
/-- The stack pointer and the frame of the handler. -/
theorem handler_regs (hloaded : Loaded vm m) (hcb : CallbackAt cb aggrsAt m pcb) :
    (enterHandler m ra pcb).reg .rsp = argumentsAt m - 192 ∧
      (enterHandler m ra pcb).reg .rbp = argumentsAt m - 16 := by
  obtain ⟨hat, hlow, hdepth⟩ := argumentsAt_eq hloaded
  obtain ⟨hrsp, hrax, -⟩ := enterCallback_regs ra pcb hloaded
  have hapart := hcb.apart
  rw [Untouched, hdepth] at hapart
  obtain ⟨-, hrsp', hrbp, -⟩ := run_callback_enter (m := enterCallback m ra pcb)
    (b := argumentsAt m - 192) (by omega) (by rw [hrax]; omega)
  exact ⟨hrsp', hrbp.trans (by omega)⟩

/-- The result is wanted at the stack pointer. -/
theorem handler_result (hloaded : Loaded vm m) (hcb : CallbackAt cb aggrsAt m pcb) :
    (enterHandler m ra pcb).reg .rdx = (enterHandler m ra pcb).reg .rsp := by
  obtain ⟨hat, hlow, hdepth⟩ := argumentsAt_eq hloaded
  obtain ⟨hrsp, hrax, -⟩ := enterCallback_regs ra pcb hloaded
  have hapart := hcb.apart
  rw [Untouched, hdepth] at hapart
  obtain ⟨-, hrsp', -, -, -, -, hrdx, -⟩ := run_callback_enter (m := enterCallback m ra pcb)
    (b := argumentsAt m - 192) (by omega) (by rw [hrax]; omega)
  exact hrdx.trans hrsp'.symm

/-- **The stack is aligned** for every call: where the kernel is entered as a function is, its
target and the handler are called with a multiple of sixteen. -/
theorem stack_aligned (hloaded : Loaded vm m) (hcb : CallbackAt cb aggrsAt m pcb)
    (hentry : m.reg .rsp % 16 = 8) :
    (m.run dcCall_x64_sysv_enter).reg .rsp % 16 = 0 ∧
      (enterHandler m ra pcb).reg .rsp % 16 = 0 := by
  obtain ⟨hat, hlow, -⟩ := argumentsAt_eq hloaded
  obtain ⟨-, hrsp, -⟩ := run_enter (m := m) (by omega)
  obtain ⟨hhandler, -⟩ := handler_regs ra hloaded hcb
  rw [hrsp, hhandler]
  have hframe : frameSize (m.reg .rdi) % 16 = 8 := by
    unfold frameSize
    omega
  omega

variable (ra) in
/-- The words that the kernels saved, when the handler is called. -/
theorem saved_words (hloaded : Loaded vm m) (hcb : CallbackAt cb aggrsAt m pcb)
    (hlimit : m.reg .rsp < 2 ^ 64) (hrbp : m.reg .rbp < 2 ^ 64) (hrbx : m.reg .rbx < 2 ^ 64) :
    loadWord (enterHandler m ra pcb).mem (argumentsAt m - 16) = m.reg .rsp - 16 ∧
      loadWord (enterHandler m ra pcb).mem (m.reg .rsp - 16) = m.reg .rbx ∧
      loadWord (enterHandler m ra pcb).mem (m.reg .rsp - 8) = m.reg .rbp := by
  obtain ⟨hat, hlow, hdepth⟩ := argumentsAt_eq hloaded
  obtain ⟨hmem, hrsp, hframe, -⟩ := run_enter (m := m) (by omega)
  obtain ⟨-, hhandler⟩ := handler_frame ra hloaded hcb
  have hrbp' : (enterCallback m ra pcb).reg .rbp = m.reg .rsp - 16 := hframe
  have hsaved : ∀ k w, [m.reg .rbx, m.reg .rbp][k]? = some w → w < 2 ^ 64 →
      loadWord (enterHandler m ra pcb).mem (m.reg .rsp - 16 + 8 * k) = w := fun k w hk hw => by
    have hk2 : k < 2 := (List.getElem?_eq_some_iff.mp hk).1
    rw [← loadWord_storeWords (f := m.mem) (a := m.reg .rsp - 16) hk hw]
    refine loadWord_congr fun i hi => ?_
    rw [hhandler, storeWords_of_outside (by
      simp only [callbackFrame, List.length_cons, List.length_nil]; omega)]
    show storeWord (m.run dcCall_x64_sysv_enter).mem
      ((m.run dcCall_x64_sysv_enter).reg .rsp - 8) ra _ = _
    rw [hmem, hrsp, storeWord_of_outside (by omega), copiedMem, repMovsb_outside (by omega),
      savedMem]
  refine ⟨?_, hsaved 0 _ rfl hrbx, ?_⟩
  · rw [hhandler, show argumentsAt m - 16 = argumentsAt m - 160 + 8 * 18 by omega]
    exact loadWord_storeWords (congrArg some hrbp') (by omega)
  · have := hsaved 1 _ rfl hrbp
    rwa [show m.reg .rsp - 16 + 8 * 1 = m.reg .rsp - 8 by omega] at this

/-- What the entry of a callback does after the handler. -/
theorem run_leaveCallback (m : Processor) :
    InResultRegisters (!decide (cint.decode (slice m.mem (m.reg .rsp + 48) 4) = -2)) m.mem
        (m.reg .rsp) m.leaveCallback ∧
      m.leaveCallback.reg .rsp = m.reg .rbp + 16 ∧
      m.leaveCallback.reg .rbp = loadWord m.mem (m.reg .rbp) ∧ m.leaveCallback.mem = m.mem := by
  have hrun : ∀ aggregate, InResultRegisters aggregate m.mem (m.reg .rsp)
        (((m.run (dcCallback_x64_sysv_result aggregate)).run dcCallback_x64_sysv_leave).ret) ∧
      (((m.run (dcCallback_x64_sysv_result aggregate)).run dcCallback_x64_sysv_leave).ret).reg
          .rsp = m.reg .rbp + 16 ∧
      (((m.run (dcCallback_x64_sysv_result aggregate)).run dcCallback_x64_sysv_leave).ret).reg
          .rbp = loadWord m.mem (m.reg .rbp) ∧
      (((m.run (dcCallback_x64_sysv_result aggregate)).run dcCallback_x64_sysv_leave).ret).mem =
          m.mem := by
    intro aggregate
    cases aggregate with
    | true => exact ⟨⟨rfl, fun _ => rfl, rfl, fun _ => rfl⟩, rfl, rfl, rfl⟩
    | false =>
      exact ⟨⟨rfl, fun h => Bool.noConfusion h, rfl, fun h => Bool.noConfusion h⟩, rfl, rfl, rfl⟩
  exact hrun _

/-- What the caller's kernel does after the call. -/
theorem run_leaveCall (m : Processor) :
    m.leaveCall.reg .rsp = m.reg .rbp + 24 ∧
      m.leaveCall.reg .rbx = loadWord m.mem (m.reg .rbp) ∧
      m.leaveCall.reg .rbp = loadWord m.mem (m.reg .rbp + 8) ∧
      m.leaveCall.reg .rax = m.reg .rax ∧ m.leaveCall.reg .rdx = m.reg .rdx ∧
      m.leaveCall.xmm = m.xmm ∧ m.leaveCall.mem = m.mem :=
  ⟨rfl, rfl, rfl, rfl, rfl, rfl, rfl⟩

/-- The number that says where the result goes is the callback's. -/
theorem returnReg_kept (hloaded : Loaded vm m) (hcb : CallbackAt cb aggrsAt m pcb)
    (hhandler : HandlerReturns m (enterHandler m ra pcb) h') :
    cint.decode (slice h'.mem (h'.reg .rsp + 48) 4) = cb.aggr_return_register := by
  obtain ⟨hat, hlow, -⟩ := argumentsAt_eq hloaded
  obtain ⟨hrsp, -⟩ := handler_regs ra hloaded hcb
  obtain ⟨hrsi, -⟩ := handler_frame ra hloaded hcb
  have hkept : slice h'.mem (h'.reg .rsp + 48) 4 =
      slice (enterHandler m ra pcb).mem ((enterHandler m ra pcb).reg .rsi + 16) 4 := by
    refine slice_congr fun i hi => ?_
    rw [hhandler.rsp, hhandler.returnReg _ (by omega) (by omega), hrsp, hrsi,
      show argumentsAt m - 192 + 48 = argumentsAt m - 160 + 16 by omega]
  rw [hkept, handler_returnReg hloaded hcb, hcb.returnReg]

/-- **A call comes back** to where it was made, whatever the handler did on its way: the stack
pointer and the saved registers are what they were, and the registers of the result are what the
handler left for them. -/
theorem call_returns (hloaded : Loaded vm m) (hcb : CallbackAt cb aggrsAt m pcb)
    (hlimit : m.reg .rsp < 2 ^ 64) (hrbp : m.reg .rbp < 2 ^ 64) (hrbx : m.reg .rbx < 2 ^ 64)
    (hhandler : HandlerReturns m (enterHandler m ra pcb) h') :
    CallReturned (!decide (cb.aggr_return_register = -2)) m h' h'.leaveCallback.leaveCall := by
  obtain ⟨hat, hlow, hdepth⟩ := argumentsAt_eq hloaded
  obtain ⟨-, hbase⟩ := handler_regs ra hloaded hcb
  obtain ⟨hframe, hsaved, hsaved'⟩ := saved_words ra hloaded hcb hlimit hrbp hrbx
  obtain ⟨hresult, hrsp, hrbp', hmem⟩ := run_leaveCallback h'
  rw [returnReg_kept hloaded hcb hhandler] at hresult
  have hstack : h'.leaveCallback.reg .rbp = m.reg .rsp - 16 := by
    rw [hrbp', hhandler.rbp, hbase, ← hframe]
    exact loadWord_congr fun i hi => hhandler.saved _ (by omega)
  obtain ⟨hrsp₂, hrbx₂, hrbp₂, hrax, hrdx, hxmm, hmem₂⟩ := run_leaveCall h'.leaveCallback
  rw [hstack, hmem] at hrbx₂ hrbp₂
  refine ⟨⟨?_, ?_, ?_, ?_⟩, ?_, ?_, ?_, ?_⟩
  · rw [hrax, hresult.rax]
  · rw [hrdx]
    exact hresult.rdx
  · rw [hxmm, hresult.xmm0]
  · rw [hxmm]
    exact hresult.xmm1
  · rw [hrsp₂, hstack]
    omega
  · rw [hrbp₂, ← hsaved', show m.reg .rsp - 16 + 8 = m.reg .rsp - 8 by omega]
    exact loadWord_congr fun i hi => hhandler.saved _ (by omega)
  · rw [hrbx₂, ← hsaved]
    exact loadWord_congr fun i hi => hhandler.saved _ (by omega)
  · rw [hmem₂, hmem]

/-- An integer that is in the low bytes of a word is what is left of the word in its type. -/
theorem wrap_loadWord {f : ℕ → UInt8} {a : ℕ} {t : CIntType} {v : ℤ} (hbytes : t.Bytewise)
    (hsize : t.size ≤ 8) (hv : slice f a t.size = t.encode v) :
    t.wrap (clonglong.wrap (loadWord f a)) = t.wrap v := by
  have hbits : t.bits ≤ clonglong.bits := by
    have : t.bits = 8 * t.size := hbytes
    show t.bits ≤ 64
    omega
  have hdecode : t.decode (slice f a t.size) = t.wrap (loadWord f a) := by
    unfold CIntType.decode
    rw [decodeLE_slice_low hsize]
    refine CIntType.wrap_congr ?_
    rw [CIntType.card_eq_pow_size hbytes]
    push_cast
    exact Int.emod_emod_of_dvd _ dvd_rfl
  rw [CIntType.wrap_wrap_of_le hbits, ← hdecode, hv, CIntType.decode_encode hbytes rfl]

/-- **A scalar comes back**: whatever member of the union the handler stored its result in, the
caller finds it in the register it looks at for that type, and it is back where it made the call,
with the registers a function has to keep. -/
theorem scalar_returned (hloaded : Loaded vm m) (hcb : CallbackAt cb aggrsAt m pcb)
    (hm : ∀ r, m.reg r < 2 ^ 64) (hh : h = enterHandler m ra pcb)
    (hhandler : HandlerReturns m h h') {m' : Processor} (hm' : m' = h'.leaveCallback.leaveCall) :
    (∀ (t : CIntType) (v : ℤ), t.Bytewise → t.size ≤ 8 →
        slice h'.mem (h.reg .rdx) t.size = t.encode v →
        t.wrap (clonglong.wrap (m'.reg .rax)) = t.wrap v) ∧
      (cb.aggr_return_register = -2 → ∀ n ≤ 8, ∀ bits,
        slice h'.mem (h.reg .rdx) n = encodeLE n bits → m'.xmm 0 % 256 ^ n = bits % 256 ^ n) ∧
      m'.reg .rsp = m.reg .rsp + 8 ∧ m'.reg .rbp = m.reg .rbp ∧ m'.reg .rbx = m.reg .rbx := by
  subst hh hm'
  have hreturned := call_returns hloaded hcb (hm .rsp) (hm .rbp) (hm .rbx) hhandler
  have hplace : h'.reg .rsp = (enterHandler m ra pcb).reg .rdx := by
    rw [hhandler.rsp, handler_result hloaded hcb]
  refine ⟨fun t v hbytes hsize hv => ?_, fun hscalar n hn bits hbits => ?_, hreturned.rsp,
    hreturned.rbp, hreturned.rbx⟩
  · rw [hreturned.rax, hplace]
    exact wrap_loadWord hbytes hsize hv
  · have hxmm := hreturned.xmm0
    rw [hscalar, hplace] at hxmm
    have hxmm' : h'.leaveCallback.leaveCall.xmm 0 =
        loadWord h'.mem ((enterHandler m ra pcb).reg .rdx) := hxmm
    rw [hxmm', ← decodeLE_slice_low hn, hbits, decodeLE_encodeLE]

/-- A machine without arguments. -/
def bareVM (aggrReturnReg : ℤ) : DCCallVM_x64 where
  mAggrReturnReg := aggrReturnReg
  mRegCount := ⟨0, 0⟩
  mRegData := ⟨fun _ => 0, fun _ => 0⟩
  mVecHead := ⟨64, 0, fun _ => 0⟩

/-- A kernel is called for it, with a place at 20000, and the callback at 13000 says where its
result goes. -/
def bareCall (returnReg : List UInt8) (address : ℕ) : Processor where
  reg
    | .rsi => 12000
    | .rdx => 10000
    | .rcx => 11000
    | .rsp => 4000
    | .r9 => 20000
    | _ => 0
  xmm _ := 0
  mem := storeWord (Mem.overlay (fun _ => 0) 13040 returnReg) 10000 address

/-- When the handler is called, and when it has stored a short. -/
def shortBefore : Processor := enterHandler (bareCall [254, 255, 255, 255] 0) 0 13000

def shortAfter : Processor :=
  { shortBefore with
    mem := Mem.overlay shortBefore.mem (shortBefore.reg .rdx) (cshort.encode (-3)) }

/-- The short is stored in the bytes of the result alone. -/
theorem shortReturns :
    HandlerReturns (bareCall [254, 255, 255, 255] 0) shortBefore shortAfter := by
  have hrdx : shortBefore.reg .rdx = 3784 := by decide +kernel
  have hmem : ∀ x, 3786 ≤ x → shortAfter.mem x = shortBefore.mem x := fun x hx => by
    show Mem.overlay _ (shortBefore.reg .rdx) _ x = _
    rw [hrdx, overlay_of_outside (by rw [CIntType.length_encode]; exact Or.inr hx)]
  have hat : argumentsAt (bareCall [254, 255, 255, 255] 0) = 3976 := by decide +kernel
  have hm : (bareCall [254, 255, 255, 255] 0).reg .rsp = 4000 := rfl
  have hrsp : shortBefore.reg .rsp = 3784 := by decide +kernel
  exact ⟨by simp only [shortAfter], by simp only [shortAfter], fun x hx => hmem x (by omega),
    fun x hx _ => hmem x (by omega)⟩

theorem loaded_bareShort : Loaded (bareVM (-1)) (bareCall [254, 255, 255, 255] 0) := by
  refine ⟨by decide +kernel, fun j hj => absurd hj (Nat.not_lt_zero j), by decide +kernel,
    by decide +kernel, by decide +kernel, ?_⟩
  unfold Untouched
  decide +kernel

theorem callbackAt_bareShort :
    CallbackAt ⟨-2, []⟩ (fun _ => []) (bareCall [254, 255, 255, 255] 0) 13000 := by
  refine ⟨by decide +kernel, rfl, ?_⟩
  unfold Untouched
  decide +kernel

theorem bareShort_lt (r : Reg) : (bareCall [254, 255, 255, 255] 0).reg r < 2 ^ 64 := by
  cases r <;> decide

theorem scalar_returned_short :
    cshort.wrap (clonglong.wrap (shortAfter.leaveCallback.leaveCall.reg .rax)) =
      cshort.wrap (-3) :=
  (scalar_returned loaded_bareShort callbackAt_bareShort bareShort_lt rfl shortReturns rfl).1
    cshort (-3) (by decide) (by decide) slice_overlay_same

end Return

end Affix.Analysis
