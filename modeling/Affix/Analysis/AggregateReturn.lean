import Affix.Analysis.CallReturn

/-!
# A struct that is returned

A callback splits a small struct into the words of four registers, by the classes of its
eightbytes, and the caller puts it together from these words by the same classes. A
struct that is returned in memory is copied to where the caller wants it.

SOURCE: dyncall_args_x64.c:152-193, dyncall_callvm_x64.c:278-323, dyncall_call_x64.S:89-101
-/

set_option autoImplicit false

namespace Affix.Analysis

open Affix.Foundation Affix.Model Affix.Interface DCCallVM_x64 DCArgs

/-- The eightbytes from an index on of the struct at `ret` in `mem` are at the next words of the
integer registers and of the floating registers. -/
def WordsAt (mem : ℕ → UInt8) (ret : ℕ) (m : ℕ → UInt8) : (i : ℕ) → List SysvClass →
    (regs_i regs_f : ℕ) → Prop
  | _, [], _, _ => True
  | i, .integer :: cs, regs_i, regs_f =>
    slice m regs_i 8 = slice mem (ret + 8 * i) 8 ∧
      WordsAt mem ret m (i + 1) cs (regs_i + 8) regs_f
  | i, _ :: cs, regs_i, regs_f =>
    slice m regs_f 8 = slice mem (ret + 8 * i) 8 ∧
      WordsAt mem ret m (i + 1) cs regs_i (regs_f + 8)

/-- Neither kind of register runs into the words of the other. -/
structure RegistersApart (cs : List SysvClass) (regs_i regs_f : ℕ) : Prop where
  classes : ∀ c ∈ cs, c = .integer ∨ c = .sse
  apart : regs_i + 8 * cs.count .integer ≤ regs_f

section Words

variable {mem m m' : ℕ → UInt8} {ret regs_i regs_f i : ℕ} {cs : List SysvClass}

theorem RegistersApart.integer (h : RegistersApart (.integer :: cs) regs_i regs_f) :
    RegistersApart cs (regs_i + 8) regs_f where
  classes := fun c hc => h.classes c (List.mem_cons_of_mem _ hc)
  apart := by
    have := h.apart
    rw [List.count_cons_self] at this
    omega

theorem RegistersApart.sse (h : RegistersApart (.sse :: cs) regs_i regs_f) :
    RegistersApart cs regs_i (regs_f + 8) where
  classes := fun c hc => h.classes c (List.mem_cons_of_mem _ hc)
  apart := by
    have := h.apart
    rw [List.count_cons_of_ne (by decide)] at this
    omega

/-- The words are where they are in any memory with the same registers. -/
theorem WordsAt.move {regs_i' regs_f' : ℕ} (h : WordsAt mem ret m i cs regs_i regs_f)
    (hclasses : ∀ c ∈ cs, c = .integer ∨ c = .sse)
    (hi : ∀ x < 8 * cs.count .integer, m' (regs_i' + x) = m (regs_i + x))
    (hf : ∀ x < 8 * cs.count .sse, m' (regs_f' + x) = m (regs_f + x)) :
    WordsAt mem ret m' i cs regs_i' regs_f' := by
  induction cs generalizing i regs_i regs_f regs_i' regs_f' with
  | nil => trivial
  | cons c cs ih =>
    obtain ⟨hc, hcs⟩ := List.forall_mem_cons.mp hclasses
    rcases hc with rfl | rfl
    · rw [List.count_cons_self] at hi
      rw [List.count_cons_of_ne (by decide)] at hf
      refine ⟨(slice_congr fun x hx => hi x (by omega)).trans h.1, ih h.2 hcs (fun x hx => ?_) hf⟩
      rw [Nat.add_assoc, Nat.add_assoc]
      exact hi (8 + x) (by omega)
    · rw [List.count_cons_self] at hf
      rw [List.count_cons_of_ne (by decide)] at hi
      refine ⟨(slice_congr fun x hx => hf x (by omega)).trans h.1, ih h.2 hcs hi fun x hx => ?_⟩
      rw [Nat.add_assoc, Nat.add_assoc]
      exact hf (8 + x) (by omega)

/-- The words are those of the struct in any memory that has the struct. -/
theorem WordsAt.source {mem' : ℕ → UInt8} (h : WordsAt mem ret m i cs regs_i regs_f)
    (hsame : ∀ x < 8 * (i + cs.length), mem' (ret + x) = mem (ret + x)) :
    WordsAt mem' ret m i cs regs_i regs_f := by
  induction cs generalizing i regs_i regs_f with
  | nil => trivial
  | cons c cs ih =>
    rw [List.length_cons] at hsame
    have hword : slice mem (ret + 8 * i) 8 = slice mem' (ret + 8 * i) 8 :=
      slice_congr fun x hx => by
        rw [Nat.add_assoc]
        exact (hsame (8 * i + x) (by omega)).symm
    cases c <;> exact ⟨h.1.trans hword, ih h.2 fun x hx => hsame x (by omega)⟩

/-- A word that is stored, where the bytes are kept afterwards. -/
theorem slice_storeWord_kept {a b : ℕ} (hkept : ∀ x < 8, m (a + x) = storeWord m' a (loadWord mem b)
    (a + x)) : slice m a 8 = slice mem b 8 := by
  have hstored : slice (storeWord m' a (loadWord mem b)) a 8 = encodeLE 8 (loadWord mem b) := by
    have := @slice_overlay_same m' a (encodeLE 8 (loadWord mem b))
    rwa [length_encodeLE] at this
  rw [slice_congr hkept, hstored, encodeLE_loadWord]

/-- **A struct is split** into the words of the registers. -/
theorem returnEightbytes_words (hregs : RegistersApart cs regs_i regs_f)
    (hret : ret + 8 * (i + cs.length) ≤ regs_i ∨ regs_f + 8 * cs.count .sse ≤ ret) :
    ∃ m, returnEightbytes ret i cs regs_i regs_f mem = some m ∧
      WordsAt mem ret m i cs regs_i regs_f ∧
      ∀ x, x < regs_i ∨ regs_i + 8 * cs.count .integer ≤ x ∧ x < regs_f ∨
        regs_f + 8 * cs.count .sse ≤ x → m x = mem x := by
  induction cs generalizing i regs_i regs_f mem with
  | nil => exact ⟨mem, rfl, trivial, fun _ _ => rfl⟩
  | cons c cs ih =>
    have hapart := hregs.apart
    have hlen : (c :: cs).length = cs.length + 1 := rfl
    rcases hregs.classes c List.mem_cons_self with rfl | rfl
    · have hnext := hregs.integer
      have hcount := List.count_cons_self (a := SysvClass.integer) (l := cs)
      have hcount' : (SysvClass.integer :: cs).count .sse = cs.count .sse :=
        List.count_cons_of_ne (by decide)
      have hrow := hnext.apart
      rw [hcount] at hapart ⊢
      rw [hcount'] at hret ⊢
      obtain ⟨m, hrun, hwords, hframe⟩ :=
        @ih (storeWord mem regs_i (loadWord mem (ret + 8 * i))) _ _ (i + 1) hnext (by omega)
      refine ⟨m, hrun, ⟨?_, ?_⟩, fun x hx => ?_⟩
      · exact slice_storeWord_kept fun x hx => hframe _ (by omega)
      · refine hwords.source fun x hx => ?_
        exact (storeWord_of_outside (by omega)).symm
      · rw [hframe x (by omega), storeWord_of_outside (by omega)]
    · have hnext := hregs.sse
      have hcount := List.count_cons_self (a := SysvClass.sse) (l := cs)
      have hcount' : (SysvClass.sse :: cs).count .integer = cs.count .integer :=
        List.count_cons_of_ne (by decide)
      rw [hcount'] at hapart ⊢
      rw [hcount] at hret ⊢
      obtain ⟨m, hrun, hwords, hframe⟩ :=
        @ih (storeWord mem regs_f (loadWord mem (ret + 8 * i))) _ _ (i + 1) hnext (by omega)
      refine ⟨m, hrun, ⟨?_, ?_⟩, fun x hx => ?_⟩
      · exact slice_storeWord_kept fun x hx => hframe _ (by omega)
      · refine hwords.source fun x hx => ?_
        exact (storeWord_of_outside (by omega)).symm
      · rw [hframe x (by omega), storeWord_of_outside (by omega)]

/-- An eightbyte of the struct, or what is left of it, is copied from a register. -/
theorem eightbyte_copied {src dst n : ℕ} (hword : slice m src 8 = slice mem (ret + 8 * i) 8)
    (hn : n ≤ 8) :
    ∀ j < n, Mem.overlay m dst (slice m src n) (dst + j) = mem (ret + 8 * i + j) := by
  intro j hj
  have hpart : slice m src n = slice mem (ret + 8 * i) n := by
    rw [slice_take hn, slice_take hn, hword]
  rw [hpart, overlay_of_inside (by rwa [length_slice])]
  simp only [slice, List.getElem_map, List.getElem_range]

/-- The first eightbyte and the rest. -/
theorem eightbytes_cons {f m₁ : ℕ → UInt8} {st_size dst n : ℕ}
    (hfirst : ∀ j < 8, m₁ (dst + j) = mem (ret + 8 * i + j))
    (hrest : ∀ j < st_size - 8, j < 8 * n → f (dst + 8 + j) = mem (ret + 8 * (i + 1) + j))
    (hframe : ∀ x, x < dst + 8 ∨ dst + 8 + (st_size - 8) ≤ x → f x = m₁ x) :
    ∀ j < st_size, j < 8 * (n + 1) → f (dst + j) = mem (ret + 8 * i + j) := by
  intro j hj hj'
  by_cases hj8 : j < 8
  · rw [hframe _ (by omega)]
    exact hfirst j hj8
  · have := hrest (j - 8) (by omega) (by omega)
    rwa [show dst + 8 + (j - 8) = dst + j by omega,
      show ret + 8 * (i + 1) + (j - 8) = ret + 8 * i + j by omega] at this

/-- **A struct is put together** from the words of the registers, as far as its eightbytes go. -/
theorem reassemble_words {st_size dst : ℕ} (hregs : RegistersApart cs regs_i regs_f)
    (hwords : WordsAt mem ret m i cs regs_i regs_f) (hsize : ∀ k < cs.length, 8 * k < st_size)
    (hdst : dst + st_size ≤ regs_i ∨ regs_f + 8 * cs.count .sse ≤ dst) :
    (∀ j < st_size, j < 8 * cs.length →
      reassemble cs regs_i regs_f st_size dst m (dst + j) = mem (ret + 8 * i + j)) ∧
    ∀ x, x < dst ∨ dst + st_size ≤ x → reassemble cs regs_i regs_f st_size dst m x = m x := by
  induction cs generalizing i regs_i regs_f st_size dst m with
  | nil => exact ⟨fun j _ hj => absurd hj (Nat.not_lt_zero j), fun _ _ => rfl⟩
  | cons c cs ih =>
    have hlen : (c :: cs).length = cs.length + 1 := rfl
    by_cases hlast : st_size < 8
    · -- the last eightbyte, which the struct need not fill
      obtain rfl : cs = [] := by
        cases cs with
        | nil => rfl
        | cons _ cs =>
          have := hsize 1 (Nat.succ_lt_succ (Nat.succ_pos cs.length))
          omega
      have hlast' : ∀ src, slice m src 8 = slice mem (ret + 8 * i) 8 →
          (∀ j < st_size, j < 8 * [c].length →
            Mem.overlay m dst (slice m src st_size) (dst + j) = mem (ret + 8 * i + j)) ∧
          ∀ x, x < dst ∨ dst + st_size ≤ x → Mem.overlay m dst (slice m src st_size) x = m x :=
        fun src hword => ⟨fun j hj _ => eightbyte_copied hword (by omega) j hj,
          fun x hx => overlay_of_outside (by rwa [length_slice])⟩
      rcases hregs.classes c List.mem_cons_self with rfl | rfl
      · simp only [reassemble, if_pos hlast]
        exact hlast' regs_i hwords.1
      · simp only [reassemble, if_pos hlast]
        exact hlast' regs_f hwords.1
    · have hapart := hregs.apart
      have hrest : ∀ k < cs.length, 8 * k < st_size - 8 := fun k hk => by
        have := hsize (k + 1) (by omega)
        omega
      rcases hregs.classes c List.mem_cons_self with rfl | rfl
      · have hcount := List.count_cons_self (a := SysvClass.integer) (l := cs)
        have hcount' : (SysvClass.integer :: cs).count .sse = cs.count .sse :=
          List.count_cons_of_ne (by decide)
        rw [hcount'] at hdst
        rw [hcount] at hapart
        simp only [reassemble, if_neg hlast]
        obtain ⟨hbytes, hframe⟩ := @ih (Mem.overlay m dst (slice m regs_i 8)) _ _ _ _ (dst + 8)
          hregs.integer (hwords.2.move hregs.integer.classes
            (fun x hx => overlay_of_outside (by rw [length_slice]; omega))
            fun x hx => overlay_of_outside (by rw [length_slice]; omega)) hrest (by omega)
        refine ⟨eightbytes_cons (eightbyte_copied hwords.1 le_rfl) hbytes hframe, fun x hx => ?_⟩
        rw [hframe x (by omega), overlay_of_outside (by rw [length_slice]; omega)]
      · have hcount := List.count_cons_self (a := SysvClass.sse) (l := cs)
        have hcount' : (SysvClass.sse :: cs).count .integer = cs.count .integer :=
          List.count_cons_of_ne (by decide)
        rw [hcount] at hdst
        rw [hcount'] at hapart
        simp only [reassemble, if_neg hlast]
        obtain ⟨hbytes, hframe⟩ := @ih (Mem.overlay m dst (slice m regs_f 8)) _ _ _ _ (dst + 8)
          hregs.sse (hwords.2.move hregs.sse.classes
            (fun x hx => overlay_of_outside (by rw [length_slice]; omega))
            fun x hx => overlay_of_outside (by rw [length_slice]; omega)) hrest (by omega)
        refine ⟨eightbytes_cons (eightbyte_copied hwords.1 le_rfl) hbytes hframe, fun x hx => ?_⟩
        rw [hframe x (by omega), overlay_of_outside (by rw [length_slice]; omega)]

end Words

/-! ## In registers -/

section Registers

variable {m h h' : Processor} {vm : DCCallVM_x64} {cb : DCCallback} {ra ra' pcb : ℕ}
  {aggrsAt : ℕ → List (Option SysvAggr)} {ag : SysvAggr} {p : DCArgs} {mem : ℕ → UInt8}
  {ret dst : ℕ}

theorem eq_of_slice {f g : ℕ → UInt8} {a b n : ℕ} (h : slice f a n = slice g b n) :
    ∀ x < n, f (a + x) = g (b + x) := fun x hx => by
  have := congrArg (·[x]?) h
  simp only [getElem?_slice hx] at this
  exact Option.some.inj this

/-- What the kernel for structs does after the call: the words of the registers are stored. -/
theorem run_leaveAggrCall {regs result : ℕ} {bytes : ℕ → UInt8}
    (hregs : loadWord m.mem (m.reg .rsp) = regs) (hresult : InResultRegisters true bytes result m) :
    (∀ x < 32, (leaveAggrCall m).mem (regs + x) = bytes (result + x)) ∧
      (∀ x, x < regs ∨ regs + 32 ≤ x → (leaveAggrCall m).mem x = m.mem x) ∧
      (leaveAggrCall m).reg .rsp = m.reg .rsp + 16 ∧ (leaveAggrCall m).reg .rbp = m.reg .rbp ∧
      (leaveAggrCall m).reg .rbx = m.reg .rbx := by
  have hmem : (leaveAggrCall m).mem =
      storeWords m.mem regs [m.reg .rax, m.reg .rdx, m.xmm 0, m.xmm 1] := by
    simp only [leaveAggrCall, Processor.run, dcCall_x64_sysv_aggr_leave, List.foldl, Processor.step,
      Processor.ret, set_reg, set_mem, set_xmm, Function.update_apply, reduceCtorEq, if_false,
      if_true, hregs, Nat.add_zero]
    rw [storeWord_eq_storeWords m.mem]
    simp (disch := simp only [List.length_cons, List.length_nil]) only [storeWord_after,
      List.cons_append, List.nil_append]
  have hword : ∀ k w, [m.reg .rax, m.reg .rdx, m.xmm 0, m.xmm 1][k]? = some w →
      w = loadWord bytes (result + 8 * k) →
      ∀ x < 8, (leaveAggrCall m).mem (regs + 8 * k + x) = bytes (result + 8 * k + x) := by
    intro k w hk hw
    refine eq_of_slice ?_
    rw [hmem, slice_storeWords hk, hw, encodeLE_loadWord]
  refine ⟨fun x hx => ?_, fun x hx => ?_, rfl, rfl, rfl⟩
  · have hk : ∃ k < 4, ∃ y < 8, x = 8 * k + y := ⟨x / 8, by omega, x % 8, by omega, by omega⟩
    obtain ⟨k, hk, y, hy, rfl⟩ := hk
    rw [← Nat.add_assoc, ← Nat.add_assoc]
    obtain rfl | rfl | rfl | rfl : k = 0 ∨ k = 1 ∨ k = 2 ∨ k = 3 := by omega
    · exact hword 0 _ rfl hresult.rax y hy
    · exact hword 1 _ rfl (hresult.rdx rfl) y hy
    · exact hword 2 _ rfl hresult.xmm0 y hy
    · exact hword 3 _ rfl (hresult.xmm1 rfl) y hy
  · rw [hmem, storeWords_of_outside hx]

theorem registersApart_of_proper (hproper : SysvAggr.Proper ag) (regs : ℕ) :
    RegistersApart ag.eightbytes regs (regs + 16) where
  classes := fun c hc => by
    obtain ⟨i, hi⟩ := List.getElem?_of_mem hc
    exact (hproper.classes i c hi).imp_right And.left
  apart := by
    have hfew := few_of_proper hproper
    have hcount := List.count_le_length (a := SysvClass.integer) (l := ag.eightbytes)
    omega

theorem registers_of_proper (hproper : SysvAggr.Proper ag) : ag.inMemory = false := by
  by_contra hmemory
  obtain ⟨cs, hcs⟩ : ∃ cs, ag.sysv_classes = .memory :: cs := by
    have hhead : ag.sysv_classes.head? = some .memory := by
      simpa [SysvAggr.inMemory] using hmemory
    exact List.head?_eq_some_iff.mp hhead
  have hfirst : ag.eightbytes[0]? = some .memory := by
    rw [SysvAggr.eightbytes, hcs]
    rfl
  rcases hproper.classes 0 _ hfirst with h | ⟨h, -⟩ <;> cases h

theorem dcbReturnAggr_registers {result : ℕ} {aggrs : List (Option SysvAggr)}
    (haggrs : p.aggrs = some ag :: aggrs) (hreg : p.aggr_return_register < 0) :
    p.dcbReturnAggr result ret mem =
      returnEightbytes ret 0 (ag.eightbytes.take 2) result (result + 16) mem := by
  simp only [dcbReturnAggr, haggrs, if_neg (not_le.mpr hreg)]

theorem dcbReturnAggr_memory {result : ℕ} {aggrs : List (Option SysvAggr)}
    (haggrs : p.aggrs = some ag :: aggrs) (hreg : p.aggr_return_register = 0)
    (hdest : (culong.wrap (p.reg_data.i 0)).toNat = dst) :
    p.dcbReturnAggr result ret mem =
      some (storeWord (Mem.overlay mem dst (slice mem ret ag.size)) result dst) := by
  simp only [dcbReturnAggr, haggrs, hreg, le_refl, if_true, Int.toNat_zero, hdest]

/-- What lies above the kernels is as it was when the handler is called. -/
theorem handler_above (hloaded : Loaded vm m) (hcb : CallbackAt cb aggrsAt m pcb) {x : ℕ}
    (hx : m.reg .rsp ≤ x) : (enterHandler m ra pcb).mem x = m.mem x := by
  obtain ⟨hat, hlow, -⟩ := argumentsAt_eq hloaded
  obtain ⟨-, hmem⟩ := handler_frame ra hloaded hcb
  rw [hmem, storeWords_of_outside (by
    simp only [callbackFrame, List.length_cons, List.length_nil]; omega),
    enterCallback_mem hloaded (Or.inr hx)]

/-- Where the handler is told that the result goes. -/
theorem handler_decides (hloaded : Loaded vm m) (hcb : CallbackAt cb aggrsAt m pcb) :
    (DCArgs.inMemory (enterHandler m ra pcb).mem aggrsAt
      ((enterHandler m ra pcb).reg .rsi)).aggr_return_register = cb.aggr_return_register := by
  show cint.decode (slice _ (_ + 16) 4) = _
  rw [handler_returnReg hloaded hcb, hcb.returnReg]

/-- **A struct is returned in registers**: the callback splits it, both kernels keep the words, and
the caller puts it together where it wants it. -/
theorem struct_returned_in_registers (hproper : SysvAggr.Proper ag)
    (hm : ∀ r, m.reg r < 2 ^ 64) {m₁ h : Processor} (hm₁ : m₁ = enterAggrCall m ra')
    (hloaded : Loaded vm m₁) (hcb : CallbackAt cb aggrsAt m₁ pcb)
    (hreg : cb.aggr_return_register = -1) (hh : h = enterHandler m₁ ra pcb)
    (hover : HandsOver ag (DCArgs.inMemory h.mem aggrsAt (h.reg .rsi)) p mem ret h h')
    (hret : ret + 16 ≤ h.reg .rdx ∨ h.reg .rdx + 32 ≤ ret)
    (hhandler : AggrHandlerReturns m m₁ h h')
    (hdst : dst + ag.size ≤ m.reg .r9 ∨ m.reg .r9 + 32 ≤ dst) {m' : Processor}
    (hm' : m' = leaveAggrCall h'.leaveCallback.leaveCall) :
    SameStruct ag mem ret (reassemble ag.eightbytes (m.reg .r9) (m.reg .r9 + 16) ag.size dst m'.mem)
        dst ∧
      m'.reg .rsp = m.reg .rsp + 8 ∧ m'.reg .rbp = m.reg .rbp ∧ m'.reg .rbx = m.reg .rbx := by
  subst hm₁ hh hm'
  obtain ⟨hat, hlow, hdepth⟩ := argumentsAt_eq hloaded
  obtain ⟨hrsp, -⟩ := handler_regs ra hloaded hcb
  obtain ⟨hrsi, -⟩ := handler_frame ra hloaded hcb
  have hfew := few_of_proper hproper
  rw [handler_result hloaded hcb, hrsp] at hret
  -- the kernel for structs has pushed the place of the words
  have hentry : (enterAggrCall m ra').reg .rsp = m.reg .rsp - 16 := by
    show m.reg .rsp - 8 - 8 = _
    omega
  have hpushed : loadWord (enterAggrCall m ra').mem (m.reg .rsp - 8) = m.reg .r9 := by
    show loadWord
      (storeWord (storeWord m.mem (m.reg .rsp - 8) (m.reg .r9)) (m.reg .rsp - 8 - 8) ra') _ = _
    rw [loadWord_storeWord_disjoint (by omega), loadWord_storeWord (hm .r9)]
  have hentered : ∀ r, r ≠ .rsp → (enterAggrCall m ra').reg r = m.reg r := fun r hr => by
    simp [enterAggrCall, Processor.run, dcCall_x64_sysv_aggr_enter, Processor.step,
      Processor.call, hr]
  -- the handler splits the struct
  have hdecide : p.aggr_return_register = -1 := by
    rw [hover.returnReg, handler_decides hloaded hcb, hreg]
  obtain ⟨aggrs, haggrs⟩ := hover.next
  have hsplit : DCArgs.returnEightbytes ret 0 ag.eightbytes
      (argumentsAt (enterAggrCall m ra') - 192) (argumentsAt (enterAggrCall m ra') - 192 + 16) mem =
        some h'.mem := by
    have := hover.handed
    rwa [dcbReturnAggr_registers haggrs (by omega), handler_result hloaded hcb, hrsp,
      List.take_of_length_le hfew] at this
  have hcount := List.count_le_length (a := SysvClass.sse) (l := ag.eightbytes)
  obtain ⟨bytes, hbytes, hwords, -⟩ := @returnEightbytes_words mem ret _ _ 0 _
    (registersApart_of_proper hproper (argumentsAt (enterAggrCall m ra') - 192)) (by omega)
  obtain rfl : bytes = h'.mem := Option.some.inj (hbytes.symm.trans hsplit)
  -- both kernels return
  have hreturned := call_returns hloaded hcb (by rw [hentry]; have := hm .rsp; omega)
    (by rw [hentered _ (by decide)]; exact hm _) (by rw [hentered _ (by decide)]; exact hm _)
    hhandler.toHandlerReturns
  rw [hreg] at hreturned
  have hplace : loadWord h'.leaveCallback.leaveCall.mem (h'.leaveCallback.leaveCall.reg .rsp) =
      m.reg .r9 := by
    rw [hreturned.rsp, hreturned.mem, hentry, ← hpushed]
    refine loadWord_congr fun i hi => ?_
    rw [show m.reg .rsp - 16 + 8 = m.reg .rsp - 8 by omega, hhandler.pushed _ (by omega) (by omega),
      handler_above hloaded hcb (by omega)]
  obtain ⟨hstored, -, hrsp', hrbp', hrbx'⟩ :=
    run_leaveAggrCall hplace hreturned.toInResultRegisters
  rw [hhandler.rsp, hrsp] at hstored
  -- the words are put together
  have hcountInt := List.count_le_length (a := SysvClass.integer) (l := ag.eightbytes)
  have hmoved : WordsAt mem ret (leaveAggrCall h'.leaveCallback.leaveCall).mem 0 ag.eightbytes
      (m.reg .r9) (m.reg .r9 + 16) := hwords.move
    (registersApart_of_proper hproper 0).classes (fun x hx => hstored x (by omega))
    fun x hx => by rw [Nat.add_assoc, hstored _ (by omega), Nat.add_assoc]
  obtain ⟨hdone, -⟩ := @reassemble_words _ _ _ _ _ _ _ _ dst
    (registersApart_of_proper hproper (m.reg .r9)) hmoved hproper.starts (by omega)
  refine ⟨fun j hj hpart => ?_, ?_, ?_, ?_⟩
  · rw [registers_of_proper hproper] at hpart
    have hpart' := hpart.resolve_left Bool.false_ne_true
    exact hdone j hj (by omega)
  · rw [hrsp', hreturned.rsp, hentry]
    omega
  · rw [hrbp', hreturned.rbp, hentered _ (by decide)]
  · rw [hrbx', hreturned.rbx, hentered _ (by decide)]

/-! ### A struct of an integer and a double -/

def mixedAggr : SysvAggr := ⟨16, [.integer, .sse, .none]⟩

theorem mixedAggr_proper : SysvAggr.Proper mixedAggr := by
  refine ⟨by decide, by decide, fun i c h => ?_⟩
  match i, h with
  | 0, h => exact Or.inl (Option.some.inj h).symm
  | 1, h => exact Or.inr ⟨(Option.some.inj h).symm, Or.inl (by decide)⟩

/-- When the handler is called, and when it has handed over the struct at 9000. -/
def mixedBefore : Processor :=
  enterHandler (enterAggrCall (bareCall [255, 255, 255, 255] 0) 0) 0 13000

def mixedAfter : Processor :=
  { mixedBefore with
    mem := storeWord (storeWord mixedBefore.mem (mixedBefore.reg .rdx)
      (loadWord mixedBefore.mem 9000)) (mixedBefore.reg .rdx + 16) (loadWord mixedBefore.mem 9008) }

theorem struct_returned_in_registers_mixed :
    SameStruct mixedAggr mixedBefore.mem 9000 (reassemble mixedAggr.eightbytes 20000 20016 16
      30000 (leaveAggrCall mixedAfter.leaveCallback.leaveCall).mem) 30000 := by
  have hplace : mixedBefore.reg .rsp = 3768 ∧ mixedBefore.reg .rdx = 3768 := by decide +kernel
  obtain ⟨hrsp, hrdx⟩ := hplace
  have hmem : ∀ x, x < 3768 ∨ 3792 ≤ x → mixedAfter.mem x = mixedBefore.mem x := fun x hx => by
    show storeWord (storeWord _ (mixedBefore.reg .rdx) _) (mixedBefore.reg .rdx + 16) _ x = _
    rw [hrdx, storeWord_of_outside (by omega), storeWord_of_outside (by omega)]
  refine (@struct_returned_in_registers (bareCall [255, 255, 255, 255] 0) mixedAfter (bareVM (-1))
    ⟨-1, [some mixedAggr]⟩ 0 0 13000 (fun _ => [some mixedAggr]) mixedAggr
    (DCArgs.inMemory mixedBefore.mem (fun _ => [some mixedAggr]) (mixedBefore.reg .rsi))
    mixedBefore.mem 9000 30000 mixedAggr_proper ?_ _ mixedBefore rfl ?_ ?_ rfl rfl ?_ ?_ ?_ ?_ _
    rfl).1
  · intro r
    cases r <;> decide
  · refine ⟨by decide +kernel, fun j hj => absurd hj (Nat.not_lt_zero j), by decide +kernel,
      by decide +kernel, by decide +kernel, ?_⟩
    unfold Untouched
    decide +kernel
  · refine ⟨by decide +kernel, rfl, ?_⟩
    unfold Untouched
    decide +kernel
  · refine ⟨⟨[], rfl⟩, rfl, rfl, ?_⟩
    rw [dcbReturnAggr_registers rfl (by decide +kernel)]
    rfl
  · exact Or.inr (hrdx ▸ by decide)
  · refine ⟨⟨by simp only [mixedAfter], by simp only [mixedAfter], fun x hx => hmem x ?_,
      fun x hx _ => hmem x ?_⟩, fun x hx _ => hmem x ?_⟩
    · have hat : argumentsAt (enterAggrCall (bareCall [255, 255, 255, 255] 0) 0) = 3960 := by
        decide +kernel
      have hm : (enterAggrCall (bareCall [255, 255, 255, 255] 0) 0).reg .rsp = 3984 := by
        decide +kernel
      omega
    · omega
    · have : 3992 ≤ x := hx
      omega
  · exact Or.inr (by decide)

/-- The address of a result in memory is the first integer. -/
theorem returnAddress_read (hvm : vm.mAggrReturnReg = 0) (hdst : dst < 2 ^ 64) :
    (culong.wrap ((vm.withReturnAddress dst).mRegData.i 0)).toNat = dst := by
  have hreg : (vm.withReturnAddress dst).mRegData.i 0 = clonglong.wrap dst := by
    simp [withReturnAddress, hvm]
  have hrange : culong.InRange (dst : ℤ) := by
    have hcast : (dst : ℤ) < 2 ^ 64 := by exact_mod_cast hdst
    exact ⟨Int.natCast_nonneg dst, hcast.trans_eq (zero_add _).symm⟩
  rw [hreg, CIntType.wrap_wrap_of_le (t := culong) (u := clonglong) le_rfl,
    CIntType.wrap_of_inRange hrange, Int.toNat_natCast]

/-- **A struct is returned in memory**: the address the caller gave reaches the callback, the struct
is copied there, and the address comes back. -/
theorem struct_returned_in_memory (hloaded : Loaded (vm.withReturnAddress dst) m)
    (hvm : vm.mAggrReturnReg = 0) (hdst : dst < 2 ^ 64) (hm : ∀ r, m.reg r < 2 ^ 64)
    (hcb : CallbackAt cb aggrsAt m pcb) (hreg : cb.aggr_return_register = 0)
    (hh : h = enterHandler m ra pcb)
    (hover : HandsOver ag (DCArgs.inMemory h.mem aggrsAt (h.reg .rsi)) p mem ret h h')
    (hhandler : HandlerReturns m h h') (hapart : dst + ag.size ≤ h.reg .rdx ∨ h.reg .rdx + 8 ≤ dst)
    {m' : Processor} (hm' : m' = h'.leaveCallback.leaveCall) :
    (∀ j < ag.size, m'.mem (dst + j) = mem (ret + j)) ∧ m'.reg .rax = dst ∧
      m'.reg .rsp = m.reg .rsp + 8 ∧ m'.reg .rbp = m.reg .rbp ∧ m'.reg .rbx = m.reg .rbx := by
  subst hh hm'
  obtain ⟨aggrs, haggrs⟩ := hover.next
  have hdecide : p.aggr_return_register = 0 := by
    rw [hover.returnReg, handler_decides hloaded hcb, hreg]
  have hdest : (culong.wrap (p.reg_data.i 0)).toNat = dst := by
    rw [hover.registers, handler_ints hloaded hcb (show 0 < numIntRegs by decide)]
    exact returnAddress_read hvm hdst
  have hcopied := hover.handed
  rw [dcbReturnAggr_memory haggrs hdecide hdest] at hcopied
  have hmem := (Option.some.inj hcopied).symm
  have hreturned := call_returns hloaded hcb (hm .rsp) (hm .rbp) (hm .rbx) hhandler
  refine ⟨fun j hj => ?_, ?_, hreturned.rsp, hreturned.rbp, hreturned.rbx⟩
  · rw [hreturned.mem, hmem, storeWord_of_outside (by omega),
      overlay_of_inside (by rwa [length_slice])]
    simp only [slice, List.getElem_map, List.getElem_range]
  · rw [hreturned.rax, hhandler.rsp, ← handler_result hloaded hcb, hmem]
    exact loadWord_storeWord hdst

/-- A struct that is too large for registers. -/
def largeAggr : SysvAggr := ⟨24, [.memory]⟩

/-- When the handler is called, and when it has handed over the struct at 9000. -/
def largeBefore : Processor := enterHandler (bareCall [0, 0, 0, 0] 30000) 0 13000

def largeAfter : Processor :=
  { largeBefore with
    mem := storeWord (Mem.overlay largeBefore.mem 30000 (slice largeBefore.mem 9000 24))
      (largeBefore.reg .rdx) 30000 }

theorem struct_returned_in_memory_large :
    (∀ j < 24, largeAfter.leaveCallback.leaveCall.mem (30000 + j) = largeBefore.mem (9000 + j)) ∧
      largeAfter.leaveCallback.leaveCall.reg .rax = 30000 := by
  have hplace : largeBefore.reg .rsp = 3784 ∧ largeBefore.reg .rdx = 3784 := by decide +kernel
  obtain ⟨hrsp, hrdx⟩ := hplace
  have hreturned := @struct_returned_in_memory (bareCall [0, 0, 0, 0] 30000) largeBefore largeAfter
    (bareVM 0) ⟨0, [some largeAggr]⟩ 0 13000 (fun _ => [some largeAggr]) largeAggr
    (DCArgs.inMemory largeBefore.mem (fun _ => [some largeAggr]) (largeBefore.reg .rsi))
    largeBefore.mem 9000 30000 ?_ rfl (by decide) ?_ ?_ rfl rfl ?_ ?_ ?_ _ rfl
  · exact ⟨hreturned.1, hreturned.2.1⟩
  · refine ⟨by decide +kernel, fun j hj => absurd hj (Nat.not_lt_zero j), by decide +kernel,
      by decide +kernel, by decide +kernel, ?_⟩
    unfold Untouched
    decide +kernel
  · intro r
    cases r <;> decide
  · refine ⟨by decide +kernel, rfl, ?_⟩
    unfold Untouched
    decide +kernel
  · refine ⟨⟨[], rfl⟩, rfl, rfl, ?_⟩
    rw [@dcbReturnAggr_memory _ _ _ _ 30000 _ _ rfl (by decide +kernel) (by decide +kernel)]
    rfl
  · have hat : argumentsAt (bareCall [0, 0, 0, 0] 30000) = 3976 := by decide +kernel
    have hm : (bareCall [0, 0, 0, 0] 30000).reg .rsp = 4000 := rfl
    have hmem : ∀ x, 3792 ≤ x → x < 30000 → largeAfter.mem x = largeBefore.mem x := by
      intro x hx hx'
      show storeWord (Mem.overlay _ _ _) (largeBefore.reg .rdx) _ x = _
      rw [hrdx, storeWord_of_outside (by omega),
        overlay_of_outside (by rw [length_slice]; omega)]
    exact ⟨by simp only [largeAfter], by simp only [largeAfter],
      fun x hx => hmem x (by omega) (by omega), fun x hx hx' => hmem x (by omega) (by omega)⟩
  · exact Or.inr (by rw [hrdx]; decide)

end Registers

end Affix.Analysis
