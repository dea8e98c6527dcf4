import Affix.Analysis.CallThrough
import Affix.Analysis.CallReturn
import Affix.Analysis.CallbackNumbers
import Affix.Analysis.IntegerRoundTrip

/-!
# From Perl to Perl

A sub that has been handed to C can be called as a C function. An integer then takes the
whole way: the argument switch of the trigger makes a word of it, the word goes through
the call machine and both kernels, the reader of the callback takes it out, and the
argument switch of the handler makes a scalar of it for the sub. Nothing is lost but
what the last switch reads signed. What the sub returns takes the way back through the
union of the handler and the register of the result.

SOURCE: Affix.cxx:344-475, dyncall_callvm_x64.c:80-122, dyncall_call_x64.S:47-101,
dyncall_callback_x64.S:58-134, dyncall_args_x64.c:33-63, Callback.cxx:3-236
-/

set_option autoImplicit false

namespace Affix.Analysis

open Affix.Foundation Affix.Model Affix.Interface

/-- An integer that a call is made with: the declared type, the scalar, and its number. -/
structure PerlNumber where
  kind : Kind
  slots : Slots
  scalar : Scalar
  value : ℤ

namespace PerlNumber

def type (n : PerlNumber) : TypeObj := .scalar n.kind n.slots

def sv (n : PerlNumber) : SV := .val n.scalar

/-- The scalar has an integer of the declared type. -/
def Typed (n : PerlNumber) : Prop :=
  ∃ t, cInt n.kind = some t ∧ n.scalar.iv = some n.value ∧ t.InRange n.value

/-- The word carries the number at the declared type. -/
def CarriedBy (n : PerlNumber) (x : ℤ) : Prop := ∃ t, cInt n.kind = some t ∧ t.wrap x = n.value

/-- A word carries what its 64 bits do. -/
theorem CarriedBy.wrap {n : PerlNumber} {x : ℤ} (h : n.CarriedBy x) :
    n.CarriedBy (clonglong.wrap x) := by
  obtain ⟨t, ht, hx⟩ := h
  exact ⟨t, ht, (CIntType.wrap_wrap_of_le (bits_le_of_cInt ht) x).trans hx⟩

end PerlNumber

/-! ## The way out -/

/-- **The trigger makes words of the integers**, and touches nothing. -/
theorem convertAll_numbers {ns : List PerlNumber} (hns : ∀ n ∈ ns, n.Typed) (h : Heap) :
    ∃ xs : List ℤ, convertAll (ns.map PerlNumber.type) (ns.map PerlNumber.sv) h =
        .ok (xs.map .int, h) ∧ List.Forall₂ PerlNumber.CarriedBy ns xs := by
  induction ns with
  | nil => exact ⟨[], rfl, .nil⟩
  | cons n ns ih =>
    obtain ⟨⟨t, ht, hiv, hrange⟩, hns⟩ := List.forall_mem_cons.mp hns
    obtain ⟨x, hx, hwrap⟩ := argument_int ht n.slots hiv h
    obtain ⟨xs, hxs, hall⟩ := ih hns
    have hcarried : n.CarriedBy x := ⟨t, ht, hwrap.trans (CIntType.wrap_of_inRange hrange)⟩
    refine ⟨x :: xs, ?_, .cons hcarried hall⟩
    have hfirst : argument n.type n.sv h = .ok (some (.int x), h) := hx
    rw [List.map_cons, List.map_cons, convertAll, Exec.bind_of_ok hfirst, Exec.bind_of_ok hxs]
    rfl

/-! ## Through the machine -/

theorem descriptors_words (xs : List ℤ) : descriptors (xs.map Passed.word) = [] := by
  induction xs with
  | nil => rfl
  | cons x xs ih =>
    rw [List.map_cons, descriptors_cons, ih]
    rfl

theorem room_words (xs : List ℤ) : ((xs.map Passed.word).map Passed.room).sum = 8 * xs.length := by
  induction xs with
  | nil => rfl
  | cons x xs ih =>
    rw [List.map_cons, List.map_cons, List.sum_cons, ih, List.length_cons]
    show 8 + 8 * xs.length = _
    omega

theorem words_of_arrives {mem : ℕ → UInt8} : ∀ {xs : List ℤ} {bs : List Got},
    List.Forall₂ (Arrives mem) (xs.map Passed.word) bs →
      bs = xs.map fun x => .word (clonglong.wrap x)
  | [], _, .nil => rfl
  | x :: xs, .word y :: bs, .cons hy hbs => by
    have hword : y = clonglong.wrap x := hy
    rw [List.map_cons, hword, words_of_arrives hbs]

/-! ## The way in -/

/-- What the callback is called with, as words with their types and numbers. -/
theorem exists_cArguments {ns : List PerlNumber} {xs : List ℤ}
    (h : List.Forall₂ PerlNumber.CarriedBy ns xs) : ∃ as : List CArgument,
      (∀ a ∈ as, a.Carried) ∧ (as.map fun a => a.kind.flag) = ns.map (fun n => n.kind.flag) ∧
      (as.map fun a => DCbArg.word a.word) = xs.map (fun x => .word (clonglong.wrap x)) ∧
      as.map CArgument.value = ns.map PerlNumber.value ∧
      ((∀ a ∈ as, Widens a.kind a.value) ↔ ∀ n ∈ ns, Widens n.kind n.value) := by
  induction h with
  | nil => exact ⟨[], List.forall_mem_nil _, rfl, rfl, rfl, by simp⟩
  | @cons n x ns xs hx _ ih =>
    obtain ⟨as, hcarried, hflags, hwords, hvalues, hwidens⟩ := ih
    refine ⟨⟨n.kind, clonglong.wrap x, n.value⟩ :: as,
      List.forall_mem_cons.mpr ⟨Or.inr hx.wrap, hcarried⟩, ?_, ?_, ?_, ?_⟩
    · rw [List.map_cons, List.map_cons, hflags]
    · rw [List.map_cons, List.map_cons, hwords]
    · rw [List.map_cons, List.map_cons, hvalues]
    · rw [List.forall_mem_cons, List.forall_mem_cons, hwidens]

/-- **An integer takes the way from Perl to Perl.** The trigger makes words of the arguments; put in
the machine, they go through both kernels, and the sub of the callback that reads them is called
with as many scalars. These have the numbers that the call was made with if and only if none of
type `UChar`, `UShort` or `UInt` is in the upper half of its type. -/
theorem numbers_reach_sub {ns : List PerlNumber} (hns : ∀ n ∈ ns, n.Typed) (st : Interp)
    {cb : Callback} {k : Kind} {sl : Slots}
    (hsignature : cb.signature = ns.map fun n => n.kind.flag)
    (hret : cb.restype = .scalar k sl) (hk : k.flag ≠ .void) :
    ∃ xs : List ℤ, pushArguments (ns.map PerlNumber.type) (ns.map PerlNumber.sv) st =
        .ok ((), { st with vm := { st.vm with args := st.vm.args ++ xs.map .int } }) ∧
      ∀ {mem₀ : ℕ → UInt8} {vm : DCCallVM_x64} {sig : List Char} {m : Processor} {ra pcb ret : ℕ}
        {aggrsAt : ℕ → List (Option SysvAggr)}, 8 * ns.length ≤ vm.mVecHead.mTotal →
        Signs sig [] none →
        Loaded (((calling mem₀).puts (xs.map .word) (beginResult none vm, [])).1.withReturnAddress
          ret) m →
        CallbackAt (dcbInitCallback2 sig []) aggrsAt m pcb → m.reg .rsp < 2 ^ 64 →
        ∃ (ws : List ℤ) (p' : DCArgs) (mem' : ℕ → UInt8),
          (calling mem₀).takes (ns.map fun _ => .word)
            (DCArgs.inMemory (enterHandler m ra pcb).mem aggrsAt ((enterHandler m ra pcb).reg .rsi),
              (enterHandler m ra pcb).mem) = some (ws.map .word, p', mem') ∧
          ∃ svs, CalledWith cb (ws.map .word) svs ∧
            (svs.map svSlot = ns.map PerlNumber.value ↔ ∀ n ∈ ns, Widens n.kind n.value) := by
  obtain ⟨xs, hxs, hcarried⟩ := convertAll_numbers hns st.heap
  refine ⟨xs, pushArguments_eq_ok.mpr ⟨_, _, hxs, rfl⟩, ?_⟩
  intro mem₀ vm sig m ra pcb ret aggrsAt hroom hsig hloaded hcb hlimit
  -- the words arrive
  have hlen := hcarried.length_eq
  have hds := descriptors_words xs
  obtain ⟨bs, p', mem', htakes, hall, -⟩ := @call_carries mem₀ vm (xs.map .word) none sig m ra pcb
    ret aggrsAt (by rwa [hds]) (by rw [room_words]; omega)
    (fun a ha => by obtain ⟨x, -, rfl⟩ := List.mem_map.mp ha; trivial) hloaded
    (by rwa [hds]) hlimit _ rfl
  rw [words_of_arrives hall] at htakes
  have hshapes : (xs.map Passed.word).map Passed.wanted = ns.map fun _ => Wanted.word := by
    rw [List.map_map, List.map_const', hlen]
    exact List.map_const'
  rw [hshapes] at htakes
  -- the handler makes scalars of them
  obtain ⟨as, has, hflags, hwords, hvalues, hwidens⟩ := exists_cArguments hcarried
  obtain ⟨svs, hcalled, hnums⟩ := calledWith_pushed (hsignature.trans hflags.symm) hret hk has
  rw [hwords] at hcalled
  refine ⟨xs.map clonglong.wrap, p', mem', ?_, svs, ?_, ?_⟩
  · rw [htakes, List.map_map]
    rfl
  · rw [List.map_map]
    exact hcalled
  · rw [hnums, ← hvalues, List.map_inj_left, ← hwidens]
    exact forall₂_congr fun a ha => pushed_eq_self_iff (has a ha)

/-- Integers of type `Int`. -/
def intNumbers (vs : List ℤ) : List PerlNumber :=
  vs.map fun v => ⟨.Int, (scalarType .Int).slots, .newSViv v, v⟩

theorem convertAll_ints : ∀ {vs : List ℤ},
    (∀ v ∈ vs, cint.wrap (SvIV (.val (.newSViv v))) = v) → ∀ h : Heap,
    convertAll ((intNumbers vs).map PerlNumber.type) ((intNumbers vs).map PerlNumber.sv) h =
      .ok (vs.map .int, h)
  | [], _, _ => rfl
  | v :: vs, hvs, h => by
    obtain ⟨hv, hvs⟩ := List.forall_mem_cons.mp hvs
    have hfirst : argument (scalarType .Int) (.val (.newSViv v)) h = .ok (some (.int v), h) :=
      congrArg (fun x => Except.ok (some (DCArg.int x), h)) hv
    exact (Exec.bind_of_ok hfirst).trans ((Exec.bind_of_ok (convertAll_ints hvs h)).trans rfl)

/-- Seven integers: one is left for the stack. -/
def sevenInts : List PerlNumber := intNumbers [1, 2, 3, 4, 5, 6, 7]

/-- `CodeRef[ [ Int, Int, Int, Int, Int, Int, Int ] => Int ]`. -/
def sevenIntsToInt : Callback :=
  ⟨sevenInts.map fun n => n.kind.flag, none, scalarType .Int, .undef false⟩

/-- The kernel is called for them, with the address of a callback whose result is no aggregate. -/
def sevenCall : Processor where
  reg
    | .rdi => 8
    | .rsi => 10000
    | .rdx => 11000
    | .rcx => 12000
    | .rsp => 4000
    | _ => 0
  xmm _ := 0
  mem := Mem.overlay (storeWords (storeWords (fun _ => 0) 10000 [7]) 11000 [1, 2, 3, 4, 5, 6]) 13040
    [254, 255, 255, 255]

/-- A machine that is idle. -/
def noCall : Interp := ⟨.empty, ⟨false, []⟩, [], none⟩

theorem numbers_reach_sub_seven : ∃ (ws : List ℤ) (p' : DCArgs) (mem' : ℕ → UInt8),
    (calling fun _ => 0).takes (sevenInts.map fun _ => .word)
      (DCArgs.inMemory (enterHandler sevenCall 0 13000).mem (fun _ => [])
        ((enterHandler sevenCall 0 13000).reg .rsi), (enterHandler sevenCall 0 13000).mem) =
        some (ws.map .word, p', mem') ∧
      ∃ svs, CalledWith sevenIntsToInt (ws.map .word) svs ∧
        (svs.map svSlot = [1, 2, 3, 4, 5, 6, 7] ↔ ∀ n ∈ sevenInts, Widens n.kind n.value) := by
  have htyped : ∀ n ∈ sevenInts, n.Typed := by
    intro n hn
    obtain ⟨v, hv, rfl⟩ := List.mem_map.mp hn
    have hsmall : cint.InRange v ∧ clong.InRange v := by
      clear hn
      revert v
      decide
    exact ⟨cint, rfl, congrArg some (CIntType.wrap_of_inRange hsmall.2), hsmall.1⟩
  obtain ⟨xs, hpush, hreach⟩ := @numbers_reach_sub sevenInts htyped noCall sevenIntsToInt .Int _
    rfl rfl (by decide)
  have hwords : [1, 2, 3, 4, 5, 6, 7].map DCArg.int = xs.map DCArg.int := by
    obtain ⟨as, h, hconvert, hst⟩ := pushArguments_eq_ok.mp hpush
    rw [sevenInts, convertAll_ints (by decide)] at hconvert
    obtain ⟨rfl, -⟩ := Prod.mk.inj (Except.ok.inj hconvert)
    exact (congrArg (fun st : Interp => st.vm.args) hst).symm
  obtain rfl := List.map_injective_iff.mpr (fun _ _ h => DCArg.int.inj h) hwords
  refine @hreach (fun _ => 0) (DCCallVM_x64.dcNewCallVM 176 ⟨fun _ => 0, fun _ => 0⟩ fun _ => 0)
    ['i', 'i', 'i', 'i', 'i', 'i', 'i', ')', 'i'] sevenCall 0 13000 0 (fun _ => []) (by decide)
    ⟨by decide, by decide, by decide⟩ ?_ ?_ (by decide)
  · refine ⟨by decide +kernel, by decide +kernel, by decide +kernel, by decide +kernel,
      by decide, ?_⟩
    unfold Untouched
    decide +kernel
  · refine ⟨by decide +kernel, rfl, ?_⟩
    unfold Untouched
    decide

/-! ## The way back -/

/-- The integer of a value is at the address. -/
def IntegerAt (mem : ℕ → UInt8) (a : ℕ) : DCValue → Prop
  | .int member v => ∃ t, memberType member = some t ∧ slice mem a t.size = t.encode v
  | .f _ | .d _ | .p _ => False

/-- The member for a C type has that type, which is in a word. -/
theorem memberType_cSigchar {k : Kind} {t : CIntType} (ht : cInt k = some t) :
    memberType (cSigchar k) = some t ∧ t.Bytewise ∧ t.size ≤ 8 := by
  cases k <;> simp only [cInt, Option.some.injEq, reduceCtorEq] at ht <;> subst ht <;>
    exact ⟨rfl, by decide, by decide⟩

section Back

variable {cb : Callback} {k : Kind} {t : CIntType} {sl : Slots} {r : ℤ}

/-- The handler stores the integer that the sub returns. -/
theorem handler_stores (hret : cb.restype = .scalar k sl) (ht : cInt k = some t)
    (hr : t.InRange r) (hslot : -2 ^ 63 ≤ r ∧ r < 2 ^ 64) {args : List DCbArg} {svs : List SV}
    (hcalled : CalledWith cb args svs) {sub : Sub} {h h₁ : Heap}
    (hsub : sub svs h = .ok (.int r hslot, h₁)) :
    cbHandlerXXXXX cb sub args h = .ok ((cSigchar k, some (.int (cSigchar k) r)), h₁) := by
  rw [hcalled sub h, Exec.bind_of_ok hsub, hret, cbReturn_int (.inr ⟨t, ht, hr⟩) sl hslot]
  rfl

/-- The return switch reads an integer back. -/
theorem returned_number (ht : cInt k = some t) (hr : t.InRange r) {ret : Returned}
    (hint : t.wrap ret.int = t.wrap r) (h : Heap) :
    ∃ sv, returned (.scalar k sl) ret h = .ok (some sv, h) ∧ (svSlot sv = r ↔ ReadsBack k r) := by
  obtain ⟨sv, hsv, hnum⟩ := returned_int ht sl ret h
  refine ⟨sv, hsv, ?_⟩
  rw [hnum, readBack_congr ht hint, readBack_eq_self_iff ht hr]

/-- **An integer takes the way back.** The handler stores the integer that its sub returns in the
union that it was given; through both kernels it comes into the register where the trigger looks
for it, and the scalar that the return switch makes has its number if and only if it is not in the
upper half of `UChar` or of `UInt`. -/
theorem number_comes_back (hret : cb.restype = .scalar k sl) (ht : cInt k = some t)
    (hr : t.InRange r) (hslot : -2 ^ 63 ≤ r ∧ r < 2 ^ 64) {args : List DCbArg} {svs : List SV}
    (hcalled : CalledWith cb args svs) {sub : Sub} {h h₁ : Heap}
    (hsub : sub svs h = .ok (.int r hslot, h₁)) :
    ∃ result, cbHandlerXXXXX cb sub args h = .ok ((cSigchar k, some result), h₁) ∧
      ∀ {vm : DCCallVM_x64} {cb' : DCCallback} {m m' : Processor} {ra pcb : ℕ}
        {aggrsAt : ℕ → List (Option SysvAggr)}, Loaded vm m → CallbackAt cb' aggrsAt m pcb →
        (∀ x, m.reg x < 2 ^ 64) → HandlerReturns m (enterHandler m ra pcb) m' →
        IntegerAt m'.mem ((enterHandler m ra pcb).reg .rdx) result →
        ∀ (ret : Returned) (sl' : Slots) (heap : Heap), ∃ sv,
          returned (.scalar k sl')
              { ret with int := clonglong.wrap (m'.leaveCallback.leaveCall.reg .rax) } heap =
            .ok (some sv, heap) ∧ (svSlot sv = r ↔ ReadsBack k r) := by
  refine ⟨_, handler_stores hret ht hr hslot hcalled hsub, ?_⟩
  intro vm cb' m m' ra pcb aggrsAt hloaded hcb hm hhandler hat ret sl' heap
  obtain ⟨hmember, hbytes, hsize⟩ := memberType_cSigchar ht
  obtain ⟨t', ht', hstored⟩ := hat
  obtain rfl := Option.some.inj (hmember.symm.trans ht')
  -- the register has the word at the stack pointer, and that is the union
  have hback := call_returns hloaded hcb (hm .rsp) (hm .rbp) (hm .rbx) hhandler
  have hplace : m'.reg .rsp = (enterHandler m ra pcb).reg .rdx := by
    rw [hhandler.rsp, handler_result hloaded hcb]
  refine returned_number ht hr ?_ heap
  show t.wrap (clonglong.wrap (m'.leaveCallback.leaveCall.reg .rax)) = _
  rw [hback.rax, hplace]
  exact wrap_loadWord hbytes hsize hstored

end Back

/-- `CodeRef[ [] => Short ]`. -/
def toShort : Callback := ⟨[], none, scalarType .Short, .undef false⟩

theorem number_comes_back_short :
    ∃ sv, returned (scalarType .Short) ⟨clonglong.wrap
        (shortAfter.leaveCallback.leaveCall.reg .rax), 0, 0, []⟩ .empty = .ok (some sv, .empty) ∧
      (svSlot sv = -3 ↔ ReadsBack .Short (-3)) := by
  obtain ⟨result, hresult, hback⟩ := @number_comes_back toShort .Short cshort _ (-3) rfl rfl
    (by decide) (by decide) [] [] (fun _ _ => rfl) (fun _ => pure (.int (-3) (by decide))) .empty
    .empty rfl
  cases hresult
  exact hback loaded_bareShort callbackAt_bareShort bareShort_lt shortReturns
    ⟨cshort, rfl, slice_overlay_same⟩ ⟨0, 0, 0, []⟩ _ .empty

end Affix.Analysis
