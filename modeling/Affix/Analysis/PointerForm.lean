import Affix.Foundation.Run
import Affix.Model.Pointer

/-!
# The form of pointer objects

Every object of class `Affix::Pointer` should be an array of four slots that
carries the address the C function returned, and every function should take that
address from it. `malloc` makes such objects, and `free`, `raw`, `sv` and `dump`
take their addresses. The other memory functions were left behind: they make
references to the address itself, and of an array they take the address `0`. A
program is safe exactly as long as it calls none of them to any effect.
-/

set_option autoImplicit false

namespace Affix.Analysis

open Affix.Foundation Affix.Model

/-- The array form: `[address, subtype, count, position]`. -/
def ArrayForm (obj : SV) (a : ℕ) : Prop :=
  ∃ r t count position, obj = .aref r [addrSlot a, .type t, count, position]

/-- Every object in a variable has the array form and carries its address, and every use so
far took the address of the object. -/
def CarriesAddresses (st : PointerState) : Prop :=
  (∀ p ∈ st.vars, p.value.derivedFrom "Affix::Pointer" = true → ArrayForm p.value p.addr) ∧
    ∀ u ∈ st.uses, u.2 = .ok (some u.1)

/-- `safecalloc` has no block to give: the items have no size, or it wraps, or memory is out. -/
def Refused (m : Mem) (num size : ℕ) : Prop :=
  (size = 0 ∨ 2 ^ 64 ≤ num * size) ∨ m.Exhausted (atLeastOne num * size)

/-- The condition a call has to meet: it is one of the five functions that were brought up to
date, or it asks for memory and gets none. -/
def KeepsForm (st : PointerState) : PointerOp → Prop
  | .malloc _ | .free _ | .raw .. | .sv _ | .dump .. => True
  | .calloc num size => Refused st.heap.mem (SvSize num) (SvSize size)
  | .strdup str1 =>
    st.heap.mem.Exhausted (((SvPV str1).bytes.takeWhile (· ≠ 0)).length + 1)
  | .realloc .. | .memchr .. | .memset .. | .memcpy .. | .memmove .. => False

/-! ## Reading objects -/

theorem wrap_addr {a : ℕ} (ha : a < 2 ^ 64) : culong.wrap (a : ℤ) = a := by
  apply CIntType.wrap_of_inRange
  norm_num [CIntType.InRange, CIntType.minValue, CIntType.card, culong]
  omega

theorem addressOf_addrSlot {a : ℕ} (h0 : 0 < a) (ha : a < 2 ^ 64) :
    (addrSlot a).SvOK = true ∧ addressOf (addrSlot a) = .ok a := by
  have hne : a ≠ 0 := by omega
  have hwrap : culong.wrap (clong.wrap (clong.wrap (a : ℤ))) = a := by
    rw [CIntType.wrap_wrap_of_le (t := culong) (u := clong) le_rfl,
      CIntType.wrap_wrap_of_le (t := culong) (u := clong) le_rfl]
    exact wrap_addr ha
  rw [addrSlot, if_neg hne]
  refine ⟨rfl, ?_⟩
  simp only [addressOf, SvIV, svSlot_newSViv, hwrap, Int.toNat_natCast]

/-- `free`, `raw`, `sv` and `dump` take the address of an object in array form. -/
theorem arrayAddress_of_arrayForm {obj : SV} {a : ℕ} (h : ArrayForm obj a)
    (hobj : obj.derivedFrom "Affix::Pointer" = true) (h0 : 0 < a) (ha : a < 2 ^ 64) :
    arrayAddress obj = .ok (some a) := by
  obtain ⟨r, t, count, position, rfl⟩ := h
  obtain ⟨hok, haddr⟩ := addressOf_addrSlot h0 ha
  simp only [arrayAddress, asPointerObject, hobj, if_true, SV.elems, pointerAddr, hok, haddr]
  rfl

theorem addressOf_arrayForm {obj : SV} {a : ℕ} (h : ArrayForm obj a) : addressOf obj = .ok 0 := by
  obtain ⟨r, t, count, position, rfl⟩ := h
  rfl

/-- A reference to an address is an object, and it is not in array form. -/
theorem unmanaged_not_arrayForm {ptr : ℕ} (h : 0 < ptr) (a : ℕ) :
    (unmanaged ptr).derivedFrom "Affix::Pointer" = true ∧ ¬ ArrayForm (unmanaged ptr) a := by
  have hne : ptr ≠ 0 := by omega
  rw [unmanaged, sv_setref_pv, if_neg hne]
  refine ⟨by simp [SV.derivedFrom, RefInfo.new], ?_⟩
  rintro ⟨r, t, count, position, h⟩
  cases h

/-! ## Asking for memory -/

/-- `safecalloc` gives a new block, or there is none to give. -/
theorem safecalloc_cases (num size : ℕ) (h : Heap) :
    (∃ p h', safecalloc num size h = .ok (p, h') ∧ 0 < p ∧ ¬ Refused h.mem num size) ∨
    (∃ e, safecalloc num size h = .error e ∧ Refused h.mem num size) := by
  by_cases hdies : size = 0 ∨ 2 ^ 64 ≤ num * size
  · have hrun : safecalloc num size = croak (text "panic: memory wrap") := if_pos hdies
    exact Or.inr ⟨_, congrFun hrun h, Or.inl hdies⟩
  · have hrun : safecalloc num size = Newxz num size := if_neg hdies
    rw [hrun]
    cases hc : h.mem.calloc (atLeastOne num * size) with
    | none =>
      right
      refine ⟨.outOfMemory, ?_, Or.inr (Mem.calloc_eq_none_iff.mp hc)⟩
      simp only [Newxz, hc]
    | some r =>
      left
      obtain ⟨p, m⟩ := r
      have hp : p = h.mem.brk := (Mem.calloc_cases hc).1
      refine ⟨p, _, Newxz_eq_ok.mpr ⟨m, hc, rfl⟩, hp ▸ h.mem.brk_pos, ?_⟩
      rintro (hdies' | hex)
      · exact hdies hdies'
      · rw [Mem.calloc_eq_none_iff.mpr hex] at hc
        cases hc

/-- `strdup` gives a new block, or `NULL`. -/
theorem strdup_cases (bs : List UInt8) (h : Heap) :
    (∃ p h', strdup bs h = .ok (p, h') ∧ 0 < p ∧
      ¬ h.mem.Exhausted ((bs.takeWhile (· ≠ 0)).length + 1)) ∨
    (strdup bs h = .ok (0, h) ∧ h.mem.Exhausted ((bs.takeWhile (· ≠ 0)).length + 1)) := by
  have hlen : (bs.takeWhile (· ≠ 0) ++ [0]).length = (bs.takeWhile (· ≠ 0)).length + 1 := by
    simp only [List.length_append, List.length_singleton]
  cases hc : h.mem.malloc (bs.takeWhile (· ≠ 0) ++ [0]).length with
  | none =>
    right
    refine ⟨by simp only [strdup, hc], ?_⟩
    rw [← hlen]
    exact Mem.malloc_eq_none_iff.mp hc
  | some r =>
    left
    obtain ⟨p, m⟩ := r
    obtain ⟨hp, -, hin, -⟩ := Mem.malloc_cases hc
    have hrun : strdup bs h = (store p (bs.takeWhile (· ≠ 0) ++ [0]) >>= fun _ => pure p)
        { h with mem := m } := by
      simp only [strdup, hc]
    have hstore : store p (bs.takeWhile (· ≠ 0) ++ [0]) { h with mem := m } = _ :=
      store_eq_ok.mpr ⟨Or.inr hin, rfl⟩
    refine ⟨p, _, hrun.trans (Exec.bind_of_ok hstore), hp ▸ h.mem.brk_pos, fun hex => ?_⟩
    rw [← hlen] at hex
    rw [Mem.malloc_eq_none_iff.mpr hex] at hc
    cases hc

theorem copyItems_plain {s s' : Scalar} {nitems : SV} {h : Heap}
    (hs : (SV.val s).SvIOK = true)
    (hd : h.mem.InBlock (svAddress (.val s)) (SvSize nitems))
    (hsrc : if (SV.val s').SvIOK then h.mem.InBlock (svAddress (.val s')) (SvSize nitems)
      else (SV.val s').SvPOK = true ∧ SvSize nitems ≤ (SvPV (.val s')).bytes.length) :
    ∃ h', copyItems memmove (.val s) (.val s') nitems h =
      .ok ((svAddress (.val s), unmanaged (svAddress (.val s))), h') := by
  have hdest : destAddress (.val s) = .ok (svAddress (.val s)) := by
    simp only [destAddress, SV.derivedFrom, hs, if_true, Bool.false_eq_true, if_false]
  have hload : ∃ src bs, srcOperand (.val s') = .ok src ∧
      src.load (SvSize nitems) h = .ok (bs, h) ∧ bs.length = SvSize nitems := by
    by_cases hiok : (SV.val s').SvIOK = true
    · rw [if_pos hiok] at hsrc
      refine ⟨.mem (svAddress (.val s')), _, ?_, ?_, h.mem.length_peek (svAddress (.val s')) _⟩
      · simp only [srcOperand, SV.derivedFrom, hiok, if_true, Bool.false_eq_true, if_false]
      · simp only [Source.load, loadAt, load, Mem.read_eq_peek hsrc]
        rfl
    · rw [if_neg hiok] at hsrc
      obtain ⟨hpok, hle⟩ := hsrc
      have hle' : SvSize nitems ≤ ((SvPV (.val s')).bytes ++ [0]).length := by
        rw [List.length_append]
        omega
      refine ⟨.buffer ((SvPV (.val s')).bytes ++ [0]), _, ?_, ?_, List.length_take_of_le hle'⟩
      · simp only [srcOperand, SV.derivedFrom, hiok, hpok, if_true, Bool.false_eq_true, if_false]
      · simp only [Source.load, hle', if_true]
        rfl
  obtain ⟨src, bs, hsrc', hbs, hlen⟩ := hload
  have hstore : store (svAddress (.val s)) bs h =
      .ok ((), { h with mem := h.mem.poke (svAddress (.val s)) bs }) :=
    store_eq_ok.mpr ⟨Or.inr (hlen ▸ hd), rfl⟩
  refine ⟨{ h with mem := h.mem.poke (svAddress (.val s)) bs }, ?_⟩
  refine Exec.bind_eq_ok.mpr ⟨_, h, Exec.lift_eq_ok.mpr ⟨hdest, rfl⟩, ?_⟩
  refine Exec.bind_eq_ok.mpr ⟨_, h, Exec.lift_eq_ok.mpr ⟨hsrc', rfl⟩, ?_⟩
  refine Exec.bind_eq_ok.mpr ⟨_, _, ?_, rfl⟩
  refine Exec.bind_eq_ok.mpr ⟨bs, h, hbs, ?_⟩
  exact Exec.bind_eq_ok.mpr ⟨(), _, hstore, rfl⟩

/-! ## What the calls do -/

section Step

variable {st : PointerState}

theorem used_of_live {v n : ℕ} (h : st.Live v n) (reader : SV → Except Halt (Option ℕ)) :
    ∃ p, st.vars[v]? = some p ∧ p ∈ st.vars ∧ p.value.derivedFrom "Affix::Pointer" = true ∧
      0 < p.addr ∧ p.addr < 2 ^ 64 ∧
      PointerOp.uses.used st.vars v reader = [(p.addr, reader p.value)] := by
  obtain ⟨p, hp, hobj, hin⟩ := h
  have hle := hin.le_brk
  have hbrk := st.heap.mem.brk_le
  have hlt : p.addr < 2 ^ 64 := by
    unfold addrLimit at hbrk
    omega
  refine ⟨p, hp, List.mem_of_getElem? hp, hobj, hin.pos, hlt, ?_⟩
  simp only [PointerOp.uses.used, hp, Option.map_some, Option.toList_some]

theorem uses_array (hgood : CarriesAddresses st) {v n : ℕ} (h : st.Live v n) :
    ∀ u ∈ PointerOp.uses.used st.vars v arrayAddress, u.2 = .ok (some u.1) := by
  obtain ⟨p, -, hmem, hobj, h0, ha, hused⟩ := used_of_live h arrayAddress
  rw [hused]
  intro u hu
  rw [List.mem_singleton.mp hu]
  exact arrayAddress_of_arrayForm (hgood.1 p hmem hobj) hobj h0 ha

/-- A function of the old kind: of an object it takes the address of the referent. -/
def ReadsReferent (reader : SV → Except Halt (Option ℕ)) : Prop :=
  ∀ obj, obj.derivedFrom "Affix::Pointer" = true → reader obj = (addressOf obj).map some

theorem scalarAddress_readsReferent (what : String) :
    ReadsReferent fun obj => (scalarAddress what obj).map some := by
  intro obj hobj
  simp only [scalarAddress, hobj, if_true]

theorem destAddress_readsReferent : ReadsReferent fun obj => (destAddress obj).map some := by
  intro obj hobj
  simp only [destAddress, hobj, if_true]

theorem srcOperand_readsReferent :
    ReadsReferent fun obj => (srcOperand obj).map Source.addr? := by
  intro obj hobj
  simp only [srcOperand, hobj, if_true]
  cases addressOf obj <;> rfl

/-- A live variable used by a function of the old kind: it takes `0`. -/
theorem uses_referent (hgood : CarriesAddresses st) {v n : ℕ} (h : st.Live v n)
    {reader : SV → Except Halt (Option ℕ)} (hreader : ReadsReferent reader) :
    ∃ u ∈ PointerOp.uses.used st.vars v reader, u.2 ≠ .ok (some u.1) := by
  obtain ⟨p, -, hmem, hobj, h0, -, hused⟩ := used_of_live h reader
  refine ⟨_, by rw [hused]; exact List.mem_singleton_self _, ?_⟩
  show reader p.value ≠ _
  rw [hreader _ hobj, addressOf_arrayForm (hgood.1 p hmem hobj)]
  intro heq
  have hzero : 0 = p.addr := Option.some.inj (Except.ok.inj heq)
  omega

theorem not_carries_of_use {heap : Heap} {vars : List Holder} {alive : Bool}
    {uses uses' : List (ℕ × Except Halt (Option ℕ))} (h : ∃ u ∈ uses', u.2 ≠ .ok (some u.1)) :
    ¬ CarriesAddresses ⟨heap, vars, uses ++ uses', alive⟩ := by
  intro hgood
  obtain ⟨u, hu, hne⟩ := h
  exact hne (hgood.2 u (List.mem_append_right _ hu))

theorem not_carries_of_unmanaged {heap : Heap} {vars : List Holder} {alive : Bool}
    {uses : List (ℕ × Except Halt (Option ℕ))} {ptr : ℕ} (h : 0 < ptr) :
    ¬ CarriesAddresses ⟨heap, vars ++ [⟨unmanaged ptr, ptr⟩], uses, alive⟩ := by
  intro hgood
  obtain ⟨hobj, hnot⟩ := unmanaged_not_arrayForm h ptr
  exact hnot (hgood.1 ⟨unmanaged ptr, ptr⟩ (by simp) hobj)

theorem carries_of_uses (hgood : CarriesAddresses st) {heap : Heap} {vars : List Holder}
    {alive : Bool} {uses : List (ℕ × Except Halt (Option ℕ))}
    (hvars : ∀ p ∈ vars, p.value.derivedFrom "Affix::Pointer" = true → ArrayForm p.value p.addr)
    (huses : ∀ u ∈ uses, u.2 = .ok (some u.1)) :
    CarriesAddresses ⟨heap, vars, st.uses ++ uses, alive⟩ := by
  refine ⟨hvars, fun u hu => ?_⟩
  rcases List.mem_append.mp hu with hu | hu
  · exact hgood.2 u hu
  · exact huses u hu

/-- **Inversion of a call**: the heap and the variables are those it returned, or it stopped
and they are as they were; what it took from its arguments is noted either way. -/
theorem step_cases {op : PointerOp} {st' : PointerState} (h : PointerStep st op st') :
    op.InBounds st ∧ ∃ heap vars alive,
      st' = ⟨heap, vars, st.uses ++ op.uses st.vars, alive⟩ ∧
        (op.perform st.vars st.heap = .ok (vars, heap) ∨
          vars = st.vars ∧ ∃ e, op.perform st.vars st.heap = .error e) := by
  cases h with
  | returns _ hbounds hperform => exact ⟨hbounds, _, _, _, rfl, Or.inl hperform⟩
  | stops _ hbounds hperform => exact ⟨hbounds, _, _, _, rfl, Or.inr ⟨rfl, _, hperform⟩⟩

theorem step_of_ok {op : PointerOp} {st' : PointerState} (h : PointerStep st op st')
    {vars : List Holder} {heap : Heap} (hok : op.perform st.vars st.heap = .ok (vars, heap)) :
    st' = ⟨heap, vars, st.uses ++ op.uses st.vars, true⟩ := by
  cases h with
  | returns _ _ hperform =>
    cases hperform.symm.trans hok
    rfl
  | stops _ _ hperform => cases hperform.symm.trans hok

/-- A call that leaves objects in array form and takes the right addresses keeps a program
good, whether it returns or stops. -/
theorem carries_of_call (hgood : CarriesAddresses st) {op : PointerOp} {st' : PointerState}
    (h : PointerStep st op st') (huses : ∀ u ∈ op.uses st.vars, u.2 = .ok (some u.1))
    (hvars : ∀ vars heap, op.perform st.vars st.heap = .ok (vars, heap) →
      ∀ p ∈ vars, p.value.derivedFrom "Affix::Pointer" = true → ArrayForm p.value p.addr) :
    CarriesAddresses st' := by
  obtain ⟨-, heap, vars, alive, rfl, hok | ⟨rfl, -⟩⟩ := step_cases h
  · exact carries_of_uses hgood (hvars vars heap hok) huses
  · exact carries_of_uses hgood hgood.1 huses

theorem not_carries_of_call {op : PointerOp} {st' : PointerState} (h : PointerStep st op st')
    (huses : ∃ u ∈ op.uses st.vars, u.2 ≠ .ok (some u.1)) : ¬ CarriesAddresses st' := by
  obtain ⟨-, heap, vars, alive, rfl, -⟩ := step_cases h
  exact not_carries_of_use huses

theorem carries_undefined (hgood : CarriesAddresses st) {heap : Heap} {alive : Bool} :
    CarriesAddresses ⟨heap, st.vars ++ [⟨unmanaged 0, 0⟩], st.uses ++ [], alive⟩ := by
  refine carries_of_uses hgood (fun p hp hobj => ?_) (by simp)
  rcases List.mem_append.mp hp with hp | hp
  · exact hgood.1 p hp hobj
  · rw [List.mem_singleton.mp hp] at hobj
    cases hobj

theorem carries_malloc (hgood : CarriesAddresses st) {size : SV} {st' : PointerState}
    (h : PointerStep st (.malloc size) st') : CarriesAddresses st' := by
  refine carries_of_call hgood h (by intro u hu; cases hu) fun vars heap hok p hp hobj => ?_
  obtain ⟨⟨RETVAL, obj⟩, h₁, hmalloc, hret⟩ := Exec.bind_eq_ok.mp hok
  obtain ⟨q, h₂, -, hq⟩ := Exec.bind_eq_ok.mp hmalloc
  cases hq
  cases hret
  rcases List.mem_append.mp hp with hp | hp
  · exact hgood.1 p hp hobj
  · rw [List.mem_singleton.mp hp]
    exact ⟨_, _, _, _, rfl⟩

theorem Affix_free_eq_undef {ptr sv : SV} {h h' : Heap} (hrun : Affix_free ptr h = .ok (sv, h')) :
    sv = .undef false := by
  obtain ⟨tmp, h₁, -, hrest⟩ := Exec.bind_eq_ok.mp hrun
  cases tmp with
  | none =>
    cases hrest
    rfl
  | some a =>
    by_cases ha : a = 0
    · simp only [ha, if_true] at hrest
      cases hrest
      rfl
    · simp only [ha, if_false] at hrest
      obtain ⟨u, h₂, -, hret⟩ := Exec.bind_eq_ok.mp hrest
      cases hret
      rfl

theorem carries_free (hgood : CarriesAddresses st) {v : ℕ} {st' : PointerState}
    (h : PointerStep st (.free v) st') : CarriesAddresses st' := by
  have hlive : st.Live v 0 := (step_cases h).1.1
  refine carries_of_call hgood h (uses_array hgood hlive) fun vars heap hok p hp hobj => ?_
  obtain ⟨ptr, h₁, hfree, hret⟩ := Exec.bind_eq_ok.mp hok
  cases hret
  have hptr : ptr = .undef false := Affix_free_eq_undef hfree
  rcases List.mem_or_eq_of_mem_set hp with hp | rfl
  · exact hgood.1 p hp hobj
  · rw [hptr] at hobj
    cases hobj

/-- A call that reads through an object in array form and leaves the variables alone. -/
theorem carries_reader (hgood : CarriesAddresses st) {op : PointerOp} {v n : ℕ}
    {st' : PointerState} (h : PointerStep st op st') (hlive : st.Live v n)
    (huses : op.uses st.vars = PointerOp.uses.used st.vars v arrayAddress)
    (hsame : ∀ vars heap, op.perform st.vars st.heap = .ok (vars, heap) → vars = st.vars) :
    CarriesAddresses st' := by
  refine carries_of_call hgood h (huses ▸ uses_array hgood hlive) fun vars heap hok => ?_
  rw [hsame vars heap hok]
  exact hgood.1

/-- A copy that has a variable among its arguments takes a wrong address. -/
theorem uses_copy (hgood : CarriesAddresses st) {dest src : Operand} {nitems : SV}
    (hbounds : PointerOp.InBounds st (.memcpy dest src nitems))
    (hvar : ∃ v, dest = .var v ∨ src = .var v) :
    ∃ u ∈ PointerOp.uses st.vars (.memcpy dest src nitems), u.2 ≠ .ok (some u.1) := by
  obtain ⟨v, rfl | rfl⟩ := hvar
  · obtain ⟨u, hu, hne⟩ := uses_referent hgood hbounds.1 destAddress_readsReferent
    exact ⟨u, List.mem_append_left _ hu, hne⟩
  · obtain ⟨u, hu, hne⟩ := uses_referent hgood hbounds.2 srcOperand_readsReferent
    exact ⟨u, List.mem_append_right _ hu, hne⟩

/-- `memcpy` and `memmove` never keep a program good. -/
theorem not_carries_copy (hgood : CarriesAddresses st) {op : PointerOp} {dest src : Operand}
    {nitems : SV} {st' : PointerState} (h : PointerStep st op st')
    (hop : op = .memcpy dest src nitems ∨ op = .memmove dest src nitems) :
    ¬ CarriesAddresses st' := by
  have hbounds : PointerOp.InBounds st (.memcpy dest src nitems) := by
    rcases hop with rfl | rfl <;> exact (step_cases h).1
  by_cases hvar : ∃ v, dest = .var v ∨ src = .var v
  · refine not_carries_of_call h ?_
    rcases hop with rfl | rfl <;> exact uses_copy hgood hbounds hvar
  · cases dest with
    | var v => exact absurd ⟨v, Or.inl rfl⟩ hvar
    | plain s =>
      cases src with
      | var v => exact absurd ⟨v, Or.inr rfl⟩ hvar
      | plain s' =>
        obtain ⟨⟨hs, hd⟩, hsrc⟩ := hbounds
        obtain ⟨h', hcopy⟩ := copyItems_plain hs hd hsrc
        have hperform : op.perform st.vars st.heap =
            .ok (st.vars ++ [⟨unmanaged (svAddress (.val s)), svAddress (.val s)⟩], h') := by
          rcases hop with rfl | rfl <;> exact Exec.bind_of_ok hcopy
        rw [step_of_ok h hperform]
        exact not_carries_of_unmanaged hd.pos

/-- **One call**: a good program is good after it exactly when it keeps the form. -/
theorem carries_step_iff (st : PointerState) (op : PointerOp) (st' : PointerState)
    (hgood : CarriesAddresses st) (h : PointerStep st op st') :
    CarriesAddresses st' ↔ KeepsForm st op := by
  have hbounds := (step_cases h).1
  cases op with
  | malloc size => exact iff_of_true (carries_malloc hgood h) trivial
  | free v => exact iff_of_true (carries_free hgood h) trivial
  | raw v size utf8 =>
    refine iff_of_true (carries_reader hgood h hbounds rfl fun vars heap hok => ?_) trivial
    obtain ⟨_, _, -, hret⟩ := Exec.bind_eq_ok.mp hok
    cases hret
    rfl
  | sv v =>
    refine iff_of_true (carries_reader hgood h hbounds rfl fun vars heap hok => ?_) trivial
    obtain ⟨_, _, -, hret⟩ := Exec.bind_eq_ok.mp hok
    cases hret
    rfl
  | dump v size =>
    refine iff_of_true (carries_reader hgood h hbounds rfl fun vars heap hok => ?_) trivial
    obtain ⟨_, _, -, hret⟩ := Exec.bind_eq_ok.mp hok
    cases hret
    rfl
  | realloc v size =>
    have huses := uses_referent hgood hbounds.1 (scalarAddress_readsReferent "ptr")
    exact iff_of_false (not_carries_of_call h huses) id
  | memchr v ch count =>
    have huses := uses_referent hgood hbounds (scalarAddress_readsReferent "ptr")
    exact iff_of_false (not_carries_of_call h huses) id
  | memset v ch count =>
    have huses := uses_referent hgood hbounds (scalarAddress_readsReferent "dest")
    exact iff_of_false (not_carries_of_call h huses) id
  | memcpy dest src nitems =>
    exact iff_of_false (not_carries_copy hgood h (Or.inl rfl)) id
  | memmove dest src nitems =>
    exact iff_of_false (not_carries_copy hgood h (Or.inr rfl)) id
  | calloc num size =>
    rcases safecalloc_cases (SvSize num) (SvSize size) st.heap with
      ⟨p, h', hcalloc, hp, hroom⟩ | ⟨e, hcalloc, hnone⟩
    · have hmade : Affix_calloc num size st.heap = .ok ((p, unmanaged p), h') :=
        Exec.bind_of_ok hcalloc
      have hperform : PointerOp.perform st.vars (.calloc num size) st.heap =
          .ok (st.vars ++ [⟨unmanaged p, p⟩], h') := Exec.bind_of_ok hmade
      rw [step_of_ok h hperform]
      exact iff_of_false (not_carries_of_unmanaged hp) hroom
    · have hperform : PointerOp.perform st.vars (.calloc num size) st.heap = .error e :=
        Exec.bind_of_error (Exec.bind_of_error hcalloc)
      refine iff_of_true (carries_of_call hgood h (by intro u hu; cases hu) ?_) hnone
      intro vars heap hok
      cases hperform.symm.trans hok
  | strdup str1 =>
    rcases strdup_cases (SvPV str1).bytes st.heap with
      ⟨p, h', hdup, hp, hroom⟩ | ⟨hdup, hnone⟩
    · have hmade : Affix_strdup str1 st.heap = .ok ((p, unmanaged p), h') :=
        Exec.bind_of_ok hdup
      have hperform : PointerOp.perform st.vars (.strdup str1) st.heap =
          .ok (st.vars ++ [⟨unmanaged p, p⟩], h') := Exec.bind_of_ok hmade
      rw [step_of_ok h hperform]
      exact iff_of_false (not_carries_of_unmanaged hp) hroom
    · have hmade : Affix_strdup str1 st.heap = .ok ((0, unmanaged 0), st.heap) :=
        Exec.bind_of_ok hdup
      have hperform : PointerOp.perform st.vars (.strdup str1) st.heap =
          .ok (st.vars ++ [⟨unmanaged 0, 0⟩], st.heap) := Exec.bind_of_ok hmade
      rw [step_of_ok h hperform]
      exact iff_of_true (carries_undefined hgood) hnone

end Step

theorem carries_initial (heap : Heap) : CarriesAddresses (.initial heap) := by
  constructor <;> intro _ h <;> cases h

/-- **Every object has the array form and every function takes its address, all along a run,
exactly when every call keeps the form**: it is `malloc`, `free`, `raw`, `sv` or `dump`, or a
`calloc` or a `strdup` that gets no memory, be it that the items of `calloc` have no size. -/
theorem carries_run_iff_keepsForm (heap : Heap) {run : List (PointerOp × PointerState)}
    (hrun : IsRun PointerStep (.initial heap) run) :
    AllStates CarriesAddresses (.initial heap) run ↔ AllSteps KeepsForm (.initial heap) run :=
  hrun.allStates_iff carries_step_iff (carries_initial heap)

def sixteen : SV := .int 16 (by norm_num)

/-- The heap with one block of sixteen bytes, and with one of sixteen zeroed bytes. -/
def heapWith (request : Eff ℕ) : Heap :=
  match request Heap.empty with
  | .ok (_, h) => h
  | .error _ => Heap.empty

/-- After `my $p = malloc(16)`. -/
def malloced : PointerState := ⟨heapWith (safemalloc 16), [⟨_Void 4096 16, 4096⟩], [], true⟩

/-- After `my $p = calloc(1, 16)`. -/
def calloced : PointerState := ⟨heapWith (safecalloc 1 16), [⟨unmanaged 4096, 4096⟩], [], true⟩

/-- After `free($p)`, which does not take `$p`. -/
def freeRejected : PointerState :=
  { calloced with uses := [(4096, .error (notAPointer "ptr"))] }

def callocRun : List (PointerOp × PointerState) :=
  [(.calloc (.val .yes) sixteen, calloced), (.free 0, freeRejected)]

def mallocRun : List (PointerOp × PointerState) := [(.malloc sixteen, malloced)]

theorem carries_mallocRun : AllStates CarriesAddresses (.initial .empty) mallocRun ↔
    AllSteps KeepsForm (.initial .empty) mallocRun :=
  carries_run_iff_keepsForm .empty ⟨.returns rfl trivial rfl, trivial⟩

/-- What `calloc` returns is no array, and `free` rejects it. -/
theorem calloc_then_free_rejected :
    IsRun PointerStep (.initial .empty) callocRun ∧
      arrayAddress (unmanaged 4096) = .error (notAPointer "ptr") ∧
      ¬ AllStates CarriesAddresses (.initial .empty) callocRun := by
  have hcalloc : PointerStep (.initial .empty) (.calloc (.val .yes) sixteen) calloced :=
    .returns rfl trivial rfl
  have howns : calloced.Owns 0 :=
    ⟨⟨_, rfl, by decide, (4096, 16), by decide, by decide⟩, _, 16, rfl, by decide⟩
  have hfree : PointerStep calloced (.free 0) freeRejected :=
    @PointerStep.stops calloced (.free 0) (notAPointer "ptr") rfl howns rfl
  refine ⟨⟨hcalloc, hfree, trivial⟩, rfl, fun h => ?_⟩
  have hlast := h.2 (.free 0, freeRejected) (by simp [callocRun])
  have huse := hlast.2 (4096, .error (notAPointer "ptr")) (by simp [freeRejected])
  cases huse

end Affix.Analysis
