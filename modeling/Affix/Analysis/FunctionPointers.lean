import Affix.Analysis.ResultCell
import Affix.Interface.Callable

/-!
# Function pointers as callables

`Affix_fiction` and `ptr2sv` fill the record that `Fiction_trigger` trusts. They
agree on the signature, the types and the address. `ptr2sv` leaves `aggr_restype`
at zero, so its callable never begins the call of a function with a struct result,
and the descriptor such a call is made with is an uninitialised variable.
-/

set_option autoImplicit false

namespace Affix.Analysis

open Affix.Foundation Affix.Model Affix.Interface

/-! ## A call without its scalars -/

/-- The result of a call with these arguments, less the scalar it goes to. -/
def callResult (f : Fiction) (r : TypeObj) (callee : Callee) (as : List DCArg) :
    Eff (Option SV) :=
  if returnable r then
    if hasDescriptor f r then do
      let x ← callee as
      returned r x
    else Exec.fail .fault
  else croak (text "Unknown or unhandled return type: " ++ r.slots.stringify)

/-- What a call comes to, less the scalar the result goes to. -/
def callOutcome (inMemory : DCaggr → Bool) (f : Fiction) (ts : List TypeObj) (r : TypeObj)
    (callee : Callee) (items : List SV) : Eff (Option SV) := do
  let _ ← Exec.lift (aggrSetup inMemory f)
  if items.length ≠ ts.length then croak (wrongItems f ts.length items.length)
  else do
    let as ← convertAll ts items
    callResult f r callee as

/-- The record of a callable with these types. -/
structure MadeFor (ts : List TypeObj) (r : TypeObj) (f : Fiction) : Prop where
  signature : f.signature = some (ts.map TypeObj.flag)
  argtypes : f.argtypes = some ts
  restype : f.restype = some r

section Calls

variable {inMemory : DCaggr → Bool} {f : Fiction} {ts : List TypeObj} {r : TypeObj}

theorem prepare_error {e : Halt} (he : aggrSetup inMemory f = .error e) (items : List SV)
    (st : Interp) : prepare inMemory f items st = .error e := by
  unfold prepare
  rw [Exec.bind_of_ok (onVM_eq_ok (u := ()).mpr rfl)]
  refine Exec.bind_of_error ?_
  rw [beginCall_eq, he]
  rfl

theorem prepare_eq (hf : MadeFor ts r f) {b : Bool} (hb : aggrSetup inMemory f = .ok b)
    (items : List SV) (st : Interp) : prepare inMemory f items st =
      if items.length ≠ ts.length then .error (.croak (wrongItems f ts.length items.length))
      else (convertAll ts items st.heap).map fun x =>
        ((), { st with heap := x.2, vm := ⟨b, x.1⟩ }) := by
  unfold prepare
  rw [Exec.bind_of_ok (onVM_eq_ok (u := ()).mpr rfl),
    Exec.bind_of_ok (beginCall_eq_ok (u := ()).mpr ⟨b, hb, rfl⟩)]
  by_cases hlen : items.length = ts.length
  · simp [arguments, hf.signature, hf.argtypes, hlen, pushArguments_eq, DCCallVM.dcReset]
  · simp [arguments, hf.signature, hlen]

theorem replacesCell_of_void (h : r.flag = .void) : replacesCell r = false := by
  cases r with
  | scalar k s => cases k <;> first | rfl | cases h
  | struct s fields => cases h
  | pointer | codeRef | union => rfl

theorem returned_of_void (h : r.flag = .void) (x : Returned) (m : Heap) :
    returned r x m = .ok (none, m) := by
  cases r with
  | scalar k s => cases k <;> first | rfl | cases h
  | pointer | codeRef | struct | union => cases h

/-- The scalar handed back holds what the return switch made of the result. -/
theorem putResult_shows {st : Interp} (hown : OwnCell r st) {o : Option SV} {x : Returned}
    {m m' : Heap} (ho : returned r x m = .ok (o, m')) :
    ∃ st', putResult r o { st with heap := m' } = .ok ((), st') ∧ st'.heap = m' ∧
      (st'.res.bind fun c => st'.cells[c]?) = some (o.getD (.undef false)) := by
  cases o with
  | none =>
    have hvoid : r.flag = .void := flag_of_returned_none ho
    have hrep : ¬ replacesCell r = true := by simp [replacesCell_of_void hvoid]
    obtain ⟨c, hres, -, hcell⟩ := hown.resolve_left hrep
    exact ⟨_, rfl, rfl, by simp [hres, hcell hvoid]⟩
  | some sv =>
    by_cases hrep : replacesCell r = true
    · refine ⟨{ st with heap := m', cells := st.cells ++ [sv], res := some st.cells.length },
        ?_, rfl, ?_⟩
      · simp [putResult, hrep, newCell]
      · simp
    · obtain ⟨c, hres, hc, -⟩ := hown.resolve_left hrep
      exact ⟨_, putResult_overwrites (by simpa using hrep) hres, rfl, by simp [hres, hc]⟩

theorem shown_callAndReturn (hf : MadeFor ts r f) {st : Interp} (hown : OwnCell r st)
    (callee : Callee) :
    shown ((callAndReturn f callee >>= fun _ => Exec.get >>= fun st => pure st.res) st) =
      (callResult f r callee st.vm.args st.heap).map fun x =>
        (some (x.1.getD (.undef false)), x.2) := by
  unfold callAndReturn callResult
  simp only [hf.restype]
  by_cases hret : returnable r = true
  · by_cases hdesc : hasDescriptor f r = true
    · simp only [hret, hdesc, if_true]
      cases hcall : callee st.vm.args st.heap with
      | error e =>
        have hdc : dcCall callee st = .error e := by rw [dcCall, hcall]
        rw [Exec.bind_of_error (Exec.bind_of_error hdc), Exec.bind_of_error hcall]
        rfl
      | ok y =>
        obtain ⟨x, m⟩ := y
        have hdc : dcCall callee st = .ok (x, { st with heap := m }) :=
          dcCall_eq_ok.mpr ⟨m, hcall, rfl⟩
        rw [Exec.bind_of_ok hcall]
        cases ho : returned r x m with
        | error e =>
          have hswitch : returnSwitch r x { st with heap := m } = .error e :=
            Exec.bind_of_error (by rw [onHeap, ho])
          rw [Exec.bind_of_error ((Exec.bind_of_ok hdc).trans hswitch)]
          rfl
        | ok z =>
          obtain ⟨o, m'⟩ := z
          obtain ⟨st', hput, rfl, hcell⟩ := putResult_shows hown ho
          have hswitch : returnSwitch r x { st with heap := m } = .ok ((), st') :=
            returnSwitch_eq_ok.mpr ⟨o, _, ho, hput⟩
          rw [Exec.bind_of_ok ((Exec.bind_of_ok hdc).trans hswitch)]
          show Except.ok (st'.res.bind fun c => st'.cells[c]?, st'.heap) = _
          rw [hcell]
          rfl
    · simp only [hret, hdesc, if_true]
      rfl
  · simp only [hret]
    rfl

/-- **A call shows its outcome**: what a callable with a result cell of its own shows its
caller depends on its record alone. -/
theorem shown_trigger (hf : MadeFor ts r f) {st : Interp} (hown : OwnCell r st)
    (callee : Callee) (items : List SV) :
    shown (Fiction_trigger inMemory f callee items st) =
      (callOutcome inMemory f ts r callee items st.heap).map fun x =>
        (some (x.1.getD (.undef false)), x.2) := by
  unfold Fiction_trigger callOutcome
  cases hb : aggrSetup inMemory f with
  | error e =>
    rw [Exec.bind_of_error (prepare_error hb items st),
      Exec.bind_of_error (Exec.lift_error_apply e _)]
    rfl
  | ok b =>
    have hprep := prepare_eq hf hb items st
    rw [Exec.bind_of_ok (Exec.lift_ok_apply b _)]
    by_cases hlen : items.length = ts.length
    · rw [if_neg (not_not.mpr hlen)] at hprep ⊢
      cases has : convertAll ts items st.heap with
      | error e =>
        rw [has] at hprep
        rw [Exec.bind_of_error hprep, Exec.bind_of_error has]
        rfl
      | ok y =>
        obtain ⟨as, h⟩ := y
        rw [has] at hprep
        rw [Exec.bind_of_ok hprep, Exec.bind_of_ok has]
        have hown' : OwnCell r { st with heap := h, vm := ⟨b, as⟩ } := hown
        exact shown_callAndReturn hf hown' callee
    · rw [if_pos hlen] at hprep ⊢
      rw [Exec.bind_of_error hprep]
      rfl

/-- Every call leaves the callable a result cell of its own. -/
theorem ownCell_trigger (hf : f.restype = some r) {st st' : Interp} (hown : OwnCell r st)
    {callee : Callee} {items : List SV} {c : Option ℕ}
    (h : Fiction_trigger inMemory f callee items st = .ok (c, st')) : OwnCell r st' := by
  obtain ⟨-, s₁, x, m, hprep, -, hswitch, -⟩ := (trigger_eq_ok hf).mp h
  obtain ⟨o, m', ho, hput⟩ := returnSwitch_eq_ok.mp hswitch
  obtain ⟨hcells, hres⟩ := sameScalars_prepare hprep
  rcases hown with hrep | ⟨c', hc', hlt, hvoid⟩
  · exact Or.inl hrep
  · have hres' : s₁.res = some c' := hres.trans hc'
    cases hrep : replacesCell r with
    | true => exact Or.inl hrep
    | false =>
      right
      cases o with
      | none =>
        cases hput
        exact ⟨c', hres', hcells ▸ hlt, fun hv => hcells ▸ hvoid hv⟩
      | some sv =>
        have hset : putResult r (some sv) { s₁ with heap := m' } =
            .ok ((), { s₁ with heap := m', cells := s₁.cells.set c' sv }) :=
          putResult_overwrites hrep hres'
        cases hput.symm.trans hset
        refine ⟨c', hres', by simpa [hcells] using hlt, fun hv => ?_⟩
        cases ho.symm.trans (returned_of_void hv x m)

end Calls

theorem ownCell_wrapped (heap : Heap) (cells : List SV) (r : TypeObj) :
    OwnCell r (.wrapped heap cells (some r)) := by
  have hfresh : ∀ sv, resultCell (some r) = some sv → (r.flag = .void → sv = .undef false) →
      OwnCell r (.wrapped heap cells (some r)) := by
    intro sv hsv hvoid
    refine Or.inr ⟨cells.length, by simp [Interp.wrapped, hsv], by simp [Interp.wrapped, hsv], ?_⟩
    intro hv
    simp [Interp.wrapped, hsv, hvoid hv]
  cases r with
  | scalar k s =>
    cases k
    case WChar => exact Or.inl rfl
    all_goals exact hfresh _ rfl fun _ => rfl
  | struct s fields => exact Or.inl rfl
  | pointer | codeRef | union => exact hfresh _ rfl fun _ => rfl

theorem ownCell_received (heap : Heap) (cells : List SV) (r : TypeObj) :
    OwnCell r (received heap cells) :=
  Or.inr ⟨cells.length, rfl, by simp [received], fun _ => by simp [received]⟩

/-! ## The descriptor of the result -/

/-- Why `_aggregate` refuses a type: its messages and its faults. -/
def Refusal (e : Halt) : Prop := e = .fault ∨ ∃ rest, e = .croak (text "Un" ++ rest)

theorem dcAggrField_refusal {ag : DCaggr} {c : DCsigchar} {offset : ℤ} {n : ℕ}
    {sub : Option DCaggr} {e : Halt} (h : dcAggrField ag c offset n sub = .error e) :
    Refusal e := by
  unfold dcAggrField dcFieldExtent at h
  split at h
  · rename_i e' he
    cases h
    split at he
    · cases he
    · split at he <;> cases he
      exact Or.inl rfl
  · cases h

theorem aggregateField_refusal {field : TypeObj} {nested : Except Halt DCaggr} {e : Halt}
    (hnested : ∀ e, nested = .error e → Refusal e) (h : aggregateField field nested = .error e) :
    Refusal e := by
  have hmap : nested.map (fun sub => (DCsigchar.aggregate, some sub)) = .error e → Refusal e := by
    cases nested with
    | error e' => exact fun he => hnested e (by cases he; rfl)
    | ok sub => exact fun he => by cases he
  unfold aggregateField at h
  split at h
  · exact hmap h
  · exact hmap h
  · exact hmap h
  · cases hchar : aggregateSigchar field.flag with
    | some c =>
      rw [hchar] at h
      cases h
    | none =>
      rw [hchar] at h
      cases h
      exact Or.inr ⟨text "handled type in aggregate: " ++ field.slots.stringify, rfl⟩

mutual

theorem aggregate_refusal : ∀ (type : TypeObj) {e : Halt}, aggregate type = .error e → Refusal e
  | .struct s store, _, h => aggregateFields_refusal _ store h
  | .union s store, _, h => aggregateFields_refusal _ store h
  | .scalar _ s, _, h | .pointer s _, _, h | .codeRef s _ _ _, _, h => by
    cases h
    exact Or.inr ⟨text "supported aggregate: " ++ s.stringify, rfl⟩

theorem aggregateFields_refusal : ∀ (ag : DCaggr) (fields : List TypeObj) {e : Halt},
    aggregateFields ag fields = .error e → Refusal e
  | _, [], _, h => by cases h
  | ag, field :: rest, e, h => by
    unfold aggregateFields at h
    split at h
    · rename_i e' he
      cases h
      exact aggregateField_refusal (fun _ hsub => aggregate_refusal field hsub) he
    · split at h
      · rename_i e' he
        cases h
        exact dcAggrField_refusal he
      · exact aggregateFields_refusal _ rest h

end

/-! ## The two callables -/

/-- The message about a wrong number of arguments, around the name of the callable. -/
theorem wrongItems_eq (sigLen items : ℕ) : ∃ before after, ∀ f : Fiction,
    wrongItems f sigLen items = before ++ f.symbol.map UInt8.toNat ++ after := by
  refine ⟨text (if items > sigLen then "Too many" else "Not enough") ++ text " arguments for ",
    text "; expected " ++ text (toString sigLen) ++ text ", found " ++ text (toString items) ++
      text ")", fun f => ?_⟩
  simp [wrongItems, List.append_assoc]

theorem SameEnd_map {α β : Type} {name name' : Text} {x y : Except Halt α} (g : α → β)
    (h : SameEnd name name' x y) : SameEnd name name' (x.map g) (y.map g) := by
  cases h with
  | same => exact .same _
  | named before after => exact .named before after

/-- A call that gets through to the C function ends as that function does. -/
theorem not_sameEnd_of_croak {α : Type} {name name' m : Text} :
    ¬ SameEnd name name' (.error (.croak m) : Except Halt α) (.error .fault) := by
  intro h
  cases h

section Callables

variable {inMemory : DCaggr → Bool} {ts : List TypeObj} {r : TypeObj} {f g : Fiction}

/-- Two records with the same types, both past the descriptor of the result. -/
theorem sameEnd_callOutcome {b b' : Bool} (hf : aggrSetup inMemory f = .ok b)
    (hg : aggrSetup inMemory g = .ok b') {callee : Callee} {items : List SV} {h : Heap}
    (htail : items.length = ts.length → ∀ as h', convertAll ts items h = .ok (as, h') →
      callResult f r callee as h' = callResult g r callee as h') :
    SameEnd (f.symbol.map UInt8.toNat) (g.symbol.map UInt8.toNat)
      (callOutcome inMemory f ts r callee items h)
      (callOutcome inMemory g ts r callee items h) := by
  unfold callOutcome
  rw [hf, hg, Exec.bind_of_ok (Exec.lift_ok_apply b _), Exec.bind_of_ok (Exec.lift_ok_apply b' _)]
  by_cases hlen : items.length = ts.length
  · rw [if_neg (not_not.mpr hlen), if_neg (not_not.mpr hlen)]
    cases has : convertAll ts items h with
    | error e =>
      rw [Exec.bind_of_error has, Exec.bind_of_error has]
      exact .same _
    | ok y =>
      obtain ⟨as, h'⟩ := y
      rw [Exec.bind_of_ok has, Exec.bind_of_ok has, htail hlen as h' has]
      exact .same _
  · rw [if_pos hlen, if_pos hlen]
    obtain ⟨before, after, hmsg⟩ := wrongItems_eq ts.length items.length
    rw [hmsg f, hmsg g]
    exact .named before after

/-- The record of `wrap` and that of `ptr2sv` for one function. -/
structure Counterparts (ts : List TypeObj) (r : TypeObj) (f g : Fiction) : Prop where
  wrapped : MadeFor ts r f
  pointed : MadeFor ts r g
  entryPoint : f.entryPoint = g.entryPoint
  begun : f.aggrRestype = (r.flag == .struct)
  notBegun : g.aggrRestype = false
  anonymous : g.symbol = "anonymous subroutine".toUTF8.toList

theorem hasDescriptor_of_not_struct (h : r.flag ≠ .struct) (f : Fiction) :
    hasDescriptor f r = true := by
  cases r with
  | struct s fields => exact absurd rfl h
  | scalar | pointer | codeRef | union => rfl

theorem callOutcome_length {b : Bool} (hf : aggrSetup inMemory f = .ok b) {callee : Callee}
    {items : List SV} (hlen : items.length ≠ ts.length) (h : Heap) :
    callOutcome inMemory f ts r callee items h =
      .error (.croak (wrongItems f ts.length items.length)) := by
  unfold callOutcome
  rw [hf, Exec.bind_of_ok (Exec.lift_ok_apply b _), if_pos hlen]
  rfl

theorem callOutcome_convertAll {b : Bool} (hf : aggrSetup inMemory f = .ok b) {callee : Callee}
    {items : List SV} (hlen : items.length = ts.length) {h h' : Heap} {as : List DCArg}
    (has : convertAll ts items h = .ok (as, h')) :
    callOutcome inMemory f ts r callee items h = callResult f r callee as h' := by
  unfold callOutcome
  rw [hf, Exec.bind_of_ok (Exec.lift_ok_apply b _), if_neg (not_not.mpr hlen),
    Exec.bind_of_ok has]

theorem passable_iff : Passable ts ↔
    ∃ items h as h', items.length = ts.length ∧ convertAll ts items h = .ok (as, h') := by
  constructor
  · rintro ⟨items, st, st', hlen, hpush⟩
    obtain ⟨as, h', has, -⟩ := pushArguments_eq_ok.mp hpush
    exact ⟨items, st.heap, as, h', hlen, has⟩
  · rintro ⟨items, h, as, h', hlen, has⟩
    exact ⟨items, ⟨h, ⟨false, []⟩, [], none⟩, _, hlen, pushArguments_eq_ok.mpr ⟨as, h', has, rfl⟩⟩

theorem head?_tooMany (f : Fiction) (n : ℕ) : (wrongItems f n (n + 1)).head? = some 84 := by
  simp only [wrongItems, gt_iff_lt, Nat.lt_succ_self, if_true, List.append_assoc]
  rfl

theorem head?_anonymous (hg : g.symbol = "anonymous subroutine".toUTF8.toList) :
    (g.symbol.map UInt8.toNat).head? = some 97 := by
  rw [hg]
  decide +kernel

/-- A refusal is no message about a number of arguments. -/
theorem not_sameEnd_refusal {α : Type} {e : Halt} (he : Refusal e) (name : Text) (n : ℕ)
    (hg : g.symbol = "anonymous subroutine".toUTF8.toList) :
    ¬ SameEnd name (g.symbol.map UInt8.toNat) (.error e : Except Halt α)
      (.error (.croak (wrongItems g n (n + 1)))) := by
  have hends : ∀ {name' : Text} {m : Text}, SameEnd name name' (.error e : Except Halt α)
      (.error (.croak m)) → e = .croak m ∨ ∃ before after,
        e = .croak (before ++ name ++ after) ∧ m = before ++ name' ++ after := by
    intro name' m h
    cases h with
    | same => exact Or.inl rfl
    | named before after => exact Or.inr ⟨before, after, rfl, rfl⟩
  intro h
  have hhead := head?_tooMany g n
  rcases he with rfl | ⟨rest, rfl⟩
  · rcases hends h with heq | ⟨before, after, heq, -⟩ <;> cases heq
  · rcases hends h with heq | ⟨before, after, heq, hm⟩
    · rw [← Halt.croak.inj heq] at hhead
      cases hhead
    · rw [hm] at hhead
      cases before with
      | nil =>
        rw [List.nil_append, List.head?_append, head?_anonymous hg] at hhead
        cases hhead
      | cons c before =>
        have hc : c = 85 := (List.cons.inj (Halt.croak.inj heq)).1.symm
        rw [hc] at hhead
        cases hhead

theorem aggrSetup_pointed (h : Counterparts ts r f g) : aggrSetup inMemory g = .ok false := by
  simp [aggrSetup, h.pointed.restype, h.notBegun]

theorem behaveAlike_of_not_struct (h : Counterparts ts r f g) (hr : r.flag ≠ .struct) :
    BehaveAlike inMemory r f g := by
  intro code items st st' hown hown' hheap
  have hsetup : aggrSetup inMemory f = .ok false := by
    simp [aggrSetup, h.wrapped.restype, h.begun, hr]
  rw [shown_trigger h.wrapped hown, shown_trigger h.pointed hown', h.entryPoint, hheap]
  refine SameEnd_map _ (sameEnd_callOutcome hsetup (aggrSetup_pointed h) fun _ as h' _ => ?_)
  simp only [callResult, hasDescriptor_of_not_struct hr]

/-! A struct result. The wrapper makes its descriptor and calls; the callable of the pointer
gets as far as the call. -/

theorem aggrSetup_struct (h : Counterparts ts r f g) (hr : r.flag = .struct) :
    aggrSetup inMemory f = (aggregate r).map inMemory := by
  simp [aggrSetup, h.wrapped.restype, h.begun, hr]

theorem ownCell_struct (hr : r.flag = .struct) (st : Interp) : OwnCell r st := by
  cases r with
  | struct s fields => exact Or.inl rfl
  | scalar k s => cases k <;> cases hr
  | pointer | codeRef | union => cases hr

theorem callResult_struct (h : Counterparts ts r f g) (hr : r.flag = .struct) (callee : Callee)
    (as : List DCArg) (m : Heap) :
    callResult f r callee as m = (callee as >>= fun x => returned r x : Eff (Option SV)) m ∧
      callResult g r callee as m = .error .fault := by
  cases r with
  | struct s fields =>
    have hf : hasDescriptor f (.struct s fields) = true := h.begun
    have hg : hasDescriptor g (.struct s fields) = false := h.notBegun
    simp [callResult, returnable, hf, hg]
  | scalar k s => cases k <;> cases hr
  | pointer | codeRef | union => cases hr

/-- Where no values can be passed, no call gets to the function. -/
theorem behaveAlike_of_not_passable (h : Counterparts ts r f g) (hr : r.flag = .struct)
    {ag : DCaggr} (hag : aggregate r = .ok ag) (hpass : ¬ Passable ts) :
    BehaveAlike inMemory r f g := by
  intro code items st st' hown hown' hheap
  have hsetup : aggrSetup inMemory f = .ok (inMemory ag) := by
    rw [aggrSetup_struct h hr, hag]
    rfl
  rw [shown_trigger h.wrapped hown, shown_trigger h.pointed hown', h.entryPoint, hheap]
  refine SameEnd_map _ (sameEnd_callOutcome hsetup (aggrSetup_pointed h) fun hlen as h' has => ?_)
  exact absurd (passable_iff.mpr ⟨items, _, as, h', hlen, has⟩) hpass

/-- A call with one argument too many: the wrapper refuses the type, the other callable
counts. -/
theorem not_behaveAlike_of_refused (h : Counterparts ts r f g) (hr : r.flag = .struct)
    {e : Halt} (hag : aggregate r = .error e) : ¬ BehaveAlike inMemory r f g := by
  intro halike
  have hend := halike (fun _ _ _ => .error .fault) (List.replicate (ts.length + 1) (.undef false))
    ⟨.empty, ⟨false, []⟩, [], none⟩ ⟨.empty, ⟨false, []⟩, [], none⟩ (ownCell_struct hr _)
    (ownCell_struct hr _) rfl
  have hsetup : aggrSetup inMemory f = .error e := by
    rw [aggrSetup_struct h hr, hag]
    rfl
  have hwrapped : callOutcome inMemory f ts r (fun _ _ => .error .fault)
      (List.replicate (ts.length + 1) (.undef false)) .empty = .error e := by
    unfold callOutcome
    rw [hsetup]
    exact Exec.bind_of_error (Exec.lift_error_apply e _)
  rw [shown_trigger h.wrapped (ownCell_struct hr _), hwrapped,
    shown_trigger h.pointed (ownCell_struct hr _),
    callOutcome_length (aggrSetup_pointed h) (by simp)] at hend
  rw [List.length_replicate] at hend
  exact not_sameEnd_refusal (aggregate_refusal r hag) _ _ h.anonymous hend

/-- A call that gets to the function: the wrapper ends as the function does. -/
theorem not_behaveAlike_of_passable (h : Counterparts ts r f g) (hr : r.flag = .struct)
    {ag : DCaggr} (hag : aggregate r = .ok ag) (hpass : Passable ts) :
    ¬ BehaveAlike inMemory r f g := by
  intro halike
  obtain ⟨items, m, as, m', hlen, has⟩ := passable_iff.mp hpass
  have hend := halike (fun _ _ _ => .error (.croak [])) items ⟨m, ⟨false, []⟩, [], none⟩
    ⟨m, ⟨false, []⟩, [], none⟩ (ownCell_struct hr _) (ownCell_struct hr _) rfl
  have hsetup : aggrSetup inMemory f = .ok (inMemory ag) := by
    rw [aggrSetup_struct h hr, hag]
    rfl
  rw [shown_trigger h.wrapped (ownCell_struct hr _), callOutcome_convertAll hsetup hlen has,
    (callResult_struct h hr _ _ _).1, shown_trigger h.pointed (ownCell_struct hr _),
    callOutcome_convertAll (aggrSetup_pointed h) hlen has, (callResult_struct h hr _ _ _).2] at hend
  exact not_sameEnd_of_croak hend

/-- **The callable of a function pointer behaves as the wrapper of the function** unless the
function returns a struct and some values can be passed to it. -/
theorem behaveAlike_iff (h : Counterparts ts r f g) : BehaveAlike inMemory r f g ↔
    r.flag ≠ .struct ∨ (∃ ag, aggregate r = .ok ag) ∧ ¬ Passable ts := by
  by_cases hr : r.flag = .struct
  · simp only [hr, ne_eq, not_true, false_or]
    constructor
    · intro halike
      cases hag : aggregate r with
      | error e => exact absurd halike (not_behaveAlike_of_refused h hr hag)
      | ok ag =>
        exact ⟨⟨ag, rfl⟩, fun hpass => not_behaveAlike_of_passable h hr hag hpass halike⟩
    · rintro ⟨⟨ag, hag⟩, hpass⟩
      exact behaveAlike_of_not_passable h hr hag hpass
  · exact iff_of_true (behaveAlike_of_not_struct h hr) (Or.inl hr)

end Callables

/-- No value can be passed for a `SV` or a union. -/
theorem not_passable_of_mem {ts : List TypeObj} {t : TypeObj} (ht : t ∈ ts)
    (hkind : t.flag = .sv ∨ t.flag = .union) : ¬ Passable ts := by
  have hrefused : ∀ sv h x, argument t sv h ≠ .ok x := by
    intro sv h x
    cases t with
    | scalar k s => cases k <;> simp [TypeObj.flag, Kind.flag] at hkind; exact fun hx => by cases hx
    | union s fields => exact fun hx => by cases hx
    | pointer | codeRef | struct => simp [TypeObj.flag] at hkind
  rw [passable_iff]
  rintro ⟨items, h, as, h', hlen, has⟩
  induction ts generalizing items h as with
  | nil => cases ht
  | cons u ts ih =>
    cases items with
    | nil => cases hlen
    | cons sv items =>
      obtain ⟨a, h₁, ha, hrest⟩ := Exec.bind_eq_ok.mp has
      rcases List.mem_cons.mp ht with rfl | hmem
      · exact hrefused sv h _ ha
      · obtain ⟨as', h₂, has', hpure⟩ := Exec.bind_eq_ok.mp hrest
        cases hpure
        exact ih hmem items h₁ as' (Nat.succ.inj hlen) has'

/-- What `Affix_fiction` makes is a wrapper of these types. -/
theorem Affix_fiction_eq_ok {env : Loader} {st st' : LibState} {libArg : LibArg}
    {symArg : SymbolArg} {argtypes : Option (List TypeObj)} {restype : Option TypeObj}
    {f : Fiction} (h : Affix_fiction env st libArg symArg argtypes restype = (.ok f, st')) :
    ∃ lib entryPoint symbol, f = wrapper lib entryPoint symbol argtypes restype := by
  unfold Affix_fiction at h
  split at h
  · cases h
  · split at h
    · cases h
    · split at h
      · cases h
      · cases h
        exact ⟨_, _, _, rfl⟩

theorem counterparts {env : Loader} {st st' : LibState} {libArg : LibArg} {symArg : SymbolArg}
    {ts : List TypeObj} {r : TypeObj} {s : Slots} {sig : List Flag} {p : ℕ} {m m' : Heap}
    {i : RefInfo} {f g : Fiction}
    (hf : Affix_fiction env st libArg symArg (some ts) (some r) = (.ok f, st'))
    (hg : ptr2sv (.codeRef s (some ts) sig r) p m = .ok (.code i (.fiction g), m'))
    (hp : f.entryPoint = p) : Counterparts ts r f g := by
  obtain ⟨lib, entryPoint, symbol, rfl⟩ := Affix_fiction_eq_ok hf
  have hcode := ptr2sv_codeRef hg
  by_cases hp0 : p = 0
  · rw [if_pos hp0] at hcode
    cases hcode
  · rw [if_neg hp0] at hcode
    cases hcode
    exact ⟨⟨rfl, rfl, rfl⟩, ⟨rfl, rfl, rfl⟩, hp, rfl, rfl, rfl⟩

/-- **For every `CodeRef[[A1, …, An] => R]` and every address**, the callable `ptr2sv` makes
behaves as the one `wrap` makes of the symbol there, exactly when `R` is no struct, or is one
that has a descriptor and no values at all can be passed for the arguments. -/
theorem pointerCallable_iff {env : Loader} {st st' : LibState} {libArg : LibArg}
    {symArg : SymbolArg} {ts : List TypeObj} {r : TypeObj} {s : Slots} {sig : List Flag} {p : ℕ}
    {m m' : Heap} {i : RefInfo} {f g : Fiction}
    (hf : Affix_fiction env st libArg symArg (some ts) (some r) = (.ok f, st'))
    (hg : ptr2sv (.codeRef s (some ts) sig r) p m = .ok (.code i (.fiction g), m'))
    (hp : f.entryPoint = p) (inMemory : DCaggr → Bool) :
    BehaveAlike inMemory r f g ↔
      r.flag ≠ .struct ∨ (∃ ag, aggregate r = .ok ag) ∧ ¬ Passable ts :=
  behaveAlike_iff (counterparts hf hg hp)

/-- A loader that finds every symbol at one address. -/
def found (p : ℕ) : Loader := ⟨fun _ => some 1, fun _ _ => some p, fun _ => true, id⟩

/-- `CodeRef[ [ Int ] => Int ]`. -/
theorem pointerCallable_int :
    BehaveAlike (fun _ => false) (scalarType .Int)
        (wrapper (some 1) 5 [] (some [scalarType .Int]) (some (scalarType .Int)))
        (pointerFiction [scalarType .Int] (scalarType .Int) 5) ↔
      (scalarType .Int).flag ≠ .struct ∨
        (∃ ag, aggregate (scalarType .Int) = .ok ag) ∧ ¬ Passable [scalarType .Int] := by
  have hwrap : Affix_fiction (found 5) .initial .undef (.str []) (some [scalarType .Int])
      (some (scalarType .Int)) = (.ok (wrapper (some 1) 5 [] _ _), _) := rfl
  have hpointer : ptr2sv (CodeRef [scalarType .Int] (scalarType .Int)) 5 .empty =
      .ok (.code (.new ["Affix"]) (.fiction (pointerFiction _ _ 5)), _) := rfl
  exact pointerCallable_iff hwrap hpointer rfl _

/-- `CodeRef[ [] => Struct[ x => Int ] ]`: the wrapper calls the function, the other callable
gives `dcCallAggr` no descriptor. -/
theorem pointerCallable_struct :
    ∃ r, Struct [(.ofText (text "x"), scalarType .Int)] = .ok r ∧
      ∃ f st', Affix_fiction (found 5) .initial .undef (.str []) (some []) (some r) = (.ok f, st') ∧
        ∃ g m', ptr2sv (CodeRef [] r) 5 .empty =
            .ok (.code (.new ["Affix"]) (.fiction g), m') ∧
          f.entryPoint = 5 ∧ ¬ BehaveAlike (fun _ => false) r f g := by
  refine ⟨_, rfl, _, _, rfl, _, _, rfl, rfl, ?_⟩
  have hpassable : Passable [] := ⟨[], ⟨.empty, ⟨false, []⟩, [], none⟩, _, rfl, rfl⟩
  exact not_behaveAlike_of_passable ⟨⟨rfl, rfl, rfl⟩, ⟨rfl, rfl, rfl⟩, rfl, rfl, rfl, rfl⟩ rfl rfl
    hpassable

end Affix.Analysis
