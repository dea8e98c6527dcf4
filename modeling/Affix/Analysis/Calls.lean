import Affix.Model.Trigger

/-!
# What a call does

`Fiction_trigger` returned exactly when its three parts did: the arguments were
pushed, the C function came back, and the return switch had a branch for the
result. Preparing a call touches neither the Perl scalars nor the choice of the
result cell, and hands the C function what the arguments were converted to.
-/

set_option autoImplicit false

namespace Affix.Analysis

open Affix.Foundation Affix.Model

theorem onHeap_eq_ok {α : Type} {x : Eff α} {st st' : Interp} {a : α} :
    onHeap x st = .ok (a, st') ↔ ∃ h, x st.heap = .ok (a, h) ∧ st' = { st with heap := h } := by
  apply Exec.carry_eq_ok (P := fun a h => x st.heap = .ok (a, h))
  · intro b h hx
    rw [onHeap, hx]
  · intro hno
    cases hx : x st.heap with
    | error e => exact ⟨e, by rw [onHeap, hx]⟩
    | ok r => exact absurd hx (hno r.1 r.2)

theorem onVM_eq_ok {f : DCCallVM → DCCallVM} {st st' : Interp} {u : Unit} :
    onVM f st = .ok (u, st') ↔ st' = { st with vm := f st.vm } := by
  unfold onVM
  simp [eq_comm]

theorem dcCall_eq_ok {callee : Callee} {st st' : Interp} {r : Returned} :
    dcCall callee st = .ok (r, st') ↔
      ∃ h, callee st.vm.args st.heap = .ok (r, h) ∧ st' = { st with heap := h } := by
  apply Exec.carry_eq_ok (P := fun r h => callee st.vm.args st.heap = .ok (r, h))
  · intro r h hx
    rw [dcCall, hx]
  · intro hno
    cases hx : callee st.vm.args st.heap with
    | error e => exact ⟨e, by rw [dcCall, hx]⟩
    | ok r => exact absurd hx (hno r.1 r.2)

/-- Two states agree on everything but the heap and the call machine. -/
def SameScalars (st st' : Interp) : Prop := st'.cells = st.cells ∧ st'.res = st.res

theorem SameScalars.refl (st : Interp) : SameScalars st st := ⟨rfl, rfl⟩

theorem SameScalars.trans {s₁ s₂ s₃ : Interp} (h : SameScalars s₁ s₂) (h' : SameScalars s₂ s₃) :
    SameScalars s₁ s₃ := ⟨h'.1.trans h.1, h'.2.trans h.2⟩

theorem sameScalars_onHeap {α : Type} {x : Eff α} {st st' : Interp} {a : α}
    (h : onHeap x st = .ok (a, st')) : SameScalars st st' := by
  obtain ⟨_, _, rfl⟩ := onHeap_eq_ok.mp h
  exact ⟨rfl, rfl⟩

theorem sameScalars_onVM {f : DCCallVM → DCCallVM} {st st' : Interp} {u : Unit}
    (h : onVM f st = .ok (u, st')) : SameScalars st st' := by
  rw [onVM_eq_ok.mp h]
  exact ⟨rfl, rfl⟩

theorem sameScalars_pushArguments {ts : List TypeObj} {svs : List SV} {st st' : Interp} {u : Unit}
    (h : pushArguments ts svs st = .ok (u, st')) : SameScalars st st' := by
  induction ts generalizing svs st with
  | nil =>
    cases svs <;> (cases h; exact .refl _)
  | cons t ts ih =>
    cases svs with
    | nil => cases h; exact .refl _
    | cons sv svs =>
      obtain ⟨a, s₁, ha, h⟩ := Exec.bind_eq_ok.mp h
      obtain ⟨u₂, s₂, h₂, h⟩ := Exec.bind_eq_ok.mp h
      exact (sameScalars_onHeap ha).trans ((sameScalars_onVM h₂).trans (ih h))

theorem sameScalars_bare {svs : List SV} {st st' : Interp} {u : Unit}
    (h : (svs.forM fun sv => onVM (push (bareArgument sv)) : Run Unit) st = .ok (u, st')) :
    SameScalars st st' := by
  induction svs generalizing st with
  | nil => cases h; exact .refl _
  | cons sv svs ih =>
    obtain ⟨u₁, s₁, h₁, h⟩ := Exec.bind_eq_ok.mp h
    exact (sameScalars_onVM h₁).trans (ih h)

theorem sameScalars_prepare {inMemory : DCaggr → Bool} {f : Fiction} {items : List SV}
    {st st' : Interp} {u : Unit} (h : prepare inMemory f items st = .ok (u, st')) :
    SameScalars st st' := by
  obtain ⟨u₁, s₁, h₁, h⟩ := Exec.bind_eq_ok.mp h
  obtain ⟨u₂, s₂, h₂, h⟩ := Exec.bind_eq_ok.mp h
  have hbegin : SameScalars s₁ s₂ := by
    cases hr : f.restype with
    | none =>
      simp only [beginCall, hr] at h₂
      cases h₂; exact .refl _
    | some type =>
      by_cases hg : f.aggrRestype = true
      · simp only [beginCall, hr, hg, if_true] at h₂
        obtain ⟨ag, s, hag, h₂⟩ := Exec.bind_eq_ok.mp h₂
        rw [(Exec.lift_eq_ok.mp hag).2]
        exact sameScalars_onVM h₂
      · simp only [beginCall, hr, if_neg hg] at h₂
        cases h₂; exact .refl _
  have hargs : SameScalars s₂ st' := by
    cases hs : f.signature with
    | none =>
      simp only [arguments, hs] at h
      exact sameScalars_bare h
    | some sig =>
      by_cases hl : items.length = sig.length
      · simp only [arguments, hs, ne_eq, hl, not_true, if_false] at h
        exact sameScalars_pushArguments h
      · simp only [arguments, hs, ne_eq, hl, not_false_eq_true, if_true] at h
        cases h
  exact (sameScalars_onVM h₁).trans (hbegin.trans hargs)

/-! ## The arguments of a call -/

/-- The arguments of a call, each converted in the heap the one before it left. -/
def convertAll : List TypeObj → List SV → Eff (List DCArg)
  | t :: ts, sv :: svs => do
    let a ← argument t sv
    let as ← convertAll ts svs
    pure (a.toList ++ as)
  | _, _ => pure []

/-- The place a call keeps for the address of an aggregate result. -/
def aggrSetup (inMemory : DCaggr → Bool) (f : Fiction) : Except Halt Bool :=
  match f.restype with
  | some type => if f.aggrRestype then (aggregate type).map inMemory else .ok false
  | none => .ok false

theorem push_eq (a : Option DCArg) (vm : DCCallVM) :
    push a vm = { vm with args := vm.args ++ a.toList } := by
  cases a <;> simp [push, DCCallVM.dcArg]

/-- **The argument loop**: it stops where a conversion does, and appends the converted
arguments to what is in the machine. -/
theorem pushArguments_eq (ts : List TypeObj) (svs : List SV) (st : Interp) :
    pushArguments ts svs st = (convertAll ts svs st.heap).map fun r =>
      ((), { st with heap := r.2, vm := { st.vm with args := st.vm.args ++ r.1 } }) := by
  induction ts generalizing svs st with
  | nil =>
    cases svs <;> simp [pushArguments, convertAll, Except.map]
  | cons t ts ih =>
    cases svs with
    | nil => simp [pushArguments, convertAll, Except.map]
    | cons sv svs =>
      unfold pushArguments convertAll
      cases ha : argument t sv st.heap with
      | error e =>
        rw [Exec.bind_of_error ha, Exec.bind_of_error (e := e) (by rw [onHeap, ha])]
        rfl
      | ok r =>
        obtain ⟨a, h⟩ := r
        have hheap : onHeap (argument t sv) st = .ok (a, { st with heap := h }) :=
          onHeap_eq_ok.mpr ⟨h, ha, rfl⟩
        rw [Exec.bind_of_ok ha, Exec.bind_of_ok hheap,
          Exec.bind_of_ok (onVM_eq_ok (u := ()).mpr rfl), ih]
        cases has : convertAll ts svs h with
        | error e => rw [Exec.bind_of_error has]; rfl
        | ok r' =>
          rw [Exec.bind_of_ok has]
          simp [Except.map, push_eq]

theorem pushArguments_eq_ok {ts : List TypeObj} {svs : List SV} {st st' : Interp} {u : Unit} :
    pushArguments ts svs st = .ok (u, st') ↔ ∃ as h, convertAll ts svs st.heap = .ok (as, h) ∧
      st' = { st with heap := h, vm := { st.vm with args := st.vm.args ++ as } } := by
  rw [pushArguments_eq]
  cases convertAll ts svs st.heap with
  | error e => simp [Except.map]
  | ok r =>
    obtain ⟨as, h⟩ := r
    simp [Except.map, eq_comm]

/-- **The start of a call**: it stops where the descriptor of the result cannot be made. -/
theorem beginCall_eq (inMemory : DCaggr → Bool) (f : Fiction) (st : Interp) :
    beginCall inMemory f st = (aggrSetup inMemory f).map fun b =>
      ((), { st with vm := { st.vm with aggrReturn := b || st.vm.aggrReturn } }) := by
  cases hr : f.restype with
  | none => simp [beginCall, aggrSetup, hr, Except.map]
  | some type =>
    by_cases hg : f.aggrRestype = true
    · simp only [beginCall, aggrSetup, hr, hg, if_true]
      cases hag : aggregate type with
      | error e => rw [Exec.bind_of_error (Exec.lift_error_apply e st)]; rfl
      | ok ag =>
        rw [Exec.bind_of_ok (Exec.lift_ok_apply ag st)]
        cases hm : inMemory ag <;> simp [onVM, DCCallVM.dcBeginCallAggr, Except.map, hm]
    · simp [beginCall, aggrSetup, hr, hg, Except.map]

theorem beginCall_eq_ok {inMemory : DCaggr → Bool} {f : Fiction} {st st' : Interp} {u : Unit} :
    beginCall inMemory f st = .ok (u, st') ↔ ∃ b, aggrSetup inMemory f = .ok b ∧
      st' = { st with vm := { st.vm with aggrReturn := b || st.vm.aggrReturn } } := by
  rw [beginCall_eq]
  cases aggrSetup inMemory f with
  | error e => simp [Except.map]
  | ok b => simp [Except.map, eq_comm]

/-- **What the C function gets**: whatever was in the machine, a prepared call holds the
setup of this call and the converted arguments of this call. -/
theorem prepare_eq_ok {inMemory : DCaggr → Bool} {f : Fiction} {sig : List Flag}
    {ts : List TypeObj} (hsig : f.signature = some sig) (hts : f.argtypes = some ts)
    {items : List SV} {st st' : Interp} :
    prepare inMemory f items st = .ok ((), st') ↔ items.length = sig.length ∧
      ∃ b as h, aggrSetup inMemory f = .ok b ∧ convertAll ts items st.heap = .ok (as, h) ∧
        st' = { st with heap := h, vm := ⟨b, as⟩ } := by
  simp only [prepare, Exec.bind_eq_ok, onVM_eq_ok, beginCall_eq_ok]
  by_cases hl : items.length = sig.length
  · simp only [arguments, hsig, hts, ne_eq, hl, not_true, if_false, Option.getD_some,
      pushArguments_eq_ok, true_and]
    constructor
    · rintro ⟨_, _, rfl, _, _, ⟨b, hb, rfl⟩, as, h, has, rfl⟩
      exact ⟨b, as, h, hb, has, by simp [DCCallVM.dcReset]⟩
    · rintro ⟨b, as, h, hb, has, rfl⟩
      exact ⟨(), _, rfl, (), _, ⟨b, hb, rfl⟩, as, h, has, by simp [DCCallVM.dcReset]⟩
  · simp [arguments, hsig, hl]

/-! ## The call -/

theorem returnSwitch_eq_ok {type : TypeObj} {r : Returned} {st st' : Interp} {u : Unit} :
    returnSwitch type r st = .ok (u, st') ↔ ∃ o h, returned type r st.heap = .ok (o, h) ∧
      putResult type o { st with heap := h } = .ok (u, st') := by
  simp only [returnSwitch, Exec.bind_eq_ok, onHeap_eq_ok]
  constructor
  · rintro ⟨o, _, ⟨h, ho, rfl⟩, hput⟩
    exact ⟨o, h, ho, hput⟩
  · rintro ⟨o, h, ho, hput⟩
    exact ⟨o, _, ⟨h, ho, rfl⟩, hput⟩

/-- A branch that overwrites the result cell changes that cell. -/
theorem putResult_overwrites {type : TypeObj} (ht : replacesCell type = false) {sv : SV}
    {st : Interp} {c : ℕ} (hc : st.res = some c) :
    putResult type (some sv) st = .ok ((), { st with cells := st.cells.set c sv }) := by
  simp [putResult, ht, setCell, hc]

/-- A wrapper with a result type calls and goes through the return switch. -/
theorem callAndReturn_eq_ok {f : Fiction} {type : TypeObj} (hf : f.restype = some type)
    {callee : Callee} {st st' : Interp} {u : Unit} :
    callAndReturn f callee st = .ok (u, st') ↔
      (returnable type = true ∧ hasDescriptor f type = true) ∧
        ∃ r h, callee st.vm.args st.heap = .ok (r, h) ∧
          returnSwitch type r { st with heap := h } = .ok (u, st') := by
  simp only [callAndReturn, hf]
  by_cases hret : returnable type = true
  · by_cases hdesc : hasDescriptor f type = true
    · simp only [if_true, hret, hdesc, and_self, true_and]
      constructor
      · intro h
        obtain ⟨r, s, hdc, h⟩ := Exec.bind_eq_ok.mp h
        obtain ⟨m, hcall, hs⟩ := dcCall_eq_ok.mp hdc
        subst hs
        exact ⟨r, m, hcall, h⟩
      · rintro ⟨r, m, hcall, h⟩
        exact Exec.bind_eq_ok.mpr ⟨r, _, dcCall_eq_ok.mpr ⟨m, hcall, rfl⟩, h⟩
    · simp [hret, hdesc]
  · simp [hret]

/-- **Inversion of a call** of a wrapper with a result type. -/
theorem trigger_eq_ok {inMemory : DCaggr → Bool} {f : Fiction} {type : TypeObj}
    (hf : f.restype = some type) {callee : Callee} {items : List SV} {st st' : Interp}
    {c : Option ℕ} :
    Fiction_trigger inMemory f callee items st = .ok (c, st') ↔
      (returnable type = true ∧ hasDescriptor f type = true) ∧
        ∃ s₁ r h, prepare inMemory f items st = .ok ((), s₁) ∧
          callee s₁.vm.args s₁.heap = .ok (r, h) ∧
          returnSwitch type r { s₁ with heap := h } = .ok ((), st') ∧ c = st'.res := by
  constructor
  · intro h
    obtain ⟨u₁, s₁, h₁, h⟩ := Exec.bind_eq_ok.mp h
    obtain ⟨u₂, s₂, h₂, h⟩ := Exec.bind_eq_ok.mp h
    obtain ⟨hret, r, m, hcall, h₂⟩ := (callAndReturn_eq_ok hf).mp h₂
    cases h
    exact ⟨hret, s₁, r, m, h₁, hcall, h₂, rfl⟩
  · rintro ⟨hret, s₁, r, m, h₁, hcall, h₂, rfl⟩
    refine Exec.bind_eq_ok.mpr ⟨(), s₁, h₁, Exec.bind_eq_ok.mpr ⟨(), st', ?_, rfl⟩⟩
    exact (callAndReturn_eq_ok hf).mpr ⟨hret, r, m, hcall, h₂⟩

end Affix.Analysis
