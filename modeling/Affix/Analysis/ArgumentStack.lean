import Affix.Foundation.Run
import Affix.Model.ArgumentStack

/-!
# The argument stack across callbacks

The handler of a callback calls the sub as `cbHandlerXXXXX` says. Where the sub is
called for its value, that value is read through the copy of the stack pointer, which
is moved below it and then dropped: the global pointer is left above it. So a
callback that returns nothing leaves the stack as high as it found it, and every
other leaves it one higher, which the next callback starts from.

SOURCE: Callback.cxx:18-231
-/

set_option autoImplicit false

namespace Affix.Analysis

open Affix.Foundation Affix.Model Affix.Model.PerlRun

/-! ## Pushing -/

section Pushing

variable {slots : ℕ → SV} {sp : ℕ}

/-- The slots with values in those above one. -/
def stacked (slots : ℕ → SV) : (sp : ℕ) → List SV → ℕ → SV
  | _, [] => slots
  | sp, sv :: svs => stacked (Function.update slots (sp + 1) sv) (sp + 1) svs

theorem stacked_of_le (svs : List SV) {x : ℕ} (hx : x ≤ sp) : stacked slots sp svs x = slots x := by
  induction svs generalizing slots sp with
  | nil => rfl
  | cons sv svs ih =>
    have hne : x ≠ sp + 1 := by omega
    rw [stacked, ih (by omega), Function.update_of_ne hne]

/-- What was pushed is found there, the lowest first. -/
theorem map_stacked (svs : List SV) :
    (List.range svs.length).map (fun i => stacked slots sp svs (sp + 1 + i)) = svs := by
  induction svs generalizing slots sp with
  | nil => rfl
  | cons sv svs ih =>
    have hfirst : stacked (Function.update slots (sp + 1) sv) (sp + 1) svs (sp + 1) = sv := by
      rw [stacked_of_le svs le_rfl, Function.update_self]
    have hrest : ∀ i, stacked slots sp (sv :: svs) (sp + 1 + (i + 1)) =
        stacked (Function.update slots (sp + 1) sv) (sp + 1) svs (sp + 1 + 1 + i) := by
      intro i
      rw [stacked, Nat.add_assoc (sp + 1) 1, Nat.add_comm 1 i]
    rw [List.length_cons, List.range_succ_eq_map, List.map_cons, List.map_map]
    refine congrArg₂ List.cons hfirst ?_
    exact (List.map_congr_left fun i _ => hrest i).trans ih

end Pushing

/-! ## One callback -/

section Handler

variable {cb : Callback} {sub : Sub} {args : List DCbArg} {st st' : Perl}

theorem marshal_of_ok {α : Type} {x : Eff α} {a : α} {h : Heap} (hx : x st.heap = .ok (a, h)) :
    marshal x st = .ok (a, { st with heap := h }) := by
  rw [marshal, hx]

theorem marshal_of_error {α : Type} {x : Eff α} {e : Halt} (hx : x st.heap = .error e) :
    marshal x st = .error e := by
  rw [marshal, hx]

theorem pushCbArguments_cons {c : Flag} (hc : c ≠ .void) (sig : List Flag)
    (types : List (Option TypeObj)) (a : DCbArg) (args : List DCbArg) (sp : ℕ) :
    pushCbArguments (c :: sig) types (a :: args) sp = (do
      let sv ← marshal (cbArgument c types.head?.join a)
      let sp ← PUSHs sv sp
      pushCbArguments sig types.tail args sp) := by
  cases c <;> first | rfl | exact absurd rfl hc

theorem pushCbArguments_nil {c : Flag} (hc : c ≠ .void) (sig : List Flag)
    (types : List (Option TypeObj)) (sp : ℕ) :
    cbArguments (c :: sig) types [] = Exec.fail .fault ∧
      pushCbArguments (c :: sig) types [] sp = Exec.fail .fault := by
  cases c <;> first | exact ⟨rfl, rfl⟩ | exact absurd rfl hc

/-- The loop makes the values that `cbArguments` does, and pushes them. -/
theorem pushCbArguments_eq (sig : List Flag) (types : List (Option TypeObj)) (args : List DCbArg)
    (sp : ℕ) (st : Perl) :
    pushCbArguments sig types args sp st =
      (cbArguments sig types args st.heap).map fun r =>
        (sp + r.1.length, ⟨r.2, { st.stack with slots := stacked st.stack.slots sp r.1 }⟩) := by
  induction sig generalizing types args sp st with
  | nil => rfl
  | cons c sig ih =>
    by_cases hc : c = .void
    · subst hc
      exact ih types.tail args sp st
    · cases args with
      | nil =>
        obtain ⟨hvalues, hpush⟩ := pushCbArguments_nil hc sig types sp
        rw [hvalues, hpush]
        rfl
      | cons a args =>
        rw [pushCbArguments_cons hc, cbArguments_cons hc]
        cases hone : cbArgument c types.head?.join a st.heap with
        | error e =>
          rw [Exec.bind_of_error hone, Exec.bind_of_error (marshal_of_error hone)]
          rfl
        | ok r =>
          obtain ⟨sv, h⟩ := r
          rw [Exec.bind_of_ok hone, Exec.bind_of_ok (marshal_of_ok hone)]
          refine (ih types.tail args (sp + 1) ⟨h, st.stack.setSlot (sp + 1) sv⟩).trans ?_
          cases hrest : cbArguments sig types.tail args h with
          | error e =>
            rw [Exec.bind_of_error hrest]
            rfl
          | ok r =>
            obtain ⟨svs, h'⟩ := r
            rw [Exec.bind_of_ok hrest]
            show Except.ok (sp + 1 + svs.length, _) = Except.ok (sp + (svs.length + 1), _)
            rw [Nat.add_assoc sp, Nat.add_comm 1]
            rfl

/-- The call finds the values above the mark, and leaves its own in their place or nothing. -/
theorem call_sv_above (sub : Model.Sub) (h : Heap) (discard : Bool) {s : ArgStack}
    {svs : List SV} {mark : ℕ} {marks : List ℕ} (hmark : s.marks = mark :: marks)
    (habove : s.above mark = svs) :
    call_sv sub discard ⟨h, s⟩ = (sub svs h).map fun r =>
      ((), ⟨r.2, { s.setSlot (mark + 1) r.1 with
        PL_stack_sp := if discard then mark else mark + 1, marks := marks }⟩) := by
  subst habove
  rw [call_sv, hmark]
  dsimp only
  cases sub (s.above mark) h with
  | error e => rfl
  | ok r => rfl

/-- How many values the handler leaves on the stack. -/
def leftBehind (cb : Callback) : ℕ := if cb.restype.flag = .void then 0 else 1

/-- What the handler makes of the value of the sub. -/
def cbResult (cb : Callback) (sv : SV) : Eff (DCsigchar × Option DCValue) :=
  if cb.restype.flag = .void then pure (.void, none)
  else do
    let (ret, result) ← cbReturn cb.restype sv
    pure (ret, some result)

theorem cbHandlerXXXXX_eq (cb : Callback) (sub : Sub) (args : List DCbArg) :
    cbHandlerXXXXX cb sub args = (do
      let svs ← cbArguments cb.signature ((cb.argtypes.getD []).map some) args
      let sv ← sub svs
      cbResult cb sv) := by
  unfold cbHandlerXXXXX cbResult
  by_cases hvoid : cb.restype.flag = .void
  · simp only [hvoid, if_true]
  · simp only [hvoid, if_false]

/-- The stack with the values pushed and the pointer stored, behind a mark. -/
def argumentsPushed (s : ArgStack) (svs : List SV) : ArgStack where
  slots := stacked s.slots s.PL_stack_sp svs
  PL_stack_sp := s.PL_stack_sp + svs.length
  marks := s.PL_stack_sp :: s.marks

theorem above_argumentsPushed (s : ArgStack) (svs : List SV) :
    (argumentsPushed s svs).above s.PL_stack_sp = svs := by
  unfold ArgStack.above argumentsPushed
  rw [Nat.add_sub_cancel_left]
  exact map_stacked svs

/-- The stack after a call with some values that came to another. -/
def stackAfter (cb : Callback) (s : ArgStack) (svs : List SV) (sv : SV) : ArgStack where
  slots := Function.update (stacked s.slots s.PL_stack_sp svs) (s.PL_stack_sp + 1) sv
  PL_stack_sp := s.PL_stack_sp + leftBehind cb
  marks := s.marks

/-- The handler once the values have been pushed. -/
theorem callCbSub_eq (cb : Callback) (sub : Sub) (svs : List SV) (h : Heap) (s : ArgStack) :
    callCbSub cb sub ⟨h, argumentsPushed s svs⟩ =
      match sub svs h with
      | .error e => .error e
      | .ok (sv, h') => (cbResult cb sv h').map fun r => (r.1, ⟨r.2, stackAfter cb s svs sv⟩) := by
  have hcall := fun discard => call_sv_above sub h discard (s := argumentsPushed s svs) rfl
    (above_argumentsPushed s svs)
  unfold callCbSub cbResult stackAfter leftBehind
  cases hsub : sub svs h with
  | error e =>
    rw [hsub] at hcall
    by_cases hvoid : cb.restype.flag = .void
    · simp only [hvoid, if_true]
      exact Exec.bind_of_error (hcall true)
    · simp only [hvoid, if_false]
      exact Exec.bind_of_error (hcall false)
  | ok r =>
    obtain ⟨sv, h'⟩ := r
    rw [hsub] at hcall
    by_cases hvoid : cb.restype.flag = .void
    · simp only [hvoid, if_true]
      exact Exec.bind_of_ok (hcall true)
    · simp only [hvoid, if_false]
      refine (Exec.bind_of_ok (hcall false)).trans ?_
      -- the value on top is that of the sub
      refine (Exec.bind_of_ok (rfl : SPAGAIN _ = .ok (s.PL_stack_sp + 1, _))).trans ?_
      have htop : Function.update (stacked s.slots s.PL_stack_sp svs) (s.PL_stack_sp + 1) sv
          (s.PL_stack_sp + 1) = sv := Function.update_self _ _ _
      refine (Exec.bind_of_ok (a := (sv, s.PL_stack_sp))
        (congrArg (fun x => Except.ok ((x, s.PL_stack_sp), (⟨h', _⟩ : Perl))) htop)).trans ?_
      cases hret : cbReturn cb.restype sv h' with
      | error e =>
        rw [Exec.bind_of_error hret]
        exact Exec.bind_of_error (marshal_of_error hret)
      | ok r =>
        rw [Exec.bind_of_ok hret]
        exact Exec.bind_of_ok (marshal_of_ok hret)

/-- **The handler with its stack** makes the calls that `cbHandlerXXXXX` makes, and leaves the
stack as a call leaves it. -/
theorem runCbHandler_eq (cb : Callback) (sub : Sub) (args : List DCbArg) (st : Perl) :
    runCbHandler cb sub args st =
      match cbArguments cb.signature ((cb.argtypes.getD []).map some) args st.heap with
      | .error e => .error e
      | .ok (svs, h) =>
        match sub svs h with
        | .error e => .error e
        | .ok (sv, h') =>
          (cbResult cb sv h').map fun r => (r.1, ⟨r.2, stackAfter cb st.stack svs sv⟩) := by
  have hpush := pushCbArguments_eq cb.signature ((cb.argtypes.getD []).map some) args
    st.stack.PL_stack_sp
    ⟨st.heap, { st.stack with marks := st.stack.PL_stack_sp :: st.stack.marks }⟩
  cases hargs : cbArguments cb.signature ((cb.argtypes.getD []).map some) args st.heap with
  | error e =>
    rw [hargs] at hpush
    exact Exec.bind_of_error (f := fun sp => do
      PUTBACK sp
      callCbSub cb sub) hpush
  | ok q =>
    obtain ⟨svs, h⟩ := q
    rw [hargs] at hpush
    exact (Exec.bind_of_ok hpush).trans (callCbSub_eq cb sub svs h st.stack)

/-- To the heap and to C the stack makes no difference. -/
theorem runCbHandler_heap (cb : Callback) (sub : Sub) (args : List DCbArg) (st : Perl) :
    (runCbHandler cb sub args st).map (fun r => (r.1, r.2.heap)) =
      cbHandlerXXXXX cb sub args st.heap := by
  rw [runCbHandler_eq, cbHandlerXXXXX_eq]
  cases hargs : cbArguments cb.signature ((cb.argtypes.getD []).map some) args st.heap with
  | error e =>
    rw [Exec.bind_of_error hargs]
    rfl
  | ok q =>
    obtain ⟨svs, h⟩ := q
    rw [Exec.bind_of_ok hargs]
    cases hsub : sub svs h with
    | error e =>
      rw [Exec.bind_of_error hsub]
      simp only [hsub]
      rfl
    | ok r =>
      obtain ⟨sv, h'⟩ := r
      rw [Exec.bind_of_ok hsub]
      simp only [hsub]
      cases cbResult cb sv h' <;> rfl

/-- **One callback**: the marks are as they were, and the stack is higher by what the handler
leaves behind. -/
theorem runCbHandler_stack {r : DCsigchar × Option DCValue}
    (hrun : runCbHandler cb sub args st = .ok (r, st')) :
    st'.stack.marks = st.stack.marks ∧
      st'.stack.PL_stack_sp = st.stack.PL_stack_sp + leftBehind cb := by
  rw [runCbHandler_eq] at hrun
  cases hargs : cbArguments cb.signature ((cb.argtypes.getD []).map some) args st.heap with
  | error e =>
    rw [hargs] at hrun
    cases hrun
  | ok q =>
    obtain ⟨svs, h⟩ := q
    cases hsub : sub svs h with
    | error e =>
      simp only [hargs, hsub] at hrun
      cases hrun
    | ok r' =>
      obtain ⟨sv, h'⟩ := r'
      simp only [hargs, hsub] at hrun
      cases hret : cbResult cb sv h' with
      | error e =>
        rw [hret] at hrun
        cases hrun
      | ok r'' =>
        rw [hret] at hrun
        cases hrun
        exact ⟨rfl, rfl⟩

end Handler

/-! ## One foreign call -/

/-- What a C function does while Perl waits for it: something of its own, or it calls back. -/
inductive ForeignAction where
  | compute
  | callback (cb : Callback) (sub : Sub) (args : List DCbArg)

/-- C code may do anything to memory. It does not know of the stack. -/
def ForeignStep (st : Perl) : ForeignAction → Perl → Prop
  | .compute, st' => st'.stack = st.stack
  | .callback cb sub args, st' => ∃ r, runCbHandler cb sub args st = .ok (r, st')

/-- The stack is as high as it was at the start. -/
def AsHigh (start st : Perl) : Prop := st.stack.PL_stack_sp = start.stack.PL_stack_sp

/-- If the C function calls back, it is for nothing. -/
def ReturnsNothing : ForeignAction → Prop
  | .compute => True
  | .callback cb _ _ => cb.restype.flag = .void

/-- What an action leaves on the stack. -/
def ForeignAction.leaves : ForeignAction → ℕ
  | .compute => 0
  | .callback cb _ _ => leftBehind cb

theorem foreignStep_height {st st' : Perl} {a : ForeignAction} (h : ForeignStep st a st') :
    st'.stack.PL_stack_sp = st.stack.PL_stack_sp + a.leaves := by
  cases a with
  | compute =>
    have hstack : st'.stack = st.stack := h
    rw [hstack]
    rfl
  | callback cb sub args =>
    obtain ⟨r, hrun⟩ := h
    exact (runCbHandler_stack hrun).2

theorem leaves_eq_zero {a : ForeignAction} : a.leaves = 0 ↔ ReturnsNothing a := by
  cases a with
  | compute => exact iff_of_true rfl trivial
  | callback cb sub args =>
    show (if cb.restype.flag = .void then 0 else 1) = 0 ↔ cb.restype.flag = .void
    by_cases hvoid : cb.restype.flag = .void
    · simp only [hvoid, if_true]
    · simp only [hvoid, if_false, one_ne_zero]

/-- **The height after any number of callbacks**: one more for each that returned something. -/
theorem height_of_run {start : Perl} {run : List (ForeignAction × Perl)}
    (hrun : IsRun ForeignStep start run) :
    (finalState start run).stack.PL_stack_sp =
      start.stack.PL_stack_sp + (run.map fun p => p.1.leaves).sum := by
  induction run generalizing start with
  | nil => rfl
  | cons q run ih =>
    obtain ⟨a, st⟩ := q
    obtain ⟨hstep, hrest⟩ := hrun
    rw [finalState, ih hrest, foreignStep_height hstep, List.map_cons, List.sum_cons, Nat.add_assoc]

/-- **During a foreign call the stack is as high as at its start** exactly while no callback that
returns something has run. -/
theorem stack_asHigh {start : Perl} {run : List (ForeignAction × Perl)}
    (hrun : IsRun ForeignStep start run) :
    AllStates (AsHigh start) start run ↔ AllSteps (fun _ a => ReturnsNothing a) start run := by
  refine hrun.allStates_iff (fun st a st' hst hstep => ?_) rfl
  have hheight := foreignStep_height hstep
  unfold AsHigh at hst ⊢
  rw [hheight, hst, ← leaves_eq_zero]
  omega

/-- An interpreter with nothing on its stack. -/
def emptyStack : Perl := ⟨.empty, ⟨fun _ => .undef false, 0, []⟩⟩

theorem range_five : -2 ^ 63 ≤ (5 : ℤ) ∧ (5 : ℤ) < 2 ^ 64 := by decide

/-- A sub that returns `5`. -/
def five : Sub := fun _ => pure (.int 5 range_five)

/-- `CodeRef[ [] => T ]`. -/
def noArguments (restype : TypeObj) : Callback := ⟨[], some [], restype, .undef false⟩

/-- One callback that runs it. -/
def oneCallback (restype : TypeObj) : List (ForeignAction × Perl) :=
  [(.callback (noArguments restype) five [],
    ⟨.empty, stackAfter (noArguments restype) emptyStack.stack [] (.int 5 range_five)⟩)]

theorem stack_asHigh_void :
    AllStates (AsHigh emptyStack) emptyStack (oneCallback (scalarType .Void)) ↔
      AllSteps (fun _ a => ReturnsNothing a) emptyStack (oneCallback (scalarType .Void)) := by
  have hrun : IsRun ForeignStep emptyStack (oneCallback (scalarType .Void)) :=
    ⟨⟨_, runCbHandler_eq _ _ _ _⟩, trivial⟩
  exact stack_asHigh hrun

/-- After one callback that returns an `Int` the stack is higher. -/
theorem stack_not_asHigh_int :
    IsRun ForeignStep emptyStack (oneCallback (scalarType .Int)) ∧
      ¬ AllStates (AsHigh emptyStack) emptyStack (oneCallback (scalarType .Int)) := by
  refine ⟨⟨⟨_, runCbHandler_eq _ _ _ _⟩, trivial⟩, fun hall => ?_⟩
  have hlevel : (0 : ℕ) + 1 = 0 := hall.final
  cases hlevel

end Affix.Analysis
