import Affix.Analysis.BufferRoom
import Affix.Analysis.Calls

/-!
# What a C function gets when arguments make calls

The machine is shared and every call empties it, so a call made while an argument
is converted replaces what the outer call had pushed. The outer call goes on
pushing behind what the inner one left there. Its C function still gets the right
arguments in one case only: the inner call happened to leave exactly what it
found. Since every later inner call replaces what an earlier one left, the last
one decides. And the machine must have room for the arguments, or it drops some.

A call whose C function got the right arguments leaves these. A call that an
exception ended leaves what it had pushed, behind what the last call nested in it
left.
-/

set_option autoImplicit false

namespace Affix.Analysis

open Affix.Foundation Affix.Model Affix.Interface

variable (inMemory : DCaggr → Bool)

/-- The last call made while an argument was converted, with what the outer call had pushed
by then. `own` is what it had pushed before the first argument listed. -/
def lastNested (own : DCCallVM) : List Arg → Option (DCCallVM × Call)
  | [] => none
  | a :: rest =>
    match lastNested (push a.pushed own) rest with
    | some r => some r
    | none => a.code.getLast?.map fun n => (own, n)

mutual

/-- What a call leaves the machine told, the C calls on the way faithful. -/
def leaves : Call → DCCallVM
  | .mk aggr args called =>
    if called then Call.own inMemory (.mk aggr args called)
    else leavesArgs (startCall inMemory aggr ⟨false, []⟩) args

def leavesArgs (vm : DCCallVM) : List Arg → DCCallVM
  | [] => vm
  | .mk code pushed :: rest => leavesArgs (push pushed (leavesCalls vm code)) rest

def leavesCalls (vm : DCCallVM) : List Call → DCCallVM
  | [] => vm
  | c :: rest => leavesCalls (leaves c) rest

end

/-- A call that got to its C function, and the last call made while an argument was
converted left what the outer call had set up and pushed by then. -/
def Undisturbed : Call → Prop
  | .mk aggr args called => called = true → ∀ own n,
      lastNested (startCall inMemory aggr ⟨false, []⟩) args = some (own, n) →
        leaves inMemory n = own

/-- A machine of that size has room for the arguments of a call that gets to its C function. -/
def RoomFor (room : ℕ) : Call → Prop
  | .mk aggr args called =>
    called = true → MachineFits room (Call.own inMemory (.mk aggr args called))

/-- Every C function was called with the arguments of its own call. -/
def AllFaithful (room : ℕ) (log : List CCall) : Prop := ∀ cc ∈ log, Faithful room cc

variable {room : ℕ}

theorem faithful_iff {cc : CCall} :
    Faithful room cc ↔ cc.received = cc.own ∧ MachineFits room cc.own := by
  constructor
  · rintro ⟨htold, hkept⟩
    rw [htold] at hkept
    exact ⟨htold, keeps_iff_fits.mp hkept⟩
  · rintro ⟨htold, hfits⟩
    refine ⟨htold, ?_⟩
    rw [htold]
    exact keeps_iff_fits.mpr hfits

theorem faithful_append {log log' : List CCall} :
    AllFaithful room (log ++ log') ↔ AllFaithful room log ∧ AllFaithful room log' := by
  unfold AllFaithful
  constructor
  · intro h
    exact ⟨fun cc hcc => h cc (List.mem_append_left _ hcc),
      fun cc hcc => h cc (List.mem_append_right _ hcc)⟩
  · rintro ⟨h, h'⟩ cc hcc
    rcases List.mem_append.mp hcc with hcc | hcc
    · exact h cc hcc
    · exact h' cc hcc

theorem startCall_eq (aggr : Option DCaggr) (vm : DCCallVM) :
    startCall inMemory aggr vm = startCall inMemory aggr ⟨false, []⟩ := by
  cases aggr <;> rfl

mutual

theorem run_eq_leaves : ∀ (c : Call) (vm : DCCallVM), AllFaithful room (c.run inMemory vm).2 →
    (c.run inMemory vm).1 = leaves inMemory c
  | .mk aggr args called, vm, h => by
    rw [Call.run] at h
    obtain ⟨hargs, hown⟩ := faithful_append.mp h
    cases called with
    | true =>
      rw [Call.run, leaves, if_pos rfl]
      exact (hown _ (List.mem_singleton.mpr rfl)).told
    | false =>
      rw [Call.run, leaves, if_neg Bool.false_ne_true, ← startCall_eq inMemory aggr vm]
      exact runArgs_eq_leaves args _ hargs

theorem runArgs_eq_leaves : ∀ (args : List Arg) (vm : DCCallVM),
    AllFaithful room (runArgs inMemory vm args).2 →
      (runArgs inMemory vm args).1 = leavesArgs inMemory vm args
  | [], _, _ => rfl
  | .mk code pushed :: rest, vm, h => by
    obtain ⟨hcode, hrest⟩ := faithful_append.mp h
    rw [runArgs, leavesArgs, ← runCalls_eq_leaves code vm hcode]
    exact runArgs_eq_leaves rest _ hrest

theorem runCalls_eq_leaves : ∀ (cs : List Call) (vm : DCCallVM),
    AllFaithful room (runCalls inMemory vm cs).2 →
      (runCalls inMemory vm cs).1 = leavesCalls inMemory vm cs
  | [], _, _ => rfl
  | c :: rest, vm, h => by
    obtain ⟨hc, hrest⟩ := faithful_append.mp h
    rw [runCalls, leavesCalls, ← run_eq_leaves c vm hc]
    exact runCalls_eq_leaves rest _ hrest

end

/-- Of several calls the last one decides what is left. -/
theorem leavesCalls_eq (cs : List Call) (vm : DCCallVM) :
    leavesCalls inMemory vm cs = (cs.getLast?.map (leaves inMemory)).getD vm := by
  induction cs generalizing vm with
  | nil => rfl
  | cons c cs ih =>
    rw [leavesCalls, ih]
    cases cs with
    | nil => rfl
    | cons c' cs => rfl

/-- The machine with more arguments pushed. -/
def pushedOn (vm : DCCallVM) (d : List DCArg) : DCCallVM := { vm with args := vm.args ++ d }

theorem pushedOn_push (vm : DCCallVM) (a : Option DCArg) (d : List DCArg) :
    pushedOn (push a vm) d = pushedOn vm (a.toList ++ d) := by
  rw [push_eq]
  simp only [pushedOn, List.append_assoc]

theorem pushedOn_injective {vm vm' : DCCallVM} {d : List DCArg} :
    pushedOn vm d = pushedOn vm' d ↔ vm = vm' := by
  obtain ⟨b, as⟩ := vm
  obtain ⟨b', as'⟩ := vm'
  simp [pushedOn]

/-- **The argument loop**, its nested calls faithful. Without nested calls the machine grows
as the call's own arguments do; with some, it grows so from what the last of them left. -/
theorem runArgs_eq {args : List Arg} {vm : DCCallVM} (own : DCCallVM)
    (h : AllFaithful room (runArgs inMemory vm args).2) :
    ∃ d, (lastNested own args = none ∧
        args.foldl (fun vm a => push a.pushed vm) own = pushedOn own d ∧
        (runArgs inMemory vm args).1 = pushedOn vm d) ∨
      ∃ own' n, lastNested own args = some (own', n) ∧
        args.foldl (fun vm a => push a.pushed vm) own = pushedOn own' d ∧
        (runArgs inMemory vm args).1 = pushedOn (leaves inMemory n) d := by
  induction args generalizing vm own with
  | nil => exact ⟨[], Or.inl ⟨rfl, by simp [pushedOn], by simp [runArgs, pushedOn]⟩⟩
  | cons a args ih =>
    obtain ⟨code, pushed⟩ := a
    obtain ⟨hcode, hargs⟩ := faithful_append.mp h
    have hmachine :=
      (runCalls_eq_leaves inMemory code vm hcode).trans (leavesCalls_eq inMemory code vm)
    obtain ⟨d, ⟨hlast, hown, hrun⟩ | ⟨own', n, hlast, hown, hrun⟩⟩ :=
      ih (push pushed own) hargs
    · have hend : (runArgs inMemory vm (.mk code pushed :: args)).1 =
          pushedOn (push pushed (runCalls inMemory vm code).1) d := hrun
      cases hn : code.getLast? with
      | none =>
        rw [hn, Option.map_none, Option.getD_none] at hmachine
        rw [hmachine, pushedOn_push] at hend
        refine ⟨pushed.toList ++ d, Or.inl ⟨?_, ?_, hend⟩⟩
        · simp only [lastNested, Arg.pushed, hlast, Arg.code, hn, Option.map_none]
        · rw [← pushedOn_push]
          exact hown
      | some n =>
        rw [hn, Option.map_some, Option.getD_some] at hmachine
        rw [hmachine, pushedOn_push] at hend
        refine ⟨pushed.toList ++ d, Or.inr ⟨own, n, ?_, ?_, hend⟩⟩
        · simp only [lastNested, Arg.pushed, hlast, Arg.code, hn, Option.map_some]
        · rw [← pushedOn_push]
          exact hown
    · refine ⟨d, Or.inr ⟨own', n, ?_, hown, hrun⟩⟩
      simp only [lastNested, Arg.pushed, hlast]

/-- **One call** that gets to its C function, its nested calls faithful: the machine was told
its arguments exactly when they left it undisturbed. -/
theorem received_eq_own_iff {aggr : Option DCaggr} {args : List Arg} {vm : DCCallVM}
    (h : AllFaithful room (runArgs inMemory (startCall inMemory aggr vm) args).2) :
    (Call.run inMemory vm (.mk aggr args true)).1 = Call.own inMemory (.mk aggr args true) ↔
      Undisturbed inMemory (.mk aggr args true) := by
  have hstart := startCall_eq inMemory aggr vm
  rw [hstart] at h
  simp only [Call.run, Call.own, Undisturbed, hstart, forall_const]
  obtain ⟨d, ⟨hlast, hown, hrun⟩ | ⟨own', n, hlast, hown, hrun⟩⟩ :=
    runArgs_eq inMemory (startCall inMemory aggr ⟨false, []⟩) h
  · rw [hown, hrun, hlast]
    exact iff_of_true rfl (fun own n hn => by cases hn)
  · rw [hown, hrun, hlast, pushedOn_injective]
    constructor
    · intro heq own n hn
      cases hn
      exact heq
    · intro heq
      exact heq own' n rfl

mutual

theorem run_faithful_iff : ∀ (c : Call) (vm : DCCallVM),
    AllFaithful room (c.run inMemory vm).2 ↔
      c.Every fun c => Undisturbed inMemory c ∧ RoomFor inMemory room c
  | .mk aggr args called, vm => by
    have hargs := runArgs_faithful_iff args (startCall inMemory aggr vm)
    rw [Call.run, faithful_append, Call.Every, ← hargs, and_comm]
    refine and_congr_left fun h => ?_
    cases called with
    | true =>
      rw [← received_eq_own_iff inMemory h]
      simp only [if_true, AllFaithful, List.mem_singleton, forall_eq, faithful_iff, Call.run,
        RoomFor, forall_const]
    | false =>
      -- nothing was handed over
      exact iff_of_true (fun cc hcc => by cases hcc)
        ⟨fun hcalled => Bool.noConfusion hcalled, fun hcalled => Bool.noConfusion hcalled⟩

theorem runArgs_faithful_iff : ∀ (args : List Arg) (vm : DCCallVM),
    AllFaithful room (runArgs inMemory vm args).2 ↔
      everyArg (fun c => Undisturbed inMemory c ∧ RoomFor inMemory room c) args
  | [], vm => iff_of_true (fun cc hcc => by cases hcc) trivial
  | .mk code pushed :: rest, vm => by
    rw [runArgs, faithful_append, everyArg, runCalls_faithful_iff code vm,
      runArgs_faithful_iff rest]

theorem runCalls_faithful_iff : ∀ (cs : List Call) (vm : DCCallVM),
    AllFaithful room (runCalls inMemory vm cs).2 ↔
      everyCall (fun c => Undisturbed inMemory c ∧ RoomFor inMemory room c) cs
  | [], vm => iff_of_true (fun cc hcc => by cases hcc) trivial
  | c :: rest, vm => by
    rw [runCalls, faithful_append, everyCall, run_faithful_iff c vm, runCalls_faithful_iff rest]

end

/-- **Every C function of a program gets the arguments of its own call exactly when no call
is disturbed and the machine has room**: for every call at any depth that gets to its C
function, the last call made while its arguments were converted, if there was one, left the
setup and the arguments that it had itself by then, and what does not go in registers fits in
the buffer. The program is a list of call trees run one after another, from any machine. -/
theorem program_faithful_iff_undisturbed (room : ℕ) (program : List Call) (vm : DCCallVM) :
    AllFaithful room (runCalls inMemory vm program).2 ↔
      ∀ c ∈ program, c.Every fun c => Undisturbed inMemory c ∧ RoomFor inMemory room c := by
  rw [runCalls_faithful_iff]
  induction program with
  | nil => exact iff_of_true trivial (fun c hc => by cases hc)
  | cons c program ih => rw [everyCall, ih, List.forall_mem_cons]

/-! ## The machine itself -/

/-- The machine is what it was told, on top of what calls before have left in it. -/
def Holds (upper room : ℕ) (told : DCCallVM) (vm : DCCallVM_x64) : Prop :=
  ∃ vm₀ : DCCallVM_x64, vm₀.mVecHead.mTotal = room ∧ vm = told.tell upper vm₀

section Machine

variable {upper : ℕ}

/-- Memory is where `dcCloseAggr` says. -/
def closedInMemory (ag : DCaggr) : Bool := (dcCloseAggr ag).inMemory

theorem Holds.total {told : DCCallVM} {vm : DCCallVM_x64} (h : Holds upper room told vm) :
    vm.mVecHead.mTotal = room := by
  obtain ⟨vm₀, htotal, rfl⟩ := h
  rw [DCCallVM.tell, (retained_putAll _ _).total, (begin_fresh told vm₀).2.2, htotal]

theorem holds_startCall (aggr : Option DCaggr) (told : DCCallVM) {vm : DCCallVM_x64}
    (h : vm.mVecHead.mTotal = room) :
    Holds upper room (startCall closedInMemory aggr told) (startCallOn aggr vm) := by
  refine ⟨vm, h, ?_⟩
  cases aggr with
  | none => rfl
  | some ag =>
    cases hmem : (dcCloseAggr ag).inMemory <;>
      simp [startCall, startCallOn, DCCallVM.dcBeginCallAggr, closedInMemory, hmem,
        DCCallVM.dcReset, DCCallVM.tell, DCCallVM.begin, putAll,
        DCCallVM_x64.dc_callvm_begin_aggr_x64]

theorem Holds.push {told : DCCallVM} {vm : DCCallVM_x64} (h : Holds upper room told vm)
    (a : Option DCArg) : Holds upper room (push a told) (putAll upper a.toList vm) := by
  obtain ⟨vm₀, htotal, rfl⟩ := h
  refine ⟨vm₀, htotal, ?_⟩
  rw [push_eq]
  simp only [DCCallVM.tell, DCCallVM.begin, putAll, List.foldl_append]

mutual

/-- **What the machine was told is all there is to it**: run on the machine itself, a call
leaves the machine with what it was told, and calls its C functions so. -/
theorem runOn_holds : ∀ (c : Call) {told : DCCallVM} {vm : DCCallVM_x64},
    vm.mVecHead.mTotal = room →
    Holds upper room (c.run closedInMemory told).1 (c.runOn upper vm).1 ∧
      List.Forall₂ (fun cc vm => Holds upper room cc.received vm) (c.run closedInMemory told).2
        (c.runOn upper vm).2
  | .mk aggr args called, told, vm, h => by
    obtain ⟨hend, hcalls⟩ := runArgsOn_holds args (holds_startCall aggr told h)
    rw [Call.run, Call.runOn]
    refine ⟨hend, List.rel_append hcalls ?_⟩
    cases called with
    | true => exact .cons hend .nil
    | false => exact .nil

theorem runArgsOn_holds : ∀ (args : List Arg) {told : DCCallVM} {vm : DCCallVM_x64},
    Holds upper room told vm →
    Holds upper room (runArgs closedInMemory told args).1 (runArgsOn upper vm args).1 ∧
      List.Forall₂ (fun cc vm => Holds upper room cc.received vm)
        (runArgs closedInMemory told args).2 (runArgsOn upper vm args).2
  | [], told, vm, h => ⟨h, .nil⟩
  | .mk code pushed :: rest, told, vm, h => by
    obtain ⟨hcode, hcalls⟩ := runCallsOn_holds code h
    obtain ⟨hend, hrest⟩ := runArgsOn_holds rest (hcode.push pushed)
    rw [runArgs, runArgsOn]
    exact ⟨hend, List.rel_append hcalls hrest⟩

theorem runCallsOn_holds : ∀ (cs : List Call) {told : DCCallVM} {vm : DCCallVM_x64},
    Holds upper room told vm →
    Holds upper room (runCalls closedInMemory told cs).1 (runCallsOn upper vm cs).1 ∧
      List.Forall₂ (fun cc vm => Holds upper room cc.received vm)
        (runCalls closedInMemory told cs).2 (runCallsOn upper vm cs).2
  | [], told, vm, h => ⟨h, .nil⟩
  | c :: rest, told, vm, h => by
    have hfirst : Holds upper room (c.run closedInMemory told).1 (c.runOn upper vm).1 ∧ _ :=
      runOn_holds c h.total
    obtain ⟨hend, hcalls⟩ := hfirst
    obtain ⟨hlast, hrest⟩ := runCallsOn_holds rest hend
    rw [runCalls, runCallsOn]
    exact ⟨hlast, List.rel_append hcalls hrest⟩

end

end Machine

/-- A call of a one-argument function. -/
def callOf (v : ℤ) : Call := .mk none [.mk [] (some (.int v))] true

/-- `f(1, $x)` where reading `$x` calls `g(7)` and gives `2`. -/
def tiedCall : Call := .mk none [.mk [] (some (.int 1)), .mk [callOf 7] (some (.int 2))] true

/-- The C function of the outer call gets `7, 2`. The buffer is that of a machine of 8192 bytes. -/
theorem tiedCall_mixed :
    ¬ AllFaithful 8080 (runCalls (fun _ => false) ⟨false, []⟩ [tiedCall]).2 := by
  intro h
  obtain ⟨hcall, -⟩ := faithful_append.mp h
  have hown := run_eq_leaves (fun _ => false) tiedCall _ hcall
  simp [tiedCall, callOf, leaves, Call.run, runArgs, runCalls, Call.own, startCall, push,
    DCCallVM.dcReset, DCCallVM.dcArg, Arg.pushed] at hown

/-- **The trigger is a call of the tree model**: a call whose argument conversions run no
Perl code prepares the machine that the call tree without nested calls does. -/
theorem prepare_eq_run {f : Fiction} {sig : List Flag} {ts : List TypeObj}
    (hsig : f.signature = some sig) (hts : f.argtypes = some ts) {items : List SV}
    {st st' : Interp} (h : prepare inMemory f items st = .ok ((), st')) :
    ∃ aggr as, convertAll ts items st.heap = .ok (as, st'.heap) ∧
      st'.vm = (Call.run inMemory st.vm (.mk aggr (as.map fun a => .mk [] (some a)) true)).1 := by
  obtain ⟨-, b, as, m, hb, has, rfl⟩ := (prepare_eq_ok hsig hts).mp h
  have hrun : ∀ (as : List DCArg) (vm : DCCallVM),
      (runArgs inMemory vm (as.map fun a => .mk [] (some a))).1 = pushedOn vm as := by
    intro as
    induction as with
    | nil => intro vm; simp [runArgs, pushedOn]
    | cons a as ih =>
      intro vm
      rw [List.map_cons, runArgs, ih, runCalls, pushedOn_push]
      rfl
  have haggr : ∃ aggr, startCall inMemory aggr st.vm = ⟨b, []⟩ := by
    unfold aggrSetup at hb
    split at hb
    · rename_i type _
      split at hb
      · cases hag : aggregate type with
        | error e => rw [hag] at hb; cases hb
        | ok ag =>
          rw [hag] at hb
          cases hb
          refine ⟨some ag, ?_⟩
          cases hm : inMemory ag <;>
            simp [startCall, DCCallVM.dcBeginCallAggr, hm, DCCallVM.dcReset]
      · cases hb
        exact ⟨none, rfl⟩
    · cases hb
      exact ⟨none, rfl⟩
  obtain ⟨aggr, haggr⟩ := haggr
  refine ⟨aggr, as, has, ?_⟩
  rw [Call.run, hrun, haggr]
  rfl

end Affix.Analysis
