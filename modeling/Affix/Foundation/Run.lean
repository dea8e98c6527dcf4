import Mathlib.Data.Nat.Notation
import Mathlib.Tactic.Common

/-!
# Runs of a system

A system takes actions one after another; a run lists each action with the state
it led to. The rules below turn a fact about one step into a fact about runs. The
first is the usual invariant rule. The second is for a system that keeps an
invariant on some steps and breaks it on all others: then the invariant holds
along a run exactly when the run takes none of the others.
-/

set_option autoImplicit false

namespace Affix.Foundation

variable {σ α : Type}

/-- The list is a run from a state: every action leads from the state before it. -/
def IsRun (step : σ → α → σ → Prop) : σ → List (α × σ) → Prop
  | _, [] => True
  | s, (a, s') :: run => step s a s' ∧ IsRun step s' run

/-- The state a run ends in. -/
def finalState : σ → List (α × σ) → σ
  | s, [] => s
  | _, (_, s') :: run => finalState s' run

/-- Every state along a run, the first one included, is good. -/
def AllStates (Good : σ → Prop) (s : σ) (run : List (α × σ)) : Prop :=
  Good s ∧ ∀ p ∈ run, Good p.2

/-- Every action of a run meets a condition on the state it is taken in. -/
def AllSteps (Cond : σ → α → Prop) : σ → List (α × σ) → Prop
  | _, [] => True
  | s, (a, s') :: run => Cond s a ∧ AllSteps Cond s' run

/-- **The invariant rule**, for steps that meet a condition. -/
theorem IsRun.allStates {step : σ → α → σ → Prop} {Good : σ → Prop} {Cond : σ → α → Prop}
    (hstep : ∀ s a s', Good s → step s a s' → Cond s a → Good s') {s : σ} {run : List (α × σ)}
    (h0 : Good s) (hrun : IsRun step s run) (hcond : AllSteps Cond s run) :
    AllStates Good s run := by
  refine ⟨h0, ?_⟩
  induction run generalizing s with
  | nil => intro p hp; cases hp
  | cons q run ih =>
      obtain ⟨a, s'⟩ := q
      obtain ⟨hs, hrest⟩ := hrun
      obtain ⟨hc, hcrest⟩ := hcond
      have hgood : Good s' := hstep s a s' h0 hs hc
      intro p hp
      rcases List.mem_cons.mp hp with hp | hp
      · rw [hp]
        exact hgood
      · exact ih hgood hrest hcrest p hp

theorem AllStates.final {Good : σ → Prop} {s : σ} {run : List (α × σ)}
    (h : AllStates Good s run) : Good (finalState s run) := by
  induction run generalizing s with
  | nil => exact h.1
  | cons q run ih =>
    obtain ⟨hq, hrest⟩ := List.forall_mem_cons.mp h.2
    exact ih ⟨hq, hrest⟩

/-- **The exact rule**: where a step from a good state keeps it good exactly under a
condition, a run stays good exactly when all its steps meet the condition. -/
theorem IsRun.allStates_iff {step : σ → α → σ → Prop} {Good : σ → Prop} {Cond : σ → α → Prop}
    (hstep : ∀ s a s', Good s → step s a s' → (Good s' ↔ Cond s a)) {s : σ}
    {run : List (α × σ)} (h0 : Good s) (hrun : IsRun step s run) :
    AllStates Good s run ↔ AllSteps Cond s run := by
  constructor
  · intro h
    induction run generalizing s with
    | nil => trivial
    | cons q run ih =>
        obtain ⟨a, s'⟩ := q
        obtain ⟨hs, hrest⟩ := hrun
        have hgood : Good s' := h.2 (a, s') List.mem_cons_self
        have hrestgood : AllStates Good s' run :=
          ⟨hgood, fun p hp => h.2 p (List.mem_cons_of_mem _ hp)⟩
        exact ⟨(hstep s a s' h0 hs).mp hgood, ih hgood hrest hrestgood⟩
  · intro h
    exact hrun.allStates (fun s a s' hs hst => (hstep s a s' hs hst).mpr) h0 h

end Affix.Foundation
