import Affix.Foundation.Run
import Affix.Model.Library
import Mathlib.Data.List.Count

/-!
# A library is open as often as it is held

The holders of a library are the `Affix::Lib` objects not freed yet and the
wrappers not destroyed yet. `load_library` opens and the constructor of a wrapper
opens when it is given a path; `free_library` and the destructor close. Two paths
are out of step. A wrapper made from a `Lib` object opens nothing, and closes the
library all the same when it is destroyed. A constructor that has opened a
library and then finds no symbol leaves it open. Closing a `Lib` object twice is
the third way to lose count.
-/

set_option autoImplicit false

namespace Affix.Analysis

open Affix.Foundation Affix.Model

/-- The live holders of a library. -/
def holders (st : LibState) (lib : ℕ) : ℕ :=
  st.libs.countP (fun o => o.handle == lib && !o.freed) +
    st.wrappers.countP fun w => w.bind Fiction.lib == some lib

/-- Every library is open as often as it is held. -/
def Balanced (st : LibState) : Prop := ∀ lib, st.count lib = holders st lib

/-- The library a constructor opens for its argument. A `Lib` object is not opened again. -/
def opened (env : Loader) : LibArg → Option ℕ
  | .undef => env.dlopen none
  | .lib _ => none
  | .path p =>
    match env.dlopen (some p) with
    | some lib => some lib
    | none => if env.stat p then none else env.dlopen (some (env.find_library p))

/-- The symbol argument names a symbol of the library. -/
def Finds (env : Loader) (lib : ℕ) (symArg : SymbolArg) : Prop :=
  ∃ s entryPoint, symbolName symArg = .ok s ∧ env.dlsym lib s = some entryPoint

/-- The condition an operation has to meet: no wrapper comes from a `Lib` object, no
constructor fails once it has opened a library, and no open library is freed through an
object that was freed before. -/
def KeepsCount (env : Loader) (st : LibState) : LibOp → Prop
  | .affix (.lib i) symArg _ _ => ∀ o, st.libs[i]? = some o → ¬ Finds env o.handle symArg
  | .affix libArg symArg _ _ => ∀ lib, opened env libArg = some lib → Finds env lib symArg
  | .free_library i => ∀ o, st.libs[i]? = some o → o.freed = true → st.count o.handle = 0
  | .load_library _ | .destroy _ => True

/-- A state with one count changed by opening. -/
def openOnce (st : LibState) (lib : ℕ) : LibState :=
  { st with count := Function.update st.count lib (st.count lib + 1) }

theorem load_library_eq (env : Loader) (st : LibState) (path : Option (List UInt8)) :
    load_library env st path =
      (env.dlopen path, match env.dlopen path with
        | some lib => openOnce st lib
        | none => st) := by
  unfold load_library openOnce
  cases env.dlopen path <;> rfl

/-- A constructor given anything but an object opens what it resolves to. -/
theorem resolveLib_eq (env : Loader) (st : LibState) {libArg : LibArg}
    (h : ∀ i, libArg ≠ .lib i) :
    resolveLib env st libArg =
      (opened env libArg, match opened env libArg with
        | some lib => openOnce st lib
        | none => st) := by
  cases libArg with
  | undef => exact load_library_eq env st none
  | lib i => exact absurd rfl (h i)
  | path p =>
    simp only [resolveLib, load_library_eq, opened]
    cases hp : env.dlopen (some p) with
    | some lib => rfl
    | none =>
      by_cases hs : env.stat p = true
      · simp only [hs, if_true]
      · simp only [if_neg hs]

/-- A constructor succeeds exactly when its library is there and has the symbol. It leaves
the libraries as resolving its argument left them. -/
theorem Affix_fiction_cases (env : Loader) (st : LibState) (libArg : LibArg) (symArg : SymbolArg)
    (argtypes : Option (List TypeObj)) (restype : Option TypeObj) {lib : Option ℕ}
    {st' : LibState} (hlib : resolveLib env st libArg = (lib, st')) :
    (∃ l f, lib = some l ∧ Finds env l symArg ∧ f.lib = some l ∧
      Affix_fiction env st libArg symArg argtypes restype = (.ok f, st')) ∨
    (∃ e, (∀ l, lib = some l → ¬ Finds env l symArg) ∧
      Affix_fiction env st libArg symArg argtypes restype = (.error e, st')) := by
  unfold Affix_fiction
  rw [hlib]
  cases lib with
  | none => exact Or.inr ⟨_, fun l h => (Option.some_ne_none l h.symm).elim, rfl⟩
  | some l =>
    cases hs : symbolName symArg with
    | error e =>
      refine Or.inr ⟨e, ?_, rfl⟩
      rintro l' - ⟨s, entryPoint, hname, -⟩
      cases hs.symm.trans hname
    | ok s =>
      cases hsym : env.dlsym l s with
      | none =>
        refine Or.inr ⟨_, ?_, by simp only [hsym]; rfl⟩
        rintro l' hl ⟨s', entryPoint, hname, hfound⟩
        cases hl
        cases hs.symm.trans hname
        cases hsym.symm.trans hfound
      | some entryPoint =>
        exact Or.inl ⟨l, _, rfl, ⟨s, entryPoint, hs, hsym⟩, rfl, by simp only [hsym]; rfl⟩

theorem count_openOnce (st : LibState) (lib lib' : ℕ) :
    (openOnce st lib).count lib' = st.count lib' + if lib = lib' then 1 else 0 := by
  simp only [openOnce, Function.update_apply]
  by_cases he : lib' = lib
  · rw [if_pos he, if_pos he.symm, he]
  · rw [if_neg he, if_neg (Ne.symm he), Nat.add_zero]

theorem count_free_library (st : LibState) (lib lib' : ℕ) :
    (free_library st lib).count lib' = st.count lib' - if lib = lib' then 1 else 0 := by
  simp only [free_library, Function.update_apply]
  by_cases he : lib' = lib
  · rw [if_pos he, if_pos he.symm, he]
  · rw [if_neg he, if_neg (Ne.symm he), Nat.sub_zero]

/-- A new `Lib` object is one more holder of its library. -/
theorem holders_newLib (st : LibState) (lib lib' : ℕ) :
    holders { st with libs := st.libs ++ [⟨lib, false⟩] } lib' =
      holders st lib' + if lib = lib' then 1 else 0 := by
  simp only [holders, List.countP_append, List.countP_singleton, Bool.not_false, Bool.and_true,
    beq_iff_eq]
  omega

/-- A new wrapper is one more holder of its library. -/
theorem holders_newWrapper (st : LibState) {f : Fiction} {lib : ℕ} (hf : f.lib = some lib)
    (lib' : ℕ) :
    holders { st with wrappers := st.wrappers ++ [some f] } lib' =
      holders st lib' + if lib = lib' then 1 else 0 := by
  simp only [holders, List.countP_append, List.countP_singleton, Option.bind_some, hf, beq_iff_eq,
    Option.some.injEq]
  omega

/-- A destroyed wrapper is one holder less, and was one. -/
theorem holders_destroy (st : LibState) {w : ℕ} {f : Fiction} (h : st.wrappers[w]? = some (some f))
    (lib' : ℕ) :
    holders st lib' = holders { st with wrappers := st.wrappers.set w none } lib' +
      if f.lib = some lib' then 1 else 0 := by
  obtain ⟨hw, hget⟩ := List.getElem?_eq_some_iff.mp h
  have hle : (if (st.wrappers[w].bind Fiction.lib == some lib') = true then 1 else 0) ≤
      st.wrappers.countP fun w => w.bind Fiction.lib == some lib' :=
    List.boole_getElem_le_countP (p := fun w => w.bind Fiction.lib == some lib') hw
  simp only [holders, List.countP_set hw, hget, Option.bind_some, Option.bind_none, beq_iff_eq,
    reduceCtorEq, if_false] at hle ⊢
  omega

/-- A freed object is one holder less if it was not freed before. -/
theorem holders_free (st : LibState) {i : ℕ} {o : LibObject} (h : st.libs[i]? = some o)
    (lib' : ℕ) :
    holders st lib' = holders { st with libs := st.libs.set i { o with freed := true } } lib' +
      if o.handle = lib' ∧ o.freed = false then 1 else 0 := by
  obtain ⟨hi, hget⟩ := List.getElem?_eq_some_iff.mp h
  have hle : (if (st.libs[i].handle == lib' && !st.libs[i].freed) = true then 1 else 0) ≤
      st.libs.countP fun o => o.handle == lib' && !o.freed :=
    List.boole_getElem_le_countP (p := fun o : LibObject => o.handle == lib' && !o.freed) hi
  simp only [holders, List.countP_set hi, hget, Bool.not_true, Bool.and_false, Bool.false_eq_true,
    if_false, Bool.and_eq_true, beq_iff_eq, Bool.not_eq_true'] at hle ⊢
  omega

/-! ## The operations -/

section Operations

variable {env : Loader} {st st' : LibState} {libArg : LibArg} {symArg : SymbolArg}
  {argtypes : Option (List TypeObj)} {restype : Option TypeObj} {f : Fiction} {e : Halt}

theorem Affix_fiction_ok
    (h : Affix_fiction env st libArg symArg argtypes restype = (.ok f, st')) :
    ∃ l, resolveLib env st libArg = (some l, st') ∧ Finds env l symArg ∧ f.lib = some l := by
  rcases hlib : resolveLib env st libArg with ⟨lib, s⟩
  obtain ⟨l, f', rfl, hfinds, hf, hrun⟩ | ⟨e, -, hrun⟩ :=
    Affix_fiction_cases env st libArg symArg argtypes restype hlib
  · cases h.symm.trans hrun
    exact ⟨l, rfl, hfinds, hf⟩
  · cases h.symm.trans hrun

theorem Affix_fiction_error
    (h : Affix_fiction env st libArg symArg argtypes restype = (.error e, st')) :
    ∃ lib, resolveLib env st libArg = (lib, st') ∧ ∀ l, lib = some l → ¬ Finds env l symArg := by
  rcases hlib : resolveLib env st libArg with ⟨lib, s⟩
  obtain ⟨l, f', -, -, -, hrun⟩ | ⟨e', hnot, hrun⟩ :=
    Affix_fiction_cases env st libArg symArg argtypes restype hlib
  · cases h.symm.trans hrun
  · cases h.symm.trans hrun
    exact ⟨lib, rfl, hnot⟩

/-- A library that is opened once for one more holder. -/
theorem Balanced.opened (hbal : Balanced st) {lib : ℕ}
    (hcount : st'.count = (openOnce st lib).count)
    (hhold : ∀ x, holders st' x = holders st x + if lib = x then 1 else 0) : Balanced st' := by
  intro x
  rw [hcount, count_openOnce, hhold, hbal]

/-- A wrapper made from an object is a holder that nothing was opened for. -/
theorem not_balanced_affix_object (hbal : Balanced st) {i : ℕ} {o : LibObject}
    (ho : st.libs[i]? = some o)
    (h : Affix_fiction env st (.lib i) symArg argtypes restype = (.ok f, st')) :
    ¬ Balanced { st' with wrappers := st'.wrappers ++ [some f] } ∧ Finds env o.handle symArg := by
  obtain ⟨l, hl, hfinds, hf⟩ := Affix_fiction_ok h
  obtain ⟨hhandle, rfl⟩ := Prod.mk.inj hl
  rw [ho, Option.map_some, Option.some.injEq] at hhandle
  refine ⟨fun hbal' => ?_, hhandle ▸ hfinds⟩
  have hcount : st.count l = _ := hbal' l
  rw [holders_newWrapper st hf, if_pos rfl, ← hbal l] at hcount
  omega

theorem affix_object_error {i : ℕ} {o : LibObject} (ho : st.libs[i]? = some o)
    (h : Affix_fiction env st (.lib i) symArg argtypes restype = (.error e, st')) :
    st' = st ∧ ¬ Finds env o.handle symArg := by
  obtain ⟨lib, hl, hnot⟩ := Affix_fiction_error h
  obtain ⟨rfl, rfl⟩ := Prod.mk.inj hl
  exact ⟨rfl, hnot o.handle (by rw [ho, Option.map_some])⟩

/-- A wrapper made from anything else holds what was opened for it. -/
theorem balanced_affix_opened (hbal : Balanced st) (hobj : ∀ i, libArg ≠ .lib i)
    (h : Affix_fiction env st libArg symArg argtypes restype = (.ok f, st')) :
    Balanced { st' with wrappers := st'.wrappers ++ [some f] } ∧
      ∀ l, opened env libArg = some l → Finds env l symArg := by
  obtain ⟨l, hl, hfinds, hf⟩ := Affix_fiction_ok h
  obtain ⟨hopen, hst'⟩ := Prod.mk.inj ((resolveLib_eq env st hobj).symm.trans hl)
  rw [hopen] at hst'
  subst hst'
  refine ⟨hbal.opened rfl (holders_newWrapper (openOnce st l) hf), fun l' hl' => ?_⟩
  cases hopen.symm.trans hl'
  exact hfinds

/-- A constructor that fails must have opened nothing. -/
theorem balanced_affix_error_iff (hbal : Balanced st) (hobj : ∀ i, libArg ≠ .lib i)
    (h : Affix_fiction env st libArg symArg argtypes restype = (.error e, st')) :
    Balanced st' ↔ ∀ l, opened env libArg = some l → Finds env l symArg := by
  obtain ⟨lib, hl, hnot⟩ := Affix_fiction_error h
  obtain ⟨hopen, hst'⟩ := Prod.mk.inj ((resolveLib_eq env st hobj).symm.trans hl)
  cases lib with
  | none =>
    rw [hopen] at hst' ⊢
    subst hst'
    exact iff_of_true hbal fun l hl => (Option.some_ne_none l hl.symm).elim
  | some l =>
    rw [hopen] at hst' ⊢
    subst hst'
    refine iff_of_false (fun hbal' => ?_) fun hfinds => hnot l rfl (hfinds l rfl)
    have hcount : (openOnce st l).count l = holders st l := hbal' l
    rw [count_openOnce, if_pos rfl, hbal l] at hcount
    omega

theorem balanced_destroy (hbal : Balanced st) {w : ℕ} (h : st.wrappers[w]? = some (some f)) :
    Balanced { (match f.lib with
      | some lib => free_library st lib
      | none => st) with wrappers := st.wrappers.set w none } := by
  intro lib'
  have hhold := holders_destroy st h lib'
  have hlib := hbal lib'
  cases hf : f.lib with
  | none =>
    simp only [hf, reduceCtorEq, if_false] at hhold ⊢
    exact hlib.trans hhold
  | some lib =>
    simp only [hf, Option.some.injEq] at hhold ⊢
    show (free_library st lib).count lib' = _
    rw [count_free_library, hlib, hhold]
    exact Nat.add_sub_cancel _ _

/-- An object that was freed before holds nothing, so closing must not change a count. -/
theorem balanced_free_iff (hbal : Balanced st) {i : ℕ} {o : LibObject}
    (h : st.libs[i]? = some o) :
    Balanced { free_library st o.handle with libs := st.libs.set i { o with freed := true } } ↔
      (o.freed = true → st.count o.handle = 0) := by
  have hhold := holders_free st h
  cases hfreed : o.freed with
  | true =>
    simp only [hfreed, Bool.true_eq_false, and_false, if_false, Nat.add_zero] at hhold
    constructor
    · intro hbal' _
      have hlib : (free_library st o.handle).count o.handle = _ := hbal' o.handle
      rw [count_free_library, if_pos rfl] at hlib
      have hopen : st.count o.handle - 1 = st.count o.handle := by
        rw [hlib, hbal o.handle, hhold o.handle]
        rfl
      omega
    · intro hzero lib'
      have hsame : st.count lib' = _ := (hbal lib').trans (hhold lib')
      have hstay : st.count lib' - (if o.handle = lib' then 1 else 0) = st.count lib' := by
        by_cases he : o.handle = lib'
        · rw [if_pos he, ← he, hzero rfl]
        · rw [if_neg he, Nat.sub_zero]
      show (free_library st o.handle).count lib' = holders _ lib'
      rw [count_free_library, hstay]
      exact hsame
  | false =>
    simp only [hfreed, and_true] at hhold
    refine iff_of_true (fun lib' => ?_) nofun
    show (free_library st o.handle).count lib' = holders _ lib'
    rw [count_free_library, hbal lib', hhold lib']
    exact Nat.add_sub_cancel _ _

end Operations

/-- **One operation**: from a balanced state, the libraries are balanced after it exactly
when it keeps count. -/
theorem balanced_step_iff (env : Loader) (st : LibState) (op : LibOp) (st' : LibState)
    (hbal : Balanced st) (hstep : LibStep env st op st') :
    Balanced st' ↔ KeepsCount env st op := by
  cases hstep with
  | @load s path lib h =>
    rw [load_library_eq] at h
    obtain ⟨hopen, hs⟩ := Prod.mk.inj h
    rw [hopen] at hs
    subst hs
    exact iff_of_true (hbal.opened rfl (holders_newLib (openOnce st lib) lib)) trivial
  | loadFailed h =>
    rw [load_library_eq] at h
    obtain ⟨hopen, hs⟩ := Prod.mk.inj h
    rw [hopen] at hs
    subst hs
    exact iff_of_true hbal trivial
  | @affix s libArg symArg argtypes restype f harg h =>
    cases libArg with
    | lib i =>
      have ho := List.getElem?_eq_getElem (harg i rfl)
      obtain ⟨hnot, hfinds⟩ := not_balanced_affix_object hbal ho h
      exact iff_of_false hnot fun hkeeps => hkeeps _ ho hfinds
    | undef | path p =>
      obtain ⟨hbal', hfinds⟩ := balanced_affix_opened hbal (by simp) h
      exact iff_of_true hbal' hfinds
  | @affixFailed _ libArg symArg argtypes restype e harg h =>
    cases libArg with
    | lib i =>
      obtain ⟨rfl, hnot⟩ := affix_object_error (List.getElem?_eq_getElem (harg i rfl)) h
      refine iff_of_true hbal fun o ho => ?_
      cases (List.getElem?_eq_getElem (harg i rfl)).symm.trans ho
      exact hnot
    | undef | path p => exact balanced_affix_error_iff hbal (by simp) h
  | destroy h => exact iff_of_true (balanced_destroy hbal h) trivial
  | @free i o h =>
    rw [balanced_free_iff hbal h]
    constructor
    · intro hzero o' ho'
      cases h.symm.trans ho'
      exact hzero
    · exact fun hkeeps => hkeeps o h

theorem balanced_initial : Balanced .initial := fun _ => rfl

/-- **The libraries are balanced all along a run exactly when every operation keeps count**:
no wrapper is made from a `Lib` object, no constructor fails after opening a library, and no
open library is freed through an object that was freed before. -/
theorem balanced_run_iff_keepsCount (env : Loader) {run : List (LibOp × LibState)}
    (hrun : IsRun (LibStep env) .initial run) :
    AllStates Balanced .initial run ↔ AllSteps (KeepsCount env) .initial run :=
  hrun.allStates_iff (balanced_step_iff env) balanced_initial

/-- A loader with one library, in which every symbol is found. -/
def oneLibrary : Loader := ⟨fun _ => some 1, fun _ _ => some 5, fun _ => true, id⟩

/-- The wrapper both runs below make. -/
def fn : Fiction := wrapper (some 1) 5 [] none none

def loaded : LibState := { openOnce .initial 1 with libs := [⟨1, false⟩] }
def wrappedFromPath : LibState := { openOnce loaded 1 with wrappers := [some fn] }
def wrappedFromLib : LibState := { loaded with wrappers := [some fn] }
def destroyed (st : LibState) : LibState := { free_library st 1 with wrappers := [none] }

/-- `load_library`, then a wrapper from a path, destroyed. -/
def pathRun : List (LibOp × LibState) :=
  [(.load_library none, loaded), (.affix (.path []) (.str []) none none, wrappedFromPath),
    (.destroy 0, destroyed wrappedFromPath)]

/-- `load_library`, then a wrapper from the object, destroyed. -/
def objectRun : List (LibOp × LibState) :=
  [(.load_library none, loaded), (.affix (.lib 0) (.str []) none none, wrappedFromLib),
    (.destroy 0, destroyed wrappedFromLib)]

theorem isRun_pathRun : IsRun (LibStep oneLibrary) .initial pathRun := by
  have hload : LibStep oneLibrary .initial (.load_library none) loaded :=
    @LibStep.load oneLibrary .initial _ none 1 rfl
  have haffix : LibStep oneLibrary loaded (.affix (.path []) (.str []) none none)
      wrappedFromPath :=
    @LibStep.affix oneLibrary loaded _ (.path []) (.str []) none none fn
      (fun i hi => by cases hi) rfl
  have hdestroy : LibStep oneLibrary wrappedFromPath (.destroy 0) (destroyed wrappedFromPath) :=
    @LibStep.destroy oneLibrary wrappedFromPath 0 fn rfl
  exact ⟨hload, haffix, hdestroy, trivial⟩

theorem isRun_objectRun : IsRun (LibStep oneLibrary) .initial objectRun := by
  have hload : LibStep oneLibrary .initial (.load_library none) loaded :=
    @LibStep.load oneLibrary .initial _ none 1 rfl
  have haffix : LibStep oneLibrary loaded (.affix (.lib 0) (.str []) none none) wrappedFromLib :=
    @LibStep.affix oneLibrary loaded _ (.lib 0) (.str []) none none fn
      (fun i hi => by cases hi; decide) rfl
  have hdestroy : LibStep oneLibrary wrappedFromLib (.destroy 0) (destroyed wrappedFromLib) :=
    @LibStep.destroy oneLibrary wrappedFromLib 0 fn rfl
  exact ⟨hload, haffix, hdestroy, trivial⟩

/-- The run with the wrapper from a path. -/
theorem balanced_pathRun : AllStates Balanced .initial pathRun ↔
    AllSteps (KeepsCount oneLibrary) .initial pathRun :=
  balanced_run_iff_keepsCount oneLibrary isRun_pathRun

/-- A wrapper made from a `Lib` object closes the library the object still holds. -/
theorem unloaded_while_held : IsRun (LibStep oneLibrary) .initial objectRun ∧
    (destroyed wrappedFromLib).count 1 = 0 ∧ holders (destroyed wrappedFromLib) 1 = 1 ∧
    ¬ AllStates Balanced .initial objectRun := by
  refine ⟨isRun_objectRun, rfl, rfl, fun h => ?_⟩
  have hlast : Balanced (destroyed wrappedFromLib) :=
    h.2 (.destroy 0, destroyed wrappedFromLib) (by simp [objectRun])
  exact absurd (hlast 1) (by decide)

end Affix.Analysis
