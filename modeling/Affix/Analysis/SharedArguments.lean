import Affix.Interface.PrivateCopy
import Affix.Analysis.Calls
import Affix.Foundation.Run

/-!
# Wrappers and the arrays they were made from

The flags of a wrapper are its own and the types are the caller's. Where the array
still has, for each pointer, callback and struct, what its branch looks at, a call is
that of a wrapper with a list of its own; the branches of the other types look at
their flags only.
-/

set_option autoImplicit false

namespace Affix.Analysis

open Affix.Foundation Affix.Model Affix.Interface

section Calls

variable {misread : Misread}

theorem fetch_map_some (ts : List TypeObj) (i : ℕ) :
    ArgArray.fetch (ts.map some) i = ts[i]? := by
  rw [ArgArray.fetch, List.getElem?_map]
  cases ts[i]? <;> rfl

/-- A type is as good as itself. -/
theorem goodFor_self (t : TypeObj) : GoodFor t (some t) := by
  cases t with
  | scalar k s => cases k <;> trivial
  | pointer s t => rfl
  | codeRef s args sig ret => rfl
  | struct s store => rfl
  | union s store => rfl

theorem unhandled_eq {s s' : Slots} (h : s.stringify = s'.stringify) :
    (croak (text "Unhandled argument type: " ++ s.stringify) : Eff (Option DCArg)) =
      croak (text "Unhandled argument type: " ++ s'.stringify) := by
  rw [h]

/-- **The argument switch** on the flag of a type, at an element as good as it. -/
theorem argumentAt_eq {t : TypeObj} {elem : Option TypeObj} (h : GoodFor t elem) (sv : SV) :
    argumentAt misread t.flag elem sv = argument t sv := by
  cases t with
  | scalar k s =>
    cases k with
    | SV =>
      obtain ⟨type, rfl, hstr⟩ := Option.map_eq_some_iff.mp h
      exact unhandled_eq hstr
    | _ => rfl
  | pointer s subtype =>
    have hslot : elem.bind TypeObj.subtypeSlot = some subtype := h
    simp only [argumentAt, argument, TypeObj.flag, hslot]
  | codeRef s args sig ret =>
    cases h
    rfl
  | struct s store =>
    cases h
    rfl
  | union s store =>
    obtain ⟨type, rfl, hstr⟩ := Option.map_eq_some_iff.mp h
    exact unhandled_eq hstr

/-- **The argument loop**, from a position where the types that are left stand in the
array. -/
theorem pushShared_eq (misread : Misread) (arr : ArgArray) {ts : List TypeObj} {i : ℕ}
    (h : ∀ j t, ts[j]? = some t → GoodFor t (arr.fetch (i + j))) (items : List SV) :
    pushShared misread arr i (ts.map TypeObj.flag) items = pushArguments ts items := by
  induction ts generalizing i items with
  | nil => cases items <;> rfl
  | cons t ts ih =>
    cases items with
    | nil => rfl
    | cons sv items =>
      have hhead : GoodFor t (arr.fetch i) := h 0 t rfl
      have hrest : ∀ j t, ts[j]? = some t → GoodFor t (arr.fetch (i + 1 + j)) := by
        intro j u hu
        have hj := h (j + 1) u hu
        rwa [show i + (j + 1) = i + 1 + j by omega] at hj
      rw [List.map_cons, pushShared, pushArguments, argumentAt_eq hhead, ih hrest]

/-- **A call** of a wrapper whose array has an element as good as each type. -/
theorem callsAs_of_goodFor {arrays : List ArgArray} {lib : Option ℕ} {entryPoint : ℕ}
    {symbol : List UInt8} {a : ℕ} {ts : List TypeObj} {restype : Option TypeObj}
    (h : ∀ i t, ts[i]? = some t → GoodFor t (ArgArray.fetch (arrays.getD a []) i)) :
    CallsAs misread arrays (shareArguments lib entryPoint symbol a ts restype)
      (wrapper lib entryPoint symbol (some ts) restype) := by
  intro inMemory callee items st
  have harguments : sharedArguments misread arrays
      (shareArguments lib entryPoint symbol a ts restype) items =
      arguments (wrapper lib entryPoint symbol (some ts) restype) items := by
    unfold sharedArguments
    have hpush := pushShared_eq misread (arrays.getD a []) (i := 0)
      (fun j t ht => by rw [Nat.zero_add]; exact h j t ht) items
    simp only [shareArguments, hpush]
    rfl
  simp only [sharedTrigger, sharedPrepare, harguments]
  rfl

end Calls

/-! ## Runs -/

/-- The wrapper is there and its array is still usable. -/
structure StillUsable (k a : ℕ) (w : SharedFiction) (ts : List TypeObj) (st : ArgState) :
    Prop where
  array : a < st.arrays.length
  good : ∀ i t, ts[i]? = some t → GoodFor t (ArgArray.fetch (st.arrays.getD a []) i)
  wrapper : st.wrappers[k]? = some w

/-- **One operation** that leaves the list usable. -/
theorem stillUsable_step {k a : ℕ} {w : SharedFiction} {ts : List TypeObj} {st st' : ArgState}
    {op : ArgOp} (hu : StillUsable k a w ts st) (hstep : ArgStep st op st')
    (hop : LeavesUsable a ts st op) : StillUsable k a w ts st' := by
  have hk : k < st.wrappers.length := List.getElem?_eq_some_iff.mp hu.wrapper |>.1
  cases hstep with
  | array =>
    refine ⟨by rw [List.length_append]; exact Nat.lt_add_right _ hu.array, ?_, hu.wrapper⟩
    rw [List.getD_eq_getElem?_getD, List.getElem?_append_left hu.array,
      ← List.getD_eq_getElem?_getD]
    exact hu.good
  | @change _ elems hb =>
    rename_i b
    refine ⟨by rw [List.length_set]; exact hu.array, ?_, hu.wrapper⟩
    by_cases hab : b = a
    · subst hab
      rw [List.getD_eq_getElem?_getD, List.getElem?_set_self hb]
      exact hop rfl
    · rw [List.getD_eq_getElem?_getD, List.getElem?_set_ne hab, ← List.getD_eq_getElem?_getD]
      exact hu.good
  | affix _ =>
    refine ⟨hu.array, hu.good, ?_⟩
    rw [List.getElem?_append_left hk]
    exact hu.wrapper

/-- **A wrapper made from an array** calls as one with a copy of the list, in every run that
leaves, for each type, an element as good in its place. -/
theorem wrapper_calls_as_made (misread : Misread) {st st' : ArgState} {lib : Option ℕ}
    {entryPoint : ℕ} {symbol : List UInt8} {a : ℕ} {ts : List TypeObj} {restype : Option TypeObj}
    (harray : st.arrays[a]? = some (ts.map some))
    (hmake : ArgStep st (.affix lib entryPoint symbol a restype) st')
    {run : List (ArgOp × ArgState)} (hrun : IsRun ArgStep st' run)
    (hcond : AllSteps (LeavesUsable a ts) st' run) :
    AllStates (fun s => ∃ w, s.wrappers[st.wrappers.length]? = some w ∧
      CallsAs misread s.arrays w (wrapper lib entryPoint symbol (some ts) restype)) st' run := by
  obtain ⟨w, hw, hst'⟩ : ∃ w, w = shareArguments lib entryPoint symbol a ts restype ∧
      st' = { st with wrappers := st.wrappers ++ [w] } := by
    cases hmake with
    | affix h =>
      have hts := List.map_inj_right (fun _ _ => Option.some.inj) |>.mp
        (Option.some.inj (h.symm.trans harray))
      exact ⟨_, by rw [hts], rfl⟩
  have h0 : StillUsable st.wrappers.length a w ts st' := by
    subst hst'
    refine ⟨(List.getElem?_eq_some_iff.mp harray).1, fun i t ht => ?_, by simp⟩
    rw [List.getD_eq_getElem?_getD, harray, Option.getD_some, fetch_map_some, ht]
    exact goodFor_self t
  have hstep : ∀ s op s', StillUsable st.wrappers.length a w ts s → ArgStep s op s' →
      LeavesUsable a ts s op → StillUsable st.wrappers.length a w ts s' :=
    fun _ _ _ => stillUsable_step
  have hall := hrun.allStates hstep h0 hcond
  have hcalls : ∀ s, StillUsable st.wrappers.length a w ts s →
      ∃ w, s.wrappers[st.wrappers.length]? = some w ∧
        CallsAs misread s.arrays w (wrapper lib entryPoint symbol (some ts) restype) :=
    fun s hs => ⟨w, hs.wrapper, hw ▸ callsAs_of_goodFor hs.good⟩
  exact ⟨hcalls st' hall.1, fun p hp => hcalls p.2 (hall.2 p hp)⟩

/-- `$args = [ Pointer[ Int ] ]`. -/
def pointerArray : ArgState := ⟨[[some (Pointer (scalarType .Int))]], []⟩

/-- `wrap( …, $args, Int )`. -/
def wrapPointer : ArgOp := .affix (some 1) 5 [] 0 (some (scalarType .Int))

/-- Once the wrapper is made. -/
def pointerWrapped : ArgState :=
  { pointerArray with wrappers :=
      [shareArguments (some 1) 5 [] 0 [Pointer (scalarType .Int)] (some (scalarType .Int))] }

theorem wrapPointer_step : ArgStep pointerArray wrapPointer pointerWrapped := by
  have harray : pointerArray.arrays[0]? = some ([Pointer (scalarType .Int)].map some) := rfl
  exact .affix harray

/-- The array is given these elements. -/
def elementsNow (elems : ArgArray) : List (ArgOp × ArgState) :=
  [(.change 0 elems, { pointerWrapped with arrays := [elems] })]

/-- The first wrapper calls as it was made. -/
def FirstCallsAsMade (s : ArgState) : Prop :=
  ∃ w, s.wrappers[0]? = some w ∧ CallsAs (fun _ _ => Exec.fail .fault) s.arrays w
    (wrapper (some 1) 5 [] (some [Pointer (scalarType .Int)]) (some (scalarType .Int)))

/-- `push @$args, Int`. -/
theorem wrapper_calls_as_made_push : AllStates FirstCallsAsMade pointerWrapped
    (elementsNow [some (Pointer (scalarType .Int)), some (scalarType .Int)]) := by
  have hcond : AllSteps (LeavesUsable 0 [Pointer (scalarType .Int)]) pointerWrapped
      (elementsNow [some (Pointer (scalarType .Int)), some (scalarType .Int)]) := by
    refine ⟨fun _ i t ht => ?_, trivial⟩
    cases i with
    | zero =>
      cases ht
      rfl
    | succ i => cases ht
  have harray : pointerArray.arrays[0]? = some ([Pointer (scalarType .Int)].map some) := rfl
  exact wrapper_calls_as_made _ harray wrapPointer_step
    ⟨.change (by decide), trivial⟩ hcond

/-- `int f(int *p) { return *p; }`. -/
def readInt : Callee := fun args h =>
  match args with
  | [.int p] => (load h.mem p.toNat 4).map fun bs => (⟨cint.wrap (decodeLE bs), 0, 0, []⟩, h)
  | _ => .error .fault

/-- `$args->[0] = Pointer[ Char ]`: the function that is given five reads past the end of a
string of one digit, where it used to read an integer. -/
theorem wrapper_not_as_made :
    ArgStep pointerArray wrapPointer pointerWrapped ∧
      IsRun ArgStep pointerWrapped (elementsNow [some (Pointer (scalarType .Char))]) ∧
      ¬ AllStates FirstCallsAsMade pointerWrapped
        (elementsNow [some (Pointer (scalarType .Char))]) := by
  refine ⟨wrapPointer_step, ⟨.change (by decide), trivial⟩, fun h => ?_⟩
  obtain ⟨w, hw, hcalls⟩ := h.2 _ List.mem_cons_self
  cases hw
  have hsame := hcalls (fun _ => false) readInt [.val (.newSViv 5)]
    ⟨.empty, ⟨false, []⟩, [.undef false], some 0⟩
  have hisOk := congrArg Except.isOk hsame
  revert hisOk
  decide +kernel

end Affix.Analysis
