import Affix.Analysis.IntegerRoundTrip
import Affix.Foundation.Run

/-!
# Results that are kept

A caller may keep the scalars several calls of one wrapper handed back. Every
branch of the return switch but two writes to the one cell the wrapper was made
with, so all those scalars are that cell, and it holds what the last call
returned. A `WChar` result (and a struct, which is no scalar) gets a cell of its
own.
-/

set_option autoImplicit false

namespace Affix.Analysis

open Affix.Foundation Affix.Model Affix.Interface

/-- A call as its caller and the C function see it: the function, the arguments, what the
function returned and the memory it left, and the cell the caller was handed. -/
structure CallOf where
  callee : Callee
  items : List SV
  ret : Returned
  mem : Heap
  cell : ℕ

def CallStep (inMemory : DCaggr → Bool) (f : Fiction) (st : Interp) (a : CallOf) (st' : Interp) :
    Prop :=
  (∃ s₁, prepare inMemory f a.items st = .ok ((), s₁) ∧
    a.callee s₁.vm.args s₁.heap = .ok (a.ret, a.mem)) ∧
  Fiction_trigger inMemory f a.callee a.items st = .ok (some a.cell, st')

/-- The result types with a scalar result: every type the return switch has a branch for,
but `Void` and structs. -/
def ScalarResult (type : TypeObj) : Prop :=
  returnable type = true ∧ type.flag ≠ .void ∧ type.flag ≠ .struct

/-- The cell a call handed back holds what the return switch makes of what that call's C
function returned. -/
def StillHolds (type : TypeObj) (st : Interp) (a : CallOf) : Prop :=
  ∃ sv h, returned type a.ret a.mem = .ok (some sv, h) ∧ st.cells[a.cell]? = some sv

def readThrough (subtype : TypeObj) : Bool :=
  match subtype.flag with
  | .char | .uchar | .schar | .wchar | .sv => true
  | _ => false

/-- Two calls returned the same C value: the same integer of the type, the same truth value
or number, the same string or Perl value behind the pointer, or the same address. -/
def SameValue (type : TypeObj) (a b : CallOf) : Prop :=
  match type with
  | .scalar .Bool _ => (a.ret.dcCallBool ≠ 0 ↔ b.ret.dcCallBool ≠ 0)
  | .scalar .Float _ =>
    binary32.convert binary64 a.ret.float = binary32.convert binary64 b.ret.float
  | .scalar .Double _ => a.ret.double = b.ret.double
  | .scalar k _ => ∀ t, cInt k = some t → t.wrap a.ret.int = t.wrap b.ret.int
  | .pointer _ subtype =>
    if readThrough subtype then
      (ptr2sv type a.ret.dcCallPointer a.mem).map Prod.fst =
        (ptr2sv type b.ret.dcCallPointer b.mem).map Prod.fst
    else a.ret.dcCallPointer = b.ret.dcCallPointer
  | _ => a.ret.dcCallPointer = b.ret.dcCallPointer

theorem returned_int_congr {k : Kind} {t : CIntType} (hk : cInt k = some t) {r r' : Returned}
    (hr : t.wrap r.int = t.wrap r'.int) {sl : Slots} {m m' h h' : Heap} {sv sv' : SV}
    (ha : returned (.scalar k sl) r m = .ok (some sv, h))
    (hb : returned (.scalar k sl) r' m' = .ok (some sv', h')) : sv = sv' := by
  cases k <;> simp only [cInt, Option.some.injEq, reduceCtorEq] at hk <;> subst hk
  case Char | SChar | UChar =>
    have hc : r.dcCallChar = r'.dcCallChar := CIntType.wrap_eq_wrap_of_bits (by rfl) hr
    cases ha
    cases hb
    rw [hc]
  case Short | UShort =>
    have hc : r.dcCallShort = r'.dcCallShort := CIntType.wrap_eq_wrap_of_bits (by rfl) hr
    cases ha
    cases hb
    rw [hc]
  case Int | UInt =>
    have hc : r.dcCallInt = r'.dcCallInt := CIntType.wrap_eq_wrap_of_bits (by rfl) hr
    cases ha
    cases hb
    rw [hc]
  case Long | ULong =>
    have hc : r.dcCallLong = r'.dcCallLong := CIntType.wrap_eq_wrap_of_bits (by rfl) hr
    cases ha
    cases hb
    rw [hc]
  all_goals
    have hc : r.dcCallLongLong = r'.dcCallLongLong := CIntType.wrap_eq_wrap_of_bits (by rfl) hr
    cases ha
    cases hb
    rw [hc]

theorem wrap_readBack {k : Kind} {t : CIntType} (hk : cInt k = some t) (w : ℤ) :
    t.wrap (readBack k t w) = t.wrap w := by
  cases k <;> simp only [cInt, Option.some.injEq, reduceCtorEq] at hk <;> subst hk <;>
    simp only [readBack]
  case UChar => exact CIntType.wrap_wrap_of_le (t := cuchar) (u := cchar) le_rfl w
  case UInt =>
    rw [CIntType.wrap_wrap_of_le (t := cuint) (u := culong) (by decide),
      CIntType.wrap_wrap_of_le (t := cuint) (u := cint) le_rfl]
  all_goals exact CIntType.wrap_wrap_of_le le_rfl w

/-- **Integer results**: the scalars of two calls are the same exactly when the C values are. -/
theorem returned_int_iff {k : Kind} {t : CIntType} (hk : cInt k = some t) {sl : Slots}
    {a b : CallOf} {sv sv' : SV} {h h' : Heap}
    (ha : returned (.scalar k sl) a.ret a.mem = .ok (some sv, h))
    (hb : returned (.scalar k sl) b.ret b.mem = .ok (some sv', h')) :
    sv = sv' ↔ t.wrap a.ret.int = t.wrap b.ret.int := by
  constructor
  · intro heq
    obtain ⟨x, hx, hnum⟩ := returned_int hk sl a.ret a.mem
    obtain ⟨y, hy, hnum'⟩ := returned_int hk sl b.ret b.mem
    cases ha.symm.trans hx
    cases hb.symm.trans hy
    rw [← wrap_readBack hk a.ret.int, ← hnum, heq, hnum', wrap_readBack hk]
  · intro hr
    exact returned_int_congr hk hr ha hb

theorem boolSV_injective {b b' : Bool} : SV.val (.boolSV b) = .val (.boolSV b') ↔ b = b' := by
  constructor
  · intro h
    have hnum : svSlot (.val (.boolSV b)) = svSlot (.val (.boolSV b')) := by rw [h]
    revert hnum
    cases b <;> cases b' <;> decide
  · rintro rfl
    rfl

theorem returned_scalar_iff {k : Kind} {sl : Slots} {a b : CallOf} {sv sv' : SV} {h h' : Heap}
    (hk : k ≠ .WChar) (ha : returned (.scalar k sl) a.ret a.mem = .ok (some sv, h))
    (hb : returned (.scalar k sl) b.ret b.mem = .ok (some sv', h')) :
    sv = sv' ↔ SameValue (.scalar k sl) a b := by
  cases hint : cInt k with
  | some t =>
    rw [returned_int_iff hint ha hb]
    have hsame : SameValue (.scalar k sl) a b ↔
        ∀ u, cInt k = some u → u.wrap a.ret.int = u.wrap b.ret.int := by
      cases k <;> first | exact Iff.rfl | cases hint
    rw [hsame, hint]
    simp only [Option.some.injEq, forall_eq']
  | none =>
    cases k <;> simp only [cInt, reduceCtorEq] at hint
    case Void => cases ha
    case WChar => exact absurd rfl hk
    case SV => cases ha
    case Bool =>
      cases ha
      cases hb
      rw [boolSV_injective]
      simp only [SameValue, decide_eq_decide]
    case Float =>
      cases ha
      cases hb
      simp [SameValue, Scalar.newSVnv]
    case Double =>
      cases ha
      cases hb
      simp [SameValue, Scalar.newSVnv]

theorem ptr2obj_injective {type : TypeObj} {r r' : Returned}
    (h : ptr2obj type r.dcCallPointer = ptr2obj type r'.dcCallPointer)
    (hp : r.dcCallPointer ≠ 0) (hp' : r'.dcCallPointer ≠ 0) :
    r.dcCallPointer = r'.dcCallPointer := by
  have haddr : ∀ r : Returned, (r.dcCallPointer : ℤ) = culong.wrap r.int := by
    intro r
    have hrange := culong.wrap_inRange r.int
    have hnonneg : 0 ≤ culong.wrap r.int := hrange.1
    exact Int.toNat_of_nonneg hnonneg
  simp only [ptr2obj, addrSlot, if_neg hp, if_neg hp', SV.aref.injEq, List.cons.injEq,
    SV.sref.injEq, SV.val.injEq, true_and, and_true] at h
  have hiv : clong.wrap (r.dcCallPointer : ℤ) = clong.wrap (r'.dcCallPointer : ℤ) := by
    have hslot := congrArg (fun s => svSlot (.val s)) h
    exact hslot
  have hword : culong.wrap (r.dcCallPointer : ℤ) = culong.wrap (r'.dcCallPointer : ℤ) :=
    CIntType.wrap_eq_wrap_of_bits (by rfl) hiv
  rw [haddr, haddr, CIntType.wrap_wrap_of_le le_rfl, CIntType.wrap_wrap_of_le le_rfl, ← haddr,
    ← haddr] at hword
  exact_mod_cast hword

/-- **Pointer results**: the scalars of two calls are the same exactly when the strings or
values behind the pointers are, or the addresses. -/
theorem returned_pointer_iff {s : Slots} {subtype : TypeObj} {a b : CallOf} {sv sv' : SV}
    {h h' : Heap} (ha : returned (.pointer s subtype) a.ret a.mem = .ok (some sv, h))
    (hb : returned (.pointer s subtype) b.ret b.mem = .ok (some sv', h')) :
    sv = sv' ↔ SameValue (.pointer s subtype) a b := by
  obtain ⟨x, hx, hsx⟩ := Exec.map_eq_ok.mp ha
  obtain ⟨y, hy, hsy⟩ := Exec.map_eq_ok.mp hb
  cases hsx
  cases hsy
  have hcase : ∀ r : Returned, returnPointer (.pointer s subtype) subtype r =
      if readThrough subtype then ptr2sv (.pointer s subtype) r.dcCallPointer
      else if r.dcCallPointer = 0 then pure (.undef false)
      else pure (ptr2obj (.pointer s subtype) r.dcCallPointer) := by
    intro r
    by_cases hp : r.dcCallPointer = 0
    · simp [returnPointer, hp, ptr2sv]
    · unfold returnPointer readThrough
      rw [if_neg hp, if_neg hp]
      cases subtype.flag <;> rfl
  rw [hcase] at hx hy
  simp only [SameValue]
  by_cases hread : readThrough subtype = true
  · rw [if_pos hread] at hx hy ⊢
    rw [hx, hy]
    simp [Except.map]
  · rw [if_neg hread] at hx hy ⊢
    by_cases hp : a.ret.dcCallPointer = 0 <;> by_cases hp' : b.ret.dcCallPointer = 0
    · rw [if_pos hp] at hx
      rw [if_pos hp'] at hy
      cases hx
      cases hy
      exact iff_of_true rfl (hp.trans hp'.symm)
    · rw [if_pos hp] at hx
      rw [if_neg hp'] at hy
      cases hx
      cases hy
      exact iff_of_false (fun heq => by cases heq) (fun heq => hp' (heq ▸ hp))
    · rw [if_neg hp] at hx
      rw [if_pos hp'] at hy
      cases hx
      cases hy
      exact iff_of_false (fun heq => by cases heq) (fun heq => hp (heq.trans hp'))
    · rw [if_neg hp] at hx
      rw [if_neg hp'] at hy
      cases hx
      cases hy
      exact ⟨fun heq => ptr2obj_injective heq hp hp', fun heq => by rw [heq]⟩

theorem ptr2sv_codeRef {s : Slots} {args : Option (List TypeObj)} {sig : List Flag} {rt : TypeObj}
    {p : ℕ} {m m' : Heap} {sv : SV} (h : ptr2sv (.codeRef s args sig rt) p m = .ok (sv, m')) :
    sv = if p = 0 then .undef false
      else .code (.new ["Affix"]) (.fiction (pointerFiction (args.getD []) rt p)) := by
  unfold ptr2sv at h
  by_cases hp : p = 0
  · rw [if_pos hp] at h ⊢
    cases h
    rfl
  · rw [if_neg hp] at h ⊢
    cases args with
    | none => cases h
    | some ts =>
      obtain ⟨_, _, _, h⟩ := Exec.bind_eq_ok.mp h
      obtain ⟨_, _, _, h⟩ := Exec.bind_eq_ok.mp h
      obtain ⟨_, _, _, h⟩ := Exec.bind_eq_ok.mp h
      cases h
      rfl

theorem returned_codeRef_iff {s : Slots} {args : Option (List TypeObj)} {sig : List Flag}
    {rt : TypeObj} {a b : CallOf} {sv sv' : SV} {h h' : Heap}
    (ha : returned (.codeRef s args sig rt) a.ret a.mem = .ok (some sv, h))
    (hb : returned (.codeRef s args sig rt) b.ret b.mem = .ok (some sv', h')) :
    sv = sv' ↔ SameValue (.codeRef s args sig rt) a b := by
  obtain ⟨x, hx, hsx⟩ := Exec.map_eq_ok.mp ha
  obtain ⟨y, hy, hsy⟩ := Exec.map_eq_ok.mp hb
  cases hsx
  cases hsy
  rw [ptr2sv_codeRef hx, ptr2sv_codeRef hy]
  simp only [SameValue]
  by_cases hp : a.ret.dcCallPointer = 0 <;> by_cases hp' : b.ret.dcCallPointer = 0
  · simp [hp, hp']
  · simp [hp, hp', Ne.symm hp']
  · simp [hp, hp']
  · simp [hp, hp', pointerFiction]

/-- **Any scalar result** but `WChar`: the scalars of two calls are the same exactly when
the calls returned the same C value. -/
theorem returned_iff {type : TypeObj} (ht : ScalarResult type) (hw : replacesCell type = false)
    {a b : CallOf} {sv sv' : SV} {h h' : Heap}
    (ha : returned type a.ret a.mem = .ok (some sv, h))
    (hb : returned type b.ret b.mem = .ok (some sv', h')) : sv = sv' ↔ SameValue type a b := by
  cases type with
  | scalar k sl =>
    have hk : k ≠ .WChar := by
      rintro rfl
      cases hw
    exact returned_scalar_iff hk ha hb
  | pointer s subtype => exact returned_pointer_iff ha hb
  | codeRef s args sig rt => exact returned_codeRef_iff ha hb
  | struct s ts => exact absurd rfl ht.2.2
  | union s ts => cases ht.1

theorem flag_of_returned_none {type : TypeObj} {r : Returned} {m m' : Heap}
    (h : returned type r m = .ok (none, m')) : type.flag = .void := by
  cases type with
  | scalar k s =>
    cases k <;> first
    | rfl
    | cases h
    | (obtain ⟨_, _, hnone⟩ := Exec.map_eq_ok.mp h; cases hnone)
  | pointer s t => obtain ⟨_, _, hnone⟩ := Exec.map_eq_ok.mp h; cases hnone
  | codeRef s as sig rt => obtain ⟨_, _, hnone⟩ := Exec.map_eq_ok.mp h; cases hnone
  | struct s ts => obtain ⟨_, _, hnone⟩ := Exec.map_eq_ok.mp h; cases hnone
  | union s ts => cases h

/-- A call of a wrapper with a scalar result, taken apart: what the return switch made of
the C function's result went to the cell the caller was handed. -/
theorem callStep_cases {inMemory : DCaggr → Bool} {f : Fiction} {type : TypeObj}
    (hf : f.restype = some type) (ht : ScalarResult type) {st st' : Interp} {a : CallOf}
    (h : CallStep inMemory f st a st') :
    ∃ sv m, returned type a.ret a.mem = .ok (some sv, m) ∧ st'.res = some a.cell ∧
      ((replacesCell type = false ∧ st.res = some a.cell ∧ st'.cells = st.cells.set a.cell sv) ∨
        (replacesCell type = true ∧ a.cell = st.cells.length ∧ st'.cells = st.cells ++ [sv])) := by
  obtain ⟨⟨s₁, hprep, hcall⟩, hrun⟩ := h
  obtain ⟨-, s₂, r, m, hprep', hcall', hswitch, hcell⟩ := (trigger_eq_ok hf).mp hrun
  cases hprep.symm.trans hprep'
  cases hcall.symm.trans hcall'
  obtain ⟨hcells, hres⟩ := sameScalars_prepare hprep
  obtain ⟨o, m', ho, hput⟩ := returnSwitch_eq_ok.mp hswitch
  cases o with
  | none => exact absurd (flag_of_returned_none ho) ht.2.1
  | some sv =>
    refine ⟨sv, m', ho, hcell.symm, ?_⟩
    cases hrep : replacesCell type with
    | false =>
      cases hc : s₁.res with
      | none => simp [putResult, hrep, setCell, hc] at hput
      | some c =>
        have hput' := hput.symm.trans (putResult_overwrites hrep hc)
        cases hput'
        have hsame : a.cell = c := Option.some.inj (hcell.trans hc)
        refine Or.inl ⟨rfl, ?_, ?_⟩
        · rw [← hres, hc, hsame]
        · rw [hsame, ← hcells]
    | true =>
      simp only [putResult, hrep, if_true, newCell] at hput
      cases hput
      have hsame : a.cell = s₁.cells.length := Option.some.inj hcell
      exact Or.inr ⟨rfl, by rw [hsame, hcells], by rw [hcells]⟩

section Runs

variable {inMemory : DCaggr → Bool} {f : Fiction} {type : TypeObj} {run : List (CallOf × Interp)}

/-- **Runs of a wrapper that overwrites its cell**: every call hands out that cell, and in
the end it holds what the last call returned. -/
theorem run_overwrites (hf : f.restype = some type) (ht : ScalarResult type)
    (hrep : replacesCell type = false) {st : Interp} {c : ℕ} (hres : st.res = some c)
    (hc : c < st.cells.length) (hrun : IsRun (CallStep inMemory f) st run) :
    (∀ p ∈ run, p.1.cell = c ∧ ∃ sv m, returned type p.1.ret p.1.mem = .ok (some sv, m)) ∧
      ∀ q ∈ run.getLast?, ∃ sv m, returned type q.1.ret q.1.mem = .ok (some sv, m) ∧
        (finalState st run).cells[c]? = some sv := by
  induction run generalizing st with
  | nil =>
    refine ⟨fun p hp => ?_, fun q hq => ?_⟩
    · cases hp
    · cases hq
  | cons p run ih =>
    obtain ⟨a, st'⟩ := p
    obtain ⟨hstep, hrest⟩ := hrun
    obtain ⟨sv, m, hsv, hres', ⟨-, hres₀, hcells⟩ | ⟨hrep', -, -⟩⟩ := callStep_cases hf ht hstep
    · have hcell : a.cell = c := Option.some.inj (hres₀.symm.trans hres)
      rw [hcell] at hres' hcells
      have hc' : c < st'.cells.length := by rw [hcells, List.length_set]; exact hc
      obtain ⟨hall, hlast⟩ := ih hres' hc' hrest
      refine ⟨?_, ?_⟩
      · intro p hp
        rcases List.mem_cons.mp hp with rfl | hp
        · exact ⟨hcell, sv, m, hsv⟩
        · exact hall p hp
      · intro q hq
        cases run with
        | nil =>
          cases hq
          refine ⟨sv, m, hsv, ?_⟩
          show st'.cells[c]? = some sv
          rw [hcells, List.getElem?_set_self hc]
        | cons p' run' => exact hlast q hq
    · rw [hrep] at hrep'
      cases hrep'

/-- **Runs of a wrapper that makes a new cell**: no later call touches a cell that was
handed out. -/
theorem run_appends (hf : f.restype = some type) (ht : ScalarResult type)
    (hrep : replacesCell type = true) {st : Interp} (hrun : IsRun (CallStep inMemory f) st run) :
    (∀ i < st.cells.length, (finalState st run).cells[i]? = st.cells[i]?) ∧
      ∀ p ∈ run, StillHolds type (finalState st run) p.1 := by
  induction run generalizing st with
  | nil => exact ⟨fun i _ => rfl, fun p hp => by cases hp⟩
  | cons p run ih =>
    obtain ⟨a, st'⟩ := p
    obtain ⟨hstep, hrest⟩ := hrun
    obtain ⟨sv, m, hsv, -, ⟨hrep', -, -⟩ | ⟨-, hcell, hcells⟩⟩ := callStep_cases hf ht hstep
    · rw [hrep] at hrep'
      cases hrep'
    · obtain ⟨hframe, hall⟩ := ih hrest
      have hlen : st'.cells.length = st.cells.length + 1 := by
        rw [hcells, List.length_append, List.length_singleton]
      refine ⟨?_, ?_⟩
      · intro i hi
        have hkeep := hframe i (by omega)
        rw [hcells, List.getElem?_append_left hi] at hkeep
        exact hkeep
      · intro p hp
        rcases List.mem_cons.mp hp with rfl | hp
        · refine ⟨sv, m, hsv, ?_⟩
          show (finalState st' run).cells[a.cell]? = some sv
          rw [hframe a.cell (by omega), hcells, hcell, List.getElem?_concat_length]
        · exact hall p hp

/-- The wrapper `affix` makes for a scalar result type has a cell. -/
theorem wrapped_hasCell (ht : ScalarResult type) (heap : Heap) (cells : List SV) :
    (Interp.wrapped heap cells (some type)).res = some cells.length ∧
      cells.length < (Interp.wrapped heap cells (some type)).cells.length := by
  have hcell : ∃ sv, resultCell (some type) = some sv := by
    cases type with
    | scalar k s => cases k <;> exact ⟨_, rfl⟩
    | struct s ts => exact absurd rfl ht.2.2
    | pointer s t => exact ⟨_, rfl⟩
    | codeRef s as sig rt => exact ⟨_, rfl⟩
    | union s ts => exact ⟨_, rfl⟩
  obtain ⟨sv, hsv⟩ := hcell
  simp [Interp.wrapped, hsv]

/-- **Kept results are independent exactly when the result type is `WChar` or every call
returned the same C value as the last one.** -/
theorem results_hold_iff (hf : f.restype = some type) (ht : ScalarResult type) {st : Interp}
    {c : ℕ} (hres : st.res = some c) (hc : c < st.cells.length)
    (hrun : IsRun (CallStep inMemory f) st run) :
    (∀ p ∈ run, StillHolds type (finalState st run) p.1) ↔
      type.flag = .wchar ∨ ∀ p ∈ run, ∀ q ∈ run.getLast?, SameValue type p.1 q.1 := by
  have hwchar : type.flag = .wchar ↔ replacesCell type = true := by
    cases type with
    | scalar k s => cases k <;> simp [TypeObj.flag, Kind.flag, replacesCell]
    | struct s ts => exact absurd rfl ht.2.2
    | pointer | codeRef | union => simp [TypeObj.flag, replacesCell]
  rw [hwchar]
  cases hrep : replacesCell type with
  | true => exact iff_of_true (run_appends hf ht hrep hrun).2 (Or.inl rfl)
  | false =>
    obtain ⟨hall, hlast⟩ := run_overwrites hf ht hrep hres hc hrun
    have hstill : ∀ p ∈ run, StillHolds type (finalState st run) p.1 ↔
        ∀ q ∈ run.getLast?, SameValue type p.1 q.1 := by
      intro p hp
      obtain ⟨hcell, sv, m, hsv⟩ := hall p hp
      cases hq : run.getLast? with
      | none =>
        rw [List.getLast?_eq_none_iff] at hq
        rw [hq] at hp
        cases hp
      | some q =>
        obtain ⟨sv', m', hsv', hget⟩ := hlast q hq
        simp only [Option.mem_some_iff, forall_eq']
        rw [← returned_iff ht hrep hsv hsv']
        constructor
        · rintro ⟨sv₁, m₁, hsv₁, hget₁⟩
          cases hsv.symm.trans hsv₁
          rw [hcell] at hget₁
          exact Option.some.inj (hget₁.symm.trans hget)
        · intro heq
          refine ⟨sv, m, hsv, ?_⟩
          rw [hcell, heq]
          exact hget
    simp only [Bool.false_eq_true, false_or]
    exact forall₂_congr hstill

end Runs

/-- `int fn()`, with the values it returns one after another. -/
def intFn : Fiction := wrapper none 1 [] (some []) (some (scalarType .Int))

def intCall (v : ℤ) : CallOf := ⟨fun _ h => .ok (⟨v, 0, 0, []⟩, h), [], ⟨v, 0, 0, []⟩, .empty, 0⟩

def afterInt (v : ℤ) : Interp := ⟨.empty, ⟨false, []⟩, [.val (.newSViv (cint.wrap v))], some 0⟩

def twoCalls (v w : ℤ) : List (CallOf × Interp) :=
  [(intCall v, afterInt v), (intCall w, afterInt w)]

theorem isRun_twoCalls (v w : ℤ) : IsRun (CallStep (fun _ => false) intFn)
    (.wrapped .empty [] (some (scalarType .Int))) (twoCalls v w) := by
  have hcall : ∀ (u : ℤ) (sv : SV), CallStep (fun _ => false) intFn
      ⟨.empty, ⟨false, []⟩, [sv], some 0⟩ (intCall u) (afterInt u) := by
    intro u sv
    exact ⟨⟨⟨.empty, ⟨false, []⟩, [sv], some 0⟩, rfl, rfl⟩, rfl⟩
  exact ⟨hcall v _, hcall w _, trivial⟩

theorem results_hold_twoCalls :
    (∀ p ∈ twoCalls 5 5, StillHolds (scalarType .Int)
        (finalState (.wrapped .empty [] (some (scalarType .Int))) (twoCalls 5 5)) p.1) ↔
      (scalarType .Int).flag = .wchar ∨
        ∀ p ∈ twoCalls 5 5, ∀ q ∈ (twoCalls 5 5).getLast?, SameValue (scalarType .Int) p.1 q.1 :=
  results_hold_iff (f := intFn) (c := 0) rfl ⟨rfl, by decide, by decide⟩ rfl (by decide)
    (isRun_twoCalls 5 5)

/-- The result `1` of a first call reads `2` after a second. -/
theorem results_overwritten :
    IsRun (CallStep (fun _ => false) intFn) (.wrapped .empty [] (some (scalarType .Int)))
      (twoCalls 1 2) ∧
    ¬ ∀ p ∈ twoCalls 1 2, StillHolds (scalarType .Int)
      (finalState (.wrapped .empty [] (some (scalarType .Int))) (twoCalls 1 2)) p.1 := by
  refine ⟨isRun_twoCalls 1 2, fun h => ?_⟩
  obtain ⟨sv, m, hsv, hget⟩ := h (intCall 1, afterInt 1) List.mem_cons_self
  cases hsv
  have hnum := congrArg (Option.map svSlot) hget
  revert hnum
  decide

end Affix.Analysis
