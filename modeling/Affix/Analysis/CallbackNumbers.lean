import Affix.Analysis.IntegerRoundTrip
import Affix.Model.Callback

/-!
# Integers through a callback

C calls a Perl sub through a thunk with one value for each parameter of the
`CodeRef`, and gets the sub's result back. The result switch writes the member of
the type it names, and every integer of the result type survives. The argument
switch takes the signed reader of three unsigned types: `UChar`, `UShort` and
`UInt` values with the top bit set reach the sub sign-extended.
-/

set_option autoImplicit false

namespace Affix.Analysis

open Affix.Foundation Affix.Model Affix.Interface

/-- An argument a C caller passes: its declared type, the word it travels in, and its value. -/
structure CArgument where
  kind : Kind
  word : ℤ
  value : ℤ

/-- The word carries a value of the declared type. -/
def CArgument.Carried (a : CArgument) : Prop :=
  (a.kind = .Bool ∧ cint.wrap a.word = a.value ∧ (a.value = 0 ∨ a.value = 1)) ∨
    ∃ t, cInt a.kind = some t ∧ t.wrap a.word = a.value

/-- The signature character of a C type, and so the member of a `DCValue` with that type. -/
def cSigchar : Kind → DCsigchar
  | .Bool => .bool
  | .Char | .SChar => .char
  | .UChar => .uchar
  | .Short => .short
  | .UShort => .ushort
  | .Int => .int
  | .UInt => .uint
  | .Long => .long
  | .ULong => .ulong
  | .LongLong => .longlong
  | .ULongLong | .Size_t => .ulonglong
  | .Void | .WChar | .SV => .void
  | .Float => .float
  | .Double => .double

/-- The integers of a result type: `Bool` has two. -/
def ResultRange (k : Kind) (r : ℤ) : Prop :=
  (k = .Bool ∧ (r = 0 ∨ r = 1)) ∨ ∃ t, cInt k = some t ∧ t.InRange r

/-- The handler calls the sub with these values: whatever the sub does with them, that is
what the handler goes on with. -/
def CalledWith (cb : Callback) (args : List DCbArg) (svs : List SV) : Prop :=
  ∀ (sub : Sub) (h : Heap), cbHandlerXXXXX cb sub args h =
    (do
      let sv ← sub svs
      let (ret, result) ← cbReturn cb.restype sv
      pure (ret, some result) : Eff (DCsigchar × Option DCValue)) h

/-- A callback is exact on a tuple of C values: the sub gets their numbers in order, and an
integer of the result type it returns reaches C in the member its character names. -/
structure ExactCallback (cb : Callback) (k : Kind) (as : List CArgument) : Prop where
  called : ∃ svs, CalledWith cb (as.map fun a => .word a.word) svs ∧
    svs.map svSlot = as.map CArgument.value
  returned : ∀ (sub : Sub) (h h' : Heap) (r : ℤ) (hr : -2 ^ 63 ≤ r ∧ r < 2 ^ 64),
    ResultRange k r → (∀ svs, sub svs h = .ok (.int r hr, h')) →
      cbHandlerXXXXX cb sub (as.map fun a => .word a.word) h =
        .ok ((cSigchar k, some (.int (cSigchar k) r)), h')

/-- The number the sub gets for a C value. -/
def pushed (k : Kind) (v : ℤ) : ℤ :=
  match k with
  | .UChar => cchar.wrap v
  | .UShort => culong.wrap (cshort.wrap v)
  | .UInt => culong.wrap (cint.wrap v)
  | _ => v

/-- The C values that reach the sub as they are: the lower half of the unsigned types
narrower than a slot, and all of every other type. -/
def Widens (k : Kind) (v : ℤ) : Prop :=
  (k = .UChar → v < 2 ^ 7) ∧ (k = .UShort → v < 2 ^ 15) ∧ (k = .UInt → v < 2 ^ 31)

instance (k : Kind) (v : ℤ) : Decidable (Widens k v) := inferInstanceAs (Decidable (_ ∧ _))

/-- The value a carried argument has is one of its type. -/
theorem CArgument.Carried.inRange {a : CArgument} (ha : a.Carried) {t : CIntType}
    (ht : cInt a.kind = some t) : t.InRange a.value := by
  rcases ha with ⟨hb, -, -⟩ | ⟨u, hu, hv⟩
  · rw [hb] at ht
    cases ht
  · cases hu.symm.trans ht
    rw [← hv]
    exact t.wrap_inRange a.word

/-- What is pushed is the value itself exactly for the values that widen. -/
theorem pushed_eq_self_iff {a : CArgument} (ha : a.Carried) :
    pushed a.kind a.value = a.value ↔ Widens a.kind a.value := by
  have hrange := fun t => ha.inRange (t := t)
  generalize a.kind = k at hrange
  cases k <;> simp only [pushed, Widens, reduceCtorEq, false_imp_iff, true_imp_iff, and_true,
    true_and]
  case UChar => exact CIntType.signed_eq_self_iff (n := 7) (hrange cuchar rfl)
  case UShort =>
    exact CIntType.sign_extend_eq_self_iff (n := 15) (m := 64) (by decide) (hrange cushort rfl)
  case UInt =>
    exact CIntType.sign_extend_eq_self_iff (n := 31) (m := 64) (by decide) (hrange cuint rfl)

/-- A narrower reading of a word sees what the declared type sees. -/
theorem wrap_clonglong {t : CIntType} (ht : t.bits ≤ 64) (w : ℤ) :
    t.wrap (clonglong.wrap w) = t.wrap w := CIntType.wrap_wrap_of_le ht w

/-- A signed reading of a word is a signed reading of its unsigned value. -/
theorem signed_of_unsigned {n : ℕ} (w : ℤ) : (⟨n, true⟩ : CIntType).wrap w =
    (⟨n, true⟩ : CIntType).wrap ((⟨n, false⟩ : CIntType).wrap w) :=
  (CIntType.wrap_wrap_of_le (t := ⟨n, true⟩) (u := ⟨n, false⟩) le_rfl w).symm

/-- **One argument**: the number the switch pushes for a carried value. -/
theorem cbArgument_number {a : CArgument} (ha : a.Carried) (type : Option TypeObj) :
    ∃ sv, (∀ h, cbArgument a.kind.flag type (.word a.word) h = .ok (sv, h)) ∧
      svSlot sv = pushed a.kind a.value := by
  obtain ⟨k, w, v⟩ := a
  rcases ha with ⟨rfl, hw, hv⟩ | ⟨t, ht, hw⟩
  · refine ⟨_, fun _ => rfl, ?_⟩
    have hbool : DCbArg.dcbArgBool (.word w) = decide (v ≠ 0) := by
      simp only [DCbArg.dcbArgBool, DCbArg.dcbArgInt, DCbArg.dcbArgLongLong,
        wrap_clonglong (t := cint) (by decide), hw]
    rw [hbool]
    rcases hv with rfl | rfl <;> rfl
  · dsimp only at ht hw
    cases k <;> simp only [cInt, Option.some.injEq, reduceCtorEq] at ht <;> subst ht <;>
      refine ⟨_, fun _ => rfl, ?_⟩ <;>
      simp only [charSV, svSlot_dual, svSlot_newSViv, svSlot_newSVuv, DCbArg.dcbArgChar,
        DCbArg.dcbArgShort, DCbArg.dcbArgInt, DCbArg.dcbArgLong, DCbArg.dcbArgLongLong, pushed]
    case Char | SChar =>
      rw [wrap_clonglong (t := cchar) (by decide), CIntType.Fits.wrap_wrap (by decide), hw]
    case UChar =>
      rw [wrap_clonglong (t := cchar) (by decide), CIntType.Fits.wrap_wrap (by decide), ← hw]
      exact signed_of_unsigned (n := 8) w
    case Short =>
      rw [wrap_clonglong (t := cshort) (by decide), CIntType.Fits.wrap_wrap (by decide), hw]
    case UShort =>
      rw [wrap_clonglong (t := cshort) (by decide), ← hw]
      exact congrArg culong.wrap (signed_of_unsigned (n := 16) w)
    case Int =>
      rw [wrap_clonglong (t := cint) (by decide), CIntType.Fits.wrap_wrap (by decide), hw]
    case UInt =>
      rw [wrap_clonglong (t := cint) (by decide), ← hw]
      exact congrArg culong.wrap (signed_of_unsigned (n := 32) w)
    case Long =>
      rw [wrap_clonglong (t := clong) (by decide), CIntType.wrap_wrap_of_le le_rfl, hw]
    case ULong =>
      rw [wrap_clonglong (t := clong) (by decide)]
      exact (CIntType.wrap_wrap_of_le (t := culong) (u := clong) le_rfl w).trans hw
    case LongLong => exact (wrap_clonglong (t := clong) (by decide) w).trans hw
    all_goals exact (wrap_clonglong (t := culong) (by decide) w).trans hw

/-- The flag of a type with numbers is never skipped. -/
theorem CArgument.Carried.flag_ne_void {a : CArgument} (ha : a.Carried) : a.kind.flag ≠ .void := by
  rcases ha with ⟨hb, -, -⟩ | ⟨t, ht, -⟩
  · rw [hb]
    decide
  · cases hk : a.kind <;> rw [hk] at ht <;> first | decide | cases ht

/-- **The argument loop**: one number for each argument, in order. -/
theorem cbArguments_numbers {as : List CArgument} (has : ∀ a ∈ as, a.Carried)
    (types : List (Option TypeObj)) :
    ∃ svs, (∀ h, cbArguments (as.map fun a => a.kind.flag) types (as.map fun a => .word a.word) h =
      .ok (svs, h)) ∧ svs.map svSlot = as.map fun a => pushed a.kind a.value := by
  induction as generalizing types with
  | nil => exact ⟨[], fun _ => rfl, rfl⟩
  | cons a as ih =>
    obtain ⟨ha, has⟩ := List.forall_mem_cons.mp has
    obtain ⟨sv, hsv, hnum⟩ := cbArgument_number ha types.head?.join
    obtain ⟨svs, hsvs, hnums⟩ := ih has types.tail
    refine ⟨sv :: svs, fun h => ?_, by simp [hnum, hnums]⟩
    simp only [List.map_cons, cbArguments_cons ha.flag_ne_void, Exec.bind_of_ok (hsv h),
      Exec.bind_of_ok (hsvs h), Exec.pure_apply]

/-- **The result switch**: an integer of the result type is stored in the member of that
type, under the character that names it. -/
theorem cbReturn_int {k : Kind} {r : ℤ} (hr : ResultRange k r) (sl : Slots)
    (hslot : -2 ^ 63 ≤ r ∧ r < 2 ^ 64) :
    cbReturn (.scalar k sl) (.int r hslot) = pure (cSigchar k, .int (cSigchar k) r) := by
  rcases hr with ⟨rfl, rfl | rfl⟩ | ⟨t, ht, hin⟩
  · rfl
  · rfl
  · have hIV : t.wrap (SvIV (.int r hslot)) = r := by
      rw [SvIV, svSlot_int, CIntType.wrap_wrap_of_le (bits_le_of_cInt ht),
        CIntType.wrap_of_inRange hin]
    have hUV : t.wrap (SvUV (.int r hslot)) = r := by
      rw [SvUV, svSlot_int, CIntType.wrap_wrap_of_le (bits_le_of_cInt ht),
        CIntType.wrap_of_inRange hin]
    cases k <;> simp only [cInt, Option.some.injEq, reduceCtorEq] at ht <;> subst ht <;>
      simp only [cbReturn, TypeObj.flag, Kind.flag, cSigchar, SvIOK_int, if_true, DCValue.c,
        DCValue.C, DCValue.s, DCValue.S, DCValue.i, DCValue.I, DCValue.j, DCValue.J, DCValue.l,
        DCValue.L, hIV, hUV]

section Callback

variable {cb : Callback} {k : Kind} {sl : Slots} {as : List CArgument}

/-- The handler calls the sub with the pushed numbers. -/
theorem calledWith_pushed (hsig : cb.signature = as.map fun a => a.kind.flag)
    (hret : cb.restype = .scalar k sl) (hk : k.flag ≠ .void) (has : ∀ a ∈ as, a.Carried) :
    ∃ svs, CalledWith cb (as.map fun a => .word a.word) svs ∧
      svs.map svSlot = as.map fun a => pushed a.kind a.value := by
  obtain ⟨svs, hsvs, hnums⟩ := cbArguments_numbers has ((cb.argtypes.getD []).map some)
  refine ⟨svs, fun sub h => ?_, hnums⟩
  have hvoid : cb.restype.flag ≠ .void := by rw [hret]; exact hk
  rw [← hsig] at hsvs
  simp only [cbHandlerXXXXX, Exec.bind_of_ok (hsvs h), if_neg hvoid]

/-- The values a sub is called with are determined: a sub can tell any others apart. -/
theorem CalledWith.unique {args : List DCbArg} {svs svs' : List SV}
    (h : CalledWith cb args svs) (h' : CalledWith cb args svs') : svs = svs' := by
  classical
  by_contra hne
  let sub : Sub := fun xs => if xs = svs then Exec.fail .fault else Exec.fail .outOfMemory
  have heq := (h sub .empty).symm.trans (h' sub .empty)
  simp only [sub, if_true, if_neg (Ne.symm hne)] at heq
  rw [Exec.bind_of_error (Exec.fail_apply _ _), Exec.bind_of_error (Exec.fail_apply _ _)] at heq
  cases heq

/-- **A callback is exact on a tuple of C values exactly when every one of them widens**:
no `UChar`, `UShort` or `UInt` among them has its top bit set. -/
theorem exactCallback_iff_widens (hsig : cb.signature = as.map fun a => a.kind.flag)
    (hret : cb.restype = .scalar k sl) (hk : k = .Bool ∨ ∃ t, cInt k = some t)
    (has : ∀ a ∈ as, a.Carried) :
    ExactCallback cb k as ↔ ∀ a ∈ as, Widens a.kind a.value := by
  have hvoid : k.flag ≠ .void := by
    rcases hk with rfl | ⟨t, ht⟩
    · decide
    · cases k <;> first | decide | cases ht
  obtain ⟨svs, hcalled, hnums⟩ := calledWith_pushed hsig hret hvoid has
  have hwidens : svs.map svSlot = as.map CArgument.value ↔ ∀ a ∈ as, Widens a.kind a.value := by
    rw [hnums, List.map_inj_left]
    exact forall₂_congr fun a ha => pushed_eq_self_iff (has a ha)
  constructor
  · intro h
    obtain ⟨svs', hcalled', hvalues⟩ := h.called
    rw [hcalled'.unique hcalled] at hvalues
    exact hwidens.mp hvalues
  · intro h
    refine ⟨⟨svs, hcalled, hwidens.mpr h⟩, fun sub m m' r hslot hr hsub => ?_⟩
    rw [hcalled sub m, Exec.bind_of_ok (hsub svs), hret, cbReturn_int hr sl hslot]
    rfl

/-- Marshalling a sub at a `CodeRef` type registers a callback with its signature. -/
theorem sv2ptr_codeRef_registers {ts : List TypeObj} {ret : TypeObj} {code : SV}
    (hcode : code.SvOK = true) {h h' : Heap} {p : ℕ}
    (hrun : sv2ptr (CodeRef ts ret) code 0 h = .ok (p, h')) :
    h'.callbacks.lookup p = some ⟨ts.map TypeObj.flag, some ts, ret, code⟩ := by
  simp only [CodeRef, sv2ptr, hcode, Bool.not_true, Bool.false_and, Bool.false_eq_true, if_false,
    sv2ptrCodeRef, if_true] at hrun
  obtain ⟨_, h₁, -, hrun⟩ := Exec.bind_eq_ok.mp hrun
  obtain ⟨_, h₂, -, hrun⟩ := Exec.bind_eq_ok.mp hrun
  obtain ⟨q, h₃, -, hrun⟩ := Exec.bind_eq_ok.mp hrun
  obtain ⟨_, h₀, -, hrun⟩ := Exec.bind_eq_ok.mp hrun
  obtain ⟨m, h₄, hget, hrun⟩ := Exec.bind_eq_ok.mp hrun
  obtain ⟨_, h₅, hset, hrun⟩ := Exec.bind_eq_ok.mp hrun
  cases hset
  cases hrun
  exact List.lookup_cons_self

end Callback

/-- `CodeRef[ [ UInt, Bool ] => ULong ]`. SOURCE: t/239_types_callback.t:160-238 -/
def uintBoolToULong : Callback :=
  ⟨[.uint, .bool], some [scalarType .UInt, scalarType .Bool], scalarType .ULong, .undef false⟩

/-- A `UInt` and a true `Bool` as C passes them. -/
def uintAndTrue (v : ℤ) : List CArgument := [⟨.UInt, v, v⟩, ⟨.Bool, 1, 1⟩]

theorem carried_uintAndTrue {v : ℤ} (hv : cuint.InRange v) : ∀ a ∈ uintAndTrue v, a.Carried := by
  intro a ha
  simp only [uintAndTrue, List.mem_cons, List.not_mem_nil, or_false] at ha
  rcases ha with rfl | rfl
  · exact Or.inr ⟨cuint, rfl, CIntType.wrap_of_inRange hv⟩
  · exact Or.inl ⟨rfl, by decide, Or.inr rfl⟩

/-- A small `UInt` and a `Bool` reach the sub. -/
theorem exactCallback_small : ExactCallback uintBoolToULong .ULong (uintAndTrue 60000) ↔
    ∀ a ∈ uintAndTrue 60000, Widens a.kind a.value :=
  exactCallback_iff_widens rfl rfl (Or.inr ⟨culong, rfl⟩) (carried_uintAndTrue (by decide))

/-- A `UInt` with its top bit set does not: the sub gets `18446744071562067968` for
`2147483648`. -/
theorem exactCallback_fails_uint :
    ¬ ExactCallback uintBoolToULong .ULong (uintAndTrue (2 ^ 31)) := by
  intro h
  obtain ⟨svs, hcalled, hnums⟩ := @calledWith_pushed uintBoolToULong .ULong _ _ rfl rfl
    (by decide) (carried_uintAndTrue (v := 2 ^ 31) (by decide))
  obtain ⟨svs', hcalled', hvalues⟩ := h.called
  rw [hcalled'.unique hcalled, hnums] at hvalues
  revert hvalues
  decide

end Affix.Analysis
