import Affix.Analysis.PointerForm
import Affix.Model.Trigger

/-!
# Pointer objects as arguments

A parameter `Pointer[T]` is marshalled by the branch of `sv2ptr` for `T`, and each
branch looks for pointer objects itself, or does not look. Two branches do, those
of `Void` and of a pointer to a type that is no pointer, and only for objects in
array form. To every other branch an object is an array like any other, a string
or a mistake: the C function gets a new block, or `NULL`, or is not called.
-/

set_option autoImplicit false

namespace Affix.Analysis

open Affix.Foundation Affix.Model

inductive Form where
  | array
  | scalar

/-- The value is a pointer object of the given form that holds the address. -/
inductive PointerObject : Form → ℕ → SV → Prop
  | array {a : ℕ} {r : RefInfo} {rest : List SV} (hr : r.isa.contains "Affix::Pointer" = true) :
      PointerObject .array a (.aref r (addrSlot a :: rest))
  | scalar {a : ℕ} {r : RefInfo} (ha : 0 < a) (hr : r.isa.contains "Affix::Pointer" = true) :
      PointerObject .scalar a (.sref r (.val (.newSViv a)))

/-- `malloc`, `sv2ptr`, `ptr2sv` and wrapped functions make objects in array form. -/
theorem ptr2obj_pointerObject (type : TypeObj) (a : ℕ) :
    PointerObject .array a (ptr2obj type a) :=
  .array (by decide)

/-- The argument for a parameter `Pointer[T]` is exactly the address. -/
def PassesAddress (h : Heap) (s : Slots) (T : TypeObj) (p : SV) (a : ℕ) : Prop :=
  ∃ h', argument (.pointer s T) p h = .ok (some (dcArgPointer a), h')

/-- The types for which an object of a form is recognised. A structure or a union takes any
object for `NULL`. -/
def Recognised (form : Form) (T : TypeObj) (a : ℕ) : Prop :=
  match form with
  | .scalar => False
  | .array =>
    match T with
    | .scalar .Void _ => True
    | .pointer _ U => U.isPointer = false
    | .struct .. | .union .. => a = 0
    | _ => False

/-- The allocator will not give the address out: it has passed it, or never gets there. -/
def Settled (h : Heap) (a : ℕ) : Prop := a < h.mem.brk ∨ addrLimit ≤ a

/-! ## What a pointer object looks like to a branch -/

/-- A reference to something that is no number, no hash and no undefined value. -/
structure LooksLikeObject (p : SV) : Prop where
  ok : p.SvOK = true
  notIOK : p.SvIOK = false
  notNOK : p.SvNOK = false
  noEntries : p.entries = none

theorem PointerObject.looks {form : Form} {a : ℕ} {p : SV} (h : PointerObject form a p) :
    LooksLikeObject p := by
  cases h <;> exact ⟨rfl, rfl, rfl, rfl⟩

theorem PointerObject.asPointerObject_array {a : ℕ} {p : SV} (h : PointerObject .array a p) :
    ∃ rest, asPointerObject p = some (addrSlot a :: rest) := by
  cases h with
  | @array _ r rest hr =>
    refine ⟨rest, ?_⟩
    simp only [asPointerObject, SV.derivedFrom, hr, if_true, SV.elems]

theorem PointerObject.asPointerObject_scalar {a : ℕ} {p : SV} (h : PointerObject .scalar a p) :
    asPointerObject p = none := by
  cases h with
  | scalar ha hr => simp only [asPointerObject, SV.elems, ite_self]

/-! ## New addresses -/

/-- The address comes from the allocator and had not been given out. -/
def Fresh (h : Heap) (q : ℕ) : Prop := h.mem.brk ≤ q ∧ q < addrLimit

theorem fresh_Newxz {count size q : ℕ} {h h' : Heap} (hrun : Newxz count size h = .ok (q, h')) :
    Fresh h q ∧ h.mem.brk ≤ h'.mem.brk := by
  obtain ⟨m, hc, rfl⟩ := Newxz_eq_ok.mp hrun
  obtain ⟨hq, hlim, -, -, hext, -⟩ := Mem.calloc_cases hc
  exact ⟨⟨hq.ge, hlim⟩, hext.brk_le⟩

theorem fresh_safemalloc {n q : ℕ} {h h' : Heap} (hrun : safemalloc n h = .ok (q, h')) :
    Fresh h q := by
  obtain ⟨m, hc, rfl⟩ := safemalloc_eq_ok.mp hrun
  obtain ⟨hq, hlim, -⟩ := Mem.malloc_cases hc
  exact ⟨hq.ge, hlim⟩

/-- The shape of most branches: a block is made, filled and given back. -/
theorem fresh_filled {count size q : ℕ} {fill : ℕ → Eff Unit} {h h' : Heap}
    (hrun : (do
      let ret ← orNew 0 (Newxz count size)
      fill ret
      pure ret) h = .ok (q, h')) : Fresh h q := by
  obtain ⟨ret, h₁, hnew, hrest⟩ := Exec.bind_eq_ok.mp hrun
  obtain ⟨u, h₂, -, hret⟩ := Exec.bind_eq_ok.mp hrest
  cases hret
  exact (fresh_Newxz hnew).1

section Branches

variable {p : SV} {q : ℕ} {h h' : Heap}

theorem fresh_sv2ptrInt (hp : LooksLikeObject p) {c : CIntType} {read : SV → ℤ} {s : Slots}
    (hrun : sv2ptrInt c read s p 0 h = .ok (q, h')) : Fresh h q := by
  simp only [sv2ptrInt, hp.ok, hp.notIOK, if_true, Bool.false_eq_true, if_false] at hrun
  cases hes : p.elems with
  | none =>
    rw [hes] at hrun
    cases hrun
  | some es =>
    rw [hes] at hrun
    exact fresh_filled hrun

theorem fresh_sv2ptrFloat (hp : LooksLikeObject p) {size : ℕ} {image : ℕ → ℕ} {s : Slots}
    (hrun : sv2ptrFloat size image s p 0 h = .ok (q, h')) : Fresh h q := by
  simp only [sv2ptrFloat, hp.ok, hp.notIOK, hp.notNOK, if_true, Bool.or_self, Bool.false_eq_true,
    if_false] at hrun
  cases hes : p.elems with
  | none =>
    rw [hes] at hrun
    cases hrun
  | some es =>
    rw [hes] at hrun
    exact fresh_filled hrun

theorem fresh_sv2ptrBool (hrun : sv2ptrBool p 0 h = .ok (q, h')) : Fresh h q := by
  unfold sv2ptrBool at hrun
  cases hes : p.elems with
  | none =>
    rw [hes] at hrun
    exact fresh_filled hrun
  | some es =>
    rw [hes] at hrun
    exact fresh_filled hrun

theorem fresh_sv2ptrChar (hp : LooksLikeObject p) {c : CIntType} {read : SV → ℤ} {count : ℕ → ℕ}
    {wide : CIntType} (hrun : sv2ptrChar c read count wide p 0 h = .ok (q, h')) : Fresh h q := by
  simp only [sv2ptrChar, hp.ok, if_true] at hrun
  cases hes : p.elems with
  | none =>
    rw [hes] at hrun
    exact fresh_filled hrun
  | some es =>
    rw [hes] at hrun
    exact fresh_filled hrun

/-- The branch of `Void` copies the string of an object it does not recognise. -/
theorem fresh_sv2ptrVoid (hp : LooksLikeObject p) (hnot : asPointerObject p = none)
    (hrun : sv2ptrVoid p 0 h = .ok (q, h')) : Fresh h q := by
  simp only [sv2ptrVoid, hp.ok, if_true, hnot] at hrun
  obtain ⟨bs, h₁, hbs, hrest⟩ := Exec.bind_eq_ok.mp hrun
  obtain ⟨-, rfl⟩ := Exec.lift_eq_ok.mp hbs
  exact fresh_filled hrest

/-- The branch of `WChar` reads at the `NULL` it was given. -/
theorem sv2ptrWChar_null : sv2ptrWChar p 0 h ≠ .ok (q, h') := by
  intro hrun
  obtain ⟨h₁, h₂, -, hrest⟩ := Exec.bind_eq_ok.mp hrun
  obtain ⟨bs, h₃, hload, -⟩ := Exec.bind_eq_ok.mp hrest
  obtain ⟨hread, -⟩ := Exec.lift_eq_ok.mp hload
  simp only [load, Mem.read] at hread
  split at hread
  · rename_i hin
    have hblock : h₁.mem.InBlock 0 16 := by
      by_contra hno
      simp [hno] at hin
    exact absurd hblock.pos (lt_irrefl 0)
  · cases hread

theorem fresh_sv2ptrSV (hrun : sv2ptrSV p h = .ok (q, h')) : Fresh h q := by
  obtain ⟨ret, h₁, hnew, hrest⟩ := Exec.bind_eq_ok.mp hrun
  obtain ⟨h₂, h₃, -, hset⟩ := Exec.bind_eq_ok.mp hrest
  obtain ⟨u, h₄, -, hret⟩ := Exec.bind_eq_ok.mp hset
  cases hret
  exact fresh_safemalloc hnew

theorem fresh_sv2ptrCodeRef (hp : LooksLikeObject p) {args : Option (List TypeObj)}
    {sig : List Flag} {r : TypeObj} (hrun : sv2ptrCodeRef args sig r p h = .ok (q, h')) :
    Fresh h q := by
  simp only [sv2ptrCodeRef, hp.ok, if_true] at hrun
  obtain ⟨q₁, h₁, hnew₁, hrest⟩ := Exec.bind_eq_ok.mp hrun
  obtain ⟨q₂, h₂, hnew₂, hrest⟩ := Exec.bind_eq_ok.mp hrest
  obtain ⟨ret, h₃, hnew, hrest⟩ := Exec.bind_eq_ok.mp hrest
  obtain ⟨u₀, h₀, -, hrest⟩ := Exec.bind_eq_ok.mp hrest
  obtain ⟨h₄, h₅, -, hset⟩ := Exec.bind_eq_ok.mp hrest
  obtain ⟨u, h₆, -, hret⟩ := Exec.bind_eq_ok.mp hset
  cases hret
  obtain ⟨hlo, hhi⟩ := fresh_safemalloc hnew
  have hle₁ := (fresh_Newxz hnew₁).2
  have hle₂ := (fresh_Newxz hnew₂).2
  exact ⟨by omega, hhi⟩

/-- **The scalar branches**: but for `Void` at an object it recognises, the address is new. -/
theorem fresh_sv2ptrScalar (hp : LooksLikeObject p) {k : Kind} {s : Slots}
    (hvoid : k = .Void → asPointerObject p = none)
    (hrun : sv2ptrScalar k s p 0 h = .ok (q, h')) : Fresh h q := by
  cases k <;> simp only [sv2ptrScalar, sv2ptrCharSChar, sv2ptrUChar, sv2ptrShort, sv2ptrUShort,
    sv2ptrInt', sv2ptrUInt, sv2ptrLong, sv2ptrULong, sv2ptrLongLong, sv2ptrULongLong] at hrun
  case Void => exact fresh_sv2ptrVoid hp (hvoid rfl) hrun
  case Bool => exact fresh_sv2ptrBool hrun
  case Char | SChar | UChar => exact fresh_sv2ptrChar hp hrun
  case WChar => exact absurd hrun sv2ptrWChar_null
  case Float | Double => exact fresh_sv2ptrFloat hp hrun
  case SV => exact fresh_sv2ptrSV hrun
  all_goals exact fresh_sv2ptrInt hp hrun

theorem sv2ptr_of_ok (hp : LooksLikeObject p) :
    (!p.SvOK && p.SvREADONLY) = false := by
  rw [hp.ok]
  rfl

/-- An aggregate takes an object for `NULL`. -/
theorem sv2ptr_aggregate (hp : LooksLikeObject p) {T : TypeObj}
    (hT : (∃ s ts, T = .struct s ts) ∨ ∃ s ts, T = .union s ts) :
    sv2ptr T p 0 h = .ok (0, h) := by
  obtain ⟨s, ts, rfl⟩ | ⟨s, ts, rfl⟩ := hT <;>
    simp only [sv2ptr, sv2ptr_of_ok hp, Bool.false_eq_true, if_false, asHash, hp.noEntries] <;> rfl

/-- **The types that are no pointers**: the address is new, or the type is an aggregate. -/
theorem fresh_sv2ptr (hp : LooksLikeObject p) {T : TypeObj} (hT : T.isPointer = false)
    (hvoid : (∃ s, T = .scalar .Void s) → asPointerObject p = none)
    (hrun : sv2ptr T p 0 h = .ok (q, h')) :
    Fresh h q ∨ q = 0 ∧ ((∃ s ts, T = .struct s ts) ∨ ∃ s ts, T = .union s ts) := by
  cases T with
  | scalar k s =>
    left
    simp only [sv2ptr, sv2ptr_of_ok hp, Bool.false_eq_true, if_false] at hrun
    exact fresh_sv2ptrScalar hp (fun hk => hvoid ⟨s, by rw [hk]⟩) hrun
  | pointer s U => cases hT
  | codeRef s args sig r =>
    left
    simp only [sv2ptr, sv2ptr_of_ok hp, Bool.false_eq_true, if_false] at hrun
    exact fresh_sv2ptrCodeRef hp hrun
  | struct s ts =>
    right
    cases (sv2ptr_aggregate hp (Or.inl ⟨s, ts, rfl⟩)).symm.trans hrun
    exact ⟨rfl, Or.inl ⟨s, ts, rfl⟩⟩
  | union s ts =>
    right
    cases (sv2ptr_aggregate hp (Or.inr ⟨s, ts, rfl⟩)).symm.trans hrun
    exact ⟨rfl, Or.inr ⟨s, ts, rfl⟩⟩

theorem fresh_sv2ptr_pointers (hp : LooksLikeObject p) {s : Slots} {U : TypeObj}
    (hU : U.isPointer = true) (hrun : sv2ptr (.pointer s U) p 0 h = .ok (q, h')) : Fresh h q := by
  simp only [sv2ptr, hp.ok, Bool.not_true, Bool.false_and, Bool.false_eq_true, if_false, hU,
    if_true] at hrun
  cases hes : p.elems with
  | none =>
    simp only [hes] at hrun
    obtain ⟨ret, h₁, hnew, hrest⟩ := Exec.bind_eq_ok.mp hrun
    obtain ⟨i, h₂, -, hrest⟩ := Exec.bind_eq_ok.mp hrest
    obtain ⟨u, h₃, -, hret⟩ := Exec.bind_eq_ok.mp hrest
    cases hret
    exact (fresh_Newxz hnew).1
  | some es =>
    simp only [hes] at hrun
    exact fresh_filled hrun

end Branches

theorem dcArgPointer_inj {a b : ℕ} (ha : a < 2 ^ 64) (hb : b < 2 ^ 64)
    (h : dcArgPointer a = dcArgPointer b) : a = b := by
  have hwrap : clonglong.wrap (a : ℤ) = clonglong.wrap (b : ℤ) := DCArg.int.inj h
  have heq : culong.wrap (a : ℤ) = culong.wrap (b : ℤ) :=
    CIntType.wrap_eq_wrap_of_bits (t := clonglong) (u := culong) rfl hwrap
  rw [wrap_addr ha, wrap_addr hb] at heq
  exact Int.ofNat.inj heq

theorem passesAddress_iff {h : Heap} {s : Slots} {T : TypeObj} {p : SV} {a : ℕ} :
    PassesAddress h s T p a ↔
      ∃ q h', sv2ptr T p 0 h = .ok (q, h') ∧ dcArgPointer q = dcArgPointer a := by
  simp only [PassesAddress, argument, Exec.map_eq_ok, Function.comp_apply, Option.some.injEq]
  exact ⟨fun ⟨h', q, hq⟩ => ⟨q, h', hq⟩, fun ⟨q, h', hq⟩ => ⟨h', q, hq⟩⟩

section Objects

variable {form : Form} {a : ℕ} {p : SV} {T : TypeObj} {h h' : Heap} {q : ℕ}

/-- **Where an object is recognised** its address is the result. -/
theorem sv2ptr_recognised (hp : PointerObject form a p) (ha : a < 2 ^ 64)
    (hrec : Recognised form T a) (h : Heap) : sv2ptr T p 0 h = .ok (a, h) := by
  have hlooks := hp.looks
  cases form with
  | scalar => cases hrec
  | array =>
    obtain ⟨rest, hobj⟩ := hp.asPointerObject_array
    have hslot : (addrSlot a).SvOK = false ∧ a = 0 ∨
        (addrSlot a).SvOK = true ∧ addressOf (addrSlot a) = .ok a := by
      by_cases h0 : a = 0
      · left
        rw [h0]
        exact ⟨rfl, rfl⟩
      · exact Or.inr (addressOf_addrSlot (Nat.pos_of_ne_zero h0) ha)
    cases T with
    | scalar k s =>
      cases k <;> simp only [Recognised] at hrec
      simp only [sv2ptr, hlooks.ok, Bool.not_true, Bool.false_and, Bool.false_eq_true, if_false,
        sv2ptrScalar, sv2ptrVoid, if_true, hobj, pointerAddr]
      rcases hslot with ⟨hok, rfl⟩ | ⟨hok, haddr⟩
      · simp only [Exec.bind_of_ok (Exec.lift_ok_apply _ _), hok]
        rfl
      · simp only [Exec.bind_of_ok (Exec.lift_ok_apply _ _), hok, haddr]
        rfl
    | pointer s U =>
      have hU : U.isPointer = false := hrec
      simp only [sv2ptr, hlooks.ok, Bool.not_true, Bool.false_and, Bool.false_eq_true, if_false,
        hU, hobj, pointerAddr]
      rcases hslot with ⟨hok, rfl⟩ | ⟨hok, haddr⟩
      · simp only [Exec.bind_of_ok (Exec.lift_ok_apply _ _), hok]
        rfl
      · simp only [Exec.bind_of_ok (Exec.lift_ok_apply _ _), hok, haddr]
        rfl
    | codeRef s args sig r => cases hrec
    | struct s ts =>
      have h0 : a = 0 := hrec
      rw [h0]
      exact sv2ptr_aggregate hlooks (Or.inl ⟨s, ts, rfl⟩)
    | union s ts =>
      have h0 : a = 0 := hrec
      rw [h0]
      exact sv2ptr_aggregate hlooks (Or.inr ⟨s, ts, rfl⟩)

/-- **Where an object is not recognised** the result is a new address, or `NULL` for an object
that does not hold `NULL`. -/
theorem sv2ptr_unrecognised (hp : PointerObject form a p) (hrec : ¬ Recognised form T a)
    (hrun : sv2ptr T p 0 h = .ok (q, h')) : Fresh h q ∨ q = 0 ∧ a ≠ 0 := by
  have hlooks := hp.looks
  cases form with
  | array =>
    by_cases hT : T.isPointer = true
    · cases T with
      | pointer s U =>
        left
        cases hU : U.isPointer with
        | true => exact fresh_sv2ptr_pointers hlooks hU hrun
        | false => exact absurd hU hrec
      | _ => cases hT
    · have hnot : T.isPointer = false := Bool.eq_false_iff.mpr hT
      have hvoid : (∃ s, T = .scalar .Void s) → asPointerObject p = none := by
        rintro ⟨s, rfl⟩
        exact absurd trivial hrec
      rcases fresh_sv2ptr hlooks hnot hvoid hrun with hq | ⟨hq, hagg⟩
      · exact Or.inl hq
      · refine Or.inr ⟨hq, fun h0 => hrec ?_⟩
        obtain ⟨s, ts, rfl⟩ | ⟨s, ts, rfl⟩ := hagg <;> exact h0
  | scalar =>
    have hnone := hp.asPointerObject_scalar
    have hpos : a ≠ 0 := by
      cases hp with
      | scalar ha hr => omega
    by_cases hT : T.isPointer = true
    · cases T with
      | pointer s U =>
        cases hU : U.isPointer with
        | true => exact Or.inl (fresh_sv2ptr_pointers hlooks hU hrun)
        | false =>
          -- the object is handed on to the branch of the type pointed to
          simp only [sv2ptr, sv2ptr_of_ok hlooks, Bool.false_eq_true,
            if_false, hU, hnone] at hrun
          rcases fresh_sv2ptr hlooks hU (fun _ => hnone) hrun with hq | ⟨hq, -⟩
          · exact Or.inl hq
          · exact Or.inr ⟨hq, hpos⟩
      | _ => cases hT
    · have hnot : T.isPointer = false := Bool.eq_false_iff.mpr hT
      rcases fresh_sv2ptr hlooks hnot (fun _ => hnone) hrun with hq | ⟨hq, -⟩
      · exact Or.inl hq
      · exact Or.inr ⟨hq, hpos⟩

/-- **A pointer object passes its address exactly where it is recognised.** -/
theorem passesAddress_iff_recognised (hp : PointerObject form a p) (ha : a < 2 ^ 64)
    (s : Slots) (T : TypeObj) (h : Heap) :
    (Recognised form T a → PassesAddress h s T p a) ∧
      (Settled h a → PassesAddress h s T p a → Recognised form T a) := by
  constructor
  · intro hrec
    exact passesAddress_iff.mpr ⟨a, h, sv2ptr_recognised hp ha hrec h, rfl⟩
  · intro hsettled hpass
    obtain ⟨q, h', hrun, harg⟩ := passesAddress_iff.mp hpass
    by_contra hrec
    rcases sv2ptr_unrecognised hp hrec hrun with ⟨hlo, hhi⟩ | ⟨rfl, hne⟩
    · have hlim : addrLimit < 2 ^ 64 := by decide
      have heq : q = a := dcArgPointer_inj (by omega) ha harg
      unfold Settled at hsettled
      omega
    · exact hne (dcArgPointer_inj (by omega) ha harg).symm

end Objects

/-- An object `malloc` returned, given for `Pointer[Void]`. -/
theorem passesAddress_malloc_void :
    (Recognised .array (scalarType .Void) 4096 →
      PassesAddress malloced.heap (.fresh [] 8 8 1) (scalarType .Void) (_Void 4096 16) 4096) ∧
    (Settled malloced.heap 4096 →
      PassesAddress malloced.heap (.fresh [] 8 8 1) (scalarType .Void) (_Void 4096 16) 4096 →
        Recognised .array (scalarType .Void) 4096) :=
  passesAddress_iff_recognised (ptr2obj_pointerObject _ _) (by norm_num) _ _ _

/-- The same object, given for `Pointer[Int]`, is taken for an array of four integers. -/
theorem passesAddress_malloc_int :
    ¬ PassesAddress malloced.heap (.fresh [] 8 8 1) (scalarType .Int) (_Void 4096 16) 4096 := by
  intro hpass
  obtain ⟨q, h', hrun, harg⟩ := passesAddress_iff.mp hpass
  rcases sv2ptr_unrecognised (ptr2obj_pointerObject _ _) id hrun with ⟨hlo, hhi⟩ | ⟨rfl, -⟩
  · have hlim : addrLimit < 2 ^ 64 := by decide
    have hbrk : malloced.heap.mem.brk = 4120 := rfl
    have heq : q = 4096 := dcArgPointer_inj (by omega) (by norm_num) harg
    omega
  · exact absurd (dcArgPointer_inj (by norm_num) (by norm_num) harg) (by norm_num)

end Affix.Analysis
