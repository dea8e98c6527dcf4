import Affix.Analysis.PointerForm
import Affix.Analysis.RecordDecoding

/-!
# An array through memory and back

`sv2ptr` stores the elements of a list one after another, as many as the list
has; `ptr2sv` loads as many as the type says. Each element comes back as a record
field of its type does. What does not come back is the list around a single
element: an array type of length one is told from a pointer by nothing, and is
read as one.

SOURCE: marshal.cxx:89-281, marshal.cxx:573-622, Type.pm:208-237
-/

set_option autoImplicit false

namespace Affix.Analysis

open Affix.Foundation Affix.Model Affix.Interface

/-- The list comes back as a reference to a list of the same values in order. -/
def ArrayRoundTrips (type : TypeObj) (k : Kind) (l : List SV) (h : Heap) : Prop :=
  ∃ obj h₁ r es h₂, Affix_sv2ptr type (.aref (.new []) l) h = .ok (obj, h₁) ∧
    Affix_Pointer_sv obj h₁ = .ok (.aref r es, h₂) ∧ List.Forall₂ (SameScalar k) l es

/-- What a list comes back as: one of a single element as the element, any other as a reference
to a list of the same values in order. -/
def ComesBackAs (k : Kind) : List SV → SV → Prop
  | [v], w => SameScalar k v w
  | l, w => ∃ r es, w = .aref r es ∧ List.Forall₂ (SameScalar k) l es

/-- The list comes back. -/
def ArrayComesBack (type : TypeObj) (k : Kind) (l : List SV) (h : Heap) : Prop :=
  ∃ obj h₁ w h₂, Affix_sv2ptr type (.aref (.new []) l) h = .ok (obj, h₁) ∧
    Affix_Pointer_sv obj h₁ = .ok (w, h₂) ∧ ComesBackAs k l w

theorem comesBackAs_aref {k : Kind} {l : List SV} (hone : l.length ≠ 1) {r : RefInfo}
    {es : List SV} (hsame : List.Forall₂ (SameScalar k) l es) : ComesBackAs k l (.aref r es) := by
  rcases l with _ | ⟨v, _ | ⟨v', l⟩⟩
  · exact ⟨r, es, rfl, hsame⟩
  · exact absurd rfl hone
  · exact ⟨r, es, rfl, hsame⟩

/-- The types an element of such an array may have: a truth value or a number. -/
def ElementKind (k : Kind) : Prop :=
  reading k = some .truth ∨ ∃ c, reading k = some (.number c)

/-! ## The loops -/

/-- **The encoding loop** lays the images of the elements over memory, one after another. -/
theorem storeEach_stores {stride : ℕ} {f : SV → List UInt8} (hf : ∀ e, (f e).length = stride)
    (l : List SV) : ∀ {a : ℕ} {h : Heap}, h.mem.InBlock a (l.length * stride) →
      ∃ h', storeEach stride f a l h = .ok ((), h') ∧
        h.mem.Extends h'.mem (Outside a (a + l.length * stride)) ∧
        h'.mem.peek a (l.length * stride) = l.flatMap f := by
  induction l with
  | nil =>
    intro a h _
    refine ⟨h, rfl, Mem.Extends.refl _ _, ?_⟩
    rw [List.length_nil, Nat.zero_mul]
    rfl
  | cons e l ih =>
    intro a h hin
    have hlen : (e :: l).length * stride = stride + l.length * stride := by
      rw [List.length_cons, Nat.succ_mul, Nat.add_comm]
    rw [hlen] at hin ⊢
    have hfirst : h.mem.InBlock a (f e).length := hin.mono (le_refl a) (by rw [hf]; omega)
    have hstore : store a (f e) h = .ok ((), { h with mem := h.mem.poke a (f e) }) :=
      store_eq_ok.mpr ⟨Or.inr hfirst, rfl⟩
    have hpoke := Mem.extends_poke h.mem a (f e)
    rw [hf] at hpoke
    have hrest : (h.mem.poke a (f e)).InBlock (a + stride) (l.length * stride) :=
      hpoke.inBlock (hin.mono (by omega) (by omega))
    obtain ⟨h', hrun, hext, hpeek⟩ := ih (h := { h with mem := h.mem.poke a (f e) }) hrest
    refine ⟨h', ?_, ?_, ?_⟩
    · rw [storeEach]
      exact (Exec.bind_of_ok hstore).trans hrun
    · refine (hpoke.trans hext).weaken fun x _ hx => ?_
      unfold Outside at hx ⊢
      omega
    · -- the rest of the loop leaves the first image alone
      have hkept : h'.mem.peek a stride = (h.mem.poke a (f e)).peek a stride :=
        hext.peek (hpoke.inBlock (hin.mono (le_refl a) (by omega)))
          fun x _ hx => Or.inl hx
      have himage : (h.mem.poke a (f e)).peek a stride = f e := by
        rw [← hf e]
        exact Mem.peek_poke_same _ _ _
      rw [Mem.peek_append, hkept, himage, hpeek, List.flatMap_cons]

/-- An element that is read is a plain scalar. -/
theorem ptr2sv_val {k : Kind} (hk : ElementKind k) {s : Slots} {a : ℕ} {h h' : Heap} {w : SV}
    (ha : a ≠ 0) (hrun : ptr2sv (.scalar k s) a h = .ok (w, h')) : ∃ x, w = .val x := by
  simp only [ptr2sv, ha, if_false] at hrun
  rcases hk with hk | ⟨c, hk⟩
  · rw [reading_truth hk] at hrun
    obtain ⟨bs, h₁, -, hrest⟩ := Exec.bind_eq_ok.mp hrun
    cases hrest
    exact ⟨_, rfl⟩
  · obtain ⟨-, -, -, new, hnew, -⟩ := ptr2svScalar_number hk
    rw [hnew] at hrun
    obtain ⟨bs, h₁, -, hrest⟩ := Exec.bind_eq_ok.mp hrun
    cases hrest
    exact ⟨_, rfl⟩

/-- An element reads the same, unless it is a large unsigned number. -/
theorem ptr2sv_element {k : Kind} (hk : ElementKind k) {v : SV} (hv : ScalarValue k v) (s : Slots)
    {a : ℕ} {h : Heap} (hin : h.mem.InBlock a k.sizeof) (hst : h.mem.peek a k.sizeof = image k v) :
    ∃ w, ptr2sv (.scalar k s) a h = .ok (w, h) ∧
      (SameScalar k v w ↔ ((k = .ULong ∨ k = .ULongLong) → svSlot v < 2 ^ 63)) := by
  obtain ⟨w, hread, hsame⟩ := ptr2svField_scalar hv s hin hst
  refine ⟨w, ?_, hsame⟩
  rcases hk with hk | ⟨c, hk⟩
  · rw [reading_truth hk] at hread ⊢
    exact hread
  · rw [(ptr2svScalar_number hk).2.2.1] at hread
    exact hread

theorem length_image {k : Kind} (hk : ElementKind k) (v : SV) : (image k v).length = k.sizeof := by
  rcases hk with hk | ⟨c, hk⟩
  · rw [image, hk, reading_truth hk]
    rfl
  · rw [image, hk, ← (sv2ptrScalar_number hk).1]
    exact CIntType.length_encode c _

/-- **The decoding loop**: the elements read the same exactly when no unsigned number among
them is large. -/
theorem ptr2svElems_reads {k : Kind} (hk : ElementKind k) (s : Slots) {h : Heap} :
    ∀ {l : List SV} {a : ℕ}, (∀ v ∈ l, ScalarValue k v) →
      h.mem.InBlock a (l.length * k.sizeof) →
      h.mem.peek a (l.length * k.sizeof) = l.flatMap (image k) →
      ∃ ws, ptr2svElems (fun p => ptr2sv (.scalar k s) p) k.sizeof l.length a h = .ok (ws, h) ∧
        (List.Forall₂ (SameScalar k) l ws ↔
          ∀ v ∈ l, (k = .ULong ∨ k = .ULongLong) → svSlot v < 2 ^ 63) := by
  intro l
  induction l with
  | nil =>
    intro a _ _ _
    exact ⟨[], rfl, iff_of_true .nil (by simp)⟩
  | cons v l ih =>
    intro a hvs hin hst
    obtain ⟨hv, hvs⟩ := List.forall_mem_cons.mp hvs
    have hlen : (v :: l).length * k.sizeof = k.sizeof + l.length * k.sizeof := by
      rw [List.length_cons, Nat.succ_mul, Nat.add_comm]
    rw [hlen] at hin hst
    rw [Mem.peek_append, List.flatMap_cons] at hst
    obtain ⟨hfirst, hrest⟩ := List.append_inj hst (by rw [Mem.length_peek, length_image hk])
    obtain ⟨w, hread, hsame⟩ :=
      ptr2sv_element hk hv s (hin.mono (le_refl a) (by omega)) hfirst
    obtain ⟨ws, hreads, hsames⟩ := ih (a := a + k.sizeof) hvs
      (hin.mono (by omega) (by omega)) hrest
    refine ⟨w :: ws, ?_, ?_⟩
    · rw [List.length_cons, ptr2svElems]
      exact (Exec.bind_of_ok hread).trans (Exec.bind_of_ok hreads)
    · rw [List.forall₂_cons, hsame, hsames, List.forall_mem_cons]

/-! ## The array -/

/-- The branch of an element type, given a list: the list is stored in new memory. -/
theorem sv2ptr_elements {k : Kind} (hk : ElementKind k) (s sl : Slots) (l : List SV) :
    sv2ptr (.pointer s (.scalar k sl)) (.aref (.new []) l) 0 = (do
      let ret ← orNew 0 (Newxz l.length k.sizeof)
      storeEach k.sizeof (image k) ret l
      pure ret) := by
  have hobj : asPointerObject (.aref (.new []) l) = none := rfl
  rcases hk with hk | ⟨c, hk⟩
  · have himage : image k = fun e => boolByte (SvTRUE e) := by
      funext e
      rw [image, hk]
    rw [himage, reading_truth hk, show Kind.Bool.sizeof = 1 from rfl]
    simp only [sv2ptr, SV.SvOK, Bool.not_true, Bool.false_and, Bool.false_eq_true, if_false,
      TypeObj.isPointer, hobj, sv2ptrScalar, sv2ptrBool, SV.elems]
  · obtain ⟨hsize, read, hread, hrun⟩ := sv2ptrScalar_number hk
    have himage : image k = fun e => c.encode (read e) := by
      funext e
      rw [image, hk]
      exact (CIntType.encode_congr (hread e)).symm
    rw [himage, ← hsize]
    simp only [sv2ptr, SV.SvOK, Bool.not_true, Bool.false_and, Bool.false_eq_true, if_false,
      TypeObj.isPointer, hobj, hrun, sv2ptrInt, SV.SvIOK, if_true, SV.elems]

theorem sv2ptr_array {k : Kind} (hk : ElementKind k) (s sl : Slots) (l : List SV) (h : Heap) :
    Exec.Ends (· = .outOfMemory) (sv2ptr (.pointer s (.scalar k sl)) (.aref (.new []) l) 0) h
      fun p h' => p < addrLimit ∧ h'.mem.InBlock p (l.length * k.sizeof) ∧
        h'.mem.peek p (l.length * k.sizeof) = l.flatMap (image k) := by
  rw [sv2ptr_elements hk]
  refine (ends_Newxz rfl h).bind fun p h₁ hnew => ?_
  obtain ⟨-, hlim, hblock, -, -, -⟩ := hnew
  have hin := hblock.mono le_rfl (Nat.add_le_add_left (le_bytes l.length k.sizeof) p)
  obtain ⟨h₂, hrun, hext, hpeek⟩ := storeEach_stores (length_image hk) l hin
  exact Exec.ends_of_ok (Exec.bind_of_ok hrun) ⟨hlim, hext.inBlock hin, hpeek⟩

/-- The object made for an address decodes from that address. -/
theorem Affix_Pointer_sv_ptr2obj (type : TypeObj) {p : ℕ} (h0 : 0 < p) (hp : p < addrLimit)
    (h : Heap) : Affix_Pointer_sv (ptr2obj type p) h = ptr2sv type p h := by
  have hlt : p < 2 ^ 64 := hp.trans (by unfold addrLimit; norm_num)
  have hobj : (ptr2obj type p).derivedFrom "Affix::Pointer" = true := by
    show List.contains ["Affix::Pointer::Unmanaged", "Affix::Pointer"] "Affix::Pointer" = true
    decide
  have haddr : arrayAddress (ptr2obj type p) = .ok (some p) :=
    arrayAddress_of_arrayForm ⟨_, type, _, _, rfl⟩ hobj h0 hlt
  have hzero : SvIV (.val (.newSViv 0)) = 0 := by decide
  have hsame : (culong.wrap ((p : ℤ) + type.sizeof * 0)).toNat = p := by
    rw [mul_zero, add_zero, wrap_addr hlt, Int.toNat_natCast]
  have hrun : Affix_Pointer_sv (ptr2obj type p) h =
      ptr2sv type (culong.wrap ((p : ℤ) + type.sizeof * SvIV (.val (.newSViv 0)))).toNat h := by
    simp only [Affix_Pointer_sv, haddr, Exec.bind_of_ok (Exec.lift_ok_apply _ _)]
    rfl
  rw [hrun, hzero, hsame]

/-- An element type takes the branch that is for no special type. -/
theorem ptr2sv_array {k : Kind} (hk : ElementKind k) (s sl : Slots) {p : ℕ} (h0 : p ≠ 0) :
    ptr2sv (.pointer s (.scalar k sl)) p =
      if s.arraylen = 1 then ptr2sv (.scalar k sl) p
      else (do
        let es ← ptr2svElems (fun p => ptr2sv (.scalar k sl) p) sl.sizeof s.arraylen p
        pure (.aref (.new []) es)) := by
  rcases hk with hk | ⟨c, hk⟩
  · rw [reading_truth hk]
    simp only [ptr2sv, h0, if_false, TypeObj.flag, Kind.flag]
    rfl
  · cases k <;> simp only [reading, Option.some.injEq, reduceCtorEq] at hk <;>
      (simp only [ptr2sv, h0, if_false, TypeObj.flag, Kind.flag]; rfl)

/-- The object that is made of a list decodes from the memory the list was stored in. -/
theorem array_decodes {k : Kind} (hk : ElementKind k) {l : List SV} {h : Heap}
    (hmem : Affix_sv2ptr (ArrayType (scalarType k) l.length) (.aref (.new []) l) h ≠
      .error .outOfMemory) :
    ∃ obj p h₁, Affix_sv2ptr (ArrayType (scalarType k) l.length) (.aref (.new []) l) h =
        .ok (obj, h₁) ∧
      h₁.mem.InBlock p (l.length * k.sizeof) ∧
      h₁.mem.peek p (l.length * k.sizeof) = l.flatMap (image k) ∧
      Affix_Pointer_sv obj h₁ = (if l.length = 1 then ptr2sv (scalarType k) p
        else (do
          let es ← ptr2svElems (fun p => ptr2sv (scalarType k) p) k.sizeof l.length p
          pure (.aref (.new []) es))) h₁ := by
  have hends : Exec.Ends (· = .outOfMemory)
      (Affix_sv2ptr (ArrayType (scalarType k) l.length) (.aref (.new []) l)) h
      fun obj h₁ => ∃ p, obj = ptr2obj (ArrayType (scalarType k) l.length) p ∧ p < addrLimit ∧
        h₁.mem.InBlock p (l.length * k.sizeof) ∧
        h₁.mem.peek p (l.length * k.sizeof) = l.flatMap (image k) :=
    (sv2ptr_array hk _ _ l h).bind fun p h₁ hp => Exec.ends_of_ok rfl ⟨p, rfl, hp⟩
  obtain ⟨obj, h₁, hwrite, p, rfl, hlim, hin, hst⟩ := hends.exists_ok fun e he => he ▸ hmem
  refine ⟨_, p, h₁, hwrite, hin, hst, ?_⟩
  rw [Affix_Pointer_sv_ptr2obj _ hin.pos hlim h₁]
  exact congrFun (ptr2sv_array hk _ _ hin.pos.ne') h₁

/-- A list of other than one element comes back as a list exactly when none of its unsigned
64-bit numbers is in the upper half of its range; one of one element never does. -/
theorem arrayRoundTrips_iff {k : Kind} (hk : ElementKind k) {l : List SV}
    (hl : ∀ v ∈ l, ScalarValue k v) {h : Heap}
    (hmem : Affix_sv2ptr (ArrayType (scalarType k) l.length) (.aref (.new []) l) h ≠
      .error .outOfMemory) :
    ArrayRoundTrips (ArrayType (scalarType k) l.length) k l h ↔
      l.length ≠ 1 ∧ ∀ v ∈ l, (k = .ULong ∨ k = .ULongLong) → svSlot v < 2 ^ 63 := by
  obtain ⟨obj, p, h₁, hwrite, hin, hst, hdecode⟩ := array_decodes hk hmem
  by_cases hone : l.length = 1
  · refine iff_of_false ?_ fun h => h.1 hone
    rintro ⟨obj', h₁', r, es, h₂, hwrite', hread, -⟩
    cases hwrite.symm.trans hwrite'
    rw [hdecode, if_pos hone] at hread
    obtain ⟨x, hx⟩ := ptr2sv_val hk hin.pos.ne' hread
    cases hx
  · obtain ⟨ws, hreads, hsame⟩ := ptr2svElems_reads hk (.fresh (text k.name) k.sizeof k.align 1)
      hl hin hst
    have hread : Affix_Pointer_sv obj h₁ = .ok (.aref (.new []) ws, h₁) := by
      rw [hdecode, if_neg hone]
      exact Exec.bind_of_ok hreads
    rw [and_iff_right hone, ← hsame]
    constructor
    · rintro ⟨obj', h₁', r, es, h₂, hwrite', hread', hes⟩
      cases hwrite.symm.trans hwrite'
      cases hread.symm.trans hread'
      exact hes
    · intro hes
      exact ⟨_, h₁, _, ws, h₁, hwrite, hread, hes⟩

/-- **An array comes back**: a list of one element as the element, any other as a list of the
same values in order. SOURCE: marshal.cxx:89-281, marshal.cxx:573-622 -/
theorem array_comesBack {k : Kind} (hk : ElementKind k) {l : List SV}
    (hl : ∀ v ∈ l, ScalarValue k v)
    (hsmall : ∀ v ∈ l, (k = .ULong ∨ k = .ULongLong) → svSlot v < 2 ^ 63) {h : Heap}
    (hmem : Affix_sv2ptr (ArrayType (scalarType k) l.length) (.aref (.new []) l) h ≠
      .error .outOfMemory) :
    ArrayComesBack (ArrayType (scalarType k) l.length) k l h := by
  by_cases hone : l.length = 1
  · obtain ⟨v, rfl⟩ := List.length_eq_one_iff.mp hone
    obtain ⟨obj, p, h₁, hwrite, hin, hst, hdecode⟩ := array_decodes hk hmem
    rw [List.length_singleton, Nat.one_mul] at hin hst
    rw [List.flatMap_singleton] at hst
    obtain ⟨w, hread, hsame⟩ := ptr2sv_element hk (hl v List.mem_cons_self) _ hin hst
    rw [if_pos hone, scalarType, hread] at hdecode
    exact ⟨obj, h₁, w, h₁, hwrite, hdecode, hsame.mpr (hsmall v List.mem_cons_self)⟩
  · obtain ⟨obj, h₁, r, es, h₂, hwrite, hread, hsame⟩ :=
      (arrayRoundTrips_iff hk hl hmem).mpr ⟨hone, hsmall⟩
    exact ⟨obj, h₁, _, h₂, hwrite, hread, comesBackAs_aref hone hsame⟩

/-- Three numbers of type `Short`. SOURCE: t/235_types_pointer.t:310-328 -/
def threeShorts : List SV := [.int 1 (by decide), .int (-2) (by decide), .int 300 (by decide)]

theorem array_comesBack_threeShorts :
    ArrayComesBack (ArrayType (scalarType .Short) 3) .Short threeShorts .empty :=
  array_comesBack (k := .Short) (l := threeShorts) (Or.inr ⟨cshort, rfl⟩)
    (List.forall_mem_cons.mpr ⟨⟨_, 1, rfl, rfl, by decide⟩,
      List.forall_mem_cons.mpr ⟨⟨_, -2, rfl, rfl, by decide⟩,
        List.forall_mem_cons.mpr ⟨⟨_, 300, rfl, rfl, by decide⟩, by simp⟩⟩⟩) (by decide) nofun

/-- An array of one element comes back as the element. -/
theorem arrayRoundTrips_not_one :
    ¬ ArrayRoundTrips (ArrayType (scalarType .Int) 1) .Int [.int 7 (by decide)] .empty := by
  rintro ⟨obj, h₁, r, es, h₂, hwrite, hread, -⟩
  cases hwrite
  cases hread

end Affix.Analysis
