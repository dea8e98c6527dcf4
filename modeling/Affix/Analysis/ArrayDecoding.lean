import Affix.Analysis.CopiedStructs

/-!
# Reading an array back within its copy

What `ptr2sv` reads of a copy is decided by the type, what there is by the value. Both
go through the type together: a number is loaded from its block, a string ends in its
block, a struct is where it was written, and the loop over an array of pointers gets to
the address that was stored for an element that has no copy. Reading makes wrappers of
functions, so a heap goes on while it is read.

SOURCE: marshal.cxx:328-370, marshal.cxx:573-622
-/

set_option autoImplicit false

namespace Affix.Analysis

open Affix.Foundation Affix.Model Affix.Interface

/-! ## The branches of a pointer -/

section Branches

variable {s : Slots} {subtype : TypeObj} {v : SV} {h h' hh : Heap} {q : ℕ}

/-- What the copy of a value is for a pointer to a type: nothing, a block with the addresses of
copies, the address in an object, or a copy for the type. -/
inductive PointerCopied (subtype : TypeObj) (v : SV) (h : Heap) (q : ℕ) (h' : Heap) : Prop
  | nothing (hnull : ExplicitUndef v ∨ subtype.isPointer = true ∧ v.SvOK = false) (hq : q = 0)
  | array (hsub : subtype.isPointer = true) (hok : v.SvOK = true) {m : Mem}
      (hm : h.mem.malloc (atLeastOne (pointees v).length * SIZEOF_INTPTR_T) = some (q, m))
      (hrun : storePointers (fun e => sv2ptr subtype e 0) q (pointees v)
        { h with
          mem := m.poke q
            (List.replicate (atLeastOne (pointees v).length * SIZEOF_INTPTR_T) 0) } =
          .ok ((), h'))
  | object (hsub : subtype.isPointer = false) {es : List SV} {ptr : SV}
      (hobj : asPointerObject v = some es) (hptr : pointerAddr es = .ok ptr)
      (hq : (if ptr.SvOK = true then addressOf ptr else .ok 0) = .ok q)
  | copy (hsub : subtype.isPointer = false) (hobj : asPointerObject v = none)
      (hrun : sv2ptr subtype v 0 h = .ok (q, h'))

/-- The branch of an object, that both a pointer and `VOID_FLAG` have. -/
theorem object_cases {es : List SV}
    (hrun : (do
      let ptr ← Exec.lift (pointerAddr es)
      if ptr.SvOK then Exec.lift (addressOf ptr) else pure 0 : Eff ℕ) h = .ok (q, h')) :
    ∃ ptr, pointerAddr es = .ok ptr ∧
      (if ptr.SvOK = true then addressOf ptr else .ok 0) = .ok q := by
  obtain ⟨ptr, h₁, hptr, hrest⟩ := Exec.bind_eq_ok.mp hrun
  refine ⟨ptr, (Exec.lift_eq_ok.mp hptr).1, ?_⟩
  cases hok : ptr.SvOK with
  | false =>
    rw [hok] at hrest
    cases hrest
    rfl
  | true =>
    rw [hok, if_pos rfl] at hrest
    exact (Exec.lift_eq_ok.mp hrest).1

theorem object_address {es : List SV} {ptr : SV} (hobj : asPointerObject v = some es)
    (hptr : pointerAddr es = .ok ptr)
    (hq : (if ptr.SvOK = true then addressOf ptr else .ok 0) = .ok q) :
    (q = 0 ↔ NullObject v) ∧ Readable v ∧
      (q ≠ 0 → HasAddress (fun ptr => ptr.SvOK = true ∧ addressOf ptr = .ok q) v) := by
  have hes : ∃ rest, es = ptr :: rest := by
    cases es with
    | nil => cases hptr
    | cons e rest =>
      cases hptr
      exact ⟨rest, rfl⟩
  obtain ⟨rest, rfl⟩ := hes
  cases hok : ptr.SvOK with
  | false =>
    rw [hok, if_neg Bool.false_ne_true] at hq
    cases hq
    refine ⟨iff_of_true rfl ⟨_, ptr, hobj, hptr, fun h => ?_⟩, fun es hsome => ?_, fun hne => ?_⟩
    · cases hok.symm.trans h
    · cases hobj.symm.trans hsome
      exact ⟨ptr, rest, rfl, fun h => by cases hok.symm.trans h⟩
    · exact absurd rfl hne
  | true =>
    rw [hok, if_pos rfl] at hq
    refine ⟨⟨?_, ?_⟩, fun es hsome => ?_, fun _ => ⟨_, ptr, hobj, hptr, hok, hq⟩⟩
    · rintro rfl
      exact ⟨_, ptr, hobj, hptr, fun _ => hq⟩
    · rintro ⟨es', ptr', hobj', hptr', hnull⟩
      cases hobj.symm.trans hobj'
      cases hptr.symm.trans hptr'
      cases hq.symm.trans (hnull hok)
      rfl
    · cases hobj.symm.trans hsome
      refine ⟨ptr, rest, rfl, fun _ => ?_⟩
      cases ptr <;> first | rfl | cases hq

theorem sv2ptr_pointer_cases (hrun : sv2ptr (.pointer s subtype) v 0 h = .ok (q, h')) :
    PointerCopied subtype v h q h' := by
  by_cases hexp : ExplicitUndef v
  · cases (sv2ptr_explicitUndef hexp _).symm.trans hrun
    exact .nothing (Or.inl hexp) rfl
  have hconst := not_explicitUndef hexp
  cases hsub : subtype.isPointer with
  | true =>
    cases hok : v.SvOK with
    | false =>
      rw [sv2ptr, hconst, if_neg Bool.false_ne_true, hsub, if_pos rfl, hok] at hrun
      cases hrun
      exact .nothing (Or.inr ⟨hsub, hok⟩) rfl
    | true =>
      rw [sv2ptr_pointers hsub hok] at hrun
      obtain ⟨p, m, hm, hrest⟩ := orNew_cases hrun
      obtain ⟨u, h₂, hstore, hpure⟩ := Exec.bind_eq_ok.mp hrest
      cases hpure
      exact .array hsub hok hm hstore
  | false =>
    simp only [sv2ptr, hconst, hsub, Bool.false_eq_true, if_false] at hrun
    cases hobj : asPointerObject v with
    | none =>
      rw [hobj] at hrun
      exact .copy hsub hobj hrun
    | some es =>
      rw [hobj] at hrun
      obtain ⟨ptr, hptr, hq⟩ := object_cases hrun
      exact .object hsub hobj hptr hq

theorem ptr2sv_null (t : TypeObj) : ptr2sv t 0 = pure (.undef false) := by
  cases t <;> rw [ptr2sv, if_pos rfl]

theorem ptr2sv_pointers (hq : q ≠ 0) (hsub : subtype.isPointer = true) :
    ptr2sv (.pointer s subtype) q = (do
      let h ← Exec.get
      let es ← ptr2svPointers (fun p => ptr2sv subtype p) h.mem.brk q
      pure (.aref (.new []) es)) := by
  cases subtype with
  | pointer s' subtype' => rw [ptr2sv, if_neg hq]; rfl
  | _ => cases hsub

/-- One value is read as one of the type. -/
theorem ptr2sv_one (hsub : subtype.isPointer = false)
    (hone : s.arraylen = 1 ∨ isCharacter subtype = true ∨ subtype.flag = .wchar) :
    ptr2sv (.pointer s subtype) q = ptr2sv subtype q := by
  by_cases hq : q = 0
  · rw [hq, ptr2sv_null, ptr2sv_null]
  rw [ptr2sv, if_neg hq]
  cases subtype with
  | pointer => cases hsub
  | scalar k s' =>
    cases k with
    | Char | SChar | UChar => rfl
    | WChar =>
      rw [ptr2sv, if_neg hq]
      rfl
    | _ =>
      have hlen : s.arraylen = 1 := hone.resolve_right (by rintro (h | h) <;> cases h)
      exact if_pos hlen
  | _ =>
    have hlen : s.arraylen = 1 := hone.resolve_right (by rintro (h | h) <;> cases h)
    exact if_pos hlen

/-- An array is read element by element. -/
theorem ptr2sv_elems (hq : q ≠ 0) (hsub : subtype.isPointer = false) (hlen : s.arraylen ≠ 1)
    (hchar : isCharacter subtype = false) (hwide : subtype.flag ≠ .wchar) :
    ptr2sv (.pointer s subtype) q = (do
      let es ← ptr2svElems (fun p => ptr2sv subtype p) subtype.sizeof s.arraylen q
      pure (.aref (.new []) es)) := by
  rw [ptr2sv, if_neg hq]
  cases subtype with
  | pointer => cases hsub
  | scalar k s' =>
    cases k with
    | Char | SChar | UChar => cases hchar
    | WChar => exact absurd rfl hwide
    | _ => exact if_neg hlen
  | _ => exact if_neg hlen

end Branches

/-! ## Code that stays in the blocks -/

/-- The heap came of another by allocation. -/
def Onward (h h' : Heap) : Prop := h.mem.Grows h'.mem (fun _ => True) ∧ h'.svs = h.svs

theorem Onward.refl (h : Heap) : Onward h h := ⟨Mem.Grows.refl _ _, rfl⟩

/-- The code does not leave the blocks, and does no more to the heap than allocate. -/
def StaysIn {α : Type} (x : Eff α) (hh : Heap) : Prop :=
  Exec.Ends (· ≠ .fault) x hh fun _ hh' => Onward hh hh'

section StaysIn

variable {α β : Type} {x : Eff α} {f : α → Eff β} {h h' hh hh' : Heap} {r : α}

theorem Onward.trans {hh'' : Heap} (ho : Onward hh hh') (ho' : Onward hh' hh'') :
    Onward hh hh'' :=
  ⟨ho.1.trans ho'.1 fun _ _ _ => trivial, ho'.2.trans ho.2⟩

theorem Later.onward (hl : Later h h' hh) (ho : Onward hh hh') : Later h h' hh' :=
  ⟨hl.mem.grows ho.1, fun p hlo hhi => (congrArg (List.lookup p) ho.2).trans (hl.svs p hlo hhi)⟩

theorem staysIn_of_ok (h : x hh = .ok (r, hh)) : StaysIn x hh := Exec.ends_of_ok h (Onward.refl hh)

theorem StaysIn.bind (hx : StaysIn x hh)
    (hf : ∀ r hh', Onward hh hh' → StaysIn (f r) hh') : StaysIn (x >>= f) hh :=
  Exec.Ends.bind hx fun r hh' ho => (hf r hh' ho).mono fun _ _ ho' => ho.trans ho'

theorem StaysIn.bind_of_ok (hx : x hh = .ok (r, hh)) (hf : StaysIn (f r) hh) :
    StaysIn (x >>= f) hh :=
  Exec.Ends.bind_of_ok hx hf

theorem staysIn_congr {y : Eff α} (h : x hh = y hh) (hy : StaysIn y hh) : StaysIn x hh := by
  unfold StaysIn Exec.Ends at hy ⊢
  rw [h]
  exact hy

theorem StaysIn.not_fault (hx : StaysIn x hh) : x hh ≠ .error .fault := by
  intro hfault
  unfold StaysIn Exec.Ends at hx
  rw [hfault] at hx
  exact hx rfl

theorem staysIn_Newxz (count size : ℕ) (hh : Heap) : StaysIn (Newxz count size) hh := by
  unfold StaysIn Exec.Ends
  cases hrun : Newxz count size hh with
  | error e =>
    unfold Newxz at hrun
    split at hrun <;> cases hrun
    exact Halt.noConfusion
  | ok r =>
    obtain ⟨p, h'⟩ := r
    have hp := (progress_Newxz (a := 0) hrun).1
    obtain ⟨m, -, rfl⟩ := Newxz_cases hrun
    exact ⟨hp.mem.weaken fun x _ _ => before_zero x, rfl⟩

/-- The wrapper of a function is allocated. -/
theorem staysIn_codeRef {args : Option (List TypeObj)} (hargs : args.isSome = true) (r : TypeObj)
    (p : ℕ) (hh : Heap) : StaysIn (ptr2svCodeRef args r p) hh := by
  cases args with
  | none => cases hargs
  | some ts =>
    refine (staysIn_Newxz 1 88 hh).bind fun _ hh₁ _ => ?_
    refine (staysIn_Newxz (ts.length * 2) 1 hh₁).bind fun _ hh₂ _ => ?_
    exact (staysIn_Newxz (ts.length + 1) 1 hh₂).bind fun _ hh₃ _ => staysIn_of_ok rfl

/-- The loop over an array stays in the blocks if the elements do. -/
theorem staysIn_elems {convert : ℕ → Eff SV} {stride : ℕ} (n : ℕ) {a : ℕ} {hh : Heap}
    (hconvert : ∀ i < n, ∀ hh', Onward hh hh' → StaysIn (convert (a + i * stride)) hh') :
    StaysIn (ptr2svElems convert stride n a) hh := by
  induction n generalizing a hh with
  | zero => exact staysIn_of_ok rfl
  | succ n ih =>
    have hfirst := hconvert 0 (Nat.succ_pos n) hh (Onward.refl hh)
    rw [Nat.zero_mul, Nat.add_zero] at hfirst
    refine hfirst.bind fun _ hh₁ ho => StaysIn.bind (ih fun i hi hh₂ ho' => ?_)
      fun _ _ _ => staysIn_of_ok rfl
    have hnext := hconvert (i + 1) (Nat.succ_lt_succ hi) hh₂ (ho.trans ho')
    rw [Nat.succ_mul, Nat.add_comm (i * stride), ← Nat.add_assoc] at hnext
    exact hnext

/-! ## Types that are decoded without a look -/

theorem ptr2svField_of_readsNothing {t : TypeObj} (hn : ReadsNothing t) (whole : ℕ → Eff SV)
    (p : ℕ) : ptr2svField whole t p = whole p := by
  cases t with
  | pointer => exact hn.elim
  | scalar k s =>
    have hk : k = .Void := hn
    subst hk
    rfl
  | _ => rfl

mutual

/-- **Nothing is read** at an address of such a type. -/
theorem staysIn_of_readsNothing : ∀ {t : TypeObj}, Proper t → ReadsNothing t →
    ∀ (p : ℕ) (hh : Heap), StaysIn (ptr2sv t p) hh
  | .scalar k s, _, hn, p, hh => by
    have hk : k = .Void := hn
    subst hk
    rw [ptr2sv]
    split <;> exact staysIn_of_ok rfl
  | .pointer .., _, hn, _, _ => hn.elim
  | .codeRef _ args _ r, _, hn, p, hh => by
    rw [ptr2sv]
    split
    · exact staysIn_of_ok rfl
    · exact staysIn_codeRef hn r p hh
  | .struct _ fields, hproper, hn, p, hh => by
    rw [ptr2sv]
    split
    · exact staysIn_of_ok rfl
    · exact (staysIn_fields hproper.2 hn p [] hh).bind fun _ _ _ => staysIn_of_ok rfl
  | .union _ fields, hproper, hn, p, hh => by
    rw [ptr2sv]
    split
    · exact staysIn_of_ok rfl
    · have hmembers : ∃ r, ptr2svMembers p [] fields hh = .ok (r, hh) := members_read hproper
        (fun m hm hptr => absurd hptr (by rw [hn m hm]; exact Bool.false_ne_true)) []
      obtain ⟨r, hrun⟩ := hmembers
      exact (staysIn_of_ok hrun).bind fun _ _ _ => staysIn_of_ok rfl

theorem staysIn_fields : ∀ {fields : List TypeObj}, Proper.allProper fields →
    ReadsNothing.allReadNothing fields → ∀ (p : ℕ) (acc : List (Text × SV)) (hh : Heap),
    StaysIn (ptr2svFields p acc fields) hh
  | [], _, _, _, _, _ => staysIn_of_ok rfl
  | field :: rest, hproper, hn, p, acc, hh => by
    obtain ⟨name, hname⟩ := Option.isSome_iff_exists.mp hproper.1.1
    simp only [ptr2svFields, hname]
    rw [ptr2svField_of_readsNothing hn.1]
    exact (staysIn_of_readsNothing hproper.1.2 hn.1 _ hh).bind fun _ hh₁ _ =>
      staysIn_fields hproper.2 hn.2 p _ hh₁

end

end StaysIn

/-! ## Copies of scalars -/

section Scalars

variable {k : Kind} {s : Slots} {v : SV} {h h' hh : Heap} {q : ℕ}

theorem sv2ptr_scalar_cases (hrun : sv2ptr (.scalar k s) v 0 h = .ok (q, h')) :
    ExplicitUndef v ∧ q = 0 ∨ ¬ ExplicitUndef v ∧ sv2ptrScalar k s v 0 h = .ok (q, h') := by
  by_cases hexp : ExplicitUndef v
  · cases (sv2ptr_explicitUndef hexp _).symm.trans hrun
    exact Or.inl ⟨hexp, rfl⟩
  · rw [sv2ptr, not_explicitUndef hexp, if_neg Bool.false_ne_true] at hrun
    exact Or.inr ⟨hexp, hrun⟩

/-- No copy of a wide string is made. -/
theorem no_wide_copy : sv2ptrScalar .WChar s v 0 h = .error .fault := by
  have hout : ¬ h.mem.InBlock 0 16 := fun hin => absurd hin.pos (lt_irrefl 0)
  refine (Exec.bind_of_ok (Exec.get_apply h)).trans ?_
  rw [load_outside (by decide) hout]
  exact Exec.bind_of_error (Exec.lift_error_apply _ h)

theorem wide_zero {t : TypeObj} (hwide : t.flag = .wchar)
    (hrun : sv2ptr t v 0 h = .ok (q, h')) : q = 0 := by
  cases t with
  | scalar k s =>
    have hk : k = .WChar := by cases k <;> first | rfl | cases hwide
    subst hk
    rcases sv2ptr_scalar_cases hrun with ⟨-, hzero⟩ | ⟨-, hbranch⟩
    · exact hzero
    · cases no_wide_copy.symm.trans hbranch
  | _ => cases hwide

/-- The kinds that are neither numbers nor characters. -/
theorem numeric_or (k : Kind) :
    Numeric k ∨ Character k ∨ k = .Void ∨ k = .WChar ∨ k = .SV := by
  unfold Numeric
  tauto

/-- What the copy for a pointer to nothing in particular is. -/
theorem copied_void (hrun : sv2ptrVoid v 0 h = .ok (q, h')) :
    (q = 0 ↔ v.SvOK = false ∨ NullObject v) ∧ Readable v := by
  have hundef : v.SvOK = false → asPointerObject v = none := by
    intro hok
    cases v <;> first | rfl | cases hok
  cases hok : v.SvOK with
  | false =>
    rw [sv2ptrVoid, hok, if_neg Bool.false_ne_true] at hrun
    cases hrun
    refine ⟨iff_of_true rfl (Or.inl rfl), fun es hobj => ?_⟩
    cases (hundef hok).symm.trans hobj
  | true =>
    rw [sv2ptrVoid, hok, if_pos rfl] at hrun
    cases hobj : asPointerObject v with
    | none =>
      rw [hobj] at hrun
      obtain ⟨bs, h₁, hbs, hrest⟩ := Exec.bind_eq_ok.mp hrun
      obtain ⟨p, m, hm, hwork⟩ := orNew_cases hrest
      obtain ⟨u, h₂, hstore, hpure⟩ := Exec.bind_eq_ok.mp hwork
      cases hpure
      have hne : q ≠ 0 := (Mem.malloc_eq_some hm).1 ▸ h₁.mem.brk_pos.ne'
      refine ⟨iff_of_false hne ?_, fun es hsome => ?_⟩
      · rintro (hno | ⟨es, ptr, hsome, -⟩)
        · cases hno
        · cases hobj.symm.trans hsome
      · cases hobj.symm.trans hsome
    | some es =>
      rw [hobj] at hrun
      obtain ⟨ptr, hptr, hq⟩ := object_cases hrun
      obtain ⟨hnull, hreadable, -⟩ := object_address hobj hptr hq
      refine ⟨hnull.trans ⟨Or.inr, ?_⟩, hreadable⟩
      rintro (hno | hobject)
      · cases hno
      · exact hobject

/-- Of an undefined value no copy is made, but of a truth value. -/
theorem scalar_undef (hok : v.SvOK = false) (hbool : k ≠ .Bool) (hwide : k ≠ .WChar)
    (hsv : k ≠ .SV) : sv2ptrScalar k s v 0 h = .ok (0, h) := by
  have hint : ∀ {c : CIntType} {read : SV → ℤ}, sv2ptrInt c read s v 0 h = .ok (0, h) := by
    intro c read
    rw [sv2ptrInt, hok]
    rfl
  have hfloat : ∀ {size : ℕ} {image : ℕ → ℕ}, sv2ptrFloat size image s v 0 h = .ok (0, h) := by
    intro size image
    rw [sv2ptrFloat, hok]
    rfl
  have hchar : ∀ {c : CIntType} {read : SV → ℤ} {count : ℕ → ℕ} {wide : CIntType},
      sv2ptrChar c read count wide v 0 h = .ok (0, h) := by
    intro c read count wide
    rw [sv2ptrChar, hok]
    rfl
  cases k with
  | Bool => exact absurd rfl hbool
  | WChar => exact absurd rfl hwide
  | SV => exact absurd rfl hsv
  | Void =>
    show sv2ptrVoid v 0 h = _
    rw [sv2ptrVoid, hok]
    rfl
  | Char | SChar =>
    show sv2ptrCharSChar v 0 h = _
    rw [sv2ptrCharSChar]
    exact hchar
  | UChar =>
    show sv2ptrUChar v 0 h = _
    rw [sv2ptrUChar]
    exact hchar
  | Float | Double => exact hfloat
  | _ => exact hint

/-- **When the copy of a scalar is no copy.** -/
theorem scalar_null (hk : k ≠ .SV) (hrun : sv2ptr (.scalar k s) v 0 h = .ok (q, h')) :
    q = 0 ↔ NullCopy (.scalar k s) v := by
  rcases sv2ptr_scalar_cases hrun with ⟨hexp, rfl⟩ | ⟨hexp, hbranch⟩
  · exact iff_of_true rfl (Or.inl hexp)
  have hundefined : k ≠ .Bool → k ≠ .Void → (NullCopy (.scalar k s) v ↔ v.SvOK = false) := by
    intro hbool hvoid
    refine ⟨fun hnull => ?_, fun hok => Or.inr ?_⟩
    · have hlater := hnull.resolve_left hexp
      cases k with
      | Bool => exact absurd rfl hbool
      | Void => exact absurd rfl hvoid
      | SV => exact absurd rfl hk
      | _ => exact hlater
    · cases k with
      | Bool => exact absurd rfl hbool
      | Void => exact absurd rfl hvoid
      | SV => exact absurd rfl hk
      | _ => exact hok
  have hcopied : k ≠ .Bool → k ≠ .WChar → v.SvOK = false → q = 0 := by
    intro hbool hwide hok
    cases (scalar_undef hok hbool hwide hk).symm.trans hbranch
    rfl
  rcases numeric_or k with hnum | hchar | rfl | rfl | rfl
  · rcases copied_numbers hnum hbranch with ⟨rfl, hbool, hok⟩ | hb
    · exact iff_of_true rfl ((hundefined hbool hnum.1).mpr hok)
    · refine iff_of_false hb.ne_zero fun hnull => ?_
      by_cases hbool : k = .Bool
      · subst hbool
        exact hnull.elim hexp id
      · exact hb.ne_zero (hcopied hbool hnum.2.2.1 ((hundefined hbool hnum.1).mp hnull))
  · have hkinds : k ≠ .Bool ∧ k ≠ .Void ∧ k ≠ .WChar := by
      rcases hchar with rfl | rfl | rfl <;> decide
    rw [hundefined hkinds.1 hkinds.2.1]
    refine ⟨fun hq => ?_, hcopied hkinds.1 hkinds.2.2⟩
    rcases copied_characters hchar hbranch with ⟨-, hok⟩ | ⟨n, hb, -⟩
    · exact hok
    · exact absurd hq hb.ne_zero
  · have hvoid : sv2ptrVoid v 0 h = .ok (q, h') := hbranch
    refine (copied_void hvoid).1.trans ⟨Or.inr, fun hnull => hnull.resolve_left hexp⟩
  · cases no_wide_copy.symm.trans hbranch
  · exact absurd rfl hk

/-- The elements of an array of numbers lie one after another in its block. -/
theorem number_inBlock {len : ℕ} (hk : Numeric k) (hb : AtBreak h h' q (len * k.sizeof))
    (hl : Later h h' hh) {i : ℕ} (hi : i ≤ len) :
    hh.mem.InBlock (q + i * k.sizeof) k.sizeof ↔ i < len := by
  have hpos : 0 < k.sizeof := Nat.pos_of_ne_zero (number_load (s := (scalarType k).slots) hk 0).1
  rw [hb.inBlock_iff hl hpos (Nat.mul_le_mul_right _ hi), ← Nat.succ_mul]
  exact Nat.mul_le_mul_right_iff hpos

/-- The value itself is at the address of its copy. -/
theorem value_found (hrun : sv2ptrSV v h = .ok (q, h')) (hl : Later h h' hh) :
    ptr2svSV q hh = .ok (v, hh) := by
  obtain ⟨p, h₁, hnew, hrest⟩ := Exec.bind_eq_ok.mp hrun
  obtain ⟨h₂, h₃, hget, hrest⟩ := Exec.bind_eq_ok.mp hrest
  cases hget
  obtain ⟨u, h₄, hset, hpure⟩ := Exec.bind_eq_ok.mp hrest
  cases hset
  cases hpure
  obtain ⟨m, hm, rfl⟩ := safemalloc_eq_ok.mp hnew
  obtain ⟨rfl, hbrk, -⟩ := Mem.malloc_eq_some hm
  have hfound : hh.svs.lookup h.mem.brk = some v := by
    have hroom : m.brk = h.mem.brk + (24 + 8) := hbrk
    rw [hl.svs h.mem.brk le_rfl (by show h.mem.brk < m.brk; omega)]
    exact List.lookup_cons_self
  refine (Exec.bind_of_ok (Exec.get_apply hh)).trans ?_
  rw [hfound]
  rfl

/-- **The copy of a scalar is read back within it.** -/
theorem scalar_staysIn (hrun : sv2ptr (.scalar k s) v 0 h = .ok (q, h'))
    (hl : Later h h' hh) : StaysIn (ptr2sv (.scalar k s) q) hh := by
  by_cases hq : q = 0
  · rw [hq, ptr2sv_null]
    exact staysIn_of_ok rfl
  obtain ⟨-, hzero⟩ | ⟨hexp, hbranch⟩ := sv2ptr_scalar_cases hrun
  · exact absurd hzero hq
  rw [ptr2sv, if_neg hq]
  rcases numeric_or k with hnum | hchar | rfl | rfl | rfl
  · rcases copied_numbers hnum hbranch with ⟨hzero, -⟩ | hb
    · exact absurd hzero hq
    · have hin := (number_inBlock hnum hb hl (Nat.zero_le _)).mpr (atLeastOne_pos _)
      rw [Nat.zero_mul, Nat.add_zero] at hin
      obtain ⟨r, hread⟩ := number_within (s := s) hnum hin
      exact staysIn_of_ok hread
  · rcases copied_characters hchar hbranch with ⟨hzero, -⟩ | ⟨n, hb, hend⟩
    · exact absurd hzero hq
    · obtain ⟨r, hread⟩ := terminated_read (terminated_of_block hb hend hl)
      have hsame : ptr2svScalar k s q = ptr2svChars q := by
        rcases hchar with rfl | rfl | rfl <;> rfl
      rw [hsame]
      exact staysIn_of_ok hread
  · exact staysIn_of_ok rfl
  · cases no_wide_copy.symm.trans hbranch
  · exact staysIn_of_ok (value_found hbranch hl)

end Scalars

/-! ## Arrays of pointers -/

section Pointers

variable {subtype : TypeObj} {v e : SV} {es : List SV} {h h₁ h' hh : Heap} {a q : ℕ}

/-- The loop writes its place in the block, and new memory. -/
theorem storePointers_grows {es : List SV} {a : ℕ} {h : Heap} (ha : a ≠ 0)
    (hrun : storePointers (fun e => sv2ptr subtype e 0) a es h = .ok ((), h')) :
    (h.mem.Grows h'.mem fun x => x < a ∨ a + es.length * SIZEOF_INTPTR_T ≤ x) ∧
      ∀ p < h.mem.brk, h'.svs.lookup p = h.svs.lookup p := by
  have hprogress := progress_storePointers ha (fun e h₁ q h₂ => sv2ptr_progress subtype) hrun
  refine ⟨hprogress.grows ?_, hprogress.svs⟩
  clear hprogress
  induction es generalizing a h with
  | nil =>
    cases hrun
    exact Mem.Extends.refl _ _
  | cons e es ih =>
    obtain ⟨q, h₁, hone, hrest⟩ := Exec.bind_eq_ok.mp hrun
    obtain ⟨u, h₂, hstore, hrest⟩ := Exec.bind_eq_ok.mp hrest
    have hlen : (pointerBytes q).length = SIZEOF_INTPTR_T := length_encodeLE _ _
    obtain ⟨-, rfl⟩ := store_eq_ok.mp hstore
    have hcopy := (sv2ptr_progress subtype hone).mem.toExtends
    have hpoke := Mem.extends_poke h₁.mem a (pointerBytes q)
    refine ((hcopy.trans hpoke).trans (ih (Nat.ne_of_gt (Nat.add_pos_left
      (Nat.pos_of_ne_zero ha) _)) hrest)).weaken fun x _ hx => ?_
    rw [List.length_cons, Nat.succ_mul] at hx
    exact ⟨⟨before_zero x, by omega⟩, by omega⟩

/-- **One turn of the loop**, seen from later on: the address of the copy is in its place. -/
theorem storePointers_turn (hfits : CopyFits subtype e) (ht : LaidOut subtype)
    (hrun : storePointers (fun e => sv2ptr subtype e 0) a (e :: es) h₁ = .ok ((), h'))
    (hl : Later h h' hh) (hlo : h.mem.brk ≤ a)
    (hroom : a + (e :: es).length * SIZEOF_INTPTR_T ≤ h₁.mem.brk) :
    ∃ q h₂ h₃, sv2ptr subtype e 0 h₁ = .ok (q, h₂) ∧ Later h₁ h₂ hh ∧ addressAt hh.mem a = q ∧
      storePointers (fun e => sv2ptr subtype e 0) (a + SIZEOF_INTPTR_T) es h₃ = .ok ((), h') ∧
      h₁.mem.brk ≤ h₃.mem.brk := by
  have ha : a ≠ 0 := (h.mem.brk_pos.trans_le hlo).ne'
  obtain ⟨q, h₂, hone, hrest⟩ := Exec.bind_eq_ok.mp hrun
  obtain ⟨u, h₃, hstore, hrest⟩ := Exec.bind_eq_ok.mp hrest
  have hlen : (pointerBytes q).length = SIZEOF_INTPTR_T := length_encodeLE _ _
  rw [List.length_cons, Nat.succ_mul] at hroom
  have hcopy := sv2ptr_progress subtype hone
  have hcopied := (sv2ptr_copies ht hfits (Nat.zero_le _)).of_ok hone
  obtain ⟨hgrows, hsvs⟩ := storePointers_grows (by omega) hrest
  have hbrk := hcopy.mem.brk_le
  have hbrk' := hgrows.brk_le
  obtain ⟨-, rfl⟩ := store_eq_ok.mp hstore
  have hpoke : h₂.mem.Grows (h₂.mem.poke a (pointerBytes q)) fun x => h₁.mem.brk ≤ x :=
    (progress_store hstore).grows ((Mem.extends_poke _ _ _).weaken fun x _ hx => by omega)
  refine ⟨q, h₂, _, hone, ?_, ?_, hrest, hbrk⟩
  · have hlo₁ : h.mem.brk ≤ h₁.mem.brk := by omega
    refine hl.part hcopy (hpoke.trans hgrows fun x _ hx => ?_) hsvs hlo₁ fun x hx _ => hx
    omega
  · have hpeek := Mem.peek_poke_same h₂.mem a (pointerBytes q)
    rw [hlen] at hpeek
    refine addressAt_store (address_lt hcopied.2) (Eq.trans ?_ hpeek)
    refine Mem.peek_congr fun x hx hx' => ?_
    have hbelow : x < (h₂.mem.poke a (pointerBytes q)).brk := by
      show x < h₂.mem.brk
      omega
    rw [hl.mem.bytes x (by omega) (hbelow.trans_le hbrk')]
    exact hgrows.bytes x hbelow (Or.inl hx')

/-- One turn of the loop that reads. -/
theorem ptr2svPointers_turn {convert : ℕ → Eff SV} (fuel : ℕ)
    (hin : hh.mem.InBlock a SIZEOF_INTPTR_T) :
    ptr2svPointers convert (fuel + 1) a hh = (do
      let e ← convert (addressAt hh.mem a)
      if addressAt hh.mem a = 0 then pure [e]
      else do
        let rest ← ptr2svPointers convert fuel (a + SIZEOF_INTPTR_T)
        pure (e :: rest) : Eff (List SV)) hh := by
  refine (Exec.bind_of_ok (Exec.get_apply hh)).trans ?_
  rw [loadPointer_within hin]
  exact Exec.bind_of_ok (Exec.lift_ok_apply _ hh)

/-- **An array of pointers is read up to the first that is `NULL`.** -/
theorem pointers_staysIn {before after : List SV} (ht : LaidOut subtype)
    (hfits : ∀ e' ∈ before ++ e :: after, CopyFits subtype e')
    (hread : ∀ e' ∈ before, ∀ {h₁ h₂ hh : Heap} {q : ℕ}, sv2ptr subtype e' 0 h₁ = .ok (q, h₂) →
      Later h₁ h₂ hh → StaysIn (ptr2sv subtype q) hh)
    (hnull : ∀ {h₁ h₂ : Heap} {q : ℕ}, sv2ptr subtype e 0 h₁ = .ok (q, h₂) → q = 0)
    {fuel : ℕ} (hfuel : before.length < fuel) (hlo : h.mem.brk ≤ a)
    (hrun : storePointers (fun e => sv2ptr subtype e 0) a (before ++ e :: after) h₁ = .ok ((), h'))
    (hroom : a + (before ++ e :: after).length * SIZEOF_INTPTR_T ≤ h₁.mem.brk)
    (hl : Later h h' hh)
    (hin : hh.mem.InBlock a ((before ++ e :: after).length * SIZEOF_INTPTR_T)) :
    StaysIn (ptr2svPointers (fun p => ptr2sv subtype p) fuel a) hh := by
  obtain ⟨fuel, rfl⟩ := Nat.exists_eq_succ_of_ne_zero (Nat.ne_of_gt (Nat.zero_lt_of_lt hfuel))
  induction before generalizing a h₁ hh fuel with
  | nil =>
    obtain ⟨q, h₂, h₃, hone, -, haddr, -⟩ := storePointers_turn (hfits e List.mem_cons_self) ht
      hrun hl hlo hroom
    have hzero := haddr.trans (hnull hone)
    rw [List.nil_append, List.length_cons, Nat.succ_mul] at hin
    refine staysIn_congr (ptr2svPointers_turn fuel (hin.mono le_rfl (by omega))) ?_
    rw [hzero, ptr2sv_null]
    exact staysIn_of_ok rfl
  | cons b before ih =>
    obtain ⟨q, h₂, h₃, hone, hlater, haddr, hrest, hbrk⟩ :=
      storePointers_turn (hfits b List.mem_cons_self) ht hrun hl hlo hroom
    have hlength : ((b :: before) ++ e :: after).length = (before ++ e :: after).length + 1 := rfl
    rw [hlength, Nat.succ_mul] at hin hroom
    refine staysIn_congr (ptr2svPointers_turn fuel (hin.mono le_rfl (by omega))) ?_
    rw [haddr]
    refine (hread b List.mem_cons_self hone hlater).bind fun r hh₁ ho => ?_
    split
    · exact staysIn_of_ok rfl
    · rw [List.length_cons] at hfuel
      obtain ⟨fuel, rfl⟩ := Nat.exists_eq_succ_of_ne_zero (by omega : fuel ≠ 0)
      have hinRest : hh₁.mem.InBlock (a + SIZEOF_INTPTR_T)
          ((before ++ e :: after).length * SIZEOF_INTPTR_T) :=
        (ho.1.inBlock hin).mono (Nat.le_add_right _ _) (by omega)
      refine StaysIn.bind (ih (fun e' he' => hfits e' (List.mem_cons_of_mem _ he'))
        (fun e' he' => hread e' (List.mem_cons_of_mem _ he')) (hlo.trans (Nat.le_add_right _ _))
        hrest (by omega) (hl.onward ho) hinRest fuel (Nat.lt_of_succ_lt_succ hfuel)) ?_
      exact fun _ _ _ => staysIn_of_ok rfl

/-- **The block of an empty array of pointers** is read as one `NULL`. -/
theorem no_pointers_read {m : Mem} (hm : h.mem.malloc SIZEOF_INTPTR_T = some (q, m))
    (hl : Later h { h with mem := m.poke q (List.replicate SIZEOF_INTPTR_T 0) } hh) {fuel : ℕ}
    (hfuel : 0 < fuel) :
    ∃ r, ptr2svPointers (fun p => ptr2sv subtype p) fuel q hh = .ok (r, hh) := by
  obtain ⟨fuel, rfl⟩ := Nat.exists_eq_succ_of_ne_zero hfuel.ne'
  have hb : AtBreak h _ q SIZEOF_INTPTR_T := atBreak_of_progress hm (Progress.refl _ _)
  have hin : hh.mem.InBlock q SIZEOF_INTPTR_T :=
    (hb.inBlock_iff hl (by decide) (Nat.zero_le _)).mpr (Nat.zero_add _).le
  have hstart := hb.start
  have hbrk := hb.lt_brk
  have hnull : addressAt hh.mem q = 0 := addressAt_zero fun x hlo hhi => by
    rw [hl.mem.bytes x (by omega) (by omega)]
    obtain ⟨i, rfl⟩ := Nat.exists_eq_add_of_le hlo
    exact zero_of_replicate (by omega)
  refine ⟨[.undef false], (ptr2svPointers_turn fuel hin).trans ?_⟩
  rw [hnull, ptr2sv_null]
  rfl

end Pointers

/-! ## Copies -/

theorem no_object_of_undef {v : SV} (hok : v.SvOK = false) : asPointerObject v = none := by
  cases v <;> first | rfl | cases hok

/-- **Where there is nothing to copy** the address is `NULL`. -/
theorem nullCopy_zero : ∀ (t : TypeObj) {v : SV} {h h' : Heap} {q : ℕ}, NullCopy t v →
    sv2ptr t v 0 h = .ok (q, h') → q = 0
  | .scalar k s, v, h, h', q, hnull, hrun => by
    by_cases hk : k = .SV
    · subst hk
      cases (sv2ptr_explicitUndef (hnull.resolve_right id) _).symm.trans hrun
      rfl
    · exact (scalar_null hk hrun).mpr hnull
  | .codeRef .., v, h, h', q, hnull, hrun => by
    cases (sv2ptr_explicitUndef hnull _).symm.trans hrun
    rfl
  | .struct .., v, h, h', q, hnull, hrun | .union .., v, h, h', q, hnull, hrun => by
    have hes : v.entries = none := hnull
    rw [sv2ptr, asHash, hes] at hrun
    split at hrun <;> cases hrun <;> rfl
  | .pointer s subtype, v, h, h', q, hnull, hrun => by
    cases sv2ptr_pointer_cases hrun with
    | nothing _ hq => exact hq
    | array hsub hok =>
      rw [NullCopy, if_pos hsub, hok] at hnull
      rcases hnull with hexp | hundef
      · cases hok.symm.trans hexp.1
      · cases hundef
    | object hsub hobj hptr hq =>
      rw [NullCopy, hsub, if_neg Bool.false_ne_true] at hnull
      rcases hnull with hexp | hobject | ⟨hnone, -⟩
      · cases (no_object_of_undef hexp.1).symm.trans hobj
      · exact (object_address hobj hptr hq).1.mpr hobject
      · cases hnone.symm.trans hobj
    | copy hsub hobj hcopy =>
      rw [NullCopy, hsub, if_neg Bool.false_ne_true] at hnull
      rcases hnull with hexp | ⟨es, ptr, hsome, -⟩ | ⟨-, hnull⟩
      · cases (sv2ptr_explicitUndef hexp _).symm.trans hcopy
        rfl
      · cases hobj.symm.trans hsome
      · exact nullCopy_zero subtype hnull hcopy

theorem elements_fit {s : Slots} {subtype : TypeObj} {v : SV}
    (hfits : CopyFits (.pointer s subtype) v) (hsub : subtype.isPointer = true)
    (hok : v.SvOK = true) : ∀ e ∈ pointees v, CopyFits subtype e := by
  obtain ⟨helems, hone⟩ := hfits.1 hsub hok
  cases hes : v.elems with
  | none =>
    rw [pointees_of_single hes]
    exact List.forall_mem_singleton.mpr (hone hes)
  | some es =>
    rw [pointees_of_elems hes]
    exact helems es hes

/-- The array of a type is read from a copy that has enough, or from none. -/
theorem enough_staysIn {subtype : TypeObj} {n : ℕ} {v : SV} {h h' hh : Heap} {q : ℕ}
    (ht : LaidOut subtype) (hproper : Proper subtype) (hchar : isCharacter subtype = false)
    (hwide : subtype.flag ≠ .wchar) (henough : Enough n subtype v)
    (hrun : sv2ptr subtype v 0 h = .ok (q, h')) (hl : Later h h' hh) (hq : q ≠ 0) :
    StaysIn (ptr2svElems (fun p => ptr2sv subtype p) subtype.sizeof n q) hh := by
  refine staysIn_elems n fun i hi hh₁ ho => ?_
  rcases henough with hnothing | hzero | hscalar
  · exact staysIn_of_readsNothing hproper hnothing _ _
  · omega
  · cases subtype with
    | scalar k s =>
      have hsize : (TypeObj.scalar k s).sizeof = k.sizeof := ht
      rw [hsize]
      rcases numeric_or k with hnum | hcharacter | rfl | rfl | rfl
      · have hlen := hscalar.resolve_left hnum.2.2.2
        have hbranch := (sv2ptr_scalar_cases hrun).resolve_left fun hno => hq hno.2
        have hb := (copied_numbers hnum hbranch.2).resolve_left fun hno => hq hno.1
        have hin := (number_inBlock hnum hb (hl.onward ho) (by omega)).mpr (by omega : i < _)
        obtain ⟨r, hread⟩ := number_within (s := s) hnum hin
        refine staysIn_of_ok (r := r) ?_
        rw [ptr2sv, if_neg (by omega)]
        exact hread
      · exact absurd hchar (by simp [isCharacter, hcharacter])
      · exact staysIn_of_readsNothing hproper rfl _ _
      · exact absurd rfl hwide
      · have hstride : q + i * Kind.SV.sizeof = q := Nat.add_zero q
        rw [hstride]
        exact scalar_staysIn hrun (hl.onward ho)
    | _ => exact hscalar.elim

/-- A pointer to anything else is read as one value or as an array. -/
theorem pointer_staysIn {s : Slots} {subtype : TypeObj} {hh : Heap} {q : ℕ} (hq : q ≠ 0)
    (hsub : subtype.isPointer = false)
    (hone : s.arraylen = 1 ∨ isCharacter subtype = true ∨ subtype.flag = .wchar →
      StaysIn (ptr2sv subtype q) hh)
    (helems : s.arraylen ≠ 1 → isCharacter subtype = false → subtype.flag ≠ .wchar →
      StaysIn (ptr2svElems (fun p => ptr2sv subtype p) subtype.sizeof s.arraylen q) hh) :
    StaysIn (ptr2sv (.pointer s subtype) q) hh := by
  by_cases hcase : s.arraylen = 1 ∨ isCharacter subtype = true ∨ subtype.flag = .wchar
  · rw [ptr2sv_one hsub hcase]
    exact hone hcase
  · obtain ⟨hlen, hcase⟩ := not_or.mp hcase
    obtain ⟨hchar, hwide⟩ := not_or.mp hcase
    rw [Bool.not_eq_true] at hchar
    rw [ptr2sv_elems hq hsub hlen hchar hwide]
    exact (helems hlen hchar hwide).bind fun _ _ _ => staysIn_of_ok rfl

/-- **What is safe is read back within the copy.** -/
theorem copy_staysIn : ∀ (t : TypeObj) {v : SV} {h h' hh : Heap} {q : ℕ}, LaidOut t → Proper t →
    CopyFits t v → CopySafe t v → sv2ptr t v 0 h = .ok (q, h') → Later h h' hh →
    StaysIn (ptr2sv t q) hh
  | .scalar k s, v, h, h', hh, q, _, _, _, _, hrun, hl => scalar_staysIn hrun hl
  | .codeRef s args sig r, v, h, h', hh, q, _, _, _, hsafe, hrun, hl => by
    rw [ptr2sv]
    split
    · exact staysIn_of_ok rfl
    · exact staysIn_codeRef hsafe r q hh
  | .struct s fields, v, h, h', hh, q, ht, hproper, hfits, hsafe, hrun, hl => by
    cases hes : v.entries with
    | none =>
      rw [nullCopy_zero (.struct s fields) hes hrun, ptr2sv_null]
      exact staysIn_of_ok rfl
    | some es =>
      obtain ⟨hdec, hstrings⟩ := hsafe es hes
      obtain ⟨r, hread⟩ := struct_copy_read ht hproper hes (hfits es hes) hdec hstrings hrun hl
      exact staysIn_of_ok hread
  | .union s fields, v, h, h', hh, q, ht, hproper, _, _, hrun, hl => by
    cases hes : v.entries with
    | none =>
      rw [nullCopy_zero (.union s fields) hes hrun, ptr2sv_null]
      exact staysIn_of_ok rfl
    | some es =>
      obtain ⟨r, hread⟩ := union_copy_read ht hproper hes hrun hl
      exact staysIn_of_ok hread
  | .pointer s subtype, v, h, h', hh, q, ht, hproper, hfits, hsafe, hrun, hl => by
    by_cases hq : q = 0
    · rw [hq, ptr2sv_null]
      exact staysIn_of_ok rfl
    have hsafe := hsafe.resolve_left fun hnull => hq (nullCopy_zero _ hnull hrun)
    cases sv2ptr_pointer_cases hrun with
    | nothing _ hzero => exact absurd hzero hq
    | array hsub hok hm hstore =>
      rw [if_pos hsub] at hsafe
      rw [ptr2sv_pointers hq hsub]
      refine StaysIn.bind_of_ok (Exec.get_apply hh) (StaysIn.bind ?_ fun _ _ _ => staysIn_of_ok rfl)
      rcases hsafe with hempty | ⟨before, e, after, hsplit, hnull, hbefore⟩
      · rw [hempty] at hm hstore
        cases hstore
        obtain ⟨r, hread⟩ : ∃ r, ptr2svPointers (fun p => ptr2sv subtype p) hh.mem.brk q hh =
            .ok (r, hh) := no_pointers_read hm hl hh.mem.brk_pos
        exact staysIn_of_ok hread
      have hfits := elements_fit hfits hsub hok
      have hcount : atLeastOne (pointees v).length = (before ++ e :: after).length := by
        rw [hsplit]
        exact atLeastOne_of_pos (by simp)
      rw [hcount] at hm hstore
      have hb := atBreak_of_progress hm
        (progress_storePointers hq (fun e h₁ q h₂ => sv2ptr_progress subtype) hstore)
      have hroom := (Mem.malloc_cases hm).2.2.2.1
      rw [hsplit] at hstore hfits
      have hpos : 0 < (before ++ e :: after).length * SIZEOF_INTPTR_T :=
        Nat.mul_pos (by simp) (by decide)
      have hin : hh.mem.InBlock q ((before ++ e :: after).length * SIZEOF_INTPTR_T) :=
        (hb.inBlock_iff hl hpos (Nat.zero_le _)).mpr (Nat.zero_add _).le
      have hfuel : before.length < hh.mem.brk := by
        have hle := hin.le_brk
        have hlength : before.length < (before ++ e :: after).length := by
          rw [List.length_append, List.length_cons]
          omega
        have hmul := Nat.le_mul_of_pos_right (before ++ e :: after).length
          (by decide : 0 < SIZEOF_INTPTR_T)
        omega
      exact pointers_staysIn ht.2 hfits
        (fun e' he' _ _ _ _ hcopy hlater => copy_staysIn subtype ht.2 hproper
          (hfits e' (List.mem_append_left _ he')) (hbefore e' he') hcopy hlater)
        (fun hcopy => nullCopy_zero subtype hnull hcopy) hfuel hb.start.ge hstore hroom hl hin
    | object hsub hobj hptr haddr =>
      rw [hsub, if_neg Bool.false_ne_true, hobj] at hsafe
      have hsubproper : Proper subtype := hproper
      refine pointer_staysIn hq hsub (fun hone => ?_) fun hlen hchar hwide => ?_
      · rcases hsafe with hnothing | ⟨hzero, hchar, hwide⟩
        · exact staysIn_of_readsNothing hsubproper hnothing q hh
        · rcases hone with hlen | hchar' | hwide'
          · exact absurd (hzero.symm.trans hlen) Nat.zero_ne_one
          · cases hchar.symm.trans hchar'
          · exact absurd hwide' hwide
      · refine staysIn_elems _ fun i hi hh₁ _ => ?_
        rcases hsafe with hnothing | ⟨hzero, -⟩
        · exact staysIn_of_readsNothing hsubproper hnothing _ hh₁
        · omega
    | copy hsub hobj hcopy =>
      rw [hsub, if_neg Bool.false_ne_true, hobj] at hsafe
      have hfits := (hfits.2 hsub).2 hobj
      refine pointer_staysIn hq hsub (fun hone => ?_) fun hlen hchar hwide => ?_
      · by_cases hcase : s.arraylen = 1 ∨ isCharacter subtype = true
        · simp only [hcase, if_true] at hsafe
          exact copy_staysIn subtype ht.2 hproper hfits hsafe hcopy hl
        · -- of a wide string there is no copy
          obtain ⟨hlen, hchar⟩ := not_or.mp hcase
          exact absurd (wide_zero ((hone.resolve_left hlen).resolve_left hchar) hcopy) hq
      · have hcase : ¬ (s.arraylen = 1 ∨ isCharacter subtype = true) := by simp [hlen, hchar]
        simp only [hcase, if_false] at hsafe
        exact enough_staysIn ht.2 hproper hchar hwide hsafe hcopy hl hq

end Affix.Analysis
