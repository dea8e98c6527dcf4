import Affix.Analysis.Pinning
import Affix.Analysis.Relocation
import Affix.Interface.Nested

/-!
# When a pinned variable agrees with a field

The block that an assignment goes through is one more place where the value is
marshalled, so the variable gets what a field would, with zeros where nothing is laid,
if the value has room in the block. For numbers that is always so. What raises an
exception, for a scalar, does so before the block is made.

SOURCE: pin.cxx:11-26, marshal.cxx:441-501, marshal.cxx:682-739
-/

set_option autoImplicit false

namespace Affix.Analysis

open Affix.Foundation Affix.Model Affix.Interface

/-- What is marshalled does not depend on where a member lies or what it is called, but for the
arguments of a callback. -/
theorem sv2ptr_withMember {t : TypeObj} (ht : ∀ s args sig r, t ≠ .codeRef s args sig r) (o : ℕ)
    (name : PerlStr) (v : SV) (a : ℕ) : sv2ptr (t.withMember o name) v a = sv2ptr t v a := by
  cases t with
  | codeRef s args sig r => exact absurd rfl (ht s args sig r)
  | scalar k s =>
    rw [TypeObj.withMember, TypeObj.mapSlots, sv2ptr, sv2ptr]
    · cases k <;> rfl
    · exact fun _ _ _ _ => TypeObj.noConfusion
  | pointer s subtype =>
    rw [TypeObj.withMember, TypeObj.mapSlots, sv2ptr, sv2ptr]
    exact fun _ _ _ _ => TypeObj.noConfusion
  | struct s fields =>
    rw [TypeObj.withMember, TypeObj.mapSlots, sv2ptr, sv2ptr]
    exact fun _ _ _ _ => TypeObj.noConfusion
  | union s fields =>
    rw [TypeObj.withMember, TypeObj.mapSlots, sv2ptr, sv2ptr]
    exact fun _ _ _ _ => TypeObj.noConfusion

/-! ## The block an assignment goes through -/

/-- Marshalling to a new place is marshalling at a zeroed block of that size. -/
def InBlockOf (work : ℕ → Eff ℕ) (n : ℕ) : Prop :=
  ∃ (count item : ℕ) (fill : ℕ → Eff ℕ), atLeastOne count * item = n ∧
    (∀ a, work a = orNew a (Newxz count item) >>= fill) ∧
    ∀ {a h r h'}, fill a h = .ok (r, h') → r = a

section Blocks

variable {work : ℕ → Eff ℕ} {t : TypeObj} {v : SV} {n p q size : ℕ} {h h₁ h₂ : Heap}

theorem inBlockOf_fill {count item : ℕ} {fill : ℕ → Eff Unit} :
    InBlockOf (fun a => do
      let ret ← orNew a (Newxz count item)
      fill ret
      pure ret) (atLeastOne count * item) := by
  refine ⟨count, item, fun a => fill a >>= fun _ => pure a, rfl, fun a => rfl, ?_⟩
  intro a h r h' hrun
  obtain ⟨u, h₁, -, hpure⟩ := Exec.bind_eq_ok.mp hrun
  cases hpure
  rfl

/-- The run on the new block. -/
theorem InBlockOf.run (hw : InBlockOf work n) (hrun : work 0 h = .ok (q, h₁)) :
    ∃ m, h.mem.malloc n = some (q, m) ∧
      work q { h with mem := m.poke q (List.replicate n 0) } = .ok (q, h₁) := by
  obtain ⟨count, item, fill, rfl, hsplit, hret⟩ := hw
  rw [hsplit] at hrun
  obtain ⟨p, h₂, hmade, hfill⟩ := Exec.bind_eq_ok.mp hrun
  obtain ⟨m, hm, rfl⟩ := Newxz_cases hmade
  obtain rfl := hret hfill
  have hq : q ≠ 0 := (Mem.malloc_eq_some hm).1 ▸ h.mem.brk_pos.ne'
  refine ⟨m, hm, ?_⟩
  rw [hsplit]
  exact (Exec.bind_of_ok (orNew_of_ne hq _ _)).trans hfill

/-- What stops it, when the value has been marshalled somewhere. -/
theorem InBlockOf.error {laid : ℕ → Option Mark} {need : ℕ} {e : Halt}
    (hw : InBlockOf work n) (hl : Lays size work laid need) (hsize : size ≤ n) (hp : p ≠ 0)
    (hfield : work p h₂ = .ok (q, h₁)) (herr : work 0 h = .error e) :
    e = .outOfMemory ∨ e = .fault ∧ n < need := by
  obtain ⟨count, item, fill, rfl, hsplit, -⟩ := hw
  set n := atLeastOne count * item
  rw [hsplit] at herr
  rcases Exec.bind_eq_error.mp herr with hnew | ⟨a, h', hnew, hstop⟩
  · exact Or.inl (Newxz_error hnew)
  · obtain ⟨m, hm, rfl⟩ := Newxz_cases hnew
    have ha : a ≠ 0 := (Mem.malloc_eq_some hm).1 ▸ h.mem.brk_pos.ne'
    have hblock : (a, n) ∈ m.blocks := Mem.malloc_block hm
    have hin : (m.poke a (List.replicate n 0)).InBlock a n := ⟨_, hblock, le_rfl, le_rfl⟩
    have hplace : work a { h with mem := m.poke a (List.replicate n 0) } = .error e := by
      rw [hsplit]
      exact (Exec.bind_of_ok (orNew_of_ne ha _ _)).trans hstop
    exact hl.again hp hfield hin hsize hplace

/-- The bytes of the block are moved to the variable. -/
theorem set_pin_moved (hok : v.SvOK = true) (hrun : sv2ptr t v 0 h = .ok (q, h₁))
    (hq : h₁.mem.InBlock q t.sizeof) (hstart : q ∈ h₁.mem.blocks.map Prod.fst)
    (hp : h₁.mem.InBlock p t.sizeof) :
    ∃ h', set_pin t p v h = .ok ((), h') ∧
      ∀ i < t.sizeof, h'.mem.bytes (p + i) = h₁.mem.bytes (q + i) := by
  have hload := loadAt_of_inBlock hq
  have hlen : (h₁.mem.peek q t.sizeof).length = t.sizeof := Mem.length_peek _ _ _
  generalize hbs : h₁.mem.peek q t.sizeof = bs at hload hlen
  have hmove : store p bs h₁ = .ok ((), { h₁ with mem := h₁.mem.poke p bs }) :=
    store_eq_ok.mpr ⟨Or.inr (hlen ▸ hp), rfl⟩
  obtain ⟨h', hfree, hbytes⟩ := safefree_of_mem (h := h₁) (m := h₁.mem.poke p bs) hstart
  refine ⟨h', ?_, fun i hi => ?_⟩
  · rw [set_pin, if_pos hok]
    exact (Exec.bind_of_ok (Exec.mapError_eq_ok.mpr hrun)).trans ((Exec.bind_of_ok hload).trans
      ((Exec.bind_of_ok hmove).trans hfree))
  · have hbyte : (h₁.mem.poke p bs).bytes (p + i) = bs[i]?.getD (h₁.mem.bytes (p + i)) := by
      simp [Mem.poke, Mem.overlay]
    rw [hbytes, hbyte, ← hbs, Mem.getElem?_peek _ _ _ _ hi, Option.getD_some]

/-- **What the variable gets**: what is laid for the value, and zeros elsewhere. -/
theorem set_pin_laid (hok : v.SvOK = true) (hin : h.mem.InBlock p t.sizeof)
    (hw : InBlockOf (sv2ptr t v) n) (hl : Lays size (sv2ptr t v) (laidAt t v) (reach t v))
    (hn : t.sizeof ≤ n) (hrun : sv2ptr t v 0 h = .ok (q, h₁)) :
    ∃ h', set_pin t p v h = .ok ((), h') ∧
      ∀ i < t.sizeof, Leaves (laidAt t v i) 0 (h'.mem.bytes (p + i)) := by
  obtain ⟨m, hm, hplace⟩ := hw.run hrun
  obtain ⟨hq, hbrk, hblocks, hbytes⟩ := Mem.malloc_eq_some hm
  have hne : q ≠ 0 := hq ▸ h.mem.brk_pos.ne'
  have hprogress := hl.progress hne hplace
  have hmade : (q, n) ∈ m.blocks := Mem.malloc_block hm
  have hblock : (q, n) ∈ h₁.mem.blocks := hprogress.mem.blocks _ hmade
  have hpm : m.InBlock p t.sizeof := (Mem.malloc_cases hm).2.2.2.2.inBlock hin
  obtain ⟨h', hset, hmoved⟩ := set_pin_moved hok hrun
    ⟨(q, n), hblock, le_rfl, Nat.add_le_add_left hn q⟩ (List.mem_map_of_mem (f := Prod.fst) hblock)
    (hprogress.mem.inBlock hpm)
  refine ⟨h', hset, fun i hi => ?_⟩
  have hroom : m.brk = h.mem.brk + (n + 8) := hbrk
  have hlaid := hl.bytes hne hplace i (show q + i < m.brk by omega)
  rw [hmoved i hi]
  have hzero : (m.poke q (List.replicate n 0)).bytes (q + i) = 0 := zero_of_replicate (by omega)
  exact hzero ▸ hlaid

end Blocks

/-! ## Assignments -/

section Assignments

variable {t : TypeObj} {v u : SV} {n p size : ℕ} {h h₂ : Heap} {o : ℕ} {name : PerlStr}

theorem assign_done {h' : Heap} (hset : set_pin t p (sv_setsv v) h = .ok ((), h')) :
    ∃ st, (PinState.pinned h u t p).assign v = .ok (.done, st) ∧ st.heap = h' := by
  simp only [PinState.assign, PinState.pinned, hset]
  exact ⟨_, rfl, rfl⟩

/-- The value `undef` is not assigned. -/
theorem assign_undef (hok : v.SvOK = false) :
    ∃ st, (PinState.pinned h u t p).assign v = .ok (.done, st) ∧ st.heap = h := by
  refine assign_done ?_
  rw [set_pin, SvOK_sv_setsv, hok]
  rfl

/-- A field that is written in place. -/
theorem storeField_place (hptr : t.isPointer = false)
    (hcode : ∀ s args sig r, t ≠ .codeRef s args sig r) :
    storeField (t.withMember o name) v p h = .ok ((), h₂) ↔
      ∃ r, sv2ptr t v p h = .ok (r, h₂) := by
  have hmember : (t.withMember o name).isPointer = false := by cases t <;> first | rfl | cases hptr
  rw [storeField, hmember, if_neg Bool.false_ne_true, sv2ptr_withMember hcode, Exec.bind_eq_ok]
  constructor
  · rintro ⟨r, h₁, hrun, hpure⟩
    cases hpure
    exact ⟨r, hrun⟩
  · rintro ⟨r, hrun⟩
    exact ⟨r, h₂, hrun, rfl⟩

/-- **A value that has room in the block** is assigned as it is written in a field. -/
theorem assigned_of_room (hok : v.SvOK = true) (hin : h.mem.InBlock p t.sizeof)
    (hmem : set_pin t p v h ≠ .error .outOfMemory) (hw : InBlockOf (sv2ptr t v) n)
    (hl : Lays size (sv2ptr t v) (laidAt t v) (reach t v)) (hsize : size ≤ n)
    (hn : t.sizeof ≤ n) (hreach : reach t v ≤ n) {r : ℕ}
    (hfield : sv2ptr t v p h = .ok (r, h₂))
    (hkept : ∀ i < t.sizeof, laidAt t v i = none → h.mem.bytes (p + i) = 0) :
    AssignedAs u t p h v h₂ := by
  have hbrk := hin.le_brk
  cases hrun : sv2ptr t v 0 h with
  | error e =>
    rcases hw.error hl hsize hin.pos.ne' hfield hrun with rfl | ⟨-, hshort⟩
    · exact absurd (set_pin_error hok hrun) hmem
    · omega
  | ok q =>
    obtain ⟨h', hset, hlaid⟩ := set_pin_laid hok hin hw hl hn hrun
    rw [← sv_setsv_of_SvOK hok] at hset
    obtain ⟨st, hassign, rfl⟩ := assign_done (u := u) hset
    refine ⟨st, hassign, fun i hi hne => ?_⟩
    have hplace := hl.bytes hin.pos.ne' hfield i (by omega)
    exact (hlaid i hi).same hplace hne fun hnone => (hkept i hi hnone).symm

/-- An assignment that is done has set the variable. -/
theorem assign_inv {st : PinState} (hok : v.SvOK = true)
    (hassign : (PinState.pinned h u t p).assign v = .ok (.done, st)) :
    set_pin t p v h = .ok ((), st.heap) := by
  simp only [PinState.assign, PinState.pinned, sv_setsv_of_SvOK hok] at hassign
  cases hset : set_pin t p v h with
  | ok r =>
    rw [hset] at hassign
    cases hassign
    rfl
  | error e =>
    rw [hset] at hassign
    cases e <;> cases hassign

/-- **A value that is assigned as it is written in a field** has room in the block, and zeros
where nothing is laid. -/
theorem fitsZeroed_of_assigned (hok : v.SvOK = true) (hin : h.mem.InBlock p t.sizeof)
    (hw : InBlockOf (sv2ptr t v) t.sizeof)
    (hl : Lays t.sizeof (sv2ptr t v) (laidAt t v) (reach t v)) {r : ℕ}
    (hfield : sv2ptr t v p h = .ok (r, h₂)) (hsame : AssignedAs u t p h v h₂) :
    FitsZeroed t p h v := by
  obtain ⟨st, hassign, hbytes⟩ := hsame
  have hset := assign_inv hok hassign
  have hblock := hset
  rw [set_pin, if_pos hok] at hblock
  obtain ⟨q, h₁, hrun, -⟩ := Exec.bind_eq_ok.mp hblock
  rw [Exec.mapError_eq_ok] at hrun
  refine ⟨?_, fun i hi hnone => ?_⟩
  · obtain ⟨m, hm, hplace⟩ := hw.run hrun
    have hq : q ≠ 0 := (Mem.malloc_eq_some hm).1 ▸ h.mem.brk_pos.ne'
    have hsealed := (Mem.sealed_malloc hm).grows
      (Mem.grows_poke m q (List.replicate t.sizeof 0))
    exact hl.within hq hplace hsealed le_rfl
  · obtain ⟨h', hset', hlaid⟩ := set_pin_laid hok hin hw hl le_rfl hrun
    cases hset.symm.trans hset'
    have hbrk := hin.le_brk
    have hpin := hlaid i hi
    have hplace := hl.bytes hin.pos.ne' hfield i (by omega)
    rw [hnone] at hpin hplace
    have hzero : st.heap.mem.bytes (p + i) = 0 := hpin
    have hkept : h₂.mem.bytes (p + i) = h.mem.bytes (p + i) := hplace
    have hne : laidAt t v i ≠ some .address := by
      rw [hnone]
      intro h
      cases h
    rw [← hkept, ← hbytes i hi hne, hzero]

end Assignments

/-! ## Numbers -/

section Numbers

variable {k : Kind} {s : Slots} {v u : SV} {a p q : ℕ} {h h₁ h₂ : Heap} {o : ℕ} {name : PerlStr}

theorem inBlockOf_int {c : CIntType} {read : SV → ℤ} (hok : v.SvOK = true)
    (hrun : sv2ptrInt c read s v a h = .ok (q, h₁)) :
    InBlockOf (sv2ptrInt c read s v) (atLeastOne (pointees v).length * c.size) := by
  unfold sv2ptrInt at hrun ⊢
  simp only [hok, if_true] at hrun ⊢
  cases hes : v.elems with
  | some es =>
    have hiok : v.SvIOK = false := by cases v <;> first | rfl | cases hes
    rw [pointees_of_elems hes]
    simp only [hiok, Bool.false_eq_true, if_false]
    exact inBlockOf_fill
  | none =>
    rw [pointees_of_single hes]
    cases hiok : v.SvIOK with
    | true =>
      simp only [if_true]
      exact inBlockOf_fill
    | false =>
      rw [hiok, if_neg Bool.false_ne_true, hes] at hrun
      cases hrun

theorem inBlockOf_float {size : ℕ} {image : ℕ → ℕ} (hok : v.SvOK = true)
    (hrun : sv2ptrFloat size image s v a h = .ok (q, h₁)) :
    InBlockOf (sv2ptrFloat size image s v) (atLeastOne (pointees v).length * size) := by
  unfold sv2ptrFloat at hrun ⊢
  simp only [hok, if_true] at hrun ⊢
  cases hes : v.elems with
  | some es =>
    have hnum : (v.SvNOK || v.SvIOK) = false := by cases v <;> first | rfl | cases hes
    rw [pointees_of_elems hes]
    simp only [hnum, Bool.false_eq_true, if_false]
    exact inBlockOf_fill
  | none =>
    rw [pointees_of_single hes]
    cases hnum : v.SvNOK || v.SvIOK with
    | true =>
      simp only [if_true]
      exact inBlockOf_fill
    | false =>
      rw [hnum, if_neg Bool.false_ne_true, hes] at hrun
      cases hrun

theorem inBlockOf_bool : InBlockOf (sv2ptrBool v) (atLeastOne (pointees v).length * 1) := by
  unfold sv2ptrBool
  cases hes : v.elems with
  | some es =>
    rw [pointees_of_elems hes]
    exact inBlockOf_fill
  | none =>
    rw [pointees_of_single hes]
    exact inBlockOf_fill

/-- Numbers that are marshalled at all are marshalled to a block for as many as there are. -/
theorem inBlockOf_number (hk : Numeric k) (hok : v.SvOK = true)
    (hrun : sv2ptrScalar k s v a h = .ok (q, h₁)) :
    InBlockOf (sv2ptrScalar k s v) (atLeastOne (pointees v).length * k.sizeof) := by
  have hinteger := fun c => integerBranch (k := k) (c := c)
  obtain ⟨hvoid, hchar, hwchar, hsv⟩ := hk
  cases k with
  | Void => exact absurd rfl hvoid
  | Char | SChar | UChar => exact absurd (by decide) hchar
  | WChar => exact absurd rfl hwchar
  | SV => exact absurd rfl hsv
  | Bool => exact inBlockOf_bool
  | Float => exact inBlockOf_float hok hrun
  | Double => exact inBlockOf_float hok hrun
  | _ =>
    obtain ⟨read, -, hbranch⟩ := hinteger _ rfl ⟨by decide, by decide⟩
    rw [funext (hbranch s v)] at hrun ⊢
    exact inBlockOf_int hok hrun

theorem length_fieldEncoding : (fieldEncoding k v).length = (pointees v).length * k.sizeof := by
  cases hes : v.elems with
  | some es =>
    rw [fieldEncoding_some hes, pointees_of_elems hes, length_flatMap_image (length_encoding k)]
  | none =>
    rw [fieldEncoding_none hes, pointees_of_single hes, length_encoding, List.length_singleton,
      Nat.one_mul]

theorem pointees_pos (hne : v.elems ≠ some []) : 0 < (pointees v).length := by
  cases hes : v.elems with
  | none =>
    rw [pointees_of_single hes]
    exact Nat.succ_pos 0
  | some es =>
    rw [pointees_of_elems hes]
    exact List.length_pos_of_ne_nil fun hnil => hne (hnil ▸ hes)

theorem laid_number (hk : Numeric k) (hok : v.SvOK = true) : laid k v = fieldEncoding k v := by
  obtain ⟨hvoid, hchar, hwchar, hsv⟩ := hk
  cases k with
  | Void => exact absurd rfl hvoid
  | Char | SChar | UChar => exact absurd (by decide) hchar
  | WChar => exact absurd rfl hwchar
  | SV => exact absurd rfl hsv
  | Bool => rfl
  | _ => simp only [laid, hok, if_true]

theorem scalarReach_number (hk : Numeric k) (hok : v.SvOK = true) :
    scalarReach k v = (pointees v).length * k.sizeof := by
  rw [← length_fieldEncoding, ← laid_number hk hok]
  obtain ⟨-, -, hwchar, -⟩ := hk
  cases k <;> first | rfl | exact absurd rfl hwchar

/-- **A number that is pinned** is assigned any value as the value is written in a field at that
address, an array by way of its first element; only an empty array has none, and `undef` is not
assigned.
SOURCE: pin.cxx:18-26, marshal.cxx:32-327 -/
theorem assigned_number (hk : Numeric k) (hs : s.sizeof = k.sizeof) (hok : v.SvOK = true)
    (hne : v.elems ≠ some []) (hin : h.mem.InBlock p k.sizeof)
    (hmem : set_pin (.scalar k s) p v h ≠ .error .outOfMemory)
    (hfield : storeField (TypeObj.withMember o name (.scalar k s)) v p h = .ok ((), h₂)) :
    AssignedAs u (.scalar k s) p h v h₂ := by
  have hexp : ¬ ExplicitUndef v := fun hexp => Bool.noConfusion (hok.symm.trans hexp.1)
  have hsize : (TypeObj.scalar k s).sizeof = k.sizeof := hs
  have hrun : sv2ptr (.scalar k s) v = sv2ptrScalar k s v := by
    funext a
    rw [sv2ptr, not_explicitUndef hexp, if_neg Bool.false_ne_true]
  have hlaid : laidAt (.scalar k s) v = fun i => (laid k v)[i]?.map .byte := by
    funext i
    rw [laidAt, if_neg hexp]
  have hreach : reach (.scalar k s) v = (pointees v).length * k.sizeof := by
    rw [reach, if_neg hexp, scalarReach_number hk hok]
  have hl : Lays 0 (sv2ptr (.scalar k s) v) (laidAt (.scalar k s) v) (reach (.scalar k s) v) := by
    rw [hrun, hlaid, reach, if_neg hexp]
    exact (branch_scalar k s v).lays
  obtain ⟨r, hplace⟩ := (storeField_place (t := .scalar k s) rfl
    fun _ _ _ _ => TypeObj.noConfusion).mp hfield
  have hw : InBlockOf (sv2ptr (.scalar k s) v) ((pointees v).length * k.sizeof) := by
    rw [hrun] at hplace ⊢
    have hblock := inBlockOf_number hk hok hplace
    rwa [atLeastOne_of_pos (pointees_pos hne)] at hblock
  have hroom : k.sizeof ≤ (pointees v).length * k.sizeof :=
    Nat.le_mul_of_pos_left _ (pointees_pos hne)
  refine assigned_of_room hok (hsize ▸ hin) hmem hw hl (Nat.zero_le _) (hsize ▸ hroom) hreach.le
    hplace fun i hi hnone => ?_
  have hi : i < (laid k v).length := by
    rw [laid_number hk hok, length_fieldEncoding]
    exact (hsize ▸ hi).trans_le hroom
  rw [hlaid] at hnone
  simp only [List.getElem?_eq_getElem hi, Option.map_some, reduceCtorEq] at hnone

end Numbers

/-- Two C variables of the type `Struct[ n => Int ]`. -/
def recordVariables : Heap where
  mem := ⟨fun _ => 0, [(4096, 8), (4112, 8)], 4120, by decide, by decide, by decide, by decide⟩
  svs := []
  callbacks := []

/-- Two numbers for one variable. -/
def eightAndNine : SV := .aref (.new []) [.int 8 (by decide), .int 9 (by decide)]

/-- The variable pinned as an `Int`, and assigned `[ 8, 9 ]`. -/
theorem assigned_number_eight : ∃ h₂,
    storeField (TypeObj.withMember 0 (.ofBytes [0x6e]) (scalarType .Int)) eightAndNine 4096
      recordVariables = .ok ((), h₂) ∧
    AssignedAs (.undef false) (scalarType .Int) 4096 recordVariables eightAndNine h₂ := by
  have hset : ∃ h, set_pin (.scalar .Int (scalarType .Int).slots) 4096 eightAndNine
      recordVariables = .ok ((), h) := ⟨_, rfl⟩
  have hfield : ∃ h₂, storeField (TypeObj.withMember 0 (.ofBytes [0x6e]) (scalarType .Int))
      eightAndNine 4096 recordVariables = .ok ((), h₂) := ⟨_, rfl⟩
  have hnumeric : Numeric .Int := ⟨by decide, by decide, by decide, by decide⟩
  have hsome : eightAndNine.elems ≠ some [] := fun hnil =>
    List.cons_ne_nil _ _ (Option.some.inj hnil)
  obtain ⟨h, hset⟩ := hset
  obtain ⟨h₂, hfield⟩ := hfield
  refine ⟨h₂, hfield, assigned_number (s := (scalarType .Int).slots) hnumeric rfl rfl hsome
    (by decide) ?_ hfield⟩
  rw [hset]
  intro herror
  cases herror

/-! ## Structs and unions -/

section Records

variable {d : Decl} {t : TypeObj} {v u : SV} {p : ℕ} {h h₂ : Heap} {o : ℕ} {name : PerlStr}

/-- A hash is marshalled to a block of the size of its type. -/
theorem inBlockOf_hash (ht : IsAggregate t) (hes : v.entries ≠ none) :
    InBlockOf (sv2ptr t v) t.sizeof := by
  obtain ⟨es, hes⟩ := Option.ne_none_iff_exists'.mp hes
  have hok : v.SvOK = true := by cases v <;> first | rfl | cases hes
  have hconst : (!v.SvOK && v.SvREADONLY) = false := by rw [hok]; rfl
  cases t with
  | struct s fields =>
    refine ⟨1, s.sizeof, fun ret => sv2ptrFields es ret fields >>= fun _ => pure ret,
      bytes_one _, fun a => ?_, ?_⟩
    · rw [sv2ptr, hconst, if_neg Bool.false_ne_true, asHash, hes]
    · intro a h r h' hrun
      obtain ⟨_, _, -, hpure⟩ := Exec.bind_eq_ok.mp hrun
      cases hpure
      rfl
  | union s fields =>
    refine ⟨1, s.sizeof, fun ret => sv2ptrMembers es ret fields >>= fun okay =>
      if okay then pure ret
      else croak (text "Malformed Union[...] field; missing defined field"),
      bytes_one _, fun a => ?_, ?_⟩
    · rw [sv2ptr_union hconst hes]
    · intro a h r h' hrun
      obtain ⟨okay, _, -, hend⟩ := Exec.bind_eq_ok.mp hrun
      cases okay <;> cases hend
      rfl
  | _ => exact ht.elim

/-- **A struct or a union that is pinned** is assigned a hash as the hash is written in a field at
that address if and only if the hash stays in it and it has zeros where nothing is laid: no byte
of a member that is left out, of an array that is too short or of padding is kept.
SOURCE: pin.cxx:18-26, marshal.cxx:441-501 -/
theorem assigned_record_iff (hd : d.type = .ok t) (ht : IsAggregate t) (hes : v.entries ≠ none)
    (hin : h.mem.InBlock p t.sizeof) (hmem : set_pin t p v h ≠ .error .outOfMemory)
    (hfield : storeField (t.withMember o name) v p h = .ok ((), h₂)) :
    AssignedAs u t p h v h₂ ↔ FitsZeroed t p h v := by
  have hptr : t.isPointer = false := by cases t <;> first | rfl | exact ht.elim
  have hcode : ∀ s args sig r, t ≠ .codeRef s args sig r := by
    rintro s args sig r rfl
    exact ht
  have hok : v.SvOK = true := by
    obtain ⟨es, hes⟩ := Option.ne_none_iff_exists'.mp hes
    cases v <;> first | rfl | cases hes
  have hlaid := type_induction laidOut_closed hd
  have hl := lays_sv2ptr t v hlaid hptr
  have hw := inBlockOf_hash ht hes
  obtain ⟨r, hplace⟩ := (storeField_place hptr hcode).mp hfield
  constructor
  · exact fitsZeroed_of_assigned hok hin hw hl hplace
  · intro hfits
    exact assigned_of_room hok hin hmem hw hl le_rfl le_rfl hfits.room hplace hfits.zeros

end Records

/-- `{ n => 11 }`. -/
def elevenHash : SV := oneEntry 11 (by decide)

/-- The variable pinned, and assigned `{ n => 11 }`. -/
theorem assigned_record_eleven : ∃ h₂,
    storeField ((oneFieldType .Int).withMember 0 (.ofBytes [0x6e])) elevenHash 4096
      recordVariables = .ok ((), h₂) ∧
    (AssignedAs (.undef false) (oneFieldType .Int) 4096 recordVariables elevenHash h₂ ↔
      FitsZeroed (oneFieldType .Int) 4096 recordVariables elevenHash) := by
  have hd : (oneField .Int).type = .ok (oneFieldType .Int) := rfl
  have hset : ∃ h, set_pin (oneFieldType .Int) 4096 elevenHash recordVariables = .ok ((), h) :=
    ⟨_, rfl⟩
  have hfield : ∃ h₂, storeField ((oneFieldType .Int).withMember 0 (.ofBytes [0x6e])) elevenHash
      4096 recordVariables = .ok ((), h₂) := ⟨_, rfl⟩
  obtain ⟨h, hset⟩ := hset
  obtain ⟨h₂, hfield⟩ := hfield
  refine ⟨h₂, hfield, assigned_record_iff hd trivial (by decide) (by decide) ?_ hfield⟩
  rw [hset]
  intro herror
  cases herror

/-! ## Exceptions

An allocation and a write fail in some heap. So what equals `croak` has done neither. -/

section Exceptions

variable {k : Kind} {s : Slots} {v : SV} {p : ℕ} {h : Heap}

/-- The reason is an exception. -/
def Raises (e : Halt) : Prop := ∃ m, e = .croak m

theorem never_Newxz (count item : ℕ) : Exec.Never Raises (Newxz count item) :=
  Exec.never_of_error fun _ _ herr ⟨_, hm⟩ => by cases (Newxz_error herr).symm.trans hm

theorem never_safemalloc (n : ℕ) : Exec.Never Raises (safemalloc n) :=
  Exec.never_of_error fun _ _ herr ⟨_, hm⟩ => by cases (safemalloc_error herr).symm.trans hm

theorem never_store (a : ℕ) (bs : List UInt8) : Exec.Never Raises (store a bs) :=
  Exec.never_of_error fun _ _ herr ⟨_, hm⟩ => by cases (store_error herr).1.symm.trans hm

theorem never_storeEach (stride : ℕ) (image : SV → List UInt8) (a : ℕ) (es : List SV) :
    Exec.Never Raises (storeEach stride image a es) :=
  Exec.never_of_error fun _ _ herr ⟨_, hm⟩ => by cases (storeEach_error es herr).symm.trans hm

theorem never_loadAt (a n : ℕ) : Exec.Never Raises (loadAt a n) :=
  Exec.never_of_error fun _ _ herr ⟨_, hm⟩ => by cases (loadAt_error herr).symm.trans hm

theorem never_safefree (a : ℕ) : Exec.Never Raises (safefree a) :=
  Exec.never_of_error fun h e herr ⟨_, hm⟩ => by
    unfold safefree at herr
    split at herr <;> cases herr
    cases hm

theorem never_orNew (a count item : ℕ) : Exec.Never Raises (orNew a (Newxz count item)) := by
  unfold orNew
  split
  · exact never_Newxz count item
  · exact Exec.never_pure a

/-- A branch that fills a block raises nothing. -/
theorem never_fill {fill : ℕ → Eff Unit} (hfill : ∀ a, Exec.Never Raises (fill a))
    (a count item : ℕ) : Exec.Never Raises (do
      let ret ← orNew a (Newxz count item)
      fill ret
      pure ret) :=
  (never_orNew a count item).bind fun ret => (hfill ret).bind fun _ => Exec.never_pure ret

/-- The branch of a type of numbers: a value that is no number is given up at once. -/
theorem atOnce_number (isNumber : Bool) (size : ℕ) (image : SV → List UInt8) (m : Text) (a : ℕ) :
    Exec.AtOnce Raises (if v.SvOK then
      if isNumber then do
        let ret ← orNew a (Newxz 1 size)
        store ret (image v)
        pure ret
      else
        match v.elems with
        | some es => do
          let ret ← orNew a (Newxz es.length size)
          storeEach size image ret es
          pure ret
        | none => croak m
    else pure a) := by
  split
  · split
    · exact (never_fill (fun ret => never_store ret _) a _ _).atOnce
    · split
      · exact (never_fill (fun ret => never_storeEach _ _ ret _) a _ _).atOnce
      · exact Exec.atOnce_fail _
  · exact (Exec.never_pure a).atOnce

theorem atOnce_char (c : CIntType) (read : SV → ℤ) (count : ℕ → ℕ) (wide : CIntType) (a : ℕ) :
    Exec.AtOnce Raises (sv2ptrChar c read count wide v a) := by
  unfold sv2ptrChar
  split
  · split
    · exact (never_fill (fun ret => never_storeEach _ _ ret _) a _ _).atOnce
    · exact (never_fill (fun ret => never_store ret _) a _ _).atOnce
  · exact (Exec.never_pure a).atOnce

theorem atOnce_bool (a : ℕ) : Exec.AtOnce Raises (sv2ptrBool v a) := by
  unfold sv2ptrBool
  split
  · exact (never_fill (fun ret => never_storeEach _ _ ret _) a _ _).atOnce
  · exact (never_fill (fun ret => never_store ret _) a _ _).atOnce

/-- The address of an object is read, or not, whatever the heap is. -/
theorem atOnce_object (es : List SV) (a : ℕ) : Exec.AtOnce Raises (do
    let ptr ← Exec.lift (pointerAddr es)
    if ptr.SvOK then Exec.lift (addressOf ptr) else pure a : Eff ℕ) :=
  Exec.atOnce_lift_bind _ fun ptr _ => by
    split
    · exact Exec.atOnce_lift _
    · exact (Exec.never_pure a).atOnce

theorem atOnce_void (a : ℕ) : Exec.AtOnce Raises (sv2ptrVoid v a) := by
  unfold sv2ptrVoid
  split
  · split
    · exact atOnce_object _ a
    · exact Exec.atOnce_lift_bind _ fun bs _ =>
        (never_fill (fun ret => never_store ret bs) a _ _).atOnce
  · exact (Exec.never_pure a).atOnce

theorem never_wchar (a : ℕ) : Exec.Never Raises (sv2ptrWChar v a) :=
  (never_loadAt a 16).bind fun _ => (never_store a _).bind fun _ => Exec.never_pure a

theorem never_sv : Exec.Never Raises (sv2ptrSV v) :=
  (never_safemalloc 24).bind fun p => Exec.never_of_error fun _ _ herr => by cases herr

/-- **A scalar branch raises an exception before anything else**, if it raises one. -/
theorem sv2ptrScalar_atOnce (k : Kind) (s : Slots) (v : SV) (a : ℕ) :
    Exec.AtOnce Raises (sv2ptrScalar k s v a) := by
  cases k with
  | Void => exact atOnce_void a
  | Bool => exact atOnce_bool a
  | WChar => exact (never_wchar a).atOnce
  | SV => exact never_sv.atOnce
  | Char | SChar | UChar => exact atOnce_char _ _ _ _ a
  | _ => exact atOnce_number _ _ _ _ a

/-- **An assignment that raises an exception does nothing else**, if the variable is a scalar:
nothing has been allocated or written. -/
theorem set_pin_croaks_first {m : Text} (hrun : set_pin (.scalar k s) p v h = .error (.croak m)) :
    set_pin (.scalar k s) p v = croak m := by
  have hraises : ∀ e, Raises (ofMagical (.scalar k s) v e) → Raises e := by
    intro e ⟨m, he⟩
    cases e with
    | croak m => exact ⟨m, rfl⟩
    | fault | outOfMemory => exact ⟨m, he⟩
  have hfirst : Exec.AtOnce Raises (set_pin (.scalar k s) p v) := by
    unfold set_pin
    split
    · rename_i hok
      rw [sv2ptr_scalar hok]
      exact ((sv2ptrScalar_atOnce k s v 0).mapError hraises).bind fun block =>
        (never_loadAt block _).bind fun bs => (never_store p bs).bind fun _ => never_safefree block
    · exact (Exec.never_pure ()).atOnce
  exact hfirst h _ ⟨m, rfl⟩ hrun

end Exceptions

end Affix.Analysis
