import Affix.Interface.CTypes
import Affix.Interface.FieldImage
import Affix.Analysis.RecordEncoding

/-!
# Writing a scalar into its field

A branch of `sv2ptr` for a scalar type lays some bytes at the address it is given: the
bytes of the value, of each element of an array, of all characters of a string. Where
the value fits they are at most those of the field, and they are its encoding or none.

SOURCE: marshal.cxx:9-327, marshal.cxx:378-440
-/

set_option autoImplicit false

namespace Affix.Analysis

open Affix.Foundation Affix.Model Affix.Interface

theorem length_encoding (k : Kind) (v : SV) : (encoding k v).length = k.sizeof := by
  cases k <;> rfl

theorem fieldEncoding_none {v : SV} (h : v.elems = none) (k : Kind) :
    fieldEncoding k v = encoding k v := by
  rw [fieldEncoding, h]

theorem fieldEncoding_some {v : SV} {es : List SV} (h : v.elems = some es) (k : Kind) :
    fieldEncoding k v = es.flatMap (encoding k) := by
  rw [fieldEncoding, h]

/-- A reference holds an address. -/
theorem addressOf_of_SvROK {ptr : SV} (h : ptr.SvROK = true) : ∃ q, addressOf ptr = .ok q := by
  cases ptr <;> first | exact ⟨_, rfl⟩ | cases h

/-- What a branch did: it laid bytes at the address, no more than the field has, and these
are the encoding of the value unless it is silent. -/
def LaysField (k : Kind) (v : SV) (a : ℕ) (h h' : Heap) : Prop :=
  ∃ bs, h'.mem = h.mem.poke a bs ∧ bs.length ≤ k.sizeof ∧
    (Literal k v → bs = [] ∧ Silent k v ∨ bs = fieldEncoding k v ∧ bs.length = k.sizeof)

section Branches

variable {k : Kind} {v : SV} {a room : ℕ} {h : Heap}

/-- Up to one element is stored at once. -/
theorem storeEach_one {stride : ℕ} {image : SV → List UInt8} {es : List SV} (hone : es.length ≤ 1) :
    storeEach stride image a es h = store a (es.flatMap image) h := by
  match es, hone with
  | [], _ =>
    have hnil : store a [] h = .ok ((), h) := by
      rw [store, Mem.write, if_pos (Or.inl rfl)]
      simp only [Mem.poke_nil]
    rw [List.flatMap_nil, hnil]
    rfl
  | [e], _ =>
    rw [List.flatMap_singleton, storeEach]
    cases hs : store a (image e) h with
    | error e' => exact Exec.bind_of_error hs
    | ok r => exact Exec.bind_of_ok hs

theorem fill_elements (ha : a ≠ 0) (new : Eff ℕ) (stride : ℕ) {image : SV → List UInt8}
    {es : List SV} (hone : es.length ≤ 1) (hin : h.mem.InBlock a (es.flatMap image).length) :
    (do
      let ret ← orNew a new
      storeEach stride image ret es
      pure ret) h = .ok (a, { h with mem := h.mem.poke a (es.flatMap image) }) := by
  have hstore : storeEach stride image a es h =
      .ok ((), { h with mem := h.mem.poke a (es.flatMap image) }) := by
    rw [storeEach_one hone]
    exact store_eq_ok.mpr ⟨Or.inr hin, rfl⟩
  exact (Exec.bind_of_ok (orNew_of_ne ha new h)).trans (Exec.bind_of_ok hstore)

/-- Up to one element has up to one encoding. -/
theorem length_flatMap_encoding {es : List SV} (hone : es.length ≤ 1) :
    (es.flatMap (encoding k)).length ≤ k.sizeof ∧
      (es = [] ∨ (es.flatMap (encoding k)).length = k.sizeof) := by
  match es, hone with
  | [], _ => exact ⟨Nat.zero_le _, Or.inl rfl⟩
  | [e], _ =>
    rw [List.flatMap_singleton, length_encoding]
    exact ⟨le_refl _, Or.inr rfl⟩

/-- An array of at most one element, each of which is stored as its encoding. -/
theorem laysField_elements {es : List SV} (hes : v.elems = some es) (hone : es.length ≤ 1) :
    LaysField k v a h { h with mem := h.mem.poke a (es.flatMap (encoding k)) } := by
  obtain ⟨hle, hlen⟩ := length_flatMap_encoding (k := k) hone
  refine ⟨_, rfl, hle, fun _ => ?_⟩
  rcases hlen with rfl | hlen
  · exact Or.inl ⟨rfl, Or.inr (Or.inl hes)⟩
  · exact Or.inr ⟨(fieldEncoding_some hes k).symm, hlen⟩

theorem laysField_value (hes : v.elems = none) :
    LaysField k v a h { h with mem := h.mem.poke a (encoding k v) } :=
  ⟨_, rfl, (length_encoding k v).le,
    fun _ => Or.inr ⟨(fieldEncoding_none hes k).symm, length_encoding k v⟩⟩

theorem laysField_nothing (hs : Silent k v) : LaysField k v a h h :=
  ⟨[], (Mem.poke_nil _ _).symm, Nat.zero_le _, fun _ => Or.inl ⟨rfl, hs⟩⟩

theorem inBlock_flatMap_encoding {es : List SV} (hone : es.length ≤ 1) (hin : h.mem.InBlock a room)
    (hroom : k.sizeof ≤ room) : h.mem.InBlock a (es.flatMap (encoding k)).length :=
  hin.mono (le_refl a) (by have := (length_flatMap_encoding (k := k) hone).1; omega)

theorem inBlock_encoding (hin : h.mem.InBlock a room) (hroom : k.sizeof ≤ room) :
    h.mem.InBlock a (encoding k v).length :=
  hin.mono (le_refl a) (by rw [length_encoding]; omega)

/-- **The branch of an integer type.** -/
theorem sv2ptrInt_lays {c : CIntType} {read : SV → ℤ}
    (hread : ∀ e, c.encode (read e) = encoding k e) (hsilent : v.SvOK = false → Silent k v)
    (hone : AtMostOne v) (hin : h.mem.InBlock a room) (hroom : k.sizeof ≤ room) (s : Slots) :
    Exec.Ends (· ≠ .fault) (sv2ptrInt c read s v a) h fun _ h' => LaysField k v a h h' := by
  have ha := hin.pos.ne'
  unfold sv2ptrInt
  simp only [hread]
  cases hok : v.SvOK with
  | false => exact Exec.ends_of_ok rfl (laysField_nothing (hsilent hok))
  | true =>
    cases hiok : v.SvIOK with
    | true =>
      have hes : v.elems = none := by cases v <;> first | rfl | cases hiok
      exact Exec.ends_of_ok (fill_given ha (inBlock_encoding hin hroom)) (laysField_value hes)
    | false =>
      cases hes : v.elems with
      | none => exact Halt.noConfusion
      | some es =>
        exact Exec.ends_of_ok
          (fill_elements ha _ _ (hone es hes) (inBlock_flatMap_encoding (hone es hes) hin hroom))
          (laysField_elements hes (hone es hes))

/-- **The branch of a floating type.** -/
theorem sv2ptrFloat_lays {size : ℕ} {image : ℕ → ℕ}
    (hread : ∀ e, encodeLE size (image (SvNV e)) = encoding k e)
    (hsilent : v.SvOK = false → Silent k v) (hone : AtMostOne v) (hin : h.mem.InBlock a room)
    (hroom : k.sizeof ≤ room) (s : Slots) :
    Exec.Ends (· ≠ .fault) (sv2ptrFloat size image s v a) h fun _ h' => LaysField k v a h h' := by
  have ha := hin.pos.ne'
  unfold sv2ptrFloat
  simp only [hread]
  cases hok : v.SvOK with
  | false => exact Exec.ends_of_ok rfl (laysField_nothing (hsilent hok))
  | true =>
    cases hnum : v.SvNOK || v.SvIOK with
    | true =>
      have hes : v.elems = none := by cases v <;> first | rfl | cases hnum
      exact Exec.ends_of_ok (fill_given ha (inBlock_encoding hin hroom)) (laysField_value hes)
    | false =>
      cases hes : v.elems with
      | none => exact Halt.noConfusion
      | some es =>
        exact Exec.ends_of_ok
          (fill_elements ha _ _ (hone es hes) (inBlock_flatMap_encoding (hone es hes) hin hroom))
          (laysField_elements hes (hone es hes))

/-- The branch of `BOOL_FLAG`. -/
theorem sv2ptrBool_lays (hone : AtMostOne v) (hin : h.mem.InBlock a room) (hroom : 1 ≤ room) :
    Exec.Ends (· ≠ .fault) (sv2ptrBool v a) h fun _ h' => LaysField .Bool v a h h' := by
  have ha := hin.pos.ne'
  unfold sv2ptrBool
  cases hes : v.elems with
  | none =>
    exact Exec.ends_of_ok (fill_given ha (inBlock_encoding (k := .Bool) hin hroom))
      (laysField_value hes)
  | some es =>
    exact Exec.ends_of_ok
      (fill_elements ha _ _ (hone es hes)
        (inBlock_flatMap_encoding (k := .Bool) (hone es hes) hin hroom))
      (laysField_elements hes (hone es hes))

/-- The branches of the types of characters: what they store of an array is its numbers. -/
theorem sv2ptrChar_lays {c : CIntType} {read : SV → ℤ} {count : ℕ → ℕ} {wide : CIntType}
    (hsize : k.sizeof = 1)
    (hread : ∀ e, c.encode (read e) = cchar.encode (svSlot e))
    (hliteral : Literal k v →
      (∀ es, v.elems = some es → ∀ e ∈ es, cchar.encode (svSlot e) = encoding k e) ∧
        (v.elems = none → (SvPV v).bytes = [] ∨ (SvPV v).bytes = encoding k v))
    (hsilent : v.SvOK = false ∨ v.elems = none ∧ (SvPV v).bytes = [] → Silent k v)
    (hone : AtMostOne v) (hstr : v.SvOK = true → v.elems = none → (SvPV v).bytes.length ≤ 1)
    (hin : h.mem.InBlock a room) (hroom : k.sizeof ≤ room) :
    Exec.Ends (· ≠ .fault) (sv2ptrChar c read count wide v a) h fun _ h' =>
      LaysField k v a h h' := by
  have ha := hin.pos.ne'
  unfold sv2ptrChar
  simp only [hread]
  cases hok : v.SvOK with
  | false => exact Exec.ends_of_ok rfl (laysField_nothing (hsilent (Or.inl hok)))
  | true =>
    cases hes : v.elems with
    | none =>
      have hlen := hstr hok hes
      refine Exec.ends_of_ok (fill_given ha (hin.mono (le_refl a) (by omega)))
        ⟨_, rfl, by omega, fun hl => ?_⟩
      rcases (hliteral hl).2 hes with hnil | henc
      · exact Or.inl ⟨hnil, hsilent (Or.inr ⟨hes, hnil⟩)⟩
      · rw [henc, fieldEncoding_none hes]
        exact Or.inr ⟨rfl, length_encoding k v⟩
    | some es =>
      have hcell : (es.flatMap fun e => cchar.encode (svSlot e)).length ≤ 1 := by
        rcases es with _ | ⟨e, _ | ⟨e', es⟩⟩
        · exact Nat.zero_le _
        · exact le_refl _
        · exact absurd (hone _ hes) (by simp)
      refine Exec.ends_of_ok (fill_elements ha _ _ (hone es hes) (hin.mono (le_refl a) (by omega)))
        ⟨_, rfl, by omega, fun hl => ?_⟩
      have henc : (es.flatMap fun e => cchar.encode (svSlot e)) = es.flatMap (encoding k) :=
        List.flatMap_congr fun e he => (hliteral hl).1 es hes e he
      rw [henc]
      rcases (length_flatMap_encoding (k := k) (hone es hes)).2 with rfl | hlen
      · exact Or.inl ⟨rfl, Or.inr (Or.inl hes)⟩
      · exact Or.inr ⟨(fieldEncoding_some hes k).symm, hlen⟩

/-- The branch of `WCHAR_FLAG`. -/
theorem sv2ptrWChar_lays (hlen : (wideChars v).length ≤ 1) (h16 : 16 ≤ room)
    (hin : h.mem.InBlock a room) :
    Exec.Ends (· ≠ .fault) (sv2ptrWChar v a) h fun _ h' => LaysField .WChar v a h h' := by
  have hload : load h.mem a 16 = .ok (h.mem.peek a 16) := by
    rw [load, Mem.read_eq_peek (hin.mono (le_refl a) (by omega))]
  have hbytes : ((wideChars v).flatMap (encodeLE 4)).length ≤ 4 := by
    match wideChars v, hlen with
    | [], _ => exact Nat.zero_le _
    | [c], _ => exact le_refl _
  refine Exec.Ends.bind_of_ok rfl (Exec.Ends.bind_of_ok (Exec.lift_eq_ok.mpr ⟨hload, rfl⟩) ?_)
  have hstore := store_eq_ok.mpr
    ⟨Or.inr (hin.mono (le_refl a) (Nat.add_le_add_left (hbytes.trans (by omega)) a)), rfl⟩
  refine Exec.ends_of_ok (Exec.bind_of_ok hstore) ⟨_, rfl, hbytes, fun hl => ?_⟩
  cases hw : wideChars v with
  | nil => exact Or.inl ⟨rfl, Or.inr (Or.inr hw)⟩
  | cons c cs =>
    have hcs : cs = [] := by
      rw [hw, List.length_cons] at hlen
      exact List.eq_nil_of_length_eq_zero (by omega)
    have hhead : (SvPV v).chars.headD 0 = c := by
      cases hc : (SvPV v).chars with
      | nil =>
        rw [wideChars, hc] at hw
        cases hw
      | cons d ds =>
        rw [wideChars, hc, List.takeWhile_cons] at hw
        split at hw <;> cases hw
        rfl
    right
    rw [fieldEncoding_none hl, encoding, hhead, hcs]
    exact ⟨rfl, rfl⟩

/-- The address of a pointer object is read without touching memory. -/
theorem objectAddress_returns {es : List SV} (hobj : asPointerObject v = some es)
    (hr : Readable v) (ret : ℕ) (h : Heap) :
    ∃ q, (do
        let ptr ← Exec.lift (pointerAddr es)
        if ptr.SvOK then Exec.lift (addressOf ptr) else pure ret : Eff ℕ) h = .ok (q, h) ∧
      (HasAddress (fun ptr => ptr.SvOK = true ∧ addressOf ptr = .ok q) v ∨
        q = ret ∧ HasAddress (fun ptr => ptr.SvOK = false) v) := by
  obtain ⟨ptr, rest, rfl, href⟩ := hr es hobj
  cases hptr : ptr.SvOK with
  | false =>
    refine ⟨ret, ?_, Or.inr ⟨rfl, _, ptr, hobj, rfl, hptr⟩⟩
    simp [pointerAddr, hptr, Exec.bind_of_ok (Exec.lift_ok_apply ptr h)]
  | true =>
    obtain ⟨q, hq⟩ := addressOf_of_SvROK (href hptr)
    refine ⟨q, ?_, Or.inl ⟨_, ptr, hobj, rfl, hptr, hq⟩⟩
    simp [pointerAddr, hptr, hq, Exec.bind_of_ok (Exec.lift_ok_apply ptr h)]

/-- The branch of `VOID_FLAG`, which a field of a union may have. -/
theorem sv2ptrVoid_lays (ha : a ≠ 0) (hr : Readable v)
    (hnil : asPointerObject v = none → v.SvOK = true → ∀ bs, (SvPV v).pvbyte = some bs → bs = []) :
    Exec.Ends (· ≠ .fault) (sv2ptrVoid v a) h fun _ h' => LaysField .Void v a h h' := by
  have hsilent : Silent .Void v := Or.inr (Or.inr trivial)
  unfold sv2ptrVoid
  cases hok : v.SvOK with
  | false => exact Exec.ends_of_ok rfl (laysField_nothing hsilent)
  | true =>
    cases hobj : asPointerObject v with
    | some es =>
      obtain ⟨q, hrun, -⟩ := objectAddress_returns hobj hr a h
      exact Exec.ends_of_ok hrun (laysField_nothing hsilent)
    | none =>
      cases hpv : (SvPV v).pvbyte with
      | none =>
        have hbyte : SvPVbyte v = .error (.croak (text "Wide character")) := by
          rw [SvPVbyte, hpv]
        simp only [if_true]
        unfold Exec.Ends
        rw [Exec.bind_of_error (by rw [hbyte]; rfl)]
        exact Halt.noConfusion
      | some bs =>
        have hbyte : SvPVbyte v = .ok bs := by rw [SvPVbyte, hpv]
        have hbs := hnil hobj hok bs hpv
        subst hbs
        simp only [if_true]
        refine Exec.Ends.bind_of_ok (Exec.lift_eq_ok.mpr ⟨hbyte, rfl⟩) ?_
        refine Exec.Ends.bind_of_ok (orNew_of_ne ha _ h) ?_
        refine Exec.Ends.bind_of_ok (store_eq_ok.mpr ⟨Or.inl rfl, rfl⟩) ?_
        refine Exec.ends_of_ok rfl ?_
        rw [Mem.poke_nil]
        exact laysField_nothing hsilent

/-- Bytes that were laid at a field and fit it leave the rest alone. Where they are the
encoding, or the encoding was there and they are none, the field now has it. -/
theorem LaysField.fills {h' : Heap} (hl : LaysField k v a h h') :
    h.mem.Extends h'.mem (Outside a (a + k.sizeof)) ∧ (Literal k v →
      (Silent k v → h.mem.peek a k.sizeof = fieldEncoding k v) →
        h'.mem.peek a k.sizeof = fieldEncoding k v) := by
  obtain ⟨bs, hmem, hle, hbs⟩ := hl
  rw [hmem]
  refine ⟨(Mem.extends_poke h.mem a bs).weaken fun x _ hx => ?_, fun hliteral hthere => ?_⟩
  · unfold Outside at hx
    omega
  · rcases hbs hliteral with ⟨rfl, hsilent⟩ | ⟨henc, hlen⟩
    · rw [Mem.poke_nil]
      exact hthere hsilent
    · rw [← henc, ← hlen]
      exact Mem.peek_poke_same _ _ _

end Branches

/-! ## New blocks -/

/-- A block that was made in a new place. -/
structure Made (h h' : Heap) (n p : ℕ) : Prop where
  above : h.mem.brk ≤ p
  block : (p, n) ∈ h'.mem.blocks
  frame : h.mem.Extends h'.mem fun _ => True

/-- A request for memory fails only for want of it. -/
theorem ends_safemalloc (n : ℕ) (h : Heap) :
    Exec.Ends (· ≠ .fault) (safemalloc n) h fun p h' => Made h h' (atLeastOne n) p := by
  unfold Exec.Ends
  cases hm : safemalloc n h with
  | error e =>
    rw [safemalloc] at hm
    split at hm <;> cases hm
    exact Halt.noConfusion
  | ok r =>
    obtain ⟨p, h'⟩ := r
    obtain ⟨m, hmalloc, rfl⟩ := safemalloc_eq_ok.mp hm
    obtain ⟨rfl, -, -, -, hext⟩ := Mem.malloc_cases hmalloc
    exact ⟨le_refl _, Mem.malloc_block hmalloc, hext⟩

theorem made_Newxz (count size : ℕ) (h : Heap) :
    Exec.Ends (· ≠ .fault) (Newxz count size) h fun p h' =>
      Made h h' (atLeastOne count * size) p := by
  unfold Exec.Ends
  cases hm : Newxz count size h with
  | error e =>
    rw [Newxz] at hm
    split at hm <;> cases hm
    exact Halt.noConfusion
  | ok r =>
    obtain ⟨p, h'⟩ := r
    obtain ⟨m, hcalloc, rfl⟩ := Newxz_eq_ok.mp hm
    obtain ⟨rfl, -, -, -, hext, -⟩ := Mem.calloc_cases hcalloc
    exact ⟨le_refl _, Mem.calloc_block hcalloc, hext⟩

/-- A block for one item. -/
theorem made_one (n : ℕ) (h : Heap) :
    Exec.Ends (· ≠ .fault) (Newxz 1 n) h fun p h' => Made h h' n p := by
  have hmade := made_Newxz 1 n h
  rwa [bytes_one] at hmade

theorem Made.inBlock {h h' : Heap} {n p : ℕ} (hm : Made h h' n p) : h'.mem.InBlock p n :=
  ⟨(p, n), hm.block, le_refl _, le_refl _⟩

/-- The elements of an array are stored in the block that has room for them. -/
theorem storeEach_fits (stride : ℕ) {image : SV → List UInt8}
    (himage : ∀ e, (image e).length = stride)
    {lo p n : ℕ} (es : List SV) {h : Heap} (hlo : lo ≤ p) (hin : h.mem.InBlock p n)
    (hroom : es.length * stride ≤ n) :
    Exec.Ends (· ≠ .fault) (storeEach stride image p es) h fun _ h' =>
      h.mem.Extends h'.mem fun x => x < lo := by
  induction es generalizing p n h with
  | nil => exact Exec.ends_of_ok rfl (Mem.Extends.refl _ _)
  | cons e es ih =>
    rw [List.length_cons, Nat.succ_mul] at hroom
    have hstore : store p (image e) h = .ok ((), _) :=
      store_eq_ok.mpr ⟨Or.inr (hin.mono (le_refl p) (by rw [himage]; omega)), rfl⟩
    refine Exec.Ends.bind_of_ok hstore ?_
    have hpoke := Mem.extends_poke h.mem p (image e)
    have hrest := ih (p := p + stride) (n := n - stride)
      (h := { h with mem := h.mem.poke p (image e) }) (by omega)
      ((hpoke.inBlock hin).mono (by omega) (by omega)) (by omega)
    exact hrest.mono fun _ h' hext =>
      (hpoke.trans hext).weaken fun x _ hx => ⟨Or.inl (by omega), hx⟩

/-- A new block that is filled from its start. -/
theorem filled_new {count size : ℕ} {fill : ℕ → Eff Unit} {h : Heap}
    (hfill : ∀ p h₁, Made h h₁ (atLeastOne count * size) p →
      Exec.Ends (· ≠ .fault) (fill p) h₁ fun _ h' => h₁.mem.Extends h'.mem fun x => x < p) :
    Exec.Ends (· ≠ .fault) (do
      let ret ← orNew 0 (Newxz count size)
      fill ret
      pure ret) h fun p h' => Made h h' (atLeastOne count * size) p := by
  refine (made_Newxz count size h).bind fun p h₁ hm => (hfill p h₁ hm).bind fun _ h₂ hext => ?_
  refine Exec.ends_of_ok rfl ⟨hm.above, hext.blocks _ hm.block, ?_⟩
  exact (hm.frame.trans hext).weaken fun x hx _ => ⟨trivial, hx.trans_le hm.above⟩

/-- Bytes that are stored in a new block with room for them. -/
theorem copied_new {count size : ℕ} (bs : List UInt8) (hlen : bs.length ≤ count * size)
    (h : Heap) :
    Exec.Ends (· ≠ .fault) (do
      let ret ← orNew 0 (Newxz count size)
      store ret bs
      pure ret) h fun p h' => Made h h' (atLeastOne count * size) p := by
  have hroom := hlen.trans (le_bytes count size)
  refine filled_new fun p h₁ hm => ?_
  refine Exec.ends_of_ok
    (store_eq_ok.mpr ⟨Or.inr (hm.inBlock.mono (le_refl p) (by omega)), rfl⟩) ?_
  exact (Mem.extends_poke h₁.mem p bs).weaken fun x _ hx => Or.inl hx

/-- What a conversion to a new place did: a new block, or none and no effect. -/
def Copies (h : Heap) (none : Prop) (q : ℕ) (h' : Heap) : Prop :=
  (∃ n, Made h h' n q) ∨ h' = h ∧ q = 0 ∧ none

theorem sv2ptrInt_copies {c : CIntType} {read : SV → ℤ} (s : Slots) (v : SV) (h : Heap) :
    Exec.Ends (· ≠ .fault) (sv2ptrInt c read s v 0) h (Copies h (v.SvOK = false)) := by
  unfold sv2ptrInt
  cases hok : v.SvOK with
  | false => exact Exec.ends_of_ok rfl (Or.inr ⟨rfl, rfl, rfl⟩)
  | true =>
    cases v.SvIOK with
    | true =>
      exact (copied_new _ (by rw [CIntType.length_encode, Nat.one_mul]) h).mono
        fun p h' hm => Or.inl ⟨_, hm⟩
    | false =>
      cases v.elems with
      | none => exact Halt.noConfusion
      | some es =>
        refine (filled_new fun p h₁ hm => ?_).mono fun p h' hm => Or.inl ⟨_, hm⟩
        exact storeEach_fits _ (fun e => CIntType.length_encode _ _) es (le_refl p) hm.inBlock
          (le_bytes _ _)

theorem sv2ptrFloat_copies {size : ℕ} {image : ℕ → ℕ} (s : Slots) (v : SV) (h : Heap) :
    Exec.Ends (· ≠ .fault) (sv2ptrFloat size image s v 0) h (Copies h (v.SvOK = false)) := by
  unfold sv2ptrFloat
  cases hok : v.SvOK with
  | false => exact Exec.ends_of_ok rfl (Or.inr ⟨rfl, rfl, rfl⟩)
  | true =>
    cases v.SvNOK || v.SvIOK with
    | true =>
      exact (copied_new _ (by rw [length_encodeLE, Nat.one_mul]) h).mono
        fun p h' hm => Or.inl ⟨_, hm⟩
    | false =>
      cases v.elems with
      | none => exact Halt.noConfusion
      | some es =>
        refine (filled_new fun p h₁ hm => ?_).mono fun p h' hm => Or.inl ⟨_, hm⟩
        exact storeEach_fits _ (fun e => length_encodeLE _ _) es (le_refl p) hm.inBlock
          (le_bytes _ _)

theorem sv2ptrBool_copies (v : SV) (h : Heap) :
    Exec.Ends (· ≠ .fault) (sv2ptrBool v 0) h (Copies h (v.SvOK = false)) := by
  unfold sv2ptrBool
  cases v.elems with
  | none =>
    exact (copied_new (boolByte (SvTRUE v)) (le_refl 1) h).mono
      fun p h' hm => Or.inl ⟨_, hm⟩
  | some es =>
    refine (filled_new fun p h₁ hm => ?_).mono fun p h' hm => Or.inl ⟨_, hm⟩
    exact storeEach_fits 1 (fun e => rfl) es (le_refl p) hm.inBlock (le_bytes _ _)

theorem sv2ptrChar_copies {c : CIntType} {read : SV → ℤ} {count : ℕ → ℕ} {wide : CIntType}
    (hone : ∀ e, (c.encode (read e)).length = 1) (hcount : ∀ n, n ≤ count n * wide.size) (v : SV)
    (h : Heap) :
    Exec.Ends (· ≠ .fault) (sv2ptrChar c read count wide v 0) h (Copies h (v.SvOK = false)) := by
  unfold sv2ptrChar
  cases hok : v.SvOK with
  | false => exact Exec.ends_of_ok rfl (Or.inr ⟨rfl, rfl, rfl⟩)
  | true =>
    cases v.elems with
    | none =>
      exact (copied_new _ (by rw [Nat.mul_one]; exact Nat.le_succ _) h).mono
        fun p h' hm => Or.inl ⟨_, hm⟩
    | some es =>
      refine (filled_new fun p h₁ hm => ?_).mono fun p h' hm => Or.inl ⟨_, hm⟩
      have hroom := (hcount es.length).trans (le_bytes _ _)
      exact storeEach_fits 1 hone es (le_refl p) hm.inBlock (by rw [Nat.mul_one]; exact hroom)

section Types

variable {k : Kind} {v : SV} {a room : ℕ} {h : Heap}

/-! ## The branches by type -/

/-- The branches of the types of characters. -/
theorem characterBranch (hk : k = .Char ∨ k = .SChar ∨ k = .UChar) :
    ∃ (c : CIntType) (read : SV → ℤ) (count : ℕ → ℕ) (wide : CIntType),
      (∀ e, c.encode (read e) = cchar.encode (svSlot e)) ∧ (∀ n, n ≤ count n * wide.size) ∧
        ∀ s v a, sv2ptrScalar k s v a = sv2ptrChar c read count wide v a := by
  rcases hk with rfl | rfl | rfl
  · exact ⟨cchar, SvIV, id, cint, fun e => CIntType.encode_congr (wrap_SvIV (by decide) e),
      fun n => Nat.le_mul_of_pos_right n (by decide), fun _ _ _ => rfl⟩
  · exact ⟨cchar, SvIV, id, cint, fun e => CIntType.encode_congr (wrap_SvIV (by decide) e),
      fun n => Nat.le_mul_of_pos_right n (by decide), fun _ _ _ => rfl⟩
  · have hroom : ∀ n, n ≤ (n + 1) * cuint.size := by
      intro n
      show n ≤ (n + 1) * 4
      omega
    have hread : ∀ e, cuchar.encode (SvUV e) = cuchar.encode (svSlot e) :=
      fun e => CIntType.encode_congr (wrap_SvUV (by decide) e)
    exact ⟨cuchar, SvUV, (· + 1), cuint, hread, hroom, fun _ _ _ => rfl⟩

/-- The branches of the other integer types. -/
theorem integerBranch {c : CIntType} (hk : cInt k = some c) (hwide : c ≠ cchar ∧ c ≠ cuchar) :
    ∃ read : SV → ℤ, (∀ e, c.encode (read e) = encoding k e) ∧
      ∀ s v a, sv2ptrScalar k s v a = sv2ptrInt c read s v a := by
  cases k <;> simp only [cInt, Option.some.injEq, reduceCtorEq] at hk <;> subst hk
  case Char | SChar => exact absurd rfl hwide.1
  case UChar => exact absurd rfl hwide.2
  case UShort | UInt =>
    exact ⟨SvUV, fun e => CIntType.encode_congr (wrap_SvUV (by decide) e), fun _ _ _ => rfl⟩
  all_goals exact ⟨SvIV, fun e => CIntType.encode_congr (wrap_SvIV (by decide) e), fun _ _ _ => rfl⟩

/-- The branches of the floating types. -/
theorem floatBranch (hk : k = .Float ∨ k = .Double) :
    ∃ (size : ℕ) (image : ℕ → ℕ), (∀ e, encodeLE size (image (SvNV e)) = encoding k e) ∧
      ∀ s v a, sv2ptrScalar k s v a = sv2ptrFloat size image s v a := by
  rcases hk with rfl | rfl
  · exact ⟨4, binary64.convert binary32, fun _ => rfl, fun _ _ _ => rfl⟩
  · exact ⟨8, id, fun _ => rfl, fun _ _ _ => rfl⟩

theorem fieldEncoding_SV (v : SV) : fieldEncoding .SV v = [] := by
  unfold fieldEncoding
  cases v.elems with
  | none => rfl
  | some es => exact List.flatMap_eq_nil_iff.mpr fun _ _ => rfl

/-- **A scalar that fits its field** is written there and nowhere else. -/
theorem sv2ptrScalar_fills (hfits : ScalarFits room k v) (hnot : ¬ ExplicitUndef v)
    (hin : h.mem.InBlock a room) (hroom : k.sizeof ≤ room) (s : Slots) :
    Exec.Ends (· ≠ .fault) (sv2ptrScalar k s v a) h fun _ h' =>
      h.mem.Extends h'.mem (Outside a (a + k.sizeof)) ∧ (Literal k v →
        (Silent k v → h.mem.peek a k.sizeof = fieldEncoding k v) →
          h'.mem.peek a k.sizeof = fieldEncoding k v) := by
  have hcharacter := characterBranch (k := k)
  have hfloat := floatBranch (k := k)
  have hinteger := fun c => integerBranch (k := k) (c := c)
  cases k
  case Void => exact (sv2ptrVoid_lays hin.pos.ne' hfits.1 hfits.2).mono fun _ _ => LaysField.fills
  case Bool => exact (sv2ptrBool_lays hfits hin hroom).mono fun _ _ => LaysField.fills
  case SV =>
    refine (ends_safemalloc 24 h).bind fun p h₁ hm => ?_
    refine Exec.ends_of_ok rfl ⟨hm.frame.weaken fun _ _ _ => trivial, fun _ _ => ?_⟩
    exact (fieldEncoding_SV v).symm
  case WChar =>
    rcases hfits with hexp | ⟨h16, hlen⟩
    · exact absurd hexp hnot
    · exact (sv2ptrWChar_lays hlen h16 hin).mono fun _ _ => LaysField.fills
  case Char | SChar | UChar =>
    obtain ⟨c, read, count, wide, hread, -, hrun⟩ := hcharacter (by decide)
    rw [hrun]
    exact (sv2ptrChar_lays rfl hread id (fun hs => Or.inr (Or.inr hs)) hfits.1 hfits.2 hin
      hroom).mono fun _ _ => LaysField.fills
  case Float | Double =>
    obtain ⟨size, image, hread, hrun⟩ := hfloat (by decide)
    rw [hrun]
    exact (sv2ptrFloat_lays hread (fun hs => Or.inr (Or.inr hs)) hfits hin hroom s).mono
      fun _ _ => LaysField.fills
  all_goals
    obtain ⟨read, hread, hrun⟩ := hinteger _ rfl ⟨by decide, by decide⟩
    rw [hrun]
    exact (sv2ptrInt_lays hread (fun hs => Or.inr (Or.inr hs)) hfits hin hroom s).mono
      fun _ _ => LaysField.fills

theorem Copies.address {none : Prop} {q : ℕ} {h' : Heap} {t : TypeObj} (hc : Copies h none q h')
    (hnone : none → NoCopy t v) {bound : ℕ} (hbound : bound ≤ h.mem.brk) :
    h.mem.Extends h'.mem (fun _ => True) ∧ CopyAddress bound h'.mem t v q := by
  rcases hc with ⟨n, hm⟩ | ⟨rfl, rfl, hn⟩
  · exact ⟨hm.frame, Or.inl ⟨hbound.trans hm.above, n, hm.block⟩⟩
  · exact ⟨Mem.Extends.refl _ _, Or.inr (Or.inr ⟨rfl, hnone hn⟩)⟩

/-- The address of a pointer object stands for a copy. -/
theorem copied_object {es : List SV} (hobj : asPointerObject v = some es) (hr : Readable v)
    (t : TypeObj) (bound : ℕ) (h : Heap) :
    Exec.Ends (· ≠ .fault) (do
      let ptr ← Exec.lift (pointerAddr es)
      if ptr.SvOK then Exec.lift (addressOf ptr) else pure 0 : Eff ℕ) h fun q h' =>
        h.mem.Extends h'.mem (fun _ => True) ∧ CopyAddress bound h'.mem t v q := by
  obtain ⟨q, hrun, haddr⟩ := objectAddress_returns hobj hr 0 h
  refine Exec.ends_of_ok hrun ⟨Mem.Extends.refl _ _, ?_⟩
  rcases haddr with haddr | ⟨rfl, hnull⟩
  · exact Or.inr (Or.inl haddr)
  · exact Or.inr (Or.inr ⟨rfl, Or.inr (Or.inl hnull)⟩)

/-- The branch of `VOID_FLAG`: a copy of the bytes, or the address of an object. -/
theorem sv2ptrVoid_copies (hr : Readable v) (t : TypeObj) {bound : ℕ} (hbound : bound ≤ h.mem.brk) :
    Exec.Ends (· ≠ .fault) (sv2ptrVoid v 0) h fun q h' =>
      h.mem.Extends h'.mem (fun _ => True) ∧ CopyAddress bound h'.mem t v q := by
  unfold sv2ptrVoid
  cases hok : v.SvOK with
  | false =>
    exact Exec.ends_of_ok rfl ⟨Mem.Extends.refl _ _, Or.inr (Or.inr ⟨rfl, Or.inl hok⟩)⟩
  | true =>
    cases hobj : asPointerObject v with
    | some es => exact copied_object hobj hr t bound h
    | none =>
      cases hbyte : SvPVbyte v with
      | error e =>
        have he : e ≠ .fault := by
          rw [SvPVbyte] at hbyte
          split at hbyte <;> cases hbyte
          exact Halt.noConfusion
        simp only [if_true]
        unfold Exec.Ends
        rw [Exec.bind_of_error (Exec.lift_error_apply e h)]
        exact he
      | ok bs =>
        simp only [if_true]
        refine Exec.Ends.bind_of_ok (Exec.lift_ok_apply bs h) ?_
        refine (copied_new _ (Nat.mul_one _).ge h).mono fun q h' hm => ?_
        exact ⟨hm.frame, Or.inl ⟨hbound.trans hm.above, _, hm.block⟩⟩

/-- **A copy of a scalar** is a new block. -/
theorem sv2ptrScalar_copies (hfits : ScalarCopyFits k v) (hnot : ¬ ExplicitUndef v) (s : Slots)
    {bound : ℕ} (hbound : bound ≤ h.mem.brk) :
    Exec.Ends (· ≠ .fault) (sv2ptrScalar k s v 0) h fun q h' =>
      h.mem.Extends h'.mem (fun _ => True) ∧ CopyAddress bound h'.mem (.scalar k s) v q := by
  have hcharacter := characterBranch (k := k)
  have hfloat := floatBranch (k := k)
  have hinteger := fun c => integerBranch (k := k) (c := c)
  cases k
  case Void => exact sv2ptrVoid_copies hfits _ hbound
  case Bool => exact (sv2ptrBool_copies v h).mono fun _ _ hc => hc.address Or.inl hbound
  case SV =>
    refine (ends_safemalloc 24 h).bind fun p h₁ hm => ?_
    exact Exec.ends_of_ok rfl ⟨hm.frame, Or.inl ⟨hbound.trans hm.above, _, hm.block⟩⟩
  case WChar => exact absurd hfits hnot
  case Char | SChar | UChar =>
    obtain ⟨c, read, count, wide, hread, hcount, hrun⟩ := hcharacter (by decide)
    rw [hrun]
    exact (sv2ptrChar_copies (fun e => by rw [hread]; rfl) hcount v h).mono
      fun _ _ hc => hc.address Or.inl hbound
  case Float | Double =>
    obtain ⟨size, image, -, hrun⟩ := hfloat (by decide)
    rw [hrun]
    exact (sv2ptrFloat_copies s v h).mono fun _ _ hc => hc.address Or.inl hbound
  all_goals
    obtain ⟨read, -, hrun⟩ := hinteger _ rfl ⟨by decide, by decide⟩
    rw [hrun]
    exact (sv2ptrInt_copies s v h).mono fun _ _ hc => hc.address Or.inl hbound

end Types

end Affix.Analysis
