import Affix.Analysis.RecordLayout
import Affix.Model.Marshal

/-!
# Writing a record

`sv2ptr` leaves the image of every scalar at the offset of its field, and the
address of a new copy of every string. `Stored` says so of a memory. Writing one
field moves no other: fields do not overlap, and the copies of strings lie above
the block of the record. The frame lemma turns this into what the loop needs.
-/

set_option autoImplicit false

namespace Affix.Analysis

open Affix.Foundation Affix.Model Affix.Interface

/-! ## What memory holds -/

def image (k : Kind) (v : SV) : List UInt8 :=
  match reading k with
  | some .truth => boolByte (SvTRUE v)
  | some .character => (SvPV v).bytes
  | some (.number c) => c.encode (svSlot v)
  | none => []

/-- A string and its terminator lie at an address, above a bound. -/
structure StringAt (m : Mem) (bound q : ℕ) (bs : List UInt8) : Prop where
  above : bound ≤ q
  below : q < addrLimit
  inBlock : m.InBlock q (bs.length + 1)
  bytes : m.peek q (bs.length + 1) = bs ++ [0]

/-- The memory holds a value of a field at an address, its strings above the bound. -/
def Stored (m : Mem) (bound : ℕ) : TypeObj → ℕ → SV → Prop
  | .scalar k _, a, v => m.peek a k.sizeof = image k v
  | .pointer _ _, a, v => ∃ q, m.peek a SIZEOF_INTPTR_T = pointerBytes q ∧
      StringAt m bound q (SvPV v).bytes
  | .struct _ fields, a, v => ∃ es, v.entries = some es ∧ storedFields es a fields
  | _, _, _ => False
where
  storedFields (es : List (Text × SV)) (a : ℕ) : List TypeObj → Prop
    | [] => True
    | field :: rest => (∃ v, es.lookup (fieldKey field) = some v ∧
        Stored m bound field (a + field.offset) v) ∧ storedFields es a rest

def Outside (lo hi x : ℕ) : Prop := x < lo ∨ hi ≤ x

section Frame

variable {m m' : Mem} {bound : ℕ} {keep : ℕ → Prop}

theorem StringAt.frame {q : ℕ} {bs : List UInt8} (h : StringAt m bound q bs)
    (hext : m.Extends m' keep) (habove : ∀ x, bound ≤ x → keep x) : StringAt m' bound q bs where
  above := h.above
  below := h.below
  inBlock := hext.inBlock h.inBlock
  bytes := by
    rw [hext.peek h.inBlock fun x hlo _ => habove x (h.above.trans hlo)]
    exact h.bytes

mutual

/-- **The frame lemma**: what is stored at a field stays there while everything at the field
and everything above the bound is left alone. -/
theorem Stored.frame : ∀ {t : TypeObj} {a : ℕ} {v : SV}, Marshals t → Stored m bound t a v →
    m.InBlock a t.sizeof → m.Extends m' keep → (∀ x, a ≤ x → x < a + t.sizeof → keep x) →
    (∀ x, bound ≤ x → keep x) → Stored m' bound t a v
  | .scalar k s, a, v, ht, h, hin, hext, hkeep, _ => by
    have hsize : (TypeObj.scalar k s).sizeof = k.sizeof := ht.2
    rw [hsize] at hin hkeep
    show m'.peek a k.sizeof = image k v
    rw [hext.peek hin hkeep]
    exact h
  | .pointer s subtype, a, v, ht, h, hin, hext, hkeep, habove => by
    have hsize : (TypeObj.pointer s subtype).sizeof = SIZEOF_INTPTR_T := ht.1
    rw [hsize] at hin hkeep
    obtain ⟨q, hq, hstr⟩ := h
    refine ⟨q, ?_, hstr.frame hext habove⟩
    rw [hext.peek hin hkeep]
    exact hq
  | .struct s fields, a, v, ht, h, hin, hext, hkeep, habove => by
    obtain ⟨es, hes, hfields⟩ := h
    exact ⟨es, hes, storedFields_frame ht.2.1 ht.2.2 hfields hin hext
      (fun x hlo hhi => hkeep x (by omega) hhi) habove⟩

theorem storedFields_frame : ∀ {fields : List TypeObj} {es : List (Text × SV)} {a lo hi : ℕ},
    InOrder lo hi fields → Marshals.allMarshals fields →
    Stored.storedFields m bound es a fields → m.InBlock a hi → m.Extends m' keep →
    (∀ x, a + lo ≤ x → x < a + hi → keep x) → (∀ x, bound ≤ x → keep x) →
    Stored.storedFields m' bound es a fields
  | [], _, _, _, _, _, _, _, _, _, _, _ => trivial
  | field :: rest, es, a, lo, hi, horder, hall, h, hin, hext, hkeep, habove => by
    obtain ⟨-, hlo, hrest⟩ := horder
    obtain ⟨⟨v, hv, hfield⟩, htail⟩ := h
    have hend := hrest.lo_le_hi
    have hinField : m.InBlock (a + field.offset) field.sizeof := hin.mono (by omega) (by omega)
    refine ⟨⟨v, hv, ?_⟩, ?_⟩
    · exact hfield.frame hall.1 hinField hext (fun x h1 h2 => hkeep x (by omega) (by omega)) habove
    · exact storedFields_frame hrest hall.2 htail hin hext
        (fun x h1 h2 => hkeep x (by omega) h2) habove

end

end Frame

/-! ## Scalars -/

theorem orNew_of_ne {a : ℕ} (ha : a ≠ 0) (new : Eff ℕ) (h : Heap) :
    orNew a new h = .ok (a, h) := by
  rw [orNew, if_neg ha]
  rfl

theorem fill_given {a : ℕ} {new : Eff ℕ} (ha : a ≠ 0) {bs : List UInt8} {h : Heap}
    (hin : h.mem.InBlock a bs.length) :
    (do
      let ret ← orNew a new
      store ret bs
      pure ret) h = .ok (a, { h with mem := h.mem.poke a bs }) :=
  (Exec.bind_of_ok (orNew_of_ne ha new h)).trans
    (Exec.bind_of_ok (store_eq_ok.mpr ⟨Or.inr hin, rfl⟩))

theorem reading_truth {k : Kind} (hk : reading k = some .truth) : k = .Bool := by
  cases k <;> first | rfl | cases hk

/-- The branches of the types of characters. -/
theorem sv2ptrScalar_character {k : Kind} (hk : reading k = some .character) :
    k.sizeof = 1 ∧ ∃ c read count wide, ∀ s v a,
      sv2ptrScalar k s v a = sv2ptrChar c read count wide v a := by
  cases k <;> simp only [reading, Option.some.injEq, reduceCtorEq] at hk
  case UChar => exact ⟨rfl, cuchar, SvUV, (· + 1), cuint, fun _ _ _ => rfl⟩
  all_goals exact ⟨rfl, cchar, SvIV, id, cint, fun _ _ _ => rfl⟩

/-- The branches of the types of numbers. -/
theorem sv2ptrScalar_number {k : Kind} {c : CIntType} (hk : reading k = some (.number c)) :
    c.size = k.sizeof ∧ ∃ read : SV → ℤ, (∀ v, c.wrap (read v) = c.wrap (svSlot v)) ∧
      ∀ s v a, sv2ptrScalar k s v a = sv2ptrInt c read s v a := by
  cases k <;> simp only [reading, Option.some.injEq, reduceCtorEq, Reading.number.injEq] at hk <;>
    subst hk
  case UShort | UInt => exact ⟨rfl, SvUV, wrap_SvUV (by decide), fun _ _ _ => rfl⟩
  all_goals exact ⟨rfl, SvIV, wrap_SvIV (by decide), fun _ _ _ => rfl⟩

/-- **A scalar field** is written as its image. -/
theorem sv2ptrScalar_stores {k : Kind} {v : SV} (hv : ScalarValue k v) (s : Slots) {a : ℕ}
    (ha : a ≠ 0) {h : Heap} (hin : h.mem.InBlock a k.sizeof) :
    (image k v).length = k.sizeof ∧
      sv2ptrScalar k s v a h = .ok (a, { h with mem := h.mem.poke a (image k v) }) := by
  unfold ScalarValue at hv
  cases hk : reading k with
  | none =>
    rw [hk] at hv
    exact hv.elim
  | some r =>
    simp only [hk] at hv
    simp only [image, hk]
    cases r with
    | truth =>
      rw [reading_truth hk] at hin ⊢
      refine ⟨rfl, ?_⟩
      simp only [sv2ptrScalar, sv2ptrBool, hv.1]
      exact fill_given ha hin
    | character =>
      obtain ⟨hok, hes, b, hb⟩ := hv
      obtain ⟨hsize, c, read, count, wide, hrun⟩ := sv2ptrScalar_character hk
      rw [hsize] at hin ⊢
      refine ⟨by rw [hb]; rfl, ?_⟩
      simp only [hrun, sv2ptrChar, hok, if_true, hes]
      exact fill_given ha (by rw [hb]; exact hin)
    | number c =>
      obtain ⟨s', n, rfl, hiv, -⟩ := hv
      obtain ⟨hsize, read, hread, hrun⟩ := sv2ptrScalar_number hk
      have himage : c.encode (read (.val s')) = c.encode (svSlot (.val s')) :=
        CIntType.encode_congr (hread _)
      have hlen : (c.encode (svSlot (.val s'))).length = k.sizeof := by
        rw [CIntType.length_encode, hsize]
      refine ⟨hlen, ?_⟩
      simp only [hrun, sv2ptrInt, SV.SvOK, if_true, SvIOK_of_iv hiv, himage]
      exact fill_given ha (by rw [hlen]; exact hin)

/-! ## Strings -/

/-- A block for items that there are. -/
theorem ends_Newxz {count size n : ℕ} (hn : atLeastOne count * size = n) (h : Heap) :
    Exec.Ends (· = .outOfMemory) (Newxz count size) h fun p h' =>
      p = h.mem.brk ∧ p < addrLimit ∧ h'.mem.InBlock p n ∧ p + n ≤ h'.mem.brk ∧
        h.mem.Extends h'.mem (fun _ => True) ∧ h'.mem.peek p n = List.replicate n 0 := by
  subst hn
  cases hc : h.mem.calloc (atLeastOne count * size) with
  | none =>
    unfold Exec.Ends Newxz
    rw [hc]
  | some r =>
    obtain ⟨p, m⟩ := r
    exact Exec.ends_of_ok (Newxz_eq_ok.mpr ⟨m, hc, rfl⟩) (Mem.calloc_cases hc)

theorem peek_poke_terminated {m : Mem} {p : ℕ} (bs : List UInt8)
    (h : m.peek p (bs.length + 1) = List.replicate (bs.length + 1) 0) :
    (m.poke p bs).peek p (bs.length + 1) = bs ++ [0] := by
  have hzero : m.bytes (p + bs.length) = 0 := by
    have hget := Mem.getElem?_peek m p (bs.length + 1) bs.length (Nat.lt_succ_self _)
    rw [h, List.getElem?_replicate_of_lt (Nat.lt_succ_self _)] at hget
    exact (Option.some.inj hget).symm
  have hlast : (m.poke p bs).peek (p + bs.length) 1 = [0] := by
    show [(m.poke p bs).bytes (p + bs.length)] = [0]
    rw [Mem.bytes_poke_of_disjoint (Or.inr (le_refl _)), hzero]
  rw [Mem.peek_append, Mem.peek_poke_same, hlast]

/-- **A string** is copied to a new block, terminator and all. -/
theorem sv2ptr_string {s : Slots} {subtype : TypeObj} {v : SV} (hsub : subtype.isChar = true)
    (hv : StringValue v) {h : Heap} {bound : ℕ} (hbound : bound ≤ h.mem.brk) :
    Exec.Ends (· = .outOfMemory) (sv2ptr (.pointer s subtype) v 0) h fun q h' =>
      h.mem.Extends h'.mem (fun _ => True) ∧ StringAt h'.mem bound q (SvPV v).bytes := by
  obtain ⟨hok, hes, -, -⟩ := hv
  have hobj : asPointerObject v = none := by
    rw [asPointerObject, hes, ite_self]
  have hrun : sv2ptr (.pointer s subtype) v 0 = (do
      let ret ← orNew 0 (Newxz ((SvPV v).bytes.length + 1) 1)
      store ret (SvPV v).bytes
      pure ret) := by
    cases subtype with
    | scalar k cs =>
      cases k with
      | Char =>
        simp only [sv2ptr, hok, Bool.not_true, Bool.false_and, Bool.false_eq_true, if_false,
          TypeObj.isPointer, hobj, sv2ptrScalar, sv2ptrCharSChar, sv2ptrChar, if_true, hes]
      | _ => cases hsub
    | _ => cases hsub
  rw [hrun]
  refine (ends_Newxz (bytes_of_string _) h).bind fun p h₁ ⟨hp, hlim, hin, hend, hext, hzero⟩ => ?_
  have hstore : store p (SvPV v).bytes h₁ = .ok ((), _) :=
    store_eq_ok.mpr ⟨Or.inr (hin.mono (le_refl p) (by omega)), rfl⟩
  refine Exec.ends_of_ok (Exec.bind_of_ok hstore) ⟨?_, ?_⟩
  · -- the copy lies above everything there was
    have hpoke := Mem.extends_poke h₁.mem p (SvPV v).bytes
    exact (hext.trans hpoke).weaken fun x hx _ => ⟨trivial, Or.inl (hp ▸ hx)⟩
  · exact ⟨hp ▸ hbound, hlim, hin, peek_poke_terminated _ hzero⟩

/-! ## Records -/

theorem hvFetch_of_plain {field : TypeObj} {name : PerlStr} (hname : field.field = some name)
    (hplain : name.Plain) (es : List (Text × SV)) :
    hvFetch es name = es.lookup (fieldKey field) := by
  have hkey : fieldKey field = name.chars := by
    rw [fieldKey, hname]
    rfl
  rw [hvFetch, hkey]
  exact congrArg (List.lookup · es) hplain.symm

/-- A value that is converted is no undefined constant. -/
theorem not_undef_constant {t : TypeObj} {v : SV} (hv : HasValue t v) :
    (!v.SvOK && v.SvREADONLY) = false := by
  cases t with
  | scalar k s =>
    have hk : ScalarValue k v := hv
    unfold ScalarValue at hk
    split at hk
    · rw [hk.2, Bool.and_false]
    · rw [hk.1]
      rfl
    · obtain ⟨s', n, rfl, -⟩ := hk
      rfl
    · exact hk.elim
  | pointer s subtype =>
    have hstr : StringValue v := hv
    rw [hstr.1]
    rfl
  | struct s fields =>
    obtain ⟨es, hes, -⟩ := hv
    cases v with
    | href r es' => rfl
    | _ => cases hes
  | codeRef => exact hv.elim
  | union => exact hv.elim

/-- What one part of a record writes: nothing outside a range, and its own image. -/
abbrev Writes (h : Heap) (lo hi : ℕ) (holds : Mem → Prop) (h' : Heap) : Prop :=
  h.mem.Extends h'.mem (Outside lo hi) ∧ holds h'.mem

mutual

/-- **A field is written where it belongs**, and nothing else is. -/
theorem sv2ptr_stores : ∀ {t : TypeObj} {v : SV}, Marshals t → t.isPointer = false →
    HasValue t v → PlainNames t → ∀ {h : Heap} {a bound : ℕ}, h.mem.InBlock a t.sizeof →
    a + t.sizeof ≤ bound → bound ≤ h.mem.brk →
    Exec.Ends (· = .outOfMemory) (sv2ptr t v a) h fun _ h' =>
      Writes h a (a + t.sizeof) (fun m => Stored m bound t a v) h'
  | .scalar k s, v, ht, _, hv, _, h, a, bound, hin, _, _ => by
    have hsize : (TypeObj.scalar k s).sizeof = k.sizeof := ht.2
    rw [hsize] at hin ⊢
    obtain ⟨hlen, hrun⟩ := sv2ptrScalar_stores hv s hin.pos.ne' hin
    have hconv : sv2ptr (.scalar k s) v a = sv2ptrScalar k s v a := by
      simp only [sv2ptr, not_undef_constant hv, Bool.false_eq_true, if_false]
    rw [hconv]
    refine Exec.ends_of_ok hrun ⟨?_, ?_⟩
    · have hpoke := Mem.extends_poke h.mem a (image k v)
      rw [hlen] at hpoke
      exact hpoke
    · show (h.mem.poke a (image k v)).peek a k.sizeof = image k v
      rw [← hlen]
      exact Mem.peek_poke_same _ _ _
  | .struct s fields, v, ht, _, hv, hn, h, a, bound, hin, hle, hbrk => by
    have hconst := not_undef_constant hv
    obtain ⟨es, hes, -, hvals⟩ := hv
    have hsize : (TypeObj.struct s fields).sizeof = s.sizeof := rfl
    rw [hsize] at hin hle ⊢
    have hrun : sv2ptr (.struct s fields) v a = (do
        let ret ← orNew a (Newxz 1 s.sizeof)
        sv2ptrFields es ret fields
        pure ret) := by
      simp only [sv2ptr, hconst, Bool.false_eq_true, if_false, asHash, hes]
    rw [hrun]
    refine Exec.Ends.bind_of_ok (orNew_of_ne hin.pos.ne' _ h) ?_
    refine (sv2ptrFields_stores ht.2.1 ht.2.2 hvals hn hin hle hbrk).bind fun _ h₂ hw => ?_
    exact Exec.ends_of_ok rfl ⟨hw.1, es, hes, hw.2⟩

theorem sv2ptrFields_stores : ∀ {fields : List TypeObj} {es : List (Text × SV)} {lo hi : ℕ},
    InOrder lo hi fields → Marshals.allMarshals fields → HasValue.hasValues es fields →
    PlainNames.allPlain fields → ∀ {h : Heap} {a bound : ℕ}, h.mem.InBlock a hi →
    a + hi ≤ bound → bound ≤ h.mem.brk →
    Exec.Ends (· = .outOfMemory) (sv2ptrFields es a fields) h fun _ h' =>
      Writes h (a + lo) (a + hi) (fun m => Stored.storedFields m bound es a fields) h'
  | [], es, lo, hi, _, _, _, _, h, a, bound, _, _, _ => by
    refine Exec.ends_of_ok (by simp only [sv2ptrFields]; rfl) ⟨Mem.Extends.refl _ _, trivial⟩
  | field :: rest, es, lo, hi, horder, hall, hvals, hn, h, a, bound, hin, hle, hbrk => by
    obtain ⟨hfield, hlo, hrest⟩ := horder
    obtain ⟨name, hname⟩ := Option.isSome_iff_exists.mp hfield
    obtain ⟨⟨v, hlookup, hv⟩, hvrest⟩ := hvals
    obtain ⟨hplain, hnfield, hnrest⟩ := hn
    have hfetch := (hvFetch_of_plain hname (hplain name hname) es).trans hlookup
    have hend := hrest.lo_le_hi
    have hinField : h.mem.InBlock (a + field.offset) field.sizeof := hin.mono (by omega) (by omega)
    -- once the field is there, the rest of the loop leaves it alone
    have hthen : ∀ h₁ : Heap, Writes h (a + field.offset) (a + field.offset + field.sizeof)
        (fun m => Stored m bound field (a + field.offset) v) h₁ →
        Exec.Ends (· = .outOfMemory) (sv2ptrFields es a rest) h₁ fun _ h' =>
          Writes h (a + lo) (a + hi)
            (fun m => Stored.storedFields m bound es a (field :: rest)) h' := by
      intro h₁ hw
      obtain ⟨hext, hstored⟩ := hw
      have hin₁ : h₁.mem.InBlock a hi := hext.inBlock hin
      refine (sv2ptrFields_stores hrest hall.2 hvrest hnrest hin₁ hle
        (hbrk.trans hext.brk_le)).mono fun _ h' hw' => ?_
      obtain ⟨hext', hstored'⟩ := hw'
      refine ⟨(hext.trans hext').weaken fun x _ hx => ?_, ⟨v, hlookup, ?_⟩, hstored'⟩
      · unfold Outside at hx ⊢
        omega
      · refine hstored.frame hall.1 (hext.inBlock hinField) hext' (fun x _ hx => ?_) fun x hx => ?_
        · unfold Outside
          omega
        · unfold Outside
          omega
    by_cases hptr : field.isPointer = true
    · cases field with
      | pointer s subtype =>
        simp only [sv2ptrFields, hname, hfetch, hptr, if_true]
        have hsize : (TypeObj.pointer s subtype).sizeof = SIZEOF_INTPTR_T := hall.1.1
        rw [hsize] at hinField hthen
        refine (sv2ptr_string hall.1.2 hv hbrk).bind fun q h₁ hstr => ?_
        obtain ⟨hext, hstr⟩ := hstr
        have hlen : (pointerBytes q).length = SIZEOF_INTPTR_T := length_encodeLE _ _
        have hstore : store (a + (TypeObj.pointer s subtype).offset) (pointerBytes q) h₁ =
            .ok ((), _) :=
          store_eq_ok.mpr ⟨Or.inr (by rw [hlen]; exact hext.inBlock hinField), rfl⟩
        have hpoke := Mem.extends_poke h₁.mem (a + (TypeObj.pointer s subtype).offset)
          (pointerBytes q)
        rw [hlen] at hpoke
        refine Exec.Ends.bind_of_ok hstore (hthen _ ?_)
        refine ⟨(hext.trans hpoke).weaken fun x _ hx => ⟨trivial, hx⟩, q, ?_, ?_⟩
        · rw [← hlen]
          exact Mem.peek_poke_same _ _ _
        · refine hstr.frame hpoke fun x hx => ?_
          right
          omega
      | _ => cases hptr
    · have hnot : field.isPointer = false := Bool.eq_false_iff.mpr hptr
      simp only [sv2ptrFields, hname, hfetch, hnot, Bool.false_eq_true, if_false]
      exact (sv2ptr_stores hall.1 hnot hv hnfield hinField (by omega) hbrk).bind
        fun _ h₁ hw => hthen h₁ hw

end

end Affix.Analysis
