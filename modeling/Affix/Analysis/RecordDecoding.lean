import Affix.Analysis.RecordEncoding

/-!
# Reading a record

`ptr2sv` reads a stored record back field by field. Every field reads the same as
the value that was written, with one exception: the branches of `ULong` and
`ULongLong` make a signed scalar of the number they load, so a number in the upper
half of the range comes back negative.
-/

set_option autoImplicit false

namespace Affix.Analysis

open Affix.Foundation Affix.Model Affix.Interface

/-! ## Scalars -/

theorem load_error {m : Mem} {a n : ℕ} {e : Halt} (h : load m a n = .error e) : e = .fault := by
  unfold load at h
  split at h <;> cases h
  rfl

theorem loadAt_error {a n : ℕ} {h : Heap} {e : Halt} (herr : loadAt a n h = .error e) :
    e = .fault := by
  cases hload : load h.mem a n with
  | error e' =>
    rw [loadAt, hload] at herr
    cases herr
    exact load_error hload
  | ok bs =>
    rw [loadAt, hload] at herr
    cases herr

theorem cstring_error {m : Mem} {fuel a : ℕ} {e : Halt} (h : cstring m fuel a = .error e) :
    e = .fault := by
  induction fuel generalizing a with
  | zero =>
    cases h
    rfl
  | succ fuel ih =>
    rw [cstring] at h
    cases hload : load m a 1 with
    | error e' =>
      rw [hload] at h
      cases h
      exact load_error hload
    | ok bs =>
      rw [hload] at h
      dsimp only at h
      split at h
      · cases h
      · cases hrest : cstring m fuel (a + 1) with
        | error e' =>
          rw [hrest] at h
          cases h
          exact ih hrest
        | ok bs' =>
          rw [hrest] at h
          cases h

theorem loadAt_of_inBlock {a n : ℕ} {h : Heap} (hin : h.mem.InBlock a n) :
    loadAt a n h = .ok (h.mem.peek a n, h) := by
  rw [loadAt, load, Mem.read_eq_peek hin]
  rfl

/-- How a type of numbers is read: only two types do not give the number back. -/
theorem ptr2svScalar_number {k : Kind} {c : CIntType} (hk : reading k = some (.number c)) :
    c.Bytewise ∧ c.size = k.sizeof ∧ (∀ whole s p, ptr2svField whole (.scalar k s) p = whole p) ∧
      ∃ new : ℤ → Scalar, (∀ s a, ptr2svScalar k s a = ptr2svInt c new a) ∧
        ∀ n, c.InRange n →
          (svSlot (.val (new n)) = n ↔ ((k = .ULong ∨ k = .ULongLong) → n < 2 ^ 63)) := by
  have hiv : ∀ {c : CIntType}, c.Fits clong → ∀ {n : ℤ}, c.InRange n →
      svSlot (.val (.newSViv n)) = n :=
    fun hfits _ hn => CIntType.wrap_of_inRange (hfits.inRange hn)
  have huv : ∀ {c : CIntType}, c.Fits culong → ∀ {n : ℤ}, c.InRange n →
      svSlot (.val (.newSVuv n)) = n :=
    fun hfits _ hn => CIntType.wrap_of_inRange (hfits.inRange hn)
  cases k <;> simp only [reading, Option.some.injEq, reduceCtorEq, Reading.number.injEq] at hk <;>
    subst hk
  case UShort =>
    exact ⟨by decide, rfl, fun _ _ _ => rfl, .newSVuv, fun _ _ => rfl, fun n hn =>
      iff_of_true (huv (by decide) hn) (by simp)⟩
  case ULong | ULongLong =>
    exact ⟨by decide, rfl, fun _ _ _ => rfl, .newSViv, fun _ _ => rfl, fun n hn =>
      (CIntType.signed_eq_self_iff (n := 63) hn).trans (by simp)⟩
  all_goals
    exact ⟨by decide, rfl, fun _ _ _ => rfl, .newSViv, fun _ _ => rfl, fun n hn =>
      iff_of_true (hiv (by decide) hn) (by simp)⟩

theorem ptr2svField_character {k : Kind} (hk : reading k = some .character) (whole : ℕ → Eff SV)
    (s : Slots) (p : ℕ) :
    ptr2svField whole (.scalar k s) p = (do
      let bs ← loadAt p 1
      pure (.val (.ofStr (.ofGuess bs)))) := by
  cases k <;> simp only [reading, Option.some.injEq, reduceCtorEq] at hk
  all_goals rfl

theorem SvTRUE_boolByte (b : Bool) : SvTRUE (.val (.boolSV (boolByte b ≠ [0]))) = b := by
  cases b <;> decide

/-- **A scalar field** reads the same as the value written, unless it is a large unsigned
number. -/
theorem ptr2svField_scalar {k : Kind} {v : SV} (hv : ScalarValue k v) (s : Slots) {a : ℕ}
    {h : Heap} (hin : h.mem.InBlock a k.sizeof) (hst : h.mem.peek a k.sizeof = image k v) :
    ∃ w, ptr2svField (fun p => ptr2sv (.scalar k s) p) (.scalar k s) a h = .ok (w, h) ∧
      (SameScalar k v w ↔ ((k = .ULong ∨ k = .ULongLong) → svSlot v < 2 ^ 63)) := by
  have hne : a ≠ 0 := hin.pos.ne'
  have hload := loadAt_of_inBlock hin
  unfold ScalarValue at hv
  cases hk : reading k with
  | none =>
    rw [hk] at hv
    exact hv.elim
  | some r =>
    simp only [hk] at hv
    simp only [image, hk] at hst
    rw [hst] at hload
    simp only [SameScalar, hk]
    cases r with
    | truth =>
      have hbool := reading_truth hk
      subst hbool
      refine ⟨_, ?_, iff_of_true (SvTRUE_boolByte (SvTRUE v)).symm (by simp)⟩
      simp only [ptr2svField, ptr2sv, hne, if_false, ptr2svScalar, ptr2svBool]
      exact Exec.bind_of_ok hload
    | character =>
      obtain ⟨-, -, b, hb⟩ := hv
      have hsize := (sv2ptrScalar_character hk).1
      rw [hsize, hb] at hload
      refine ⟨.val (.ofStr (.ofGuess [b])), ?_, ?_⟩
      · rw [ptr2svField_character hk]
        exact Exec.bind_of_ok hload
      · refine iff_of_true ?_ ?_
        · show (SvPV v).chars = (PerlStr.ofGuess [b]).chars
          rw [PerlStr.chars_ofGuess_singleton, PerlStr.chars_of_bytes_singleton hb]
        · rintro (rfl | rfl) <;> cases hk
    | number c =>
      obtain ⟨s', n, rfl, hiv, hn⟩ := hv
      obtain ⟨hbytes, hsize, hfield, new, hrun, hnew⟩ := ptr2svScalar_number hk
      have hslot : svSlot (.val s') = n := svSlot_of_iv hiv
      have hdecode : c.decode (c.encode n) = n := by
        rw [CIntType.decode_encode hbytes rfl, CIntType.wrap_of_inRange hn]
      rw [hslot] at hload ⊢
      refine ⟨.val (new n), ?_, ?_⟩
      · rw [hfield]
        simp only [ptr2sv, hne, if_false, hrun, ptr2svInt, hsize]
        rw [Exec.bind_of_ok hload, hdecode]
        rfl
      · show n = svSlot (.val (new n)) ↔ _
        exact eq_comm.trans (hnew n hn)

/-! ## Strings -/

/-- `strlen` finds the terminator, and the bytes before it. -/
theorem cstring_of_peek {m : Mem} (bs : List UInt8) :
    ∀ {q fuel : ℕ}, m.InBlock q (bs.length + 1) → m.peek q (bs.length + 1) = bs ++ [0] →
      0 ∉ bs → bs.length < fuel → cstring m fuel q = .ok bs := by
  induction bs with
  | nil =>
    intro q fuel hin hpeek _ hfuel
    obtain ⟨fuel, rfl⟩ := Nat.exists_eq_succ_of_ne_zero (by omega : fuel ≠ 0)
    have hload : load m q 1 = .ok [0] := by
      rw [load, Mem.read_eq_peek (n := 1) hin]
      exact congrArg _ hpeek
    simp only [cstring, hload, if_true]
  | cons b bs ih =>
    intro q fuel hin hpeek hzero hfuel
    obtain ⟨fuel, rfl⟩ := Nat.exists_eq_succ_of_ne_zero (by omega : fuel ≠ 0)
    obtain ⟨hb, hrest⟩ := List.cons.inj hpeek
    have hin1 : m.InBlock q 1 := hin.mono (le_refl q) (by simp)
    have hload : load m q 1 = .ok [b] := by
      rw [load, Mem.read_eq_peek hin1]
      exact congrArg (fun x => Except.ok [x]) hb
    have hne : [b] ≠ [0] := by
      rintro heq
      exact hzero (by rw [List.singleton_inj.mp heq]; exact List.mem_cons_self)
    have htail : cstring m fuel (q + 1) = .ok bs := by
      refine ih (hin.mono (by omega) ?_) hrest (fun h => hzero (List.mem_cons_of_mem b h)) ?_
      · simp only [List.length_cons]
        omega
      · simp only [List.length_cons] at hfuel
        omega
    simp only [cstring, hload, hne, if_false, htail]
    rfl

/-- **A string field** reads the same as the string written. -/
theorem ptr2svField_string {s : Slots} {subtype : TypeObj} (hsub : subtype.isChar = true)
    {v : SV} (hv : StringValue v) {a q bound : ℕ} {h : Heap}
    (hin : h.mem.InBlock a SIZEOF_INTPTR_T) (hst : h.mem.peek a SIZEOF_INTPTR_T = pointerBytes q)
    (hstr : StringAt h.mem bound q (SvPV v).bytes) (whole : ℕ → Eff SV) :
    ∃ w, ptr2svField whole (.pointer s subtype) a h = .ok (w, h) ∧
      (SvPV v).chars = (SvPV w).chars := by
  obtain ⟨-, -, hzero, hflag⟩ := hv
  have hq : q ≠ 0 := hstr.inBlock.pos.ne'
  have hptr : loadPointer h.mem a = .ok q := by
    have hlt : q < 256 ^ SIZEOF_INTPTR_T :=
      hstr.below.trans (by unfold addrLimit SIZEOF_INTPTR_T; norm_num)
    have hdecode : decodeLE (pointerBytes q) = q := decodeLE_encodeLE_of_lt hlt
    rw [loadPointer, load, Mem.read_eq_peek hin, hst]
    show Except.ok (decodeLE (pointerBytes q)) = .ok q
    rw [hdecode]
  have hfuel : (SvPV v).bytes.length < h.mem.brk := by
    have hle := hstr.inBlock.le_brk
    omega
  have hchars : cstring h.mem h.mem.brk q = .ok (SvPV v).bytes :=
    cstring_of_peek _ hstr.inBlock hstr.bytes hzero hfuel
  refine ⟨.val (.ofStr (.ofGuess (SvPV v).bytes)), ?_, (PerlStr.chars_ofGuess hflag).symm⟩
  simp only [ptr2svField]
  rw [Exec.bind_of_ok (Exec.get_apply h), hptr, Exec.bind_of_ok (Exec.lift_ok_apply q h)]
  simp only [hq, if_false, hsub, if_true, ptr2svChars]
  rw [Exec.bind_of_ok (Exec.get_apply h), hchars]
  exact Exec.bind_of_ok (Exec.lift_ok_apply _ h)

/-! ## Records -/

theorem hvStore_of_notMem {key : Text} {w : SV} {acc : List (Text × SV)}
    (h : key ∉ acc.map Prod.fst) : hvStore key w acc = acc ++ [(key, w)] := by
  induction acc with
  | nil => rfl
  | cons p acc ih =>
    obtain ⟨k, w'⟩ := p
    rw [List.map_cons, List.mem_cons, not_or] at h
    rw [hvStore, if_neg (Ne.symm h.1), ih h.2]
    rfl

theorem lookup_append_cons {key : Text} {w : SV} {pre post : List (Text × SV)}
    (h : key ∉ pre.map Prod.fst) : (pre ++ (key, w) :: post).lookup key = some w := by
  induction pre with
  | nil => simp
  | cons p pre ih =>
    obtain ⟨k, w'⟩ := p
    rw [List.map_cons, List.mem_cons, not_or] at h
    have hne : (key == k) = false := beq_false_of_ne h.1
    rw [List.cons_append, List.lookup_cons, hne]
    exact ih h.2

mutual

/-- **A field reads the same as the value written exactly when its unsigned numbers are in
the lower half of their range.** -/
theorem ptr2svField_reads : ∀ {t : TypeObj} {v : SV}, Marshals t → HasValue t v →
    ∀ {h : Heap} {a bound : ℕ}, h.mem.InBlock a t.sizeof → Stored h.mem bound t a v →
    ∃ w, ptr2svField (fun p => ptr2sv t p) t a h = .ok (w, h) ∧
      (ReadsSame t v w ↔ LowerHalf t v)
  | .scalar k s, v, ht, hv, h, a, bound, hin, hst => by
    have hsize : (TypeObj.scalar k s).sizeof = k.sizeof := ht.2
    rw [hsize] at hin
    exact ptr2svField_scalar hv s hin hst
  | .pointer s subtype, v, ht, hv, h, a, bound, hin, hst => by
    have hsize : (TypeObj.pointer s subtype).sizeof = SIZEOF_INTPTR_T := ht.1
    rw [hsize] at hin
    obtain ⟨q, hq, hstr⟩ := hst
    obtain ⟨w, hrun, hsame⟩ := ptr2svField_string ht.2 hv hin hq hstr _
    exact ⟨w, hrun, iff_of_true hsame trivial⟩
  | .struct s fields, v, ht, hv, h, a, bound, hin, hst => by
    obtain ⟨es, hes, hkeys, hvals⟩ := hv
    obtain ⟨es₁, hes₁, hstored⟩ := hst
    cases hes.symm.trans hes₁
    obtain ⟨es', hrun, hkeys', hsame⟩ := ptr2svFields_reads ht.1 ht.2.1 ht.2.2 hvals hin hstored
      [] (fun _ _ hmem => by cases hmem)
    refine ⟨.href (.new []) es', ?_, ?_⟩
    · have hconv : ptr2sv (.struct s fields) a = (do
          let es ← ptr2svFields a [] fields
          pure (.href (.new []) es)) := by
        simp only [ptr2sv, hin.pos.ne', if_false]
      show ptr2sv (.struct s fields) a h = _
      rw [hconv, Exec.bind_of_ok hrun]
      rfl
    · constructor
      · rintro ⟨es₂, es₃, hes₂, hes₃, -, hvalues⟩ es₄ hes₄
        cases hes.symm.trans hes₂
        cases hes.symm.trans hes₄
        cases hes₃
        exact (hsame [] (fun _ _ hmem => by cases hmem)).mp hvalues
      · intro hlow
        refine ⟨es, es', hes, rfl, fun key => ?_, ?_⟩
        · rw [hkeys, hkeys']
        · exact (hsame [] (fun _ _ hmem => by cases hmem)).mpr (hlow es hes)

theorem ptr2svFields_reads : ∀ {fields : List TypeObj} {es : List (Text × SV)} {lo hi : ℕ},
    (fields.map fieldKey).Nodup → InOrder lo hi fields → Marshals.allMarshals fields →
    HasValue.hasValues es fields → ∀ {h : Heap} {a bound : ℕ}, h.mem.InBlock a hi →
    Stored.storedFields h.mem bound es a fields → ∀ acc : List (Text × SV),
    (∀ key ∈ fields.map fieldKey, key ∉ acc.map Prod.fst) →
    ∃ es', ptr2svFields a acc fields h = .ok (acc ++ es', h) ∧
      es'.map Prod.fst = fields.map fieldKey ∧
      ∀ pre : List (Text × SV), (∀ key ∈ fields.map fieldKey, key ∉ pre.map Prod.fst) →
        (ReadsSame.allReadSame es (pre ++ es') fields ↔ LowerHalf.allLowerHalf es fields)
  | [], es, lo, hi, _, _, _, _, h, a, bound, _, _, acc, _ => by
    refine ⟨[], ?_, rfl, fun _ _ => Iff.rfl⟩
    rw [List.append_nil]
    rfl
  | field :: rest, es, lo, hi, hnodup, horder, hall, hvals, h, a, bound, hin, hst, acc, hacc => by
    obtain ⟨hfield, hlo, hrest⟩ := horder
    obtain ⟨name, hname⟩ := Option.isSome_iff_exists.mp hfield
    obtain ⟨⟨v, hlookup, hv⟩, hvrest⟩ := hvals
    obtain ⟨⟨v₁, hlookup₁, hstored⟩, hstrest⟩ := hst
    cases hlookup.symm.trans hlookup₁
    rw [List.map_cons, List.nodup_cons] at hnodup
    have hend := hrest.lo_le_hi
    have hinField : h.mem.InBlock (a + field.offset) field.sizeof := hin.mono (by omega) (by omega)
    have hkey : fieldKey field = name.chars := by
      rw [fieldKey, hname]
      rfl
    have hnew : ∀ {pre : List (Text × SV)},
        (∀ key ∈ (field :: rest).map fieldKey, key ∉ pre.map Prod.fst) → ∀ w : SV,
        ∀ key ∈ rest.map fieldKey, key ∉ (pre ++ [(fieldKey field, w)]).map Prod.fst := by
      intro pre hpre w key hmem hcon
      rw [List.map_append, List.mem_append] at hcon
      rcases hcon with hcon | hcon
      · exact hpre key (List.mem_cons_of_mem _ hmem) hcon
      · have heq : key = fieldKey field := List.mem_singleton.mp hcon
        exact hnodup.1 (heq ▸ hmem)
    obtain ⟨w, hrun, hsame⟩ := ptr2svField_reads hall.1 hv hinField hstored
    have haccKey := hacc (fieldKey field) List.mem_cons_self
    obtain ⟨es', hloop, hkeys, hrestSame⟩ := ptr2svFields_reads hnodup.2 hrest hall.2 hvrest hin
      hstrest (acc ++ [(fieldKey field, w)]) (hnew hacc w)
    refine ⟨(fieldKey field, w) :: es', ?_, ?_, fun pre hpre => ?_⟩
    · simp only [ptr2svFields, hname]
      rw [Exec.bind_of_ok hrun, ← hkey, hvStore_of_notMem haccKey, hloop, List.append_assoc]
      rfl
    · rw [List.map_cons, List.map_cons, hkeys]
    · have htail := hrestSame (pre ++ [(fieldKey field, w)]) (hnew hpre w)
      rw [List.append_assoc, List.singleton_append] at htail
      have hget : (pre ++ (fieldKey field, w) :: es').lookup (fieldKey field) = some w :=
        lookup_append_cons (hpre _ List.mem_cons_self)
      simp only [ReadsSame.allReadSame, LowerHalf.allLowerHalf, htail, hlookup, hget,
        Option.some.injEq, exists_and_left, exists_eq_left', forall_eq', hsame]

end

end Affix.Analysis
