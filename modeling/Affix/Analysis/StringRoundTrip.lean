import Affix.Analysis.RecordDecoding

/-!
# A string through memory and back

`sv2ptr` copies the buffer of a string, whatever its flag, and a terminator after
it. The flag does not travel: `ptr2sv` sets it again when the bytes it finds could
have been written under it. A string that was not flagged but could have been comes
back with fewer characters than it had.

SOURCE: marshal.cxx:51-88, marshal.cxx:536-541, marshal.cxx:588-592
-/

set_option autoImplicit false

namespace Affix.Analysis

open Affix.Foundation Affix.Model

/-- `Pointer[Char]`, and `String`, which is a pointer to a constant `Char`. The slots may
hold anything. SOURCE: Type.pm:142-146 -/
def charPointer (s cs : Slots) : TypeObj := .pointer s (.scalar .Char cs)

/-- A block holds the bytes and a zero after them. -/
def Terminated (m : Mem) (p : ℕ) (bs : List UInt8) : Prop :=
  m.InBlock p (bs.length + 1) ∧ m.peek p (bs.length + 1) = bs ++ [0]

/-- A value's buffer is terminated, and the string read from it has the given characters. -/
def StringComesBackAs (type : TypeObj) (v : SV) (cs : Text) (h : Heap) : Prop :=
  ∃ p h₁ w, sv2ptr type v 0 h = .ok (p, h₁) ∧ Terminated h₁.mem p (SvPV v).bytes ∧
    ptr2sv type p h₁ = .ok (.val (.ofStr w), h₁) ∧ w.chars = cs

/-! ## The flag that is guessed -/

/-- The bytes of a string without the zero character have no zero byte. -/
theorem zero_notMem_bytes {s : PerlStr} (h : 0 ∉ s.chars) : 0 ∉ s.bytes := by
  intro hz
  apply h
  unfold PerlStr.chars
  by_cases hflag : s.utf8 = true
  · obtain ⟨cs, hcs⟩ := Option.isSome_iff_exists.mp (s.wellFormed hflag)
    rw [if_pos hflag, hcs]
    exact zero_mem_utf8Decode hcs hz
  · rw [if_neg hflag]
    exact List.mem_map.mpr ⟨0, hz, rfl⟩

/-- **The guess is right** for a string that carries the flag, for one that could not, and for
one whose characters are the same either way. -/
theorem chars_ofGuess_iff (s : PerlStr) :
    (PerlStr.ofGuess s.bytes).chars = s.chars ↔
      s.utf8 = true ∨ isUtf8String s.bytes = false ∨ ∀ b ∈ s.bytes, isASCII b = true := by
  constructor
  · intro hsame
    by_contra hno
    simp only [not_or, Bool.not_eq_true, Bool.not_eq_false, not_forall, exists_prop] at hno
    obtain ⟨hflag, hwell, hwide⟩ := hno
    obtain ⟨cs, hcs⟩ := Option.isSome_iff_exists.mp hwell
    have hshort : cs.length < s.bytes.length := length_utf8Chars_lt hcs hwide
    have hlen := congrArg List.length hsame
    simp only [PerlStr.chars, PerlStr.ofGuess, hwell, if_true, hcs, Option.getD_some, hflag,
      Bool.false_eq_true, if_false, List.length_map] at hlen
    omega
  · rintro (hflag | hill | hascii)
    · exact PerlStr.chars_ofGuess (Or.inl hflag)
    · have hflag : s.utf8 = false := by
        by_contra hset
        rw [s.wellFormed (by simpa using hset)] at hill
        cases hill
      simp only [PerlStr.chars, PerlStr.ofGuess, hill, hflag, Bool.false_eq_true, if_false]
    · exact PerlStr.chars_ofGuess (Or.inr hascii)

/-! ## The buffer -/

theorem sv2ptr_charPointer (s cs : Slots) (sc : Scalar) :
    sv2ptr (charPointer s cs) (.val sc) 0 = (do
      let ret ← orNew 0 (Newxz ((SvPV (.val sc)).bytes.length + 1) 1)
      store ret (SvPV (.val sc)).bytes
      pure ret) := by
  have hobj : asPointerObject (.val sc) = none := rfl
  simp only [charPointer, sv2ptr, SV.SvOK, Bool.not_true, Bool.false_and, Bool.false_eq_true,
    if_false, TypeObj.isPointer, hobj, sv2ptrScalar, sv2ptrCharSChar, sv2ptrChar, if_true, SV.elems]

theorem sv2ptr_terminated (s cs : Slots) (sc : Scalar) (h : Heap) :
    Exec.Ends (· = .outOfMemory) (sv2ptr (charPointer s cs) (.val sc) 0) h
      fun p h₁ => Terminated h₁.mem p (SvPV (.val sc)).bytes := by
  rw [sv2ptr_charPointer]
  refine (ends_Newxz (bytes_of_string _) h).bind fun p h₁ hnew => ?_
  obtain ⟨-, -, hin, -, -, hzero⟩ := hnew
  have hstore : store p (SvPV (.val sc)).bytes h₁ = .ok ((), _) :=
    store_eq_ok.mpr ⟨Or.inr (hin.mono (le_refl p) (by omega)), rfl⟩
  exact Exec.ends_of_ok (Exec.bind_of_ok hstore) ⟨hin, peek_poke_terminated _ hzero⟩

/-- Reading a terminated buffer guesses the flag of its bytes. -/
theorem ptr2sv_terminated (s cs : Slots) {p : ℕ} {bs : List UInt8} {h : Heap}
    (hbuf : Terminated h.mem p bs) (hzero : 0 ∉ bs) :
    ptr2sv (charPointer s cs) p h = .ok (.val (.ofStr (.ofGuess bs)), h) := by
  obtain ⟨hin, hpeek⟩ := hbuf
  have hne : p ≠ 0 := hin.pos.ne'
  have hfuel : bs.length < h.mem.brk := by
    have hend := hin.le_brk
    omega
  have hchars : cstring h.mem h.mem.brk p = .ok bs := cstring_of_peek bs hin hpeek hzero hfuel
  have hread : ptr2svChars p h = .ok (.val (.ofStr (.ofGuess bs)), h) := by
    unfold ptr2svChars
    rw [Exec.bind_of_ok (Exec.get_apply h), hchars]
    exact Exec.bind_of_ok (Exec.lift_ok_apply _ h)
  simp only [charPointer, ptr2sv, hne, if_false, TypeObj.flag, Kind.flag, ptr2svScalar]
  exact hread

/-! ## The round trip -/

/-- **A string comes back as its bytes read**: with its own characters exactly when it is
flagged, is no well-formed UTF-8 or is seven-bit, and else with those its bytes spell.
SOURCE: marshal.cxx:51-88, marshal.cxx:536-541 -/
theorem string_comesBack (s cs : Slots) {sc : Scalar} {str : PerlStr} (hstr : sc.pv = some str)
    (hzero : 0 ∉ str.chars) {h : Heap}
    (hmem : sv2ptr (charPointer s cs) (.val sc) 0 h ≠ .error .outOfMemory) :
    StringComesBackAs (charPointer s cs) (.val sc)
      (if isUtf8String str.bytes then (utf8Chars str.bytes).getD [] else str.chars) h ∧
    (StringComesBackAs (charPointer s cs) (.val sc) str.chars h ↔
      str.utf8 = true ∨ isUtf8String str.bytes = false ∨ ∀ b ∈ str.bytes, isASCII b = true) := by
  have hpv : SvPV (.val sc) = str := by simp only [SvPV, hstr]
  obtain ⟨p, h₁, hwrite, hbuf⟩ :=
    (sv2ptr_terminated s cs sc h).exists_ok fun e he => he ▸ hmem
  rw [hpv] at hbuf
  have hread := ptr2sv_terminated s cs hbuf (zero_notMem_bytes hzero)
  have hback : ∀ cs', StringComesBackAs (charPointer s cs) (.val sc) cs' h ↔
      (PerlStr.ofGuess str.bytes).chars = cs' := by
    intro cs'
    constructor
    · rintro ⟨p', h₁', w, hwrite', -, hread', hw⟩
      cases hwrite.symm.trans hwrite'
      cases hread.symm.trans hread'
      exact hw
    · intro hsame
      exact ⟨p, h₁, _, hwrite, hpv.symm ▸ hbuf, hread, hsame⟩
  refine ⟨(hback _).mpr ?_, (hback _).trans (chars_ofGuess_iff str)⟩
  by_cases hwell : isUtf8String str.bytes = true
  · simp only [PerlStr.chars, PerlStr.ofGuess, hwell, if_true]
  · have hill : isUtf8String str.bytes = false := by simpa using hwell
    rw [if_neg hwell]
    exact (chars_ofGuess_iff str).mpr (Or.inr (Or.inl hill))

/-- The two bytes `C3 A9`, as a string of two characters and as one of one. -/
def eAcute (utf8 : Bool) : PerlStr := ⟨[0xC3, 0xA9], utf8, fun _ => by decide⟩

theorem string_comesBack_eAcute :
    StringComesBackAs StringType (.val (.ofStr (eAcute true))) [0xE9] .empty :=
  (string_comesBack _ _ (show (Scalar.ofStr (eAcute true)).pv = some _ from rfl) (by decide)
    (by intro hmem; cases hmem)).1

/-- Without the flag the two characters come back as one. -/
theorem string_lost_eAcute :
    ¬ StringComesBackAs StringType (.val (.ofStr (eAcute false))) (eAcute false).chars .empty := by
  rintro ⟨p, h₁, w, hwrite, -, hread, hw⟩
  cases hwrite
  cases hread
  exact absurd hw (by decide)

end Affix.Analysis
