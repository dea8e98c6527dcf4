import Affix.Interface.WideStrings

/-!
# Strings of Perl and strings of wide characters

`mbstowcs` fills an array from its start, as far as the string allows, and what is
stored is a beginning of the characters and a zero. So how many are stored decides
whether the array has what it should. `wchar2utf` fills its buffer from the start
too, and the lengths of the encodings decide.

SOURCE: wchar_t.cxx:3-42, Affix.cxx:374-390, marshal.cxx:420-440, Callback.cxx:153-164
-/

set_option autoImplicit false

namespace Affix.Analysis

open Affix.Foundation Affix.Model Affix.Model.Wide Affix.Interface

/-! ## What is stored -/

section ToC

variable {locale : Utf8Locale} {cs : Text} {s : PerlStr} {sv : StringSV} {len : ℕ}

/-- What is stored is where the string begins, its end counted. -/
theorem prefix_storedChars (locale : Utf8Locale) (cs : Text) :
    storedChars locale cs <+: cs ++ [0] := by
  induction cs with
  | nil => exact List.prefix_rfl
  | cons c cs ih =>
    unfold storedChars
    split_ifs with hzero hvalid
    · subst hzero
      exact ⟨cs ++ [0], rfl⟩
    · exact List.cons_prefix_cons.mpr ⟨rfl, ih⟩
    · exact List.nil_prefix

/-- The next element of a fresh array is stored. -/
theorem put_fresh (w : Text) (room c : ℕ) :
    WideArray.put (w.map some ++ List.replicate room none) w.length c =
      if room = 0 then .error .fault
      else .ok ((w ++ [c]).map some ++ List.replicate (room - 1) none) := by
  unfold WideArray.put
  rw [List.length_append, List.length_map, List.length_replicate]
  cases room with
  | zero => rw [if_neg (by omega), if_pos rfl]
  | succ room =>
    rw [if_pos (by omega), if_neg (Nat.succ_ne_zero _), List.replicate_succ, Nat.add_sub_cancel,
      List.set_append_right _ _ (by rw [List.length_map]), List.length_map, Nat.sub_self,
      List.set_cons_zero, List.map_append, List.append_assoc]
    rfl

/-- **What `mbstowcs` does** to an array that is filled so far, where its count does not stop
it. -/
theorem mbstowcs_fresh (locale : Utf8Locale) (cs : Text) :
    ∀ (w : Text) (room n : ℕ), cs.length < n →
      mbstowcs locale (w.map some ++ List.replicate room none) w.length n cs =
        if (storedChars locale cs).length ≤ room then
          .ok ((w ++ storedChars locale cs).map some ++
            List.replicate (room - (storedChars locale cs).length) none)
        else .error .fault := by
  have hlast : ∀ (w : Text) (room : ℕ),
      WideArray.put (w.map some ++ List.replicate room none) w.length 0 =
        if [0].length ≤ room then
          .ok ((w ++ [0]).map some ++ List.replicate (room - [0].length) none)
        else .error .fault := by
    intro w room
    rw [put_fresh, List.length_singleton]
    by_cases hroom : room = 0
    · rw [if_pos hroom, if_neg (by omega)]
    · rw [if_neg hroom, if_pos (by omega)]
  induction cs with
  | nil =>
    intro w room n hn
    obtain ⟨n, rfl⟩ := Nat.exists_eq_succ_of_ne_zero (by omega : n ≠ 0)
    exact hlast w room
  | cons c cs ih =>
    intro w room n hn
    obtain ⟨n, rfl⟩ := Nat.exists_eq_succ_of_ne_zero (by omega : n ≠ 0)
    rw [mbstowcs, storedChars]
    by_cases hzero : c = 0
    · rw [if_pos hzero, if_pos hzero]
      exact hlast w room
    · rw [if_neg hzero, if_neg hzero]
      cases hvalid : locale.accepts c with
      | false =>
        rw [if_neg Bool.false_ne_true, if_neg Bool.false_ne_true, List.length_nil,
          if_pos (Nat.zero_le _), List.append_nil, Nat.sub_zero]
      | true =>
        rw [if_pos rfl, if_pos rfl, put_fresh, List.length_cons]
        by_cases hroom : room = 0
        · rw [if_pos hroom, if_neg (by omega)]
          rfl
        · rw [if_neg hroom]
          have hrest := ih (w ++ [c]) (room - 1) n (by
            rw [List.length_cons] at hn
            omega)
          rw [List.length_append, List.length_singleton] at hrest
          refine Eq.trans (b := mbstowcs locale _ (w.length + 1) n cs) rfl ?_
          rw [hrest]
          by_cases hfits : (storedChars locale cs).length ≤ room - 1
          · rw [if_pos hfits, if_pos (by omega), List.append_assoc, List.singleton_append,
              Nat.sub_sub, Nat.add_comm 1]
          · rw [if_neg hfits, if_neg (by omega)]

theorem length_chars_le (s : PerlStr) : s.chars.length ≤ s.pvutf8.length := by
  rw [← s.chars_upgraded]
  show ((utf8Chars s.pvutf8).getD []).length ≤ _
  cases hchars : utf8Chars s.pvutf8 with
  | none => exact Nat.zero_le _
  | some cs => exact length_utf8Decode hchars

theorem prefix_filled (locale : Utf8Locale) (s : PerlStr) :
    filled locale s <+: s.chars ++ [0] := by
  unfold filled
  split
  · exact prefix_storedChars locale s.chars
  · exact List.nil_prefix

/-- **What `utf2wchar` does**: the array is filled from its start, if that is not too long for
it. -/
theorem utf2wchar_eq (locale : Utf8Locale) (s : PerlStr) (len : ℕ) :
    utf2wchar locale s len =
      if (filled locale s).length ≤ len + 1 then
        .ok ((filled locale s).map some ++
          List.replicate (len + 1 - (filled locale s).length) none)
      else .error .fault := by
  unfold utf2wchar filled
  cases s.utf8 with
  | false => rfl
  | true =>
    simp only [if_true]
    have hcount : s.chars.length < (s.pvutf8.length + 1) * SIZEOF_WCHAR := by
      have := length_chars_le s
      unfold SIZEOF_WCHAR
      omega
    have hfresh := mbstowcs_fresh locale s.chars [] (len + 1) _ hcount
    exact hfresh

/-- The array holds a beginning of the string exactly when so much was stored. -/
theorem take_filled {w full : Text} (hw : w <+: full) {room n : ℕ} (hn : n ≤ full.length)
    (hroom : n ≤ room) (hle : w.length ≤ room) :
    (w.map some ++ List.replicate (room - w.length) none).take n = (full.take n).map some ↔
      n ≤ w.length := by
  obtain ⟨rest, rfl⟩ := hw
  constructor
  · intro htake
    by_contra hlt
    -- the element behind what was stored
    have hget := congrArg (fun l => l[w.length]?) htake
    have hsome : ∃ c, (w ++ rest)[w.length]? = some c :=
      ⟨_, List.getElem?_eq_getElem (by omega)⟩
    obtain ⟨c, hc⟩ := hsome
    simp only [List.getElem?_take, List.getElem?_map] at hget
    rw [if_pos (by omega), List.getElem?_append_right (by rw [List.length_map]), List.length_map,
      Nat.sub_self, List.getElem?_replicate, if_pos (by omega), if_pos (by omega), hc] at hget
    cases hget
  · intro hle'
    rw [List.take_append_of_le_length (by rw [List.length_map]; exact hle'), ← List.map_take,
      List.take_append_of_le_length hle']

/-- **The array is what it should be** exactly when what is stored goes so far. -/
theorem arrayOf_iff (locale : Utf8Locale) (s : PerlStr) (len : ℕ) :
    ArrayOf locale s len ↔ FillsArray locale s len := by
  have hpre := prefix_filled locale s
  unfold ArrayOf FillsArray
  rw [utf2wchar_eq]
  by_cases hle : (filled locale s).length ≤ len + 1
  · have hreads : ∀ n ≤ len + 1, n ≤ s.chars.length + 1 →
        (((filled locale s).map some ++
          List.replicate (len + 1 - (filled locale s).length) none).take n =
            ((s.chars ++ [0]).take n).map some ↔ n ≤ (filled locale s).length) := by
      intro n hn hn'
      refine take_filled hpre ?_ hn hle
      rw [List.length_append, List.length_singleton]
      exact hn'
    simp only [hle, if_true, Except.ok.injEq, exists_eq_left', and_true]
    by_cases hlen : s.chars.length ≤ len
    · have hall : (s.chars ++ [0]).take (s.chars.length + 1) = s.chars ++ [0] := by
        rw [List.take_of_length_le (by rw [List.length_append, List.length_singleton])]
      rw [if_pos hlen, if_pos hlen, ← hreads _ (by omega) le_rfl, hall]
    · have hpart : (s.chars ++ [0]).take len = s.chars.take len :=
        List.take_append_of_le_length (by omega)
      rw [if_neg hlen, if_neg hlen, ← hreads len (by omega) (by omega), hpart]
  · simp only [hle, if_false, reduceCtorEq, false_and, exists_false, and_false]

/-! ## The three ways to C -/

/-- The first element is the first character as soon as one is stored. -/
theorem get_zero_filled {w full : Text} (hw : w <+: full) {c : ℕ} (hc : full.head? = some c)
    (room : ℕ) :
    WideArray.get (w.map some ++ List.replicate room none) 0 = .ok c ↔ w ≠ [] := by
  obtain ⟨rest, rfl⟩ := hw
  cases w with
  | nil =>
    refine iff_of_false ?_ (not_not.mpr rfl)
    cases room <;> exact nofun
  | cons d w =>
    cases hc
    exact iff_of_true rfl (List.cons_ne_nil _ _)

theorem head?_chars_zero {c : ℕ} (hc : s.chars.head? = some c) :
    (s.chars ++ [0]).head? = some c := by
  rw [List.head?_append, hc]
  rfl

/-- An array with enough room gives the first character when one was stored. -/
theorem first_of_array (len : ℕ) {c : ℕ} (hc : s.chars.head? = some c) :
    (utf2wchar locale s len >>= fun a => a.get 0) = .ok c ↔
      filled locale s ≠ [] ∧ (filled locale s).length ≤ len + 1 := by
  rw [utf2wchar_eq]
  by_cases hle : (filled locale s).length ≤ len + 1
  · rw [if_pos hle, and_iff_left hle]
    exact get_zero_filled (prefix_filled locale s) (head?_chars_zero hc) _
  · rw [if_neg hle]
    exact iff_of_false nofun fun h => hle h.2

theorem givesFirst_iff {path : Except Halt ℕ} {P : Prop}
    (hpath : ∀ c, s.chars.head? = some c → (path = .ok c ↔ P)) :
    GivesFirst s path ↔ s.chars = [] ∨ P := by
  cases hchars : s.chars with
  | nil =>
    refine iff_of_true (fun c hc => ?_) (Or.inl rfl)
    rw [hchars] at hc
    cases hc
  | cons c cs =>
    have hhead : s.chars.head? = some c := by rw [hchars]; rfl
    rw [or_iff_right (List.cons_ne_nil c cs), ← hpath c hhead]
    refine ⟨fun h => h c hhead, fun h d hd => ?_⟩
    cases hhead.symm.trans hd
    exact h

/-- What is stored of a string that was asked for in its multi-byte form. -/
theorem filled_SvPVutf8 (locale : Utf8Locale) (sv : StringSV) :
    sv.SvPVutf8.1.str.chars = sv.str.chars ∧
      (TakesForm sv → filled locale sv.SvPVutf8.1.str = storedChars locale sv.str.chars) ∧
      (¬ TakesForm sv → filled locale sv.SvPVutf8.1.str = []) := by
  have hwritten : (sv.readonly && !sv.isCOW) = false ↔ sv.readonly = false ∨ sv.isCOW = true := by
    cases sv.readonly <;> cases sv.isCOW <;> decide
  unfold StringSV.SvPVutf8 TakesForm filled
  rw [← hwritten]
  cases sv.readonly && !sv.isCOW with
  | false =>
    refine ⟨sv.str.chars_upgraded, fun _ => ?_, fun h => absurd (Or.inr rfl) h⟩
    have hflag : sv.str.upgraded.utf8 = true := rfl
    simp only [Bool.false_eq_true, if_false, hflag, if_true, sv.str.chars_upgraded]
  | true =>
    refine ⟨rfl, fun h => ?_, fun h => ?_⟩
    · simp only [if_true, h.resolve_right nofun]
    · simp only [if_true, Bool.not_eq_true _ ▸ not_or.mp h |>.1, Bool.false_eq_true, if_false]

/-- The multi-byte form has room for all that is stored. -/
theorem length_filled_le (locale : Utf8Locale) (sv : StringSV) :
    (filled locale sv.SvPVutf8.1.str).length ≤ sv.SvPVutf8.2 + 1 := by
  have hle : (filled locale sv.SvPVutf8.1.str).length ≤ sv.SvPVutf8.1.str.chars.length + 1 := by
    have hpre := (prefix_filled locale sv.SvPVutf8.1.str).length_le
    rwa [List.length_append, List.length_singleton] at hpre
  rw [(filled_SvPVutf8 locale sv).1] at hle
  exact hle.trans (Nat.succ_le_succ (length_chars_le sv.str))

theorem givesFirst_argumentPath (locale : Utf8Locale) (sv : StringSV) :
    GivesFirst sv.str (argumentPath locale sv) ↔ ArgumentStored locale sv.str :=
  givesFirst_iff fun _ hc => first_of_array _ hc

theorem givesFirst_callbackPath (locale : Utf8Locale) (sv : StringSV) :
    GivesFirst sv.str (callbackPath locale sv) ↔ ResultStored locale sv := by
  obtain ⟨hchars, htakes, hnot⟩ := filled_SvPVutf8 locale sv
  refine givesFirst_iff fun c hc => ?_
  rw [← hchars] at hc
  refine (first_of_array sv.SvPVutf8.2 hc).trans ?_
  rw [and_iff_left (length_filled_le locale sv)]
  by_cases htake : TakesForm sv
  · rw [htakes htake, and_iff_right htake]
  · rw [hnot htake]
    exact iff_of_false (not_not.mpr rfl) fun h => htake h.1

/-- Behind the zero nothing is stored. -/
theorem length_takeWhile_stored (hend : 0 ∈ storedChars locale cs) :
    ((storedChars locale cs).takeWhile (· ≠ 0)).length + 1 = (storedChars locale cs).length := by
  induction cs with
  | nil => rfl
  | cons c cs ih =>
    unfold storedChars at hend ⊢
    split_ifs with hzero hvalid
    · rfl
    · rw [if_neg hzero, if_pos hvalid] at hend
      have hrest := ih ((List.mem_cons.mp hend).resolve_left (Ne.symm hzero))
      rw [List.takeWhile_cons_of_pos (by exact decide_eq_true hzero), List.length_cons,
        List.length_cons, hrest]
    · rw [if_neg hzero, if_neg hvalid] at hend
      cases hend

/-- `wcslen` needs the zero among what was stored. -/
theorem wcslen_filled (w : Text) {room : ℕ} (hroom : 0 < room) :
    wcslen (w.map some ++ List.replicate room none) =
      if 0 ∈ w then .ok (w.takeWhile (· ≠ 0)) else .error .fault := by
  induction w with
  | nil =>
    obtain ⟨room, rfl⟩ := Nat.exists_eq_succ_of_ne_zero hroom.ne'
    rfl
  | cons c w ih =>
    rw [List.map_cons, List.cons_append, wcslen, ih]
    by_cases hzero : c = 0
    · subst hzero
      rw [if_pos rfl, if_pos List.mem_cons_self]
      rfl
    · have hmem : 0 ∈ c :: w ↔ 0 ∈ w := by
        rw [List.mem_cons, or_iff_right (Ne.symm hzero)]
      simp only [hzero, if_false, hmem, List.takeWhile_cons, ne_eq, not_false_iff, decide_true,
        if_true]
      split <;> rfl

/-- A field takes one character, or none. -/
theorem copyToField_eq_ok {ret c : ℕ} {copied : List ℕ} :
    copyToField ret copied = .ok c ↔ copied.length ≤ 1 ∧ copied.headD ret = c := by
  unfold copyToField
  split
  · rename_i hle
    rw [Except.ok.injEq, and_iff_right hle]
  · rename_i hlt
    exact iff_of_false nofun fun h => hlt h.1

/-- The field path once the array is filled. -/
theorem fieldPath_eq (locale : Utf8Locale) (ret room : ℕ) (sv : StringSV) :
    fieldPath locale ret room sv =
      if 0 ∈ filled locale sv.SvPVutf8.1.str ∧ 16 ≤ room then
        copyToField ret ((filled locale sv.SvPVutf8.1.str).takeWhile (· ≠ 0))
      else .error .fault := by
  have hlen := length_filled_le locale sv
  show (utf2wchar locale sv.SvPVutf8.1.str (sv.SvPVutf8.2 + 1) >>= fun value =>
    wcslen value >>= fun copied => DumpHex room 16 >>= fun _ => copyToField ret copied) = _
  rw [utf2wchar_eq, if_pos (by omega)]
  refine Eq.trans (b := wcslen _ >>= fun copied =>
    DumpHex room 16 >>= fun _ => copyToField ret copied) rfl ?_
  rw [wcslen_filled _ (by omega)]
  by_cases hend : 0 ∈ filled locale sv.SvPVutf8.1.str
  · rw [if_pos hend]
    by_cases hroom : 16 ≤ room
    · rw [if_pos ⟨hend, hroom⟩]
      show (DumpHex room 16 >>= fun _ => copyToField ret _) = _
      rw [DumpHex, if_pos hroom]
      rfl
    · rw [if_neg fun h => hroom h.2]
      show (DumpHex room 16 >>= fun _ => copyToField ret _) = _
      rw [DumpHex, if_neg hroom]
      rfl
  · rw [if_neg hend, if_neg fun h => hend h.1]
    rfl

/-- What is copied to the field is the first character of a string `c :: _` when no more is, and
when a zero need not be. -/
theorem copied_stored {c : ℕ} (hc : cs.head? = some c) (hend : 0 ∈ storedChars locale cs)
    (ret : ℕ) :
    copyToField ret ((storedChars locale cs).takeWhile (· ≠ 0)) = .ok c ↔
      (storedChars locale cs).length ≤ 2 ∧ (cs.head? = some 0 → ret = 0) := by
  rw [copyToField_eq_ok, hc, Option.some.injEq]
  cases cs with
  | nil => cases hc
  | cons d cs =>
    cases hc
    unfold storedChars at hend ⊢
    by_cases hzero : c = 0
    · subst hzero
      simp
    · simp only [hzero, if_false, false_implies, and_true] at hend ⊢
      cases hvalid : locale.accepts c with
      | false =>
        rw [hvalid, if_neg Bool.false_ne_true] at hend
        cases hend
      | true =>
        rw [hvalid, if_pos rfl] at hend
        have hrest : 0 ∈ storedChars locale cs :=
          (List.mem_cons.mp hend).resolve_left (Ne.symm hzero)
        simp only [if_true, List.takeWhile_cons, ne_eq, hzero, not_false_eq_true, decide_true,
          List.headD_cons, and_true, List.length_cons]
        rw [length_takeWhile_stored hrest]
        omega

theorem givesFirst_fieldPath (locale : Utf8Locale) (ret room : ℕ) (sv : StringSV) :
    GivesFirst sv.str (fieldPath locale ret room sv) ↔ FieldStored locale ret room sv := by
  obtain ⟨hchars, htakes, hnot⟩ := filled_SvPVutf8 locale sv
  refine givesFirst_iff fun c hc => ?_
  rw [fieldPath_eq]
  by_cases htake : TakesForm sv
  · rw [htakes htake, and_iff_right htake]
    by_cases hruns : 0 ∈ storedChars locale sv.str.chars ∧ 16 ≤ room
    · rw [if_pos hruns, and_iff_right hruns.2, and_iff_right hruns.1]
      exact copied_stored hc hruns.1 ret
    · rw [if_neg hruns]
      exact iff_of_false nofun fun h => hruns ⟨h.2.1, h.1⟩
  · rw [hnot htake, if_neg fun h => List.not_mem_nil h.1]
    exact iff_of_false nofun fun h => htake h.1

/-- **Strings on their way to C**: the array is right, and each of its users gives C the first
character, exactly under these conditions. -/
theorem strings_to_c (locale : Utf8Locale) (sv : StringSV) (len ret room : ℕ) :
    (ArrayOf locale sv.str len ↔ FillsArray locale sv.str len) ∧
      (GivesFirst sv.str (argumentPath locale sv) ↔ ArgumentStored locale sv.str) ∧
      (GivesFirst sv.str (fieldPath locale ret room sv) ↔ FieldStored locale ret room sv) ∧
      (GivesFirst sv.str (callbackPath locale sv) ↔ ResultStored locale sv) :=
  ⟨arrayOf_iff locale sv.str len, givesFirst_argumentPath locale sv,
    givesFirst_fieldPath locale ret room sv, givesFirst_callbackPath locale sv⟩

/-- A locale that takes every value a wide character can hold. -/
def anyWide : Utf8Locale where
  accepts c := c < 2 ^ 32
  unicode c hc := by
    apply decide_eq_true
    unfold Nat.isValidChar at hc
    omega
  holds c hc := of_decide_eq_true hc

/-- `"a"`, which needs no flag: nothing is stored. -/
theorem no_array_of_unflagged : ¬ ArrayOf anyWide (.ofBytes [0x61]) 1 := by
  rw [arrayOf_iff]
  rintro ⟨hlen, -⟩
  exact absurd hlen (by decide)

end ToC

/-! ## What the wide branches come to

Where every character is valid, the branches do as the model of marshalling and of calls has
it. -/

section Branches

variable {locale : Utf8Locale} {cs : Text}

/-- Every character that is not zero is valid. -/
def AllValid (locale : Utf8Locale) (cs : Text) : Prop := ∀ c ∈ cs, c ≠ 0 → locale.accepts c = true

theorem storedChars_of_allValid (h : AllValid locale cs) :
    storedChars locale cs = cs.takeWhile (· ≠ 0) ++ [0] := by
  induction cs with
  | nil => rfl
  | cons c cs ih =>
    obtain ⟨hc, hcs⟩ := List.forall_mem_cons.mp h
    by_cases hzero : c = 0
    · subst hzero
      rfl
    · simp only [storedChars, hzero, if_false, hc hzero, if_true, ih hcs, List.takeWhile_cons,
        ne_eq,
        not_false_eq_true, decide_true, List.cons_append]

theorem headD_takeWhile_append (cs : Text) :
    (cs.takeWhile (· ≠ 0) ++ [0]).head? = some (cs.headD 0) := by
  cases cs with
  | nil => rfl
  | cons c cs =>
    by_cases hzero : c = 0
    · subst hzero
      rfl
    · simp [hzero]

/-- The argument. -/
theorem argWChar_eq {s : PerlStr} (hvalid : AllValid locale s.chars) (ro cow : Bool) (h : Heap) :
    argWChar (.val (.ofStr s)) h = (safemalloc 8 >>= fun _ => Exec.lift
      ((argumentPath locale ⟨s, ro, cow⟩).map fun c => dcArgLongLong (c : ℕ)) : Eff DCArg) h := by
  have hok : (SV.val (.ofStr s)).SvOK = true := rfl
  unfold argWChar
  rw [hok, if_pos rfl]
  have hpv : SvPV (.val (.ofStr s)) = s := rfl
  rw [hpv]
  refine congrFun (congrArg (safemalloc 8 >>= ·) (funext fun _ => ?_)) h
  have hrun : argumentPath locale ⟨s, ro, cow⟩ =
      if s.utf8 ∧ (s.chars.takeWhile (· ≠ 0)).length ≤ 1 then .ok (s.chars.headD 0)
      else .error .fault := by
    show (utf2wchar locale s 1 >>= fun a => a.get 0) = _
    rw [utf2wchar_eq]
    unfold filled
    cases hflag : s.utf8 with
    | false => rfl
    | true =>
      simp only [if_true, storedChars_of_allValid hvalid, List.length_append, List.length_singleton,
        true_and]
      by_cases hlen : (s.chars.takeWhile (· ≠ 0)).length ≤ 1
      · rw [if_pos (Nat.succ_le_succ hlen), if_pos hlen]
        refine (get_zero_filled List.prefix_rfl (headD_takeWhile_append s.chars) _).mpr ?_
        exact List.append_ne_nil_of_right_ne_nil _ (List.cons_ne_nil _ _)
      · rw [if_neg (fun hle => hlen (Nat.le_of_succ_le_succ hle)), if_neg hlen]
        rfl
  rw [hrun]
  split <;> rfl

/-- The result of a callback. -/
theorem cbReturnWChar_eq {sv : StringSV} (htake : TakesForm sv)
    (hvalid : AllValid locale sv.str.chars) :
    callbackPath locale sv = .ok (sv.str.chars.headD 0) ∧
      cbReturnWChar (.val (.ofStr sv.str)) = (sv.str.chars.headD 0 : ℕ) := by
  refine ⟨?_, rfl⟩
  obtain ⟨-, htakes, -⟩ := filled_SvPVutf8 locale sv
  show (utf2wchar locale sv.SvPVutf8.1.str sv.SvPVutf8.2 >>= fun a => a.get 0) = _
  rw [utf2wchar_eq, if_pos (length_filled_le locale sv), htakes htake,
    storedChars_of_allValid hvalid]
  refine (get_zero_filled List.prefix_rfl (headD_takeWhile_append sv.str.chars) _).mpr ?_
  exact List.append_ne_nil_of_right_ne_nil _ (List.cons_ne_nil _ _)

end Branches

/-! ## To Perl -/

section ToPerl

variable {src : List ℤ} {len : ℕ}

/-- One turn of the loop, in a buffer that is filled so far. -/
theorem encodeWide_turn {c : ℤ} (hc : codePoint c ≤ IV_MAX) (src : List ℤ) (w : List UInt8)
    (room : ℕ) :
    encodeWide (w ++ List.replicate room 0) w.length (c :: src) =
      if (encodedWide c).length ≤ room then
        encodeWide ((w ++ encodedWide c) ++ List.replicate (room - (encodedWide c).length) 0)
          (w ++ encodedWide c).length src
      else .error .fault := by
  rw [encodeWide, if_neg (Nat.not_lt.mpr hc)]
  simp only [List.length_append, List.length_replicate, Nat.add_le_add_iff_left]
  by_cases hfits : (encodedWide c).length ≤ room
  · have hdst : (w ++ List.replicate room 0).take w.length ++ encodedWide c ++
        (w ++ List.replicate room 0).drop (w.length + (encodedWide c).length) =
        (w ++ encodedWide c) ++ List.replicate (room - (encodedWide c).length) 0 := by
      rw [List.take_left, List.drop_append, List.drop_replicate]
      simp
    rw [if_pos hfits, if_pos hfits, hdst]
  · rw [if_neg hfits, if_neg hfits]

/-- **What the loop does** with values that are allowed. -/
theorem encodeWide_zeros {src : List ℤ} (hsrc : ∀ c ∈ src, codePoint c ≤ IV_MAX) :
    ∀ (w : List UInt8) (room : ℕ), (src.flatMap encodedWide).length ≤ room →
      encodeWide (w ++ List.replicate room 0) w.length src =
        .ok (w ++ src.flatMap encodedWide ++
          List.replicate (room - (src.flatMap encodedWide).length) 0) := by
  induction src with
  | nil =>
    intro w room _
    rw [encodeWide, List.flatMap_nil, List.length_nil, List.append_nil, Nat.sub_zero]
  | cons c src ih =>
    intro w room hroom
    obtain ⟨hc, hrest⟩ := List.forall_mem_cons.mp hsrc
    rw [List.flatMap_cons, List.length_append] at hroom
    rw [encodeWide_turn hc, if_pos (by omega), ih hrest _ _ (by omega), List.flatMap_cons,
      List.length_append, Nat.sub_sub, List.append_assoc w]

/-- **When the loop goes past the buffer**: when the values before the first that is not allowed
make it do so. -/
theorem encodeWide_fault (src : List ℤ) : ∀ (w : List UInt8) (room : ℕ),
    encodeWide (w ++ List.replicate room 0) w.length src = .error .fault ↔
      room < ((src.takeWhile fun c => codePoint c ≤ IV_MAX).flatMap encodedWide).length := by
  induction src with
  | nil =>
    intro w room
    exact iff_of_false nofun (Nat.not_lt_zero room)
  | cons c src ih =>
    intro w room
    by_cases hc : codePoint c ≤ IV_MAX
    · rw [List.takeWhile_cons_of_pos (by exact decide_eq_true hc), List.flatMap_cons,
        encodeWide_turn hc]
      by_cases hfits : (encodedWide c).length ≤ room
      · rw [if_pos hfits, ih, List.length_append]
        omega
      · rw [if_neg hfits, List.length_append]
        exact iff_of_true rfl (Nat.lt_add_right _ (Nat.lt_of_not_le hfits))
    · rw [encodeWide, if_pos (Nat.lt_of_not_le hc),
        List.takeWhile_cons_of_neg (by simpa using hc)]
      exact iff_of_false nofun (Nat.not_lt_zero room)

theorem fitsBuffer_iff : FitsBuffer src len ↔
    ((allowed src len).flatMap encodedWide).length ≤ (len + 1) * SIZEOF_WCHAR := by
  unfold FitsBuffer
  rw [List.length_flatMap]

theorem encoded_fault : encoded src len = .error .fault ↔ ¬ FitsBuffer src len := by
  have hloop := encodeWide_fault (src.take len) [] ((len + 1) * SIZEOF_WCHAR)
  rw [fitsBuffer_iff, Nat.not_le]
  exact hloop

theorem encoded_eq (hsrc : ∀ c ∈ src.take len, codePoint c ≤ IV_MAX)
    (hfits : ((src.take len).flatMap encodedWide).length ≤ (len + 1) * SIZEOF_WCHAR) :
    encoded src len = .ok ((src.take len).flatMap encodedWide ++
      List.replicate ((len + 1) * SIZEOF_WCHAR - ((src.take len).flatMap encodedWide).length) 0) :=
  encodeWide_zeros hsrc [] _ hfits

/-- A value that an `IV` holds is its own code point. -/
theorem codePoint_of_pos {c : ℤ} (hpos : 0 < c) (hmax : c < 2 ^ 63) : codePoint c = c.toNat := by
  have hwrap : culong.wrap c = c := by
    apply CIntType.wrap_of_inRange
    constructor
    · show 0 ≤ c
      exact hpos.le
    · show c < 0 + 2 ^ 64
      omega
  rw [codePoint, hwrap]

theorem codePoint_le {c : ℤ} (hpos : 0 < c) (hmax : c < 2 ^ 63) : codePoint c ≤ IV_MAX := by
  rw [codePoint_of_pos hpos hmax]
  unfold IV_MAX
  omega

/-- It is encoded as that code point. -/
theorem encodedWide_of_pos {c : ℤ} (hpos : 0 < c) (hmax : c < 2 ^ 63) :
    encodedWide c = utf8Encode c.toNat := by
  rw [encodedWide, codePoint_of_pos hpos hmax]
  split
  · rename_i hascii
    rw [utf8Encode, if_pos hascii]
  · rfl

theorem flatMap_encodedWide {cs : List ℤ} (hcs : ∀ c ∈ cs, 0 < c ∧ c < 2 ^ 63) :
    cs.flatMap encodedWide = (cs.map Int.toNat).flatMap utf8Encode := by
  induction cs with
  | nil => rfl
  | cons c cs ih =>
    obtain ⟨⟨hpos, hmax⟩, hrest⟩ := List.forall_mem_cons.mp hcs
    rw [List.flatMap_cons, List.map_cons, List.flatMap_cons, encodedWide_of_pos hpos hmax, ih hrest]

/-- Decoding the encodings of characters gives the characters. -/
theorem chars_sv_utf8_decode {cs : List ℕ} (hcs : ∀ c ∈ cs, c < 2 ^ 63) :
    (sv_utf8_decode (cs.flatMap utf8Encode)).chars = cs := by
  have hchars := utf8Chars_encode hcs
  unfold sv_utf8_decode
  split
  · rename_i hall
    rw [utf8Chars_ascii (List.all_eq_true.mp hall)] at hchars
    exact Option.some.inj hchars
  · have hflag : isUtf8String (cs.flatMap utf8Encode) = true := by
      rw [isUtf8String, hchars]
      rfl
    unfold PerlStr.ofGuess PerlStr.chars
    rw [if_pos hflag, hchars, Option.getD_some]

/-- **Where the encodings leave room for a zero**, the string is made of all of them. -/
theorem wchar2utf_eq (hsrc : ∀ c ∈ src.take len, 0 < c ∧ c < 2 ^ 63)
    (hroom : ((src.take len).flatMap encodedWide).length < (len + 1) * SIZEOF_WCHAR) :
    wchar2utf src len =
      .ok (sv_utf8_decode (((src.take len).map Int.toNat).flatMap utf8Encode)) := by
  have hallowed : ∀ c ∈ src.take len, codePoint c ≤ IV_MAX := fun c hc =>
    codePoint_le (hsrc c hc).1 (hsrc c hc).2
  have htext := flatMap_encodedWide hsrc
  have hnonzero : ∀ b ∈ (src.take len).flatMap encodedWide, decide (b ≠ 0) = true := by
    intro b hb
    rw [htext] at hb
    obtain ⟨n, hn, hbn⟩ := List.mem_flatMap.mp hb
    obtain ⟨c, hc, rfl⟩ := List.mem_map.mp hn
    obtain ⟨hpos, hmax⟩ := hsrc c hc
    apply decide_eq_true
    rintro rfl
    exact zero_notMem_utf8Encode (by omega) (by omega) hbn
  obtain ⟨k, hk⟩ := Nat.exists_eq_succ_of_ne_zero
    (by omega : (len + 1) * SIZEOF_WCHAR - ((src.take len).flatMap encodedWide).length ≠ 0)
  have hstring : cstringIn ((src.take len).flatMap encodedWide ++ List.replicate (k + 1) 0) =
      .ok ((src.take len).flatMap encodedWide) := by
    unfold cstringIn
    rw [if_pos (List.mem_append_right _ (List.mem_replicate.mpr ⟨Nat.succ_ne_zero k, rfl⟩)),
      List.takeWhile_append_of_pos hnonzero, List.replicate_succ]
    simp
  have hrun : wchar2utf src len = (encoded src len >>= fun dst => cstringIn dst >>= fun bs =>
      pure (sv_utf8_decode bs)) := rfl
  rw [hrun, encoded_eq hallowed hroom.le, hk]
  refine Eq.trans (b := cstringIn _ >>= fun bs => pure (sv_utf8_decode bs)) rfl ?_
  rw [hstring, htext]
  rfl

theorem length_utf8Encode_le {c : ℕ} (hc : c < 0x200000) : (utf8Encode c).length ≤ 4 := by
  unfold utf8Encode
  split_ifs <;> simp [length_utf8Tail]

/-- Characters of Unicode leave room. -/
theorem length_of_unicode {cs : List ℤ} (hcs : ∀ c ∈ cs, UnicodeWide c) :
    (cs.flatMap encodedWide).length ≤ cs.length * SIZEOF_WCHAR := by
  induction cs with
  | nil => exact Nat.zero_le _
  | cons c cs ih =>
    obtain ⟨⟨hpos, hvalid⟩, hrest⟩ := List.forall_mem_cons.mp hcs
    have hmax : c.toNat < 0x200000 := by
      unfold Nat.isValidChar at hvalid
      omega
    have hone := length_utf8Encode_le hmax
    rw [← encodedWide_of_pos hpos (by omega)] at hone
    have htail := ih hrest
    rw [List.flatMap_cons, List.length_append, List.length_cons, Nat.succ_mul]
    unfold SIZEOF_WCHAR at htail ⊢
    omega

/-- **Strings on their way to Perl** are what they should be exactly when their encodings fit the
buffer; those of Unicode characters always do. -/
theorem strings_to_perl (src : List ℤ) (len : ℕ) : StringOf src len ↔ FitsBuffer src len := by
  unfold StringOf
  rw [ne_eq, encoded_fault, not_not]
  refine and_iff_left_of_imp fun _ hunicode => ?_
  have hsrc : ∀ c ∈ src.take len, 0 < c ∧ c < 2 ^ 63 := by
    intro c hc
    obtain ⟨hpos, hvalid⟩ := hunicode c hc
    unfold Nat.isValidChar at hvalid
    exact ⟨hpos, by omega⟩
  have hlen := length_of_unicode hunicode
  have htake : (src.take len).length ≤ len := List.length_take_le _ _
  refine ⟨_, wchar2utf_eq hsrc ?_, chars_sv_utf8_decode fun n hn => ?_⟩
  · unfold SIZEOF_WCHAR at hlen ⊢
    omega
  · obtain ⟨c, hc, rfl⟩ := List.mem_map.mp hn
    have hmax := (hsrc c hc).2
    omega

/-- The largest wide character takes six bytes; three of them need eighteen, and the buffer has
sixteen. -/
theorem no_string_of_largest : ¬ StringOf [0x7fffffff, 0x7fffffff, 0x7fffffff] 3 := by
  rintro ⟨hfault, -⟩
  exact hfault (encoded_fault.mpr (by decide))

/-- A negative value stops the loop, and nothing is written for it. -/
example : encoded [-1] 1 = .error (codePointNotAllowed (2 ^ 64 - 1)) := rfl

end ToPerl

end Affix.Analysis
