import Affix.Analysis.Mangling

/-!
# What two functions of one symbol share

The text of a type depends on the hash as the types before it left it. Two runs of the
mangler that write the same so far have the same hash, and with one hash the text of a
type tells how many pointers it has and what is behind them: an abbreviation leads to the
key of its place, the key to the text behind the pointer. The types of one symbol are
therefore read off from left to right.

SOURCE: Itanium.pm:12-161
-/

set_option autoImplicit false

namespace Affix.Analysis

open Affix.Foundation Affix.Model Affix.Model.Itanium Affix.Interface

/-! ## Letters -/

/-- The flags. -/
def allFlags : List Flag :=
  [.void, .bool, .schar, .char, .uchar, .wchar, .short, .ushort, .int, .uint, .long, .ulong,
    .longlong, .ulonglong, .float, .double, .wstring, .stdstring, .struct, .cppstruct, .union,
    .affix, .codeRef, .pointer, .sv]

/-- The flag that a letter is written for. -/
def flagOfLetter (letter : Char) : Option Flag :=
  allFlags.find? fun f => builtinEntries.reverse.lookup f.sigChar = some letter

theorem flagOfLetter_eq {f : Flag} {letter : Char}
    (h : builtinEntries.reverse.lookup f.sigChar = some letter) :
    flagOfLetter letter = some f := by
  cases f <;> cases h <;> rfl

/-- A letter that is written for something behind the pointers. -/
theorem letter_of_flag {f : Flag} {letter : Char} (hf : f ≠ .pointer)
    (h : builtinEntries.reverse.lookup f.sigChar = some letter) : letter ≠ 'P' ∧ letter ≠ 'S' := by
  cases f <;> cases h <;> first | decide | exact absurd rfl hf

/-! ## The hash -/

/-- **The hash of the mangler**: each abbreviation is the one of its place, and behind a pointer
that is a key there is a key. -/
structure Kept (cache : Cache) : Prop where
  code : ∀ i entry, cache[i]? = some entry → entry.2 = shortcut i
  closed : ∀ s, cache.lookup s = none → cache.lookup ('P' :: s) = none

theorem kept_nil : Kept [] where
  code i entry h := by cases h
  closed _ _ := rfl

/-- What a text is abbreviated to tells where it is a key. -/
theorem Kept.of_lookup {cache : Cache} (hkept : Kept cache) {s code : List Char}
    (h : cache.lookup s = some code) : ∃ i, cache[i]? = some (s, code) ∧ code = shortcut i := by
  obtain ⟨before, after, hsplit, -⟩ := List.lookup_eq_some_iff.mp h
  have hat : cache[before.length]? = some (s, code) := by
    rw [hsplit, List.getElem?_append_right (le_refl _), Nat.sub_self]
    rfl
  exact ⟨before.length, hat, hkept.code _ _ hat⟩

/-- Two texts that are abbreviated alike are one. -/
theorem Kept.lookup_inj {cache : Cache} (hkept : Kept cache) {s s' code : List Char}
    (h : cache.lookup s = some code) (h' : cache.lookup s' = some code) : s = s' := by
  obtain ⟨i, hi, hcode⟩ := hkept.of_lookup h
  obtain ⟨j, hj, hcode'⟩ := hkept.of_lookup h'
  have hsame : i = j := substitution_inj.mp (hcode.symm.trans hcode')
  subst hsame
  rw [hi] at hj
  exact congrArg Prod.fst (Option.some.inj hj)

/-- What the mangler makes of a type: pointers before an end. Without pointers the hash is as it
was; with some, the text behind the outermost one is a key and the text itself is none. -/
structure CameOut (cache : Cache) (d : ℕ) (e : List Char) (r : List Char × Cache) : Prop where
  tail : Tail e
  text : r.1 = typeText d e
  kept : Kept r.2
  same : d = 0 → r.2 = cache
  new : d ≠ 0 → r.2.lookup r.1 = none
  behind : ∀ k, d = k + 1 → r.2.lookup (typeText k e) ≠ none

variable {cache : Cache} {d : ℕ} {e : List Char} {r : List Char × Cache}

/-- An end alone, which leaves the hash as it was. -/
theorem cameOut_end (hkept : Kept cache) (hend : Tail e) : CameOut cache 0 e (e, cache) where
  tail := hend
  text := rfl
  kept := hkept
  same _ := rfl
  new hd := absurd rfl hd
  behind k hk := by cases hk

/-- A text that is a key was written without pointers. -/
theorem CameOut.eq_of_lookup (h : CameOut cache d e r) {code : List Char}
    (hhit : r.2.lookup r.1 = some code) : r.2 = cache := by
  apply h.same
  by_contra hd
  rw [h.new hd] at hhit
  cases hhit

/-- A pointer to a text that is no key is written before it, and the text becomes a key. -/
theorem CameOut.pointer (h : CameOut cache d e r) (hmiss : r.2.lookup r.1 = none) :
    CameOut cache (d + 1) e ('P' :: r.1, r.2 ++ [(r.1, shortcut r.2.length)]) := by
  have hne : 'P' :: r.1 ≠ r.1 := fun heq => by simpa using congrArg List.length heq
  have hstored : ∀ s, (r.2 ++ [(r.1, shortcut r.2.length)]).lookup s = none ↔
      r.2.lookup s = none ∧ s ≠ r.1 := by
    intro s
    rw [List.lookup_append, Option.or_eq_none_iff, List.lookup_singleton]
    simp
  constructor
  · exact h.tail
  · simp only [h.text, typeText_succ]
  · constructor
    · intro i entry hi
      by_cases hold : i < r.2.length
      · rw [List.getElem?_append_left hold] at hi
        exact h.kept.code i entry hi
      · rw [List.getElem?_append_right (not_lt.mp hold)] at hi
        obtain ⟨hlast, rfl⟩ := List.getElem?_eq_some_iff.mp hi
        rw [List.length_singleton] at hlast
        have hi' : i = r.2.length := by omega
        subst hi'
        simp
    · intro s hs
      rw [hstored] at hs ⊢
      refine ⟨h.kept.closed s hs.1, ?_⟩
      intro heq
      -- the text would be a pointer itself, and what is behind it a key
      cases d with
      | zero =>
        apply h.tail.ne_pointer (x := [])
        exact (List.append_nil e).trans (heq.trans h.text).symm
      | succ k =>
        apply h.behind k rfl
        rw [h.text, typeText_succ] at heq
        exact (List.cons.inj heq).2 ▸ hs.1
  · intro hd
    cases hd
  · intro _
    exact (hstored _).mpr ⟨h.kept.closed _ hmiss, hne⟩
  · intro k hk hnone
    obtain rfl : d = k := Nat.succ.inj hk
    rw [hstored] at hnone
    exact hnone.2 h.text.symm

/-! ## One type -/

/-- What is behind all pointers is written by its letter. -/
theorem bareType_leaf {t : TypeObj} (hleaf : t.flag ≠ .pointer) (h : bareType t cache = .ok r) :
    ∃ letter, r = ([letter], cache) ∧ flagOfLetter letter = some t.flag ∧
      letter ≠ 'P' ∧ letter ≠ 'S' := by
  have hletter : ∀ letter, builtinTypes t = some letter →
      flagOfLetter letter = some t.flag ∧ letter ≠ 'P' ∧ letter ≠ 'S' := by
    intro letter hsome
    exact ⟨flagOfLetter_eq hsome, letter_of_flag hleaf hsome⟩
  have hnot : ∀ s subtype, t ≠ .pointer s subtype := by
    rintro s subtype rfl
    exact hleaf rfl
  rw [bareType.eq_2 _ _ hnot] at h
  cases hb : builtinTypes t with
  | none =>
    rw [hb] at h
    cases h
  | some letter =>
    rw [hb] at h
    exact ⟨letter, (Except.ok.inj h).symm, hletter letter hb⟩

/-- What a pointer comes out as: the abbreviation of the text behind it, or that text with a
letter before it. -/
theorem bareType_pointer {s : Slots} {t : TypeObj} (h : bareType (.pointer s t) cache = .ok r) :
    ∃ q, bareType t cache = .ok q ∧
      ((∃ code, q.2.lookup q.1 = some code ∧ r = (code, q.2)) ∨
        q.2.lookup q.1 = none ∧ r = ('P' :: q.1, q.2 ++ [(q.1, shortcut q.2.length)])) := by
  have hletter : builtinTypes (.pointer s t) = some 'P' := rfl
  rw [bareType, hletter] at h
  simp only at h
  cases hb : bareType t cache with
  | error e =>
    rw [hb] at h
    cases h
  | ok q =>
    rw [hb] at h
    refine ⟨q, rfl, ?_⟩
    cases hl : q.2.lookup q.1 with
    | some code =>
      simp only [hl] at h
      exact Or.inl ⟨code, rfl, (Except.ok.inj h).symm⟩
    | none =>
      simp only [hl] at h
      exact Or.inr ⟨rfl, (Except.ok.inj h).symm⟩

/-- A type is so many pointers before one that is none. -/
theorem pointer_induction {motive : TypeObj → Prop}
    (leaf : ∀ t : TypeObj, t.flag ≠ .pointer → motive t)
    (pointer : ∀ s t, motive t → motive (.pointer s t)) : ∀ t, motive t
  | .pointer s t => pointer s t (pointer_induction leaf pointer t)
  | .scalar k s => leaf (.scalar k s) (by cases k <;> simp [TypeObj.flag, Kind.flag])
  | .codeRef s as sig ret => leaf (.codeRef s as sig ret) (by simp [TypeObj.flag])
  | .struct s ts => leaf (.struct s ts) (by simp [TypeObj.flag])
  | .union s ts => leaf (.union s ts) (by simp [TypeObj.flag])

/-- **What a type comes out as**, from a hash that the mangler kept. -/
theorem bareType_cameOut (hkept : Kept cache) {t : TypeObj} :
    ∀ {r : List Char × Cache}, bareType t cache = .ok r → ∃ d e, CameOut cache d e r := by
  induction t using pointer_induction with
  | leaf t hleaf =>
    intro r h
    obtain ⟨letter, rfl, -, hP, hS⟩ := bareType_leaf hleaf h
    exact ⟨0, [letter], cameOut_end hkept (Or.inl ⟨letter, rfl, hP, hS⟩)⟩
  | pointer s t ih =>
    intro r h
    obtain ⟨q, hq, hcases⟩ := bareType_pointer h
    obtain ⟨d, e, hout⟩ := ih hq
    rcases hcases with ⟨code, hhit, rfl⟩ | ⟨hmiss, rfl⟩
    · obtain ⟨i, -, rfl⟩ := hout.kept.of_lookup hhit
      rw [hout.eq_of_lookup hhit]
      exact ⟨0, shortcut i, cameOut_end hkept (tail_substitution (by decide) (by decide) i)⟩
    · exact ⟨d + 1, e, hout.pointer hmiss⟩

/-- A pointer is written with a `P` or an `S` first, which no letter is. -/
theorem bareType_pointer_ne (hkept : Kept cache) {s : Slots} {t : TypeObj}
    (h : bareType (.pointer s t) cache = .ok r) {letter : Char} (hP : letter ≠ 'P')
    (hS : letter ≠ 'S') : r.1 ≠ [letter] := by
  obtain ⟨q, hq, hcases⟩ := bareType_pointer h
  obtain ⟨d, e, hout⟩ := bareType_cameOut hkept hq
  rcases hcases with ⟨code, hhit, rfl⟩ | ⟨-, rfl⟩
  · obtain ⟨i, -, rfl⟩ := hout.kept.of_lookup hhit
    exact fun heq => hS (List.cons.inj heq).1.symm
  · exact fun heq => hP (List.cons.inj heq).1.symm

/-- **With one hash the text of a type tells its shape**, and leaves one hash. -/
theorem bareType_inj (hkept : Kept cache) {t : TypeObj} :
    ∀ {t' : TypeObj} {r r' : List Char × Cache}, bareType t cache = .ok r →
      bareType t' cache = .ok r' → r.1 = r'.1 → shape t = shape t' ∧ r.2 = r'.2 := by
  induction t using pointer_induction with
  | leaf t hleaf =>
    intro t' r r' h h' htext
    obtain ⟨letter, rfl, hflag, hP, hS⟩ := bareType_leaf hleaf h
    induction t' using pointer_induction with
    | leaf t' hleaf' =>
      obtain ⟨letter', rfl, hflag', -, -⟩ := bareType_leaf hleaf' h'
      obtain rfl : letter = letter' := (List.cons.inj htext).1
      rw [shape_leaf hleaf, shape_leaf hleaf', Option.some.inj (hflag.symm.trans hflag')]
      exact ⟨rfl, rfl⟩
    | pointer s t' _ => exact absurd htext.symm (bareType_pointer_ne hkept h' hP hS)
  | pointer s t ih =>
    intro t' r r' h h' htext
    induction t' using pointer_induction with
    | leaf t' hleaf' =>
      obtain ⟨letter, rfl, -, hP, hS⟩ := bareType_leaf hleaf' h'
      exact absurd htext (bareType_pointer_ne hkept h hP hS)
    | pointer s' t' _ =>
      obtain ⟨q, hq, hcases⟩ := bareType_pointer h
      obtain ⟨q', hq', hcases'⟩ := bareType_pointer h'
      obtain ⟨d, e, hout⟩ := bareType_cameOut hkept hq
      obtain ⟨d', e', hout'⟩ := bareType_cameOut hkept hq'
      have hstep : q.1 = q'.1 → shape (.pointer s t) = shape (.pointer s' t') ∧ q.2 = q'.2 := by
        intro heq
        obtain ⟨hshape, hcache⟩ := ih hq hq' heq
        exact ⟨by rw [shape, shape, hshape], hcache⟩
      rcases hcases with ⟨code, hhit, rfl⟩ | ⟨-, rfl⟩ <;>
        rcases hcases' with ⟨code', hhit', rfl⟩ | ⟨-, rfl⟩
      · -- one abbreviation, so one key
        have hcode : code = code' := htext
        rw [hout.eq_of_lookup hhit] at hhit
        rw [hout'.eq_of_lookup hhit', ← hcode] at hhit'
        exact hstep (hkept.lookup_inj hhit hhit')
      · obtain ⟨i, -, rfl⟩ := hout.kept.of_lookup hhit
        exact absurd (List.cons.inj htext).1 (by decide)
      · obtain ⟨i, -, rfl⟩ := hout'.kept.of_lookup hhit'
        exact absurd (List.cons.inj htext).1 (by decide)
      · have htail : q.1 = q'.1 := (List.cons.inj htext).2
        obtain ⟨hshape, hcache⟩ := hstep htail
        exact ⟨hshape, by rw [hcache, htail]⟩

/-! ## The parameter list -/

/-- The first type of a list and the others. -/
theorem bare_function_type_cons {t : TypeObj} {ts : List TypeObj}
    (h : bare_function_type (t :: ts) cache = .ok r) :
    ∃ q qs, bareType t cache = .ok q ∧ bare_function_type ts q.2 = .ok qs ∧
      r = (q.1 ++ qs.1, qs.2) := by
  rw [bare_function_type] at h
  cases hb : bareType t cache with
  | error e =>
    rw [hb] at h
    cases h
  | ok q =>
    rw [hb] at h
    simp only at h
    cases hrest : bare_function_type ts q.2 with
    | error e =>
      rw [hrest] at h
      cases h
    | ok qs =>
      rw [hrest] at h
      exact ⟨q, qs, rfl, hrest, (Except.ok.inj h).symm⟩

/-- The texts of a list that is not empty start with a letter, a `P` or an `S`. -/
theorem CameOut.ne_nil (h : CameOut cache d e r) : r.1 ≠ [] := by
  rw [h.text]
  cases d with
  | zero =>
    rcases h.tail with ⟨c, rfl, -, -⟩ | ⟨ds, rfl, -⟩
    · exact List.cons_ne_nil _ _
    · exact List.cons_ne_nil _ _
  | succ k => exact List.cons_ne_nil _ _

/-- **Two lists that come out alike have the same shapes.** -/
theorem bare_function_type_inj {ts : List TypeObj} : ∀ {ts' : List TypeObj} {cache : Cache}
    {r r' : List Char × Cache}, Kept cache → bare_function_type ts cache = .ok r →
      bare_function_type ts' cache = .ok r' → r.1 = r'.1 → ts.map shape = ts'.map shape := by
  induction ts with
  | nil =>
    intro ts' cache r r' hkept h h' htext
    cases ts' with
    | nil => rfl
    | cons t' ts' =>
      obtain ⟨q, qs, hq, -, rfl⟩ := bare_function_type_cons h'
      obtain ⟨d, e, hout⟩ := bareType_cameOut hkept hq
      cases h
      exact absurd (List.append_eq_nil_iff.mp htext.symm).1 hout.ne_nil
  | cons t ts ih =>
    intro ts' cache r r' hkept h h' htext
    obtain ⟨q, qs, hq, hqs, rfl⟩ := bare_function_type_cons h
    obtain ⟨d, e, hout⟩ := bareType_cameOut hkept hq
    cases ts' with
    | nil =>
      cases h'
      exact absurd (List.append_eq_nil_iff.mp htext).1 hout.ne_nil
    | cons t' ts' =>
      obtain ⟨q', qs', hq', hqs', rfl⟩ := bare_function_type_cons h'
      obtain ⟨d', e', hout'⟩ := bareType_cameOut hkept hq'
      simp only [hout.text, hout'.text] at htext
      obtain ⟨rfl, rfl, hrest⟩ := typeText_append_inj hout.tail hout'.tail htext
      obtain ⟨hshape, hcache⟩ := bareType_inj hkept hq hq' (hout.text.trans hout'.text.symm)
      rw [← hcache] at hqs'
      rw [List.map_cons, List.map_cons, hshape, ih hout.kept hqs hqs' hrest]

/-! ## The name -/

/-- A number can be told from what follows when that does not start with a digit. -/
theorem numeral_append_inj {m n : ℕ} {x x' : List Char}
    (hx : ∀ c ∈ x.head?, c.isDigit = false) (hx' : ∀ c ∈ x'.head?, c.isDigit = false)
    (h : numeral 10 m ++ x = numeral 10 n ++ x') : m = n ∧ x = x' := by
  have htake : ∀ (k : ℕ) {y : List Char}, (∀ c ∈ y.head?, c.isDigit = false) →
      (numeral 10 k ++ y).takeWhile Char.isDigit = numeral 10 k := by
    intro k y hy
    rw [List.takeWhile_append_of_pos (numeral_isDigit k)]
    cases y with
    | nil => simp
    | cons c y => rw [List.takeWhile_cons_of_neg (by simpa using hy c rfl), List.append_nil]
  have hsame : numeral 10 m = numeral 10 n := by rw [← htake m hx, h, htake n hx']
  refine ⟨(numeral_inj (by decide) (by decide)).mp hsame, ?_⟩
  rw [hsame] at h
  exact List.append_cancel_left h

/-- **A part of a name with its length** can be told from what follows. -/
theorem lengthPrefixed_append_inj {w w' : NamePart} {x x' : List Char}
    (h : lengthPrefixed w.chars ++ x = lengthPrefixed w'.chars ++ x') :
    w.chars = w'.chars ∧ x = x' := by
  have hhead : ∀ (v : NamePart) (y : List Char), ∀ c ∈ (v.chars ++ y).head?, c.isDigit = false := by
    intro v y
    rw [List.head?_append_of_ne_nil _ v.nonempty]
    exact v.head
  unfold lengthPrefixed at h
  rw [List.append_assoc, List.append_assoc] at h
  obtain ⟨hlength, hchars⟩ := numeral_append_inj (hhead w x) (hhead w' x') h
  exact List.append_inj hchars hlength

/-- What is not a digit is not the start of a part. -/
theorem lengthPrefixed_ne_cons {w x y : List Char} {c : Char} (hc : c.isDigit = false) :
    lengthPrefixed w ++ x ≠ c :: y := by
  intro h
  obtain ⟨d, ds, hds⟩ := List.exists_cons_of_ne_nil (numeral_ne_nil 10 w.length)
  have hd : d.isDigit = true := numeral_isDigit w.length d (by rw [hds]; exact List.mem_cons_self)
  rw [lengthPrefixed, hds] at h
  rw [(List.cons.inj h).1, hc] at hd
  cases hd

/-- The parts of a nested name, which ends with `E`. -/
theorem parts_append_inj {x x' : List Char} (ws : List NamePart) : ∀ ws' : List NamePart,
    (ws.map NamePart.chars).flatMap lengthPrefixed ++ 'E' :: x =
        (ws'.map NamePart.chars).flatMap lengthPrefixed ++ 'E' :: x' →
      ws.map NamePart.chars = ws'.map NamePart.chars ∧ x = x' := by
  have hE : 'E'.isDigit = false := rfl
  induction ws with
  | nil =>
    intro ws' h
    cases ws' with
    | nil => exact ⟨rfl, (List.cons.inj h).2⟩
    | cons w' ws' =>
      rw [List.map_cons, List.flatMap_cons, List.append_assoc] at h
      exact absurd h.symm (lengthPrefixed_ne_cons hE)
  | cons w ws ih =>
    intro ws' h
    cases ws' with
    | nil =>
      rw [List.map_cons, List.flatMap_cons, List.append_assoc] at h
      exact absurd h (lengthPrefixed_ne_cons hE)
    | cons w' ws' =>
      simp only [List.map_cons, List.flatMap_cons, List.append_assoc] at h
      obtain ⟨hw, hrest⟩ := lengthPrefixed_append_inj h
      obtain ⟨hws, hx⟩ := ih ws' hrest
      exact ⟨by rw [List.map_cons, List.map_cons, hw, hws], hx⟩

theorem nameOf_scoped (name : ScopedName) :
    nameOf name.text =
      if name.scopes = [] then lengthPrefixed name.own.chars
      else 'N' :: name.parts.flatMap lengthPrefixed ++ ['E'] := by
  have hscopes : ∀ s ∈ name.scopes.map NamePart.chars, ':' ∉ s := by
    intro s hs
    obtain ⟨w, -, rfl⟩ := List.mem_map.mp hs
    exact w.noColon
  have hjoined := nameOf_joined hscopes name.own.noColon name.own.nonempty
  rw [List.flatMap_map] at hjoined
  rw [ScopedName.text, hjoined]
  simp only [List.map_eq_nil_iff]
  rfl

/-- **The text of a name tells its parts**, whatever follows. -/
theorem nameOf_scoped_append_inj {name name' : ScopedName} {x x' : List Char}
    (h : nameOf name.text ++ x = nameOf name'.text ++ x') :
    name.parts = name'.parts ∧ x = x' := by
  have hN : 'N'.isDigit = false := rfl
  have hparts : ∀ n : ScopedName, n.parts = (n.scopes ++ [n.own]).map NamePart.chars := by
    intro n
    rw [List.map_append]
    rfl
  rw [nameOf_scoped, nameOf_scoped] at h
  by_cases hs : name.scopes = [] <;> by_cases hs' : name'.scopes = []
  · rw [if_pos hs, if_pos hs'] at h
    obtain ⟨hown, hx⟩ := lengthPrefixed_append_inj h
    exact ⟨by rw [ScopedName.parts, ScopedName.parts, hs, hs', hown], hx⟩
  · rw [if_pos hs, if_neg hs', List.cons_append, List.cons_append] at h
    exact absurd h (lengthPrefixed_ne_cons hN)
  · rw [if_neg hs, if_pos hs', List.cons_append, List.cons_append] at h
    exact absurd h.symm (lengthPrefixed_ne_cons hN)
  · rw [if_neg hs, if_neg hs', hparts, hparts, List.append_assoc, List.append_assoc] at h
    rw [hparts, hparts]
    exact parts_append_inj _ _ (List.cons.inj h).2

/-! ## The symbol -/

/-- A symbol is the text of the name before the texts of the types. -/
theorem mangle_ok {name : List Char} {params : List TypeObj} {symbol : List Char}
    (h : mangle name params = .ok symbol) :
    ∃ r, bare_function_type (if params = [] then [scalarType .Void] else params) [] = .ok r ∧
      symbol = '_' :: 'Z' :: nameOf name ++ r.1 := by
  unfold mangle at h
  simp only [List.isEmpty_iff] at h
  cases hr : bare_function_type (if params = [] then [scalarType .Void] else params) [] with
  | error e =>
    rw [hr] at h
    cases h
  | ok r =>
    rw [hr] at h
    exact ⟨r, rfl, (Except.ok.inj h).symm⟩

/-- **Functions of one symbol have one name and parameters of the same shapes.** The mangler is
injective on names and on lists of types, built-in ones under any number of pointers, up to the
class and the qualifiers of a type. SOURCE: Itanium.pm:12-172 -/
theorem mangle_inj {name name' : ScopedName} {params params' : List TypeObj} {symbol : List Char}
    (h : mangle name.text params = .ok symbol) (h' : mangle name'.text params' = .ok symbol) :
    name.parts = name'.parts ∧ shapes params = shapes params' := by
  obtain ⟨r, hr, hsymbol⟩ := mangle_ok h
  obtain ⟨r', hr', hsymbol'⟩ := mangle_ok h'
  have htext : nameOf name.text ++ r.1 = nameOf name'.text ++ r'.1 := by
    rw [hsymbol, List.cons_append, List.cons_append, List.cons_append, List.cons_append] at hsymbol'
    exact (List.cons.inj (List.cons.inj hsymbol').2).2
  obtain ⟨hparts, htypes⟩ := nameOf_scoped_append_inj htext
  exact ⟨hparts, bare_function_type_inj kept_nil hr hr' htypes⟩

theorem head_partF : ∀ c ∈ ['f'].head?, c.isDigit = false := by
  rintro c ⟨⟩
  rfl

/-- `f`. -/
def partF : NamePart where
  chars := ['f']
  nonempty := List.cons_ne_nil _ _
  noColon := List.not_mem_cons_of_ne_of_not_mem (Char.ne_of_val_ne (by decide)) List.not_mem_nil
  head := head_partF

/-- `f()` and `f(void)` have one symbol, and `void` for their parameters. -/
theorem mangle_inj_void :
    ([['f']] : List (List Char)) = [['f']] ∧ shapes [] = shapes [scalarType .Void] :=
  mangle_inj (show mangle (ScopedName.text ⟨[], partF⟩) [] = .ok ['_', 'Z', '1', 'f', 'K'] from rfl)
    (show mangle (ScopedName.text ⟨[], partF⟩) [scalarType .Void] = _ from rfl)

end Affix.Analysis
