import Affix.Interface.CxxSymbol
import Affix.Model.Itanium
import Mathlib.Data.List.Nodup
import Mathlib.Data.Nat.Find

/-!
# Where mangled names are symbols

The hash of the mangler has a key for each pointer type it has written, the text behind
the pointer as it came out. For a type that comes again this text is already an
abbreviation, so it is found only where each pointer level was first reached on its own.
The mangler does not number the scopes of the name, and it writes its numbers in decimal.

SOURCE: Itanium.pm:12-161
-/

set_option autoImplicit false

namespace Affix.Analysis

open Affix.Foundation Affix.Model Affix.Model.Itanium Affix.Interface

/-! ## When a parameter comes out as in the symbol -/

/-- The deepest pointer over a built-in type among the parameters. -/
def deepest (b : Builtin) : List CxxType → ℕ
  | [] => 0
  | t :: ts => if t.base = b then max t.depth (deepest b ts) else deepest b ts

/-- The parameter is a pointer over the type, or over a pointer over it, of some depth. -/
def reaches (b : Builtin) (j : ℕ) (t : CxxType) : Bool := decide (t.base = b ∧ j ≤ t.depth)

/-- The first parameter that reaches a depth over the type goes no deeper. -/
def ReachedAlone (before : List CxxType) (b : Builtin) (j : ℕ) : Prop :=
  ∀ q, before.find? (reaches b j) = some q → q.depth = j

/-- What is numbered once parameters have been written. -/
def numbered : List CxxType → List Component → List Component
  | [], seen => seen
  | t :: ts, seen => numbered ts (symbolType t.base t.depth seen).2

/-- **A parameter keeps step** with the symbol: it is not over `void`; every lesser depth over
its type was reached by an earlier parameter that went no deeper, if by any; and the pointer
type it is abbreviated with, if any, has the same number in decimal, without the scopes, as in
base thirty-six with them. -/
structure KeepsStep (scopes : List Component) (before : List CxxType) (t : CxxType) : Prop where
  notVoid : t.base ≠ .void
  alone : ∀ j, 1 ≤ j → j < t.depth → ReachedAlone before t.base j
  number : ∀ i, (numbered before scopes)[i]? =
    some (.pointer ⟨t.base, min t.depth (deepest t.base before)⟩) →
      substitution 10 (i - scopes.length) = substitution 36 i

/-- Every parameter keeps step, after those before it. -/
def KeepStep (scopes : List Component) : (before params : List CxxType) → Prop
  | _, [] => True
  | before, t :: ts => KeepsStep scopes before t ∧ KeepStep scopes (before ++ [t]) ts

/-- **The condition**: the name is in no scope of `std`, there are parameters, and all keep
step. -/
def InStep (name : CxxName) (params : List CxxType) : Prop :=
  (name.scopes.map Identifier.chars).head? ≠ some std ∧ params ≠ [] ∧
    KeepStep (symbolName name).2 [] params

/-! ## Texts that end where they end -/

/-- The end of the text of a type: a letter or an abbreviation. -/
def Tail (r : List Char) : Prop :=
  (∃ c, r = [c] ∧ c ≠ 'P' ∧ c ≠ 'S') ∨ ∃ ds, r = 'S' :: ds ++ ['_'] ∧ '_' ∉ ds

/-- A text up to its first underscore can be told from what follows. -/
theorem append_underscore_inj {ds ds' x x' : List Char} (hds : '_' ∉ ds) (hds' : '_' ∉ ds')
    (h : ds ++ '_' :: x = ds' ++ '_' :: x') : ds = ds' ∧ x = x' := by
  induction ds generalizing ds' with
  | nil =>
    cases ds' with
    | nil => exact ⟨rfl, (List.cons.inj h).2⟩
    | cons d ds' => exact absurd (List.cons.inj h).1 fun heq => hds' (heq ▸ List.mem_cons_self)
  | cons d ds ih =>
    cases ds' with
    | nil => exact absurd (List.cons.inj h).1.symm fun heq => hds (heq ▸ List.mem_cons_self)
    | cons d' ds' =>
      obtain ⟨rfl, hrest⟩ := List.cons.inj h
      obtain ⟨rfl, rfl⟩ := ih (fun hmem => hds (List.mem_cons_of_mem _ hmem))
        (fun hmem => hds' (List.mem_cons_of_mem _ hmem)) hrest
      exact ⟨rfl, rfl⟩

theorem Tail.append_inj {r r' x x' : List Char} (hr : Tail r) (hr' : Tail r')
    (h : r ++ x = r' ++ x') : r = r' ∧ x = x' := by
  rcases hr with ⟨c, rfl, -, hcS⟩ | ⟨ds, rfl, hds⟩ <;>
    rcases hr' with ⟨c', rfl, -, hcS'⟩ | ⟨ds', rfl, hds'⟩
  · obtain ⟨rfl, rfl⟩ := List.cons.inj h
    exact ⟨rfl, rfl⟩
  · exact absurd (List.cons.inj h).1 hcS
  · exact absurd (List.cons.inj h).1.symm hcS'
  · have hrest : ds ++ '_' :: x = ds' ++ '_' :: x' := by simpa using h
    obtain ⟨rfl, rfl⟩ := append_underscore_inj hds hds' hrest
    exact ⟨rfl, rfl⟩

theorem Tail.ne_pointer {r x y : List Char} (hr : Tail r) : r ++ x ≠ 'P' :: y := by
  rcases hr with ⟨c, rfl, hcP, -⟩ | ⟨ds, rfl, -⟩
  · intro h
    exact hcP (List.cons.inj h).1
  · intro h
    exact absurd (List.cons.inj h).1 (by decide)

/-- The text of a type: so many pointers, and its end. -/
def typeText (d : ℕ) (r : List Char) : List Char := List.replicate d 'P' ++ r

/-- **The text of a type can be told from what follows**, and its pointers from its end. -/
theorem typeText_append_inj {d d' : ℕ} {r r' x x' : List Char} (hr : Tail r) (hr' : Tail r')
    (h : typeText d r ++ x = typeText d' r' ++ x') : d = d' ∧ r = r' ∧ x = x' := by
  unfold typeText at h
  induction d generalizing d' with
  | zero =>
    cases d' with
    | zero =>
      obtain ⟨rfl, rfl⟩ := hr.append_inj hr' h
      exact ⟨rfl, rfl, rfl⟩
    | succ d' => exact absurd h hr.ne_pointer
  | succ d ih =>
    cases d' with
    | zero => exact absurd h.symm hr'.ne_pointer
    | succ d' =>
      obtain ⟨rfl, rfl, rfl⟩ := ih (List.cons.inj h).2
      exact ⟨rfl, rfl, rfl⟩

theorem typeText_inj {d d' : ℕ} {r r' : List Char} (hr : Tail r) (hr' : Tail r')
    (h : typeText d r = typeText d' r') : d = d' ∧ r = r' := by
  have happend : typeText d r ++ [] = typeText d' r' ++ [] := by rw [h]
  obtain ⟨hd, hend, -⟩ := typeText_append_inj hr hr' happend
  exact ⟨hd, hend⟩

theorem underscore_notMem_seqId {base : ℕ} (hpos : 0 < base) (hmax : base ≤ 36) (i : ℕ) :
    '_' ∉ if i ≠ 0 then numeral base (i - 1) else [] := by
  split
  · exact underscore_notMem_numeral hpos hmax _
  · exact List.not_mem_nil

theorem tail_substitution {base : ℕ} (hpos : 0 < base) (hmax : base ≤ 36) (i : ℕ) :
    Tail (substitution base i) :=
  Or.inr ⟨_, rfl, underscore_notMem_seqId hpos hmax i⟩

theorem substitution_inj {i j : ℕ} : substitution 10 i = substitution 10 j ↔ i = j := by
  constructor
  · intro h
    have hdigits := (append_underscore_inj (x := [])
      (underscore_notMem_seqId (by decide) (by decide) i)
      (underscore_notMem_seqId (by decide) (by decide) j) (List.cons.inj h).2).1
    by_cases hi : i = 0 <;> by_cases hj : j = 0
    · rw [hi, hj]
    · rw [if_neg (not_not.mpr hi), if_pos hj] at hdigits
      exact absurd hdigits.symm (numeral_ne_nil _ _)
    · rw [if_pos hi, if_neg (not_not.mpr hj)] at hdigits
      exact absurd hdigits (numeral_ne_nil _ _)
    · rw [if_pos hi, if_pos hj, numeral_inj (by decide) (by decide)] at hdigits
      omega
  · rintro rfl
    rfl

/-- Without scopes the numbers agree for the first eleven components. -/
theorem substitution_eq_iff (i : ℕ) : substitution 10 i = substitution 36 i ↔ i ≤ 10 := by
  have hnumeral : numeral 10 (i - 1) = numeral 36 (i - 1) ↔ i - 1 < 10 :=
    numeral_eq_numeral_iff (by decide) (by decide) (by decide)
  unfold substitution
  by_cases h0 : i = 0
  · subst h0
    simp
  · rw [if_pos h0, if_pos h0, List.cons_append, List.cons_append, List.cons.injEq,
      and_iff_right rfl, List.append_left_inj, hnumeral]
    omega

/-! ## The mangler on a type -/

/-- The mangler's letter: the entry for `Const` has the key of `Void`. -/
def codeLetter (b : Builtin) : Char := if b = .void then 'K' else b.letter

theorem builtinTypes_scalar (b : Builtin) :
    builtinTypes (scalarType b.kind) = some (codeLetter b) := by
  cases b <;> decide

theorem builtinTypes_pointer (t : TypeObj) : builtinTypes (Pointer t) = some 'P' := rfl

/-- What the mangler makes of a type. -/
def mangled (b : Builtin) : (depth : ℕ) → Cache → List Char × Cache
  | 0, cache => ([codeLetter b], cache)
  | n + 1, cache =>
    let (t, cache) := mangled b n cache
    match cache.lookup t with
    | some code => (code, cache)
    | none => ('P' :: t, cache ++ [(t, substitution 10 cache.length)])

theorem bareType_eq (b : Builtin) (n : ℕ) (cache : Cache) :
    bareType (CxxType.type ⟨b, n⟩) cache = .ok (mangled b n cache) := by
  induction n with
  | zero =>
    have hletter := builtinTypes_scalar b
    simp only [CxxType.type, Function.iterate_zero, id, scalarType] at hletter ⊢
    rw [bareType, hletter]
    · rfl
    · intro s subtype heq
      cases heq
  | succ n ih =>
    have hsucc : CxxType.type ⟨b, n + 1⟩ = Pointer (CxxType.type ⟨b, n⟩) :=
      Function.iterate_succ_apply' Pointer n _
    have hletter := builtinTypes_pointer (CxxType.type ⟨b, n⟩)
    rw [hsucc]
    unfold Pointer at hletter ⊢
    rw [bareType, hletter, mangled]
    simp only [ih]
    cases hl : (mangled b n cache).2.lookup (mangled b n cache).1 <;> rfl

/-- What the mangler makes of a parameter list. -/
def mangledAll : List CxxType → Cache → List Char
  | [], _ => []
  | t :: ts, cache =>
    (mangled t.base t.depth cache).1 ++ mangledAll ts (mangled t.base t.depth cache).2

theorem bare_function_type_eq (ts : List CxxType) : ∀ cache : Cache,
    (bare_function_type (ts.map CxxType.type) cache).map Prod.fst = .ok (mangledAll ts cache) := by
  induction ts with
  | nil =>
    intro cache
    rfl
  | cons t ts ih =>
    intro cache
    have hrest := ih (mangled t.base t.depth cache).2
    rw [List.map_cons, bare_function_type, bareType_eq, mangledAll]
    simp only
    cases hr : bare_function_type (ts.map CxxType.type) (mangled t.base t.depth cache).2 with
    | error e =>
      rw [hr] at hrest
      cases hrest
    | ok r =>
      obtain ⟨s, cache'⟩ := r
      rw [hr] at hrest
      cases hrest
      rfl

/-! ## The state of the mangler -/

/-- The depth was reached without skipping it. -/
def Linked (before : List CxxType) (b : Builtin) (j : ℕ) : Prop :=
  j = 0 ∨ ReachedAlone before b j

/-- What the mangler stands for a pointer type of a depth by: its letter, or the number of the
type. -/
def standsFor (cs : List CxxType) (b : Builtin) (j : ℕ) : List Char :=
  if j = 0 then [codeLetter b] else substitution 10 (cs.idxOf ⟨b, j⟩)

/-- **The hash after parameters that kept step.** It has a key for each pointer type that was
written, in their order. From what stands for a type the hash leads to what stands for the
pointer to it, where that depth was not skipped. -/
structure Tracks (before : List CxxType) (cache : Cache) (cs : List CxxType) : Prop where
  nodup : cs.Nodup
  mem : ∀ b j, (⟨b, j⟩ : CxxType) ∈ cs ↔ 1 ≤ j ∧ j ≤ deepest b before
  length : cache.length = cs.length
  leads : ∀ b j, j < deepest b before → Linked before b j →
    cache.lookup (standsFor cs b j) = some (standsFor cs b (j + 1))
  ends : ∀ b j, j ≤ deepest b before → (j < deepest b before → ¬ Linked before b j) →
    cache.lookup (standsFor cs b j) = none
  closed : ∀ s, cache.lookup s = none → cache.lookup ('P' :: s) = none
  codes : ∀ i, cache.length ≤ i → cache.lookup (substitution 10 i) = none
  noVoid : deepest .void before = 0

theorem tracks_nil : Tracks [] [] [] where
  nodup := List.nodup_nil
  mem b j := by
    simp only [deepest, List.not_mem_nil, false_iff]
    omega
  length := rfl
  leads b j hj := by cases hj
  ends _ _ _ _ := rfl
  closed _ _ := rfl
  codes _ _ := rfl
  noVoid := rfl

theorem tail_standsFor (cs : List CxxType) (b : Builtin) (j : ℕ) : Tail (standsFor cs b j) := by
  unfold standsFor
  split
  · refine Or.inl ⟨_, rfl, ?_⟩
    cases b <;> decide
  · exact tail_substitution (by decide) (by decide) _

/-! ## The mangler on a type it has tracked -/

/-- The keys that a growing pointer leaves, one for each level. -/
def newEntries (start : ℕ) (r : List Char) (d : ℕ) : Cache :=
  (List.range d).map fun i => (typeText i r, substitution 10 (start + i))

theorem newEntries_succ (start : ℕ) (r : List Char) (d : ℕ) :
    newEntries start r (d + 1) =
      newEntries start r d ++ [(typeText d r, substitution 10 (start + d))] := by
  simp [newEntries, List.range_succ]

theorem length_newEntries (start : ℕ) (r : List Char) (d : ℕ) :
    (newEntries start r d).length = d := by
  simp [newEntries]

theorem typeText_succ (d : ℕ) (r : List Char) : typeText (d + 1) r = 'P' :: typeText d r := rfl

/-- Only texts with fewer pointers before the same end are new keys. -/
theorem lookup_newEntries_eq_none {start d : ℕ} {r s : List Char}
    (h : ∀ i, i < d → s ≠ typeText i r) : (newEntries start r d).lookup s = none := by
  rw [List.lookup_eq_none_iff]
  rintro ⟨k, v⟩ hmem
  obtain ⟨i, hi, heq⟩ := List.mem_map.mp hmem
  cases heq
  simpa using h i (List.mem_range.mp hi)

theorem lookup_newEntries_typeText {start d i : ℕ} (r : List Char) (hi : i < d) :
    (newEntries start r d).lookup (typeText i r) ≠ none := by
  rw [Ne, List.lookup_eq_none_iff]
  intro h
  have hmem : (typeText i r, substitution 10 (start + i)) ∈ newEntries start r d :=
    List.mem_map.mpr ⟨i, List.mem_range.mpr hi, rfl⟩
  have hne := h _ hmem
  simp at hne

theorem lookup_newEntries_start {start d : ℕ} (r : List Char) (hd : 0 < d) :
    (newEntries start r d).lookup r = some (substitution 10 start) := by
  obtain ⟨d, rfl⟩ := Nat.exists_eq_succ_of_ne_zero hd.ne'
  rw [newEntries, List.range_succ_eq_map]
  simp [typeText]

/-- A text that is no pointer is a new key only where the new keys start. -/
theorem lookup_newEntries_tail {start d : ℕ} {r s : List Char} (hs : Tail s) (hne : s ≠ r) :
    (newEntries start r d).lookup s = none := by
  apply lookup_newEntries_eq_none
  intro i _ heq
  cases i with
  | zero => exact hne heq
  | succ i => exact hs.ne_pointer (x := []) ((List.append_nil s).trans heq)

/-- What the mangler has linked it goes along. -/
theorem mangled_hits {before : List CxxType} {cache : Cache} {cs : List CxxType}
    (htr : Tracks before cache cs) (b : Builtin) :
    ∀ {n : ℕ}, (∀ j, j < n → j < deepest b before ∧ Linked before b j) →
      mangled b n cache = (standsFor cs b n, cache) := by
  intro n
  induction n with
  | zero =>
    intro _
    rfl
  | succ n ih =>
    intro h
    obtain ⟨hlt, hlinked⟩ := h n (Nat.lt_succ_self n)
    rw [mangled, ih fun j hj => h j (hj.trans (Nat.lt_succ_self n))]
    simp only [htr.leads b n hlt hlinked]

/-- From a text that is no key the mangler writes pointers. -/
theorem mangled_misses {b : Builtin} {l : ℕ} {cache : Cache} {r : List Char} (hr : Tail r)
    (hclosed : ∀ s, cache.lookup s = none → cache.lookup ('P' :: s) = none)
    (hstart : mangled b l cache = (r, cache)) (hmiss : cache.lookup r = none) (d : ℕ) :
    mangled b (l + d) cache = (typeText d r, cache ++ newEntries cache.length r d) := by
  have hold : ∀ i, cache.lookup (typeText i r) = none := by
    intro i
    induction i with
    | zero => exact hmiss
    | succ i ih => exact hclosed _ ih
  induction d with
  | zero =>
    rw [Nat.add_zero, hstart]
    simp [typeText, newEntries]
  | succ d ih =>
    have hnew : (newEntries cache.length r d).lookup (typeText d r) = none := by
      apply lookup_newEntries_eq_none
      intro i hi heq
      have hsame := (typeText_inj hr hr heq).1
      omega
    have hnone : (cache ++ newEntries cache.length r d).lookup (typeText d r) = none := by
      rw [List.lookup_append, hold, hnew]
      rfl
    rw [← Nat.add_assoc, mangled, ih]
    simp only [hnone]
    rw [newEntries_succ, List.length_append, length_newEntries, List.append_assoc]
    rfl

/-! ## The symbol of a type -/

/-- What stands for a type in the symbol: its letter, or its number among all components. -/
def symbolFor (seen : List Component) (b : Builtin) (j : ℕ) : List Char :=
  if j = 0 then [b.letter] else substitution 36 (seen.idxOf (.pointer ⟨b, j⟩))

theorem tail_symbolFor (seen : List Component) (b : Builtin) (j : ℕ) :
    Tail (symbolFor seen b j) := by
  unfold symbolFor
  split
  · refine Or.inl ⟨_, rfl, ?_⟩
    cases b <;> decide
  · exact tail_substitution (by decide) (by decide) _

/-- The pointer types a parameter adds: those deeper than any before. -/
def grown (b : Builtin) (m n : ℕ) : List CxxType := (List.range (n - m)).map fun i => ⟨b, m + 1 + i⟩

theorem grown_of_le {b : Builtin} {m n : ℕ} (h : n ≤ m) : grown b m n = [] := by
  simp [grown, Nat.sub_eq_zero_of_le h]

theorem grown_succ {b : Builtin} {m n : ℕ} (h : m ≤ n) :
    grown b m (n + 1) = grown b m n ++ [⟨b, n + 1⟩] := by
  have hsucc : n + 1 - m = n - m + 1 := by omega
  have hlast : m + 1 + (n - m) = n + 1 := by omega
  simp [grown, hsucc, List.range_succ, hlast]

theorem mem_grown {b b' : Builtin} {m n j : ℕ} :
    (⟨b', j⟩ : CxxType) ∈ grown b m n ↔ b' = b ∧ m < j ∧ j ≤ n := by
  simp only [grown, List.mem_map, List.mem_range, CxxType.mk.injEq]
  constructor
  · rintro ⟨i, hi, rfl, rfl⟩
    exact ⟨rfl, by omega, by omega⟩
  · rintro ⟨rfl, hlo, hhi⟩
    exact ⟨j - (m + 1), by omega, rfl, by omega⟩

/-- The symbol writes a pointer for each level that is new, down to what stands for the deepest
level there is. -/
theorem symbolType_eq {b : Builtin} {m : ℕ} {seen : List Component}
    (hseen : ∀ j, .pointer ⟨b, j⟩ ∈ seen ↔ 1 ≤ j ∧ j ≤ m) (n : ℕ) :
    symbolType b n seen =
      (typeText (n - min n m) (symbolFor seen b (min n m)),
        seen ++ (grown b m n).map .pointer) := by
  induction n with
  | zero => simp [symbolType, typeText, symbolFor, grown]
  | succ n ih =>
    rw [symbolType]
    by_cases hle : n + 1 ≤ m
    · have hmem : Component.pointer ⟨b, n + 1⟩ ∈ seen := (hseen _).mpr ⟨by omega, hle⟩
      rw [if_pos hmem, grown_of_le hle, Nat.min_eq_left hle, Nat.sub_self]
      simp [typeText, symbolFor]
    · have hnot : Component.pointer ⟨b, n + 1⟩ ∉ seen := fun hmem => hle ((hseen _).mp hmem).2
      have hmin : min n m = m ∧ min (n + 1) m = m := by omega
      have hsub : n + 1 - m = n - m + 1 := by omega
      rw [if_neg hnot, ih, grown_succ (by omega), hmin.1, hmin.2, hsub, typeText_succ]
      simp

/-! ## The depths that were reached -/

theorem deepest_append (b : Builtin) (before : List CxxType) (t : CxxType) :
    deepest b (before ++ [t]) =
      if t.base = b then max (deepest b before) t.depth else deepest b before := by
  induction before with
  | nil => by_cases hb : t.base = b <;> simp [deepest, hb]
  | cons q before ih =>
    rw [List.cons_append, deepest, deepest, ih]
    by_cases hb : t.base = b <;> by_cases hq : q.base = b <;> simp [hb, hq, max_assoc]

theorem le_deepest {b : Builtin} {before : List CxxType} {q : CxxType} (hq : q ∈ before)
    (hb : q.base = b) : q.depth ≤ deepest b before := by
  induction before with
  | nil => cases hq
  | cons p before ih =>
    rw [deepest]
    rcases List.mem_cons.mp hq with rfl | hq
    · rw [if_pos hb]
      exact le_max_left _ _
    · have hle := ih hq
      split
      · exact hle.trans (le_max_right _ _)
      · exact hle

/-- A depth that is no greater than the deepest was reached. -/
theorem exists_find?_of_le_deepest {b : Builtin} {before : List CxxType} {j : ℕ} (hj : 1 ≤ j)
    (hle : j ≤ deepest b before) :
    ∃ q, before.find? (reaches b j) = some q := by
  induction before with
  | nil =>
    simp only [deepest] at hle
    omega
  | cons p before ih =>
    rw [List.find?_cons]
    by_cases hp : p.base = b ∧ j ≤ p.depth
    · exact ⟨p, by rw [reaches, decide_eq_true hp]⟩
    · obtain ⟨q, hq⟩ := ih (by
        rw [deepest] at hle
        split at hle
        · rename_i hb
          rcases le_max_iff.mp hle with hle | hle
          · exact absurd ⟨hb, hle⟩ hp
          · exact hle
        · exact hle)
      exact ⟨q, by rw [show reaches b j p = false from decide_eq_false hp, hq]⟩

theorem reachedAlone_of_deepest_le {b : Builtin} {before : List CxxType} {j : ℕ}
    (hle : deepest b before ≤ j) : ReachedAlone before b j := by
  intro q hq
  have hreaches : reaches b j q = true := List.find?_some hq
  have hprop : q.base = b ∧ j ≤ q.depth := of_decide_eq_true hreaches
  exact le_antisymm ((le_deepest (List.mem_of_find?_eq_some hq) hprop.1).trans hle) hprop.2

/-- What a parameter reaches does not undo what was reached. -/
theorem linked_append {b : Builtin} {before : List CxxType} {t : CxxType} {j : ℕ}
    (hlt : j < deepest b before) : Linked (before ++ [t]) b j ↔ Linked before b j := by
  unfold Linked ReachedAlone
  by_cases hj : j = 0
  · simp [hj]
  · obtain ⟨q, hq⟩ := exists_find?_of_le_deepest (Nat.pos_of_ne_zero hj) hlt.le
    simp [hj, List.find?_append, hq]

/-- The depth a growing pointer starts from is linked. -/
theorem linked_deepest {b : Builtin} {before : List CxxType} {t : CxxType} :
    Linked (before ++ [t]) b (deepest b before) := by
  by_cases hj : deepest b before = 0
  · exact Or.inl hj
  · obtain ⟨q, hq⟩ := exists_find?_of_le_deepest (Nat.pos_of_ne_zero hj) (le_refl _)
    refine Or.inr fun q' hq' => ?_
    rw [List.find?_append, hq] at hq'
    cases hq'
    exact reachedAlone_of_deepest_le (le_refl _) q hq

/-- A depth that a parameter is the first to reach, on its way to a greater, is not. -/
theorem not_linked_of_lt {before : List CxxType} {t : CxxType} {j : ℕ}
    (hlo : deepest t.base before < j) (hhi : j < t.depth) :
    ¬ Linked (before ++ [t]) t.base j := by
  rintro (rfl | halone)
  · cases hlo
  · have hnone : before.find? (reaches t.base j) = none := by
      rw [List.find?_eq_none]
      intro q hq hprop
      have hprop' : q.base = t.base ∧ j ≤ q.depth := of_decide_eq_true hprop
      have hle := le_deepest hq hprop'.1
      omega
    have hself : reaches t.base j t = true := decide_eq_true ⟨rfl, hhi.le⟩
    have hsame : t.depth = j := halone t (by
      rw [List.find?_append, hnone, List.find?_cons, hself]
      rfl)
    omega

/-! ## One parameter -/

section Step

variable {before : List CxxType} {cache : Cache} {cs : List CxxType}

/-- A parameter whose lesser depths are all linked. -/
theorem mangled_alone (htr : Tracks before cache cs) {b : Builtin} {n : ℕ}
    (halone : ∀ j, 1 ≤ j → j < n → ReachedAlone before b j) :
    mangled b n cache =
      (typeText (n - min n (deepest b before)) (standsFor cs b (min n (deepest b before))),
        cache ++ newEntries cache.length (standsFor cs b (deepest b before))
          (n - deepest b before)) := by
  have hlinked : ∀ j, j < n → Linked before b j := by
    intro j hj
    by_cases h0 : j = 0
    · exact Or.inl h0
    · exact Or.inr (halone j (Nat.pos_of_ne_zero h0) hj)
  by_cases hle : n ≤ deepest b before
  · rw [mangled_hits htr b fun j hj => ⟨hj.trans_le hle, hlinked j hj⟩, Nat.min_eq_left hle,
      Nat.sub_self, Nat.sub_eq_zero_of_le hle]
    simp [typeText, newEntries]
  · have hlt : deepest b before < n := not_le.mp hle
    have hstart := mangled_hits htr b (n := deepest b before)
      fun j hj => ⟨hj, hlinked j (hj.trans hlt)⟩
    have hmiss := htr.ends b (deepest b before) (le_refl _) fun h => absurd h (lt_irrefl _)
    have hgrow := mangled_misses (tail_standsFor cs b _) htr.closed hstart hmiss
      (n - deepest b before)
    rw [Nat.add_sub_cancel' hlt.le] at hgrow
    rw [hgrow, Nat.min_eq_right hlt.le]

/-- A parameter one of whose lesser depths was skipped: it comes out as a longer row of pointers
than it should. -/
theorem mangled_skipped (htr : Tracks before cache cs) {b : Builtin} {n : ℕ}
    (hskip : ∃ j, 1 ≤ j ∧ j < n ∧ ¬ ReachedAlone before b j) :
    ∃ l, l < min n (deepest b before) ∧
      (mangled b n cache).1 = typeText (n - l) (standsFor cs b l) := by
  classical
  obtain ⟨hl1, hln, hskip'⟩ := Nat.find_spec hskip
  have hmin := fun j hj => Nat.find_min hskip (m := j) hj
  generalize Nat.find hskip = l at hl1 hln hskip' hmin
  have hlt : l < deepest b before :=
    not_le.mp fun hle => hskip' (reachedAlone_of_deepest_le hle)
  have hstart := mangled_hits htr b (n := l) fun j hj => by
    refine ⟨hj.trans hlt, ?_⟩
    by_cases h0 : j = 0
    · exact Or.inl h0
    · exact Or.inr (not_not.mp fun hno => hmin j hj ⟨Nat.pos_of_ne_zero h0, hj.trans hln, hno⟩)
  have hmiss := htr.ends b l hlt.le fun _ hlinked =>
    hlinked.elim (fun h0 => by omega) hskip'
  have hgrow := mangled_misses (tail_standsFor cs b _) htr.closed hstart hmiss (n - l)
  rw [Nat.add_sub_cancel' hln.le] at hgrow
  exact ⟨l, lt_min hln hlt, by rw [hgrow]⟩

/-- What stands for two types is the same text only for one type. -/
theorem standsFor_inj {b b' : Builtin} {j j' : ℕ} (hj : j = 0 ∨ (⟨b, j⟩ : CxxType) ∈ cs)
    (hj' : j' = 0 ∨ (⟨b', j'⟩ : CxxType) ∈ cs) :
    standsFor cs b j = standsFor cs b' j' ↔ b = b' ∧ j = j' := by
  have hletter : codeLetter b = codeLetter b' ↔ b = b' := by
    cases b <;> cases b' <;> decide
  have hsub : ∀ (b₁ : Builtin) (i : ℕ), [codeLetter b₁] ≠ substitution 10 i := by
    intro b₁ i h
    cases b₁ <;> exact absurd (List.cons.inj h).1 (by decide)
  unfold standsFor
  by_cases h0 : j = 0 <;> by_cases h0' : j' = 0
  · simp [h0, h0', hletter]
  · rw [if_pos h0, if_neg h0']
    exact iff_of_false (hsub _ _) fun h => h0' (h.2 ▸ h0)
  · rw [if_neg h0, if_pos h0']
    exact iff_of_false (fun h => hsub _ _ h.symm) fun h => h0 (h.2.symm ▸ h0')
  · rw [if_neg h0, if_neg h0', substitution_inj, List.idxOf_inj (hj.resolve_left h0),
      CxxType.mk.injEq]

/-- More types numbered leave what stands for those there were. -/
theorem standsFor_append {b : Builtin} {j : ℕ} (hj : j = 0 ∨ (⟨b, j⟩ : CxxType) ∈ cs)
    (cs' : List CxxType) : standsFor (cs ++ cs') b j = standsFor cs b j := by
  unfold standsFor
  split
  · rfl
  · rename_i h0
    rw [List.idxOf_append_of_mem (hj.resolve_left h0)]

theorem Tracks.numbered (htr : Tracks before cache cs) {b : Builtin} {j : ℕ}
    (hj : j ≤ deepest b before) : j = 0 ∨ (⟨b, j⟩ : CxxType) ∈ cs := by
  by_cases h0 : j = 0
  · exact Or.inl h0
  · exact Or.inr ((htr.mem b j).mpr ⟨Nat.pos_of_ne_zero h0, hj⟩)

/-- A parameter that grows no pointer leaves the hash tracked as it is. -/
theorem Tracks.same (htr : Tracks before cache cs) {t : CxxType}
    (hle : t.depth ≤ deepest t.base before) : Tracks (before ++ [t]) cache cs := by
  have hdeepest : ∀ b, deepest b (before ++ [t]) = deepest b before := by
    intro b
    rw [deepest_append]
    split
    · rename_i hb
      exact max_eq_left (hb ▸ hle)
    · rfl
  refine ⟨htr.nodup, ?_, htr.length, ?_, ?_, htr.closed, htr.codes, ?_⟩
  · intro b j
    rw [hdeepest, htr.mem]
  · intro b j hj hlinked
    rw [hdeepest] at hj
    exact htr.leads b j hj ((linked_append hj).mp hlinked)
  · intro b j hj hno
    rw [hdeepest] at hj hno
    exact htr.ends b j hj fun hlt hlinked => hno hlt ((linked_append hlt).mpr hlinked)
  · rw [hdeepest, htr.noVoid]

/-! A parameter that is deeper than any before grows a pointer. -/

/-- The hash after it. -/
def grownCache (before : List CxxType) (cache : Cache) (cs : List CxxType) (t : CxxType) : Cache :=
  cache ++ newEntries cache.length (standsFor cs t.base (deepest t.base before))
    (t.depth - deepest t.base before)

/-- The types that are numbered after it. -/
def grownTypes (before cs : List CxxType) (t : CxxType) : List CxxType :=
  cs ++ grown t.base (deepest t.base before) t.depth

theorem deepest_grow {t : CxxType} (hlt : deepest t.base before < t.depth) (b : Builtin) :
    deepest b (before ++ [t]) = if b = t.base then t.depth else deepest b before := by
  rw [deepest_append]
  by_cases hb : t.base = b
  · subst hb
    rw [if_pos rfl, if_pos rfl, max_eq_right hlt.le]
  · rw [if_neg hb, if_neg (Ne.symm hb)]

theorem Tracks.notMem_deeper (htr : Tracks before cache cs) {b : Builtin} {j : ℕ}
    (hj : deepest b before < j) : (⟨b, j⟩ : CxxType) ∉ cs :=
  fun hmem => absurd ((htr.mem _ _).mp hmem).2 (not_le.mpr hj)

/-- Of the types there were, only the deepest of this base has a new key. -/
theorem Tracks.lookup_old (htr : Tracks before cache cs) {t : CxxType} {b : Builtin} {j : ℕ}
    (hj : j ≤ deepest b before) (hne : ¬ (b = t.base ∧ j = deepest t.base before)) :
    (grownCache before cache cs t).lookup (standsFor (grownTypes before cs t) b j) =
      cache.lookup (standsFor cs b j) := by
  have hnew : (newEntries cache.length (standsFor cs t.base (deepest t.base before))
      (t.depth - deepest t.base before)).lookup (standsFor cs b j) = none := by
    refine lookup_newEntries_tail (tail_standsFor cs b j) fun heq => hne ?_
    exact (standsFor_inj (htr.numbered hj) (htr.numbered (le_refl _))).mp heq
  rw [grownCache, grownTypes, standsFor_append (htr.numbered hj), List.lookup_append, hnew,
    Option.or_none]

theorem Tracks.grow_mem (htr : Tracks before cache cs) {t : CxxType}
    (hlt : deepest t.base before < t.depth) (b : Builtin) (j : ℕ) :
    (⟨b, j⟩ : CxxType) ∈ grownTypes before cs t ↔ 1 ≤ j ∧ j ≤ deepest b (before ++ [t]) := by
  rw [grownTypes, List.mem_append, htr.mem, mem_grown, deepest_grow hlt]
  by_cases hb : b = t.base
  · subst hb
    simp only [if_true, true_and]
    omega
  · simp [hb]

theorem Tracks.grow_nodup (htr : Tracks before cache cs) (t : CxxType) :
    (grownTypes before cs t).Nodup := by
  refine List.nodup_append.mpr ⟨htr.nodup, ?_, ?_⟩
  · refine List.Nodup.map (fun i j hij => ?_) List.nodup_range
    have hdepth := congrArg CxxType.depth hij
    simp only at hdepth
    omega
  · rintro ⟨b, j⟩ hmem q hq rfl
    obtain ⟨rfl, hj, -⟩ := mem_grown.mp hq
    exact htr.notMem_deeper hj hmem

/-- The first new key leads to the first new type. -/
theorem Tracks.grow_start (htr : Tracks before cache cs) {t : CxxType}
    (hlt : deepest t.base before < t.depth) :
    (grownCache before cache cs t).lookup
        (standsFor (grownTypes before cs t) t.base (deepest t.base before)) =
      some (standsFor (grownTypes before cs t) t.base (deepest t.base before + 1)) := by
  have hmiss : cache.lookup (standsFor cs t.base (deepest t.base before)) = none :=
    htr.ends t.base _ (le_refl _) fun h => absurd h (lt_irrefl _)
  have hd : 0 < t.depth - deepest t.base before := Nat.sub_pos_of_lt hlt
  have hgrown : grown t.base (deepest t.base before) t.depth =
      ⟨t.base, deepest t.base before + 1⟩ ::
        (List.range (t.depth - deepest t.base before - 1)).map fun i =>
          ⟨t.base, deepest t.base before + 1 + (i + 1)⟩ := by
    obtain ⟨d, hd'⟩ := Nat.exists_eq_succ_of_ne_zero hd.ne'
    rw [grown, hd', List.range_succ_eq_map]
    simp [Function.comp_def]
  have hnext : standsFor (grownTypes before cs t) t.base (deepest t.base before + 1) =
      substitution 10 cache.length := by
    rw [standsFor, if_neg (Nat.succ_ne_zero _), grownTypes,
      List.idxOf_append_of_notMem (htr.notMem_deeper (Nat.lt_succ_self _)), hgrown,
      List.idxOf_cons_self, Nat.add_zero, htr.length]
  rw [hnext, grownTypes, standsFor_append (htr.numbered (le_refl _)), grownCache,
    List.lookup_append, hmiss, lookup_newEntries_start _ hd]
  rfl

theorem Tracks.grow_leads (htr : Tracks before cache cs) {t : CxxType}
    (hlt : deepest t.base before < t.depth) {b : Builtin} {j : ℕ}
    (hj : j < deepest b (before ++ [t])) (hlinked : Linked (before ++ [t]) b j) :
    (grownCache before cache cs t).lookup (standsFor (grownTypes before cs t) b j) =
      some (standsFor (grownTypes before cs t) b (j + 1)) := by
  -- a type there was leads where it led
  have hkept : j < deepest b before → ¬ (b = t.base ∧ j = deepest t.base before) →
      (grownCache before cache cs t).lookup (standsFor (grownTypes before cs t) b j) =
        some (standsFor (grownTypes before cs t) b (j + 1)) := by
    intro hold hne
    rw [htr.lookup_old hold.le hne, htr.leads b j hold ((linked_append hold).mp hlinked),
      grownTypes, standsFor_append (htr.numbered hold)]
  rw [deepest_grow hlt] at hj
  by_cases hb : b = t.base
  · subst hb
    rw [if_pos rfl] at hj
    rcases lt_trichotomy j (deepest t.base before) with hjlt | rfl | hjgt
    · exact hkept hjlt fun h => hjlt.ne h.2
    · exact htr.grow_start hlt
    · exact absurd hlinked (not_linked_of_lt hjgt hj)
  · rw [if_neg hb] at hj
    exact hkept hj fun h => hb h.1

theorem Tracks.grow_ends (htr : Tracks before cache cs) {t : CxxType}
    (hlt : deepest t.base before < t.depth) {b : Builtin} {j : ℕ}
    (hj : j ≤ deepest b (before ++ [t]))
    (hno : j < deepest b (before ++ [t]) → ¬ Linked (before ++ [t]) b j) :
    (grownCache before cache cs t).lookup (standsFor (grownTypes before cs t) b j) = none := by
  rw [deepest_grow hlt] at hno
  by_cases hb : b = t.base
  · subst hb
    rw [if_pos rfl] at hno
    rcases lt_trichotomy j (deepest t.base before) with hjlt | rfl | hjgt
    · rw [htr.lookup_old hjlt.le fun h => hjlt.ne h.2]
      exact htr.ends _ j hjlt.le fun _ hl => hno (hjlt.trans hlt) ((linked_append hjlt).mpr hl)
    · exact absurd linked_deepest (hno hlt)
    · -- the number of a new type is no key
      have hnum : standsFor (grownTypes before cs t) t.base j =
          substitution 10 (cs.length +
            (grown t.base (deepest t.base before) t.depth).idxOf ⟨t.base, j⟩) := by
        rw [standsFor, if_neg (by omega), grownTypes,
          List.idxOf_append_of_notMem (htr.notMem_deeper hjgt)]
      have hfresh : standsFor (grownTypes before cs t) t.base j ≠
          standsFor cs t.base (deepest t.base before) := by
        have hbase := htr.numbered (b := t.base) (le_refl _)
        rw [← standsFor_append hbase (grown t.base (deepest t.base before) t.depth)]
        intro heq
        have hmem : (⟨t.base, j⟩ : CxxType) ∈ grownTypes before cs t :=
          (htr.grow_mem hlt t.base j).mpr ⟨by omega, hj⟩
        have hsame := (standsFor_inj (Or.inr hmem)
          (hbase.imp_right (List.mem_append_left _))).mp heq
        exact hjgt.ne' hsame.2
      rw [grownCache, List.lookup_append, lookup_newEntries_tail (tail_standsFor _ _ _) hfresh,
        hnum, htr.codes _ (by rw [htr.length]; omega)]
      rfl
  · rw [deepest_grow hlt, if_neg hb] at hj
    rw [if_neg hb] at hno
    rw [htr.lookup_old hj fun h => hb h.1]
    exact htr.ends b j hj fun hlt' hl => hno hlt' ((linked_append hlt').mpr hl)

theorem Tracks.grow_closed (htr : Tracks before cache cs) {t : CxxType} {s : List Char}
    (hs : (grownCache before cache cs t).lookup s = none) :
    (grownCache before cache cs t).lookup ('P' :: s) = none := by
  rw [grownCache, List.lookup_append, Option.or_eq_none_iff] at hs ⊢
  refine ⟨htr.closed s hs.1, lookup_newEntries_eq_none fun i hi heq => ?_⟩
  cases i with
  | zero =>
    exact (tail_standsFor cs t.base _).ne_pointer (x := []) ((List.append_nil _).trans heq.symm)
  | succ i =>
    have hshort : s = typeText i (standsFor cs t.base (deepest t.base before)) :=
      (List.cons.inj heq).2
    exact lookup_newEntries_typeText _ (Nat.lt_of_succ_lt hi) (hshort ▸ hs.2)

theorem Tracks.grow_codes (htr : Tracks before cache cs) {t : CxxType} {i : ℕ}
    (hi : (grownCache before cache cs t).length ≤ i) :
    (grownCache before cache cs t).lookup (substitution 10 i) = none := by
  rw [grownCache, List.length_append, length_newEntries] at hi
  rw [grownCache, List.lookup_append, htr.codes i (by omega)]
  refine lookup_newEntries_tail (tail_substitution (by decide) (by decide) i) fun heq => ?_
  have hlen := htr.length
  unfold standsFor at heq
  split at heq
  · cases hb : t.base <;> rw [hb] at heq <;> exact absurd (List.cons.inj heq).1 (by decide)
  · rename_i h0
    have hidx := List.idxOf_lt_length_of_mem
      ((htr.numbered (b := t.base) (le_refl _)).resolve_left h0)
    have hsame := substitution_inj.mp heq
    omega

/-- **A parameter that grows a pointer** leaves the hash tracked with its new entries. -/
theorem Tracks.grow (htr : Tracks before cache cs) {t : CxxType} (hvoid : t.base ≠ .void)
    (hlt : deepest t.base before < t.depth) :
    Tracks (before ++ [t]) (grownCache before cache cs t) (grownTypes before cs t) where
  nodup := htr.grow_nodup t
  mem := htr.grow_mem hlt
  length := by
    rw [grownCache, grownTypes, List.length_append, List.length_append, length_newEntries,
      htr.length]
    simp [grown]
  leads _ _ := htr.grow_leads hlt
  ends _ _ := htr.grow_ends hlt
  closed _ := htr.grow_closed
  codes _ := htr.grow_codes
  noVoid := by rw [deepest_grow hlt, if_neg (Ne.symm hvoid), htr.noVoid]

/-! The two texts of a parameter. -/

variable {scopes : List Component}

theorem idxOf_map_pointer (cs : List CxxType) (t : CxxType) :
    (cs.map Component.pointer).idxOf (.pointer t) = cs.idxOf t := by
  induction cs with
  | nil => rfl
  | cons c cs ih =>
    rw [List.map_cons, List.idxOf_cons, List.idxOf_cons, ih]
    have hsame : (Component.pointer c == Component.pointer t) = (c == t) := by
      rw [Bool.eq_iff_iff, beq_iff_eq, beq_iff_eq, Component.pointer.injEq]
    rw [hsame]

/-- What stands for a type is the same in both when the type is not `void` and its number is. -/
theorem standsFor_eq_symbolFor_iff (htr : Tracks before cache cs)
    (hscopes : ∀ t, Component.pointer t ∉ scopes) {b : Builtin} {m : ℕ}
    (hm : m ≤ deepest b before) :
    standsFor cs b m = symbolFor (scopes ++ cs.map .pointer) b m ↔
      b ≠ .void ∧ ∀ i, (scopes ++ cs.map .pointer)[i]? = some (.pointer ⟨b, m⟩) →
        substitution 10 (i - scopes.length) = substitution 36 i := by
  have hindex : ∀ i, (scopes ++ cs.map .pointer)[i]? = some (.pointer ⟨b, m⟩) ↔
      scopes.length ≤ i ∧ cs[i - scopes.length]? = some ⟨b, m⟩ := by
    intro i
    by_cases hi : i < scopes.length
    · rw [List.getElem?_append_left hi]
      exact iff_of_false (fun h => hscopes _ (List.mem_of_getElem? h)) fun h => by omega
    · rw [List.getElem?_append_right (not_lt.mp hi), List.getElem?_map]
      simp [not_lt.mp hi]
  simp_rw [hindex]
  by_cases h0 : m = 0
  · subst h0
    have hnone : ∀ i : ℕ, cs[i]? ≠ some ⟨b, 0⟩ := by
      intro i hi
      have hpos := ((htr.mem b 0).mp (List.mem_of_getElem? hi)).1
      omega
    simp only [standsFor, symbolFor, if_true, hnone, and_false, false_implies, implies_true,
      and_true, List.cons.injEq]
    cases b <;> decide
  · have hmem : (⟨b, m⟩ : CxxType) ∈ cs := (htr.numbered hm).resolve_left h0
    have hvoid : b ≠ .void := by
      rintro rfl
      rw [htr.noVoid] at hm
      omega
    have hidx : (scopes ++ cs.map Component.pointer).idxOf (.pointer ⟨b, m⟩) =
        scopes.length + cs.idxOf ⟨b, m⟩ := by
      rw [List.idxOf_append_of_notMem (hscopes _), idxOf_map_pointer]
    have hat : ∀ i, cs[i]? = some ⟨b, m⟩ ↔ i = cs.idxOf ⟨b, m⟩ := by
      intro i
      constructor
      · intro hi
        obtain ⟨hlt, heq⟩ := List.getElem?_eq_some_iff.mp hi
        rw [← heq, htr.nodup.idxOf_getElem]
      · rintro rfl
        exact List.getElem?_idxOf hmem
    simp only [standsFor, symbolFor, h0, if_false, hidx, hat, ne_eq, hvoid, not_false_eq_true,
      true_and]
    constructor
    · rintro heq i ⟨hle, hi⟩
      have hsum : i = scopes.length + cs.idxOf ⟨b, m⟩ := by omega
      rw [hi, hsum]
      exact heq
    · intro h
      have hlast := h (scopes.length + cs.idxOf ⟨b, m⟩) ⟨Nat.le_add_right _ _, by omega⟩
      rwa [Nat.add_sub_cancel_left] at hlast

/-- The pointer types in the symbol's numbering are the hash's. -/
theorem Tracks.mem_seen (htr : Tracks before cache cs) (hscopes : ∀ t, .pointer t ∉ scopes)
    (b : Builtin) (j : ℕ) :
    Component.pointer ⟨b, j⟩ ∈ scopes ++ cs.map .pointer ↔ 1 ≤ j ∧ j ≤ deepest b before := by
  rw [List.mem_append, ← htr.mem]
  simp [hscopes]

/-- **A parameter comes out as in the symbol exactly when it keeps step**, whatever follows. -/
theorem mangled_eq_symbolType_iff (htr : Tracks before cache cs)
    (hscopes : ∀ t, .pointer t ∉ scopes)
    (hseen : numbered before scopes = scopes ++ cs.map .pointer) (t : CxxType)
    (x y : List Char) :
    (mangled t.base t.depth cache).1 ++ x =
        (symbolType t.base t.depth (scopes ++ cs.map .pointer)).1 ++ y ↔
      KeepsStep scopes before t ∧ x = y := by
  have hsymbol := symbolType_eq (htr.mem_seen hscopes t.base) t.depth
  by_cases halone : ∀ j, 1 ≤ j → j < t.depth → ReachedAlone before t.base j
  · have hsame := standsFor_eq_symbolFor_iff htr hscopes
      (min_le_right t.depth (deepest t.base before))
    rw [mangled_alone htr halone, hsymbol]
    constructor
    · intro heq
      obtain ⟨-, hstands, hrest⟩ := typeText_append_inj (tail_standsFor _ _ _)
        (tail_symbolFor _ _ _) heq
      obtain ⟨hvoid, hnumber⟩ := hsame.mp hstands
      exact ⟨⟨hvoid, halone, hseen ▸ hnumber⟩, hrest⟩
    · rintro ⟨hstep, rfl⟩
      rw [hsame.mpr ⟨hstep.notVoid, hseen ▸ hstep.number⟩]
  · refine iff_of_false ?_ fun h => halone h.1.alone
    simp only [not_forall] at halone
    obtain ⟨j, hj1, hjlt, hno⟩ := halone
    obtain ⟨l, hl, hmangled⟩ := mangled_skipped htr ⟨j, hj1, hjlt, hno⟩
    rw [hmangled, hsymbol]
    intro heq
    have hpointers := (typeText_append_inj (tail_standsFor _ _ _) (tail_symbolFor _ _ _) heq).1
    omega

/-- A parameter that keeps step leaves the hash tracked, and the numbering with it. -/
theorem KeepsStep.tracks (htr : Tracks before cache cs) (hscopes : ∀ t, .pointer t ∉ scopes)
    {t : CxxType} (hstep : KeepsStep scopes before t) :
    ∃ cs', Tracks (before ++ [t]) (mangled t.base t.depth cache).2 cs' ∧
      (symbolType t.base t.depth (scopes ++ cs.map .pointer)).2 = scopes ++ cs'.map .pointer := by
  rw [mangled_alone htr hstep.alone, symbolType_eq (htr.mem_seen hscopes t.base) t.depth]
  by_cases hle : t.depth ≤ deepest t.base before
  · refine ⟨cs, ?_, ?_⟩
    · rw [Nat.sub_eq_zero_of_le hle]
      simpa [newEntries] using htr.same hle
    · rw [grown_of_le hle]
      simp
  · refine ⟨grownTypes before cs t, htr.grow hstep.notVoid (not_le.mp hle), ?_⟩
    rw [grownTypes, List.map_append, List.append_assoc]

end Step

/-! ## The parameter list -/

theorem numbered_append (before : List CxxType) (t : CxxType) : ∀ seen : List Component,
    numbered (before ++ [t]) seen = (symbolType t.base t.depth (numbered before seen)).2 := by
  induction before with
  | nil =>
    intro seen
    rfl
  | cons q before ih =>
    intro seen
    exact ih _

/-- **The parameters come out as in the symbol exactly when all keep step.** -/
theorem mangledAll_eq_iff {scopes : List Component} (hscopes : ∀ t, .pointer t ∉ scopes)
    (params : List CxxType) : ∀ {before : List CxxType} {cache : Cache} {cs : List CxxType},
      Tracks before cache cs → numbered before scopes = scopes ++ cs.map .pointer →
      (mangledAll params cache = symbolTypes params (scopes ++ cs.map .pointer) ↔
        KeepStep scopes before params) := by
  induction params with
  | nil =>
    intro before cache cs _ _
    exact iff_of_true rfl trivial
  | cons t params ih =>
    intro before cache cs htr hseen
    rw [mangledAll, symbolTypes, KeepStep]
    simp only
    rw [mangled_eq_symbolType_iff htr hscopes hseen]
    refine and_congr_right fun hstep => ?_
    obtain ⟨cs', htr', hseen'⟩ := hstep.tracks htr hscopes
    rw [hseen']
    refine ih htr' ?_
    rw [numbered_append, hseen, hseen']

/-! ## The name -/

theorem fieldsOf_of_notMem {w : List Char} (hw : ':' ∉ w) : fieldsOf w = [w] := by
  induction w with
  | nil => rfl
  | cons c w ih =>
    have hc : c ≠ ':' := fun heq => hw (heq ▸ List.mem_cons_self)
    rw [fieldsOf, ih fun hmem => hw (List.mem_cons_of_mem _ hmem)]
    rintro rest rfl
    exact fun _ => hc rfl

theorem fieldsOf_append {w : List Char} (hw : ':' ∉ w) (rest : List Char) :
    fieldsOf (w ++ ':' :: ':' :: rest) = w :: fieldsOf rest := by
  induction w with
  | nil => rw [List.nil_append, fieldsOf]
  | cons c w ih =>
    have hc : c ≠ ':' := fun heq => hw (heq ▸ List.mem_cons_self)
    rw [List.cons_append, fieldsOf, ih fun hmem => hw (List.mem_cons_of_mem _ hmem)]
    rintro rest' rfl
    exact fun _ => hc rfl

theorem colon_notMem (w : Identifier) : ':' ∉ w.chars := by
  intro hmem
  rcases w.valid _ hmem with h | h <;> exact absurd h (by decide)

/-- The fields of a name are the parts it was joined from, if no colon is in any. -/
theorem splitName_joined {scopes : List (List Char)} {own : List Char}
    (hscopes : ∀ s ∈ scopes, ':' ∉ s) (hown : ':' ∉ own) (hne : own ≠ []) :
    splitName (scopes.flatMap (fun s => s ++ [':', ':']) ++ own) = scopes ++ [own] := by
  have hfields : fieldsOf (scopes.flatMap (fun s => s ++ [':', ':']) ++ own) = scopes ++ [own] := by
    induction scopes with
    | nil => exact fieldsOf_of_notMem hown
    | cons s scopes ih =>
      have hstep := fieldsOf_append (hscopes s List.mem_cons_self)
        (scopes.flatMap (fun s => s ++ [':', ':']) ++ own)
      simp only [List.flatMap_cons, List.append_assoc, List.cons_append, List.nil_append] at hstep ⊢
      rw [hstep, ih fun s' hs' => hscopes s' (List.mem_cons_of_mem _ hs')]
  rw [splitName, hfields]
  simp [hne]

/-- A joined name, as the mangler writes it. -/
theorem nameOf_joined {scopes : List (List Char)} {own : List Char}
    (hscopes : ∀ s ∈ scopes, ':' ∉ s) (hown : ':' ∉ own) (hne : own ≠ []) :
    nameOf (scopes.flatMap (fun s => s ++ [':', ':']) ++ own) =
      if scopes = [] then lengthPrefixed own else nested_name (scopes ++ [own]) := by
  rw [nameOf, splitName_joined hscopes hown hne]
  cases scopes with
  | nil => rfl
  | cons s scopes =>
    have hmany : 1 < ((s :: scopes) ++ [own]).length := by simp
    rw [if_pos hmany, if_neg (by simp)]

/-- A nested name, as the mangler writes it. -/
theorem nameOf_text (name : CxxName) :
    nameOf name.text =
      if name.scopes = [] then sourceName name.own.chars
      else 'N' :: (name.scopes.map Identifier.chars).flatMap sourceName ++
        sourceName name.own.chars ++ ['E'] := by
  have hscopes : ∀ s ∈ name.scopes.map Identifier.chars, ':' ∉ s := by
    intro s hs
    obtain ⟨w, -, rfl⟩ := List.mem_map.mp hs
    exact colon_notMem w
  have hsame : lengthPrefixed = sourceName := rfl
  have hjoined := nameOf_joined hscopes (colon_notMem name.own) name.own.nonempty
  rw [List.flatMap_map, nested_name, List.flatMap_append, hsame] at hjoined
  rw [CxxName.text, hjoined]
  simp only [List.map_eq_nil_iff, List.flatMap_cons, List.flatMap_nil, List.append_nil,
    List.cons_append]

/-- The name comes out as in the symbol unless its outermost scope is `std`. -/
theorem nameOf_append_inj {name : CxxName} {x y : List Char} :
    nameOf name.text ++ x = (symbolName name).1 ++ y ↔
      (name.scopes.map Identifier.chars).head? ≠ some std ∧ x = y := by
  obtain ⟨scopes, own⟩ := name
  rw [nameOf_text]
  cases scopes with
  | nil => simp [symbolName]
  | cons s scopes =>
    by_cases hstd : s.chars = std
    · refine iff_of_false (fun heq => ?_) fun h => h.1 (by simp [hstd])
      have hthree : sourceName std = ['3', 's', 't', 'd'] := by decide
      cases scopes with
      | nil => simp [symbolName, hstd, hthree] at heq
      | cons s' scopes => simp [symbolName, hstd, hthree] at heq
    · simp [symbolName, hstd]

theorem symbolName_no_pointer (name : CxxName) (t : CxxType) :
    Component.pointer t ∉ (symbolName name).2 := by
  obtain ⟨scopes, own⟩ := name
  cases scopes with
  | nil => simp [symbolName]
  | cons s scopes =>
    simp only [symbolName, List.map_cons]
    split <;> simp

/-- **The mangled name is the symbol exactly when** the name is in no scope of `std`, there are
parameters, and all of them keep step. SOURCE: Itanium.pm:12-161 -/
theorem mangle_eq_symbol_iff (name : CxxName) (params : List CxxType) :
    mangle name.text (params.map CxxType.type) = .ok (symbol name params) ↔
      InStep name params := by
  have hargs : (if (params.map CxxType.type).isEmpty then [scalarType .Void]
      else params.map CxxType.type) =
        (if params = [] then [⟨.void, 0⟩] else params).map CxxType.type := by
    cases params <;> rfl
  have hscopes := symbolName_no_pointer name
  have hlist : KeepStep (symbolName name).2 [] (if params = [] then [⟨.void, 0⟩] else params) ↔
      params ≠ [] ∧ KeepStep (symbolName name).2 [] params := by
    cases params with
    | nil => exact iff_of_false (fun h => h.1.notVoid rfl) fun h => h.1 rfl
    | cons t ts => simp
  have hall := mangledAll_eq_iff hscopes (if params = [] then [⟨.void, 0⟩] else params) tracks_nil
    (show numbered [] (symbolName name).2 = (symbolName name).2 ++ [] from by simp [numbered])
  rw [List.map_nil, List.append_nil] at hall
  have hrun := bare_function_type_eq (if params = [] then [⟨.void, 0⟩] else params) []
  unfold mangle symbol InStep
  simp only [hargs]
  generalize (if params = [] then [⟨.void, 0⟩] else params) = ps at hlist hall hrun
  cases hr : bare_function_type (ps.map CxxType.type) [] with
  | error e =>
    rw [hr] at hrun
    cases hrun
  | ok r =>
    rw [hr] at hrun
    have hs : r.1 = mangledAll ps [] := Except.ok.inj hrun
    rw [← hlist, ← hall, ← hs, ← nameOf_append_inj]
    simp [Except.map]

/-- `f`. -/
def nameF : CxxName where
  scopes := []
  own :=
    { chars := ['f']
      nonempty := by simp
      valid := by
        intro c hc
        rw [List.mem_singleton.mp hc]
        exact Or.inl rfl
      head := by
        intro c hc
        cases hc
        rfl }

/-- `f(int*, int**, int**)`: each depth is reached on its own. -/
example : mangle nameF.text ([⟨.int, 1⟩, ⟨.int, 2⟩, ⟨.int, 2⟩].map CxxType.type) =
    .ok (symbol nameF [⟨.int, 1⟩, ⟨.int, 2⟩, ⟨.int, 2⟩]) := rfl

/-- `f(int**, int**)`: the second parameter is `PS_` and not `S0_`. -/
theorem mangle_ne_symbol_twice :
    mangle nameF.text ([⟨.int, 2⟩, ⟨.int, 2⟩].map CxxType.type) ≠
      .ok (symbol nameF [⟨.int, 2⟩, ⟨.int, 2⟩]) := by
  intro h
  exact absurd (Except.ok.inj h) (by decide)

end Affix.Analysis
