import Affix.Analysis.EnumExpressions

/-!
# The values of an enumeration

The loop of `_Enum` and the enumerators of C go side by side: as long as no expression
with another value than zero puts a minus sign right before the name of a negative
enumerator, the table holds the texts of C's values and the running index that of the
next one. Such an expression fails to evaluate, the enumerator is recorded as zero, and
nothing changes that later.
-/

set_option autoImplicit false

namespace Affix.Analysis

open Affix.Foundation Affix.Model Affix.Interface

/-! ## One index -/

theorem legible_of_value {env : Values} {i : Initializer} {v : ℤ} (hv : i.value env = some v) :
    Legible env (pieces i.text) := by
  intro w hw
  obtain ⟨a, ha, hmem⟩ := operand_of_word i.spells hw
  obtain ⟨z, hz⟩ := i.tree.isSome_of_value hv hmem
  exact ⟨a, z, ha, hz⟩

theorem eval_substituteValues {env : Values} (hnamed : Named env) {i : Initializer} {v : ℤ}
    (hv : i.value env = some v) :
    eval (substituteValues (printed env) i.text) =
      if minusBefore (isNegative env) (pieces i.text) then none else some v := by
  have hspell : ∀ a z, a.value env = some z → Reads (spelled env a) z .primary := by
    intro a z hz
    rw [spelled, hz]
    exact reads_signTokens z
  have hlex := lex_recalled hnamed i.spells (legible_of_value hv)
  have heval := evaluate_tokens fitsLong (CAtom.value env) (spelled env) hspell i.tree hv
  rw [eval, substituteValues, pieces_substituteWords]
  show (lex readNumber ((pieces i.text).flatMap (Piece.substitute (recalled env)))).bind _ = _
  rw [hlex]
  cases minusBefore (isNegative env) (pieces i.text)
  · exact heval
  · rfl

theorem isDigit_all {s : Chars} (h : hasNonDigit s = false) : ∀ c ∈ s, c.isDigit = true := by
  intro c hc
  simpa using List.any_eq_false.mp h c hc

/-- An expression of digits only is a numeral. -/
theorem literal_of_digits {env : Values} {i : Initializer} {v : ℤ}
    (hv : i.value env = some v) (hdigits : hasNonDigit i.text = false) :
    integer v = i.text ∧ pieces i.text = [.word i.text] := by
  have hall := isDigit_all hdigits
  have hne : i.text ≠ [] := by
    intro hnil
    have hspells := i.spells
    rw [hnil] at hspells
    exact i.tree.tokens_ne_nil (Option.some.inj hspells).symm
  have hword : pieces i.text = [.word i.text] := by
    apply pieces_word hne
    rw [List.all_eq_true]
    intro c hc
    simp [isWordChar, Char.isAlphanum, hall c hc]
  obtain ⟨a, z, hread, hz⟩ := legible_of_value hv i.text (by simp [hword])
  have hatom : ∃ n, a = .literal n ∧ i.text = numeral 10 n := by
    rw [readAtom] at hread
    split at hread
    · rename_i hnumeral
      exact ⟨_, (Option.some.inj hread).symm, hnumeral⟩
    · split at hread
      · rename_i hname
        obtain ⟨c, cs, hcs⟩ := List.exists_cons_of_ne_nil hne
        simp [isIdentifier, hcs, hall c (by simp [hcs])] at hname
      · cases hread
  obtain ⟨n, rfl, hn⟩ := hatom
  have hlex := i.spells
  rw [hword, lex_word, hread] at hlex
  have htokens : i.tree.tokens = [.operand (.literal n)] := (Option.some.inj hlex).symm
  have heval := evaluate_tokens fitsLong (CAtom.value env)
    (fun a => [.operand ((a.value env).getD 0)])
    (fun a z hz => by rw [hz]; exact reads_operand z) i.tree hv
  rw [htokens] at heval
  have hvalue : (n : ℤ) = v := by
    have hmachine : evaluate [.operand (n : ℤ)] = some (n : ℤ) := by
      simp [evaluate, Machine.run, Machine.step, Frame.operand, Frame.empty, Frame.close]
    exact Option.some.inj (hmachine.symm.trans heval)
  rw [← hvalue, integer_of_nonneg, ← hn]
  exact ⟨rfl, hword⟩

/-- An enumerator with an expression. -/
theorem settle_initializer {env : Values} (hnamed : Named env) {i : Initializer} {v : ℤ}
    (hv : i.value env = some v) :
    settle (printed env) i.text =
      if minusBefore (isNegative env) (pieces i.text) then none else some (integer v) := by
  rw [settle]
  split
  · rw [eval_substituteValues hnamed hv]
    split <;> rfl
  · rename_i hdigits
    rw [Bool.not_eq_true] at hdigits
    obtain ⟨htext, hpieces⟩ := literal_of_digits hv hdigits
    rw [htext, hpieces]
    rfl

/-- An enumerator without one. -/
theorem settle_integer {env : Values} (hnamed : Named env) (z : ℤ) :
    settle (printed env) (integer z) = some (integer z) := by
  rw [settle, hasNonDigit_integer]
  split
  · rename_i hneg
    have hz : z < 0 := of_decide_eq_true hneg
    have habs : ((z.natAbs : ℕ) : ℤ) = -z := by omega
    have hkeep : recalled env (numeral 10 z.natAbs) = numeral 10 z.natAbs := by
      rw [recalled, lookup_printed, lookup_numeral hnamed]
      rfl
    have hpieces : (pieces (integer z)).flatMap (Piece.substitute (recalled env)) =
        signPieces z ++ [] := by
      simp [pieces_integer, signPieces, hz, Piece.substitute, hkeep, pieces_numeral]
    have heval : eval (substituteValues (printed env) (integer z)) = some z := by
      rw [eval, substituteValues, pieces_substituteWords]
      show (lex readNumber ((pieces (integer z)).flatMap
        (Piece.substitute (recalled env)))).bind _ = _
      rw [hpieces, lex_signPieces]
      show evaluate (signTokens z ++ []) = some z
      rw [List.append_nil, signTokens, if_pos hz]
      simp [evaluate, Machine.run, Machine.step, Frame.operand, Frame.empty, Frame.close]
    rw [heval]
    rfl
  · rfl

/-! ## One enumerator -/

/-- The value of an enumerator does not depend on what comes after it. -/
def Extends (env vs : Values) : Prop := ∀ w z, env.lookup w = some z → vs.lookup w = some z

theorem atom_of_extends {env vs : Values} (hext : Extends env vs) {a : CAtom} {v : ℤ}
    (hv : a.value env = some v) : a.value vs = some v := by
  cases a with
  | literal n => exact hv
  | name w => exact hext w v hv

theorem minusBefore_congr {p q : Chars → Bool} {ps : List Piece}
    (h : ∀ w, .word w ∈ ps → p w = q w) : minusBefore p ps = minusBefore q ps := by
  induction ps with
  | nil => rfl
  | cons r ps ih =>
    have hrest := ih fun w hw => h w (List.mem_cons_of_mem r hw)
    cases r with
    | word w => exact hrest
    | char c =>
      have hlead : leads p ps = leads q ps := by
        cases ps with
        | nil => rfl
        | cons s ps =>
          cases s with
          | char d => rfl
          | word w => exact h w (by simp)
      rw [minusBefore, minusBefore, hrest, hlead]

theorem touching_of_extends {env vs : Values} (henv : Named env) (hvs : Named vs)
    (hext : Extends env vs) {i : Initializer} {v : ℤ} (hv : i.value env = some v) :
    minusBefore (isNegative env) (pieces i.text) = minusBefore (isNegative vs) (pieces i.text) := by
  apply minusBefore_congr
  intro w hw
  obtain ⟨a, z, hread, hz⟩ := legible_of_value hv w hw
  rw [(recalled_spec henv hread hz).2, (recalled_spec hvs hread (atom_of_extends hext hz)).2]

/-- The index of an enumerator whose value in C is `v`. -/
theorem settle_enumerator {env vs : Values} (henv : Named env) (hvs : Named vs)
    (hext : Extends env vs) {next : ℤ} {e : Enumerator} {v : ℤ} (hv : e.value env next = some v) :
    (e.Touching vs → settle (printed env) (e.element.index.getD (integer next)) = none) ∧
      (¬ e.Touching vs →
        settle (printed env) (e.element.index.getD (integer next)) = some (integer v)) := by
  have hvalue := (Option.filter_eq_some_iff.mp hv).1
  cases hi : e.initializer with
  | none =>
    rw [hi] at hvalue
    obtain rfl : next = v := Option.some.inj hvalue
    have hindex : e.element.index = none := by
      simp [Enumerator.element, hi]
    rw [hindex]
    constructor
    · rintro ⟨i, hmem, -⟩
      rw [hi] at hmem
      cases hmem
    · intro _
      exact settle_integer henv next
  | some i =>
    rw [hi] at hvalue
    have hval : i.value env = some v := hvalue
    have hindex : e.element.index = some i.text := by
      simp [Enumerator.element, hi]
    have hsame := touching_of_extends henv hvs hext hval
    rw [hindex, Option.getD_some, settle_initializer henv hval, hsame]
    constructor
    · rintro ⟨j, hmem, htouch⟩
      rw [hi] at hmem
      obtain rfl := Option.some.inj hmem
      exact if_pos htouch
    · intro hsafe
      apply if_neg
      intro htouch
      exact hsafe ⟨i, hi, htouch⟩

/-! ## The table -/

theorem store_of_fresh {h : Table} {key val : Chars} (hfresh : ∀ entry ∈ h, entry.1 ≠ key) :
    h.store key val = h ++ [(key, val)] := by
  have hall : h.filter (fun entry => entry.1 ≠ key) = h := by
    apply List.filter_eq_self.mpr
    intro entry hentry
    simpa using hfresh entry hentry
  rw [Table.store, hall]

theorem lookup_store_of_ne {h : Table} {key k val : Chars} (hne : k ≠ key) :
    (h.store key val).lookup k = h.lookup k := by
  have hfilter : (h.filter fun entry => entry.1 ≠ key).lookup k = h.lookup k := by
    induction h with
    | nil => rfl
    | cons entry h ih =>
      by_cases hkey : entry.1 = key
      · have hk : (k == entry.1) = false := by simpa [hkey] using hne
        rw [List.filter_cons_of_neg (by simpa using hkey), ih, List.lookup_cons, hk]
      · rw [List.filter_cons_of_pos (by simpa using hkey), List.lookup_cons, List.lookup_cons, ih]
  have hk : (k == key) = false := by simpa using hne
  rw [Table.store, List.lookup_append, hfilter]
  simp [hk]

theorem lookup_store_self (h : Table) (key val : Chars) :
    (h.store key val).lookup key = some val := by
  have hnone : (h.filter fun entry => entry.1 ≠ key).lookup key = none := by
    apply List.lookup_eq_none_iff.mpr
    intro entry hentry
    have hkey : entry.1 ≠ key := by simpa using (List.mem_filter.mp hentry).2
    simpa using hkey.symm
  rw [Table.store, List.lookup_append, hnone]
  simp

/-! ## The loop -/

/-- The loop after enumerators that were recorded with their values. -/
structure Follows (st : EnumLoop) (env : Values) (next : ℤ) : Prop where
  enum : st.enum = printed env
  index : st.index = integer next

theorem follows_element {st : EnumLoop} {env vs : Values} {next v : ℤ} {e : Enumerator}
    (h : Follows st env next) (henv : Named env) (hvs : Named vs) (hext : Extends env vs)
    (hv : e.value env next = some v) (hfresh : ∀ entry ∈ env, entry.1 ≠ e.name)
    (hsafe : e.Touching vs → v = 0) :
    Follows (st.element e.element) (env ++ [(e.name, v)]) (v + 1) := by
  have hkeys : ∀ entry ∈ printed env, entry.1 ≠ e.name := by
    intro entry hentry
    obtain ⟨old, hold, rfl⟩ := List.mem_map.mp hentry
    exact hfresh old hold
  have hprinted : printed (env ++ [(e.name, v)]) = printed env ++ [(e.name, integer v)] := by
    simp [printed]
  obtain ⟨hfail, hgood⟩ := settle_enumerator henv hvs hext hv
  by_cases htouch : e.Touching vs
  · -- an undefined index is recorded as zero, which here is the value
    have hnone := hfail htouch
    obtain rfl := hsafe htouch
    constructor
    · rw [EnumLoop.element, h.enum, h.index, hnone, hprinted]
      exact store_of_fresh hkeys
    · rw [EnumLoop.element, h.enum, h.index, hnone]
      rfl
  · have hsome := hgood htouch
    constructor
    · rw [EnumLoop.element, h.enum, h.index, hsome, hprinted]
      exact store_of_fresh hkeys
    · rw [EnumLoop.element, h.enum, h.index, hsome]
      exact sv_inc_integer v

/-- An element changes the value of its own name only. -/
theorem lookup_foldl {es : List Enumerator} {k : Chars} :
    ∀ {st : EnumLoop}, k ∉ es.map Enumerator.name →
      ((es.map Enumerator.element).foldl EnumLoop.element st).enum.lookup k = st.enum.lookup k := by
  induction es with
  | nil =>
    intro st _
    rfl
  | cons e es ih =>
    intro st hk
    rw [List.map_cons, List.mem_cons, not_or] at hk
    rw [List.map_cons, List.foldl_cons, ih hk.2]
    exact lookup_store_of_ne hk.1

/-! ## The whole run -/

/-- The enumerators that are still to come, and the values all of them have. -/
structure Ahead (vs env : Values) (next : ℤ) (es : List Enumerator) : Prop where
  values : valuesFrom Enumerator.name Enumerator.value env next es = some vs
  named : Named env
  fresh : ∀ e ∈ es, ∀ entry ∈ env, entry.1 ≠ e.name
  distinct : (es.map Enumerator.name).Nodup

theorem valuesFrom_eq_append {es : List Enumerator} {vs : Values} :
    ∀ {env : Values} {next : ℤ}, valuesFrom Enumerator.name Enumerator.value env next es = some vs →
      ∃ rest : Values, vs = env ++ rest ∧ rest.map Prod.fst = es.map Enumerator.name := by
  induction es with
  | nil =>
    intro env next h
    exact ⟨[], by rw [List.append_nil]; exact (Option.some.inj h).symm, rfl⟩
  | cons e es ih =>
    intro env next h
    obtain ⟨v, -, hrest⟩ := Option.bind_eq_some_iff.mp h
    obtain ⟨rest, rfl, hnames⟩ := ih hrest
    refine ⟨(e.name, v) :: rest, by rw [List.append_assoc, List.singleton_append], ?_⟩
    rw [List.map_cons, List.map_cons, hnames]

theorem Ahead.extends {vs env : Values} {next : ℤ} {es : List Enumerator}
    (h : Ahead vs env next es) : Extends env vs := by
  obtain ⟨rest, rfl, -⟩ := valuesFrom_eq_append h.values
  intro w z hw
  rw [List.lookup_append, hw]
  rfl

theorem Ahead.named_values {vs env : Values} {next : ℤ} {es : List Enumerator}
    (h : Ahead vs env next es) : Named vs := by
  obtain ⟨rest, rfl, hnames⟩ := valuesFrom_eq_append h.values
  intro entry hentry
  rcases List.mem_append.mp hentry with hold | hnew
  · exact h.named entry hold
  · have hkey : entry.1 ∈ es.map Enumerator.name := hnames ▸ List.mem_map_of_mem hnew
    obtain ⟨e, -, he⟩ := List.mem_map.mp hkey
    exact he ▸ e.isName

/-- One enumerator further. -/
theorem Ahead.tail {vs env : Values} {next : ℤ} {e : Enumerator} {es : List Enumerator}
    (h : Ahead vs env next (e :: es)) :
    ∃ v, e.value env next = some v ∧ vs.lookup e.name = some v ∧
      Ahead vs (env ++ [(e.name, v)]) (v + 1) es := by
  obtain ⟨v, hv, hrest⟩ := Option.bind_eq_some_iff.mp h.values
  obtain ⟨hnotin, hnodup⟩ := List.nodup_cons.mp h.distinct
  have hahead : Ahead vs (env ++ [(e.name, v)]) (v + 1) es := by
    refine ⟨hrest, ?_, ?_, hnodup⟩
    · intro entry hentry
      rcases List.mem_append.mp hentry with hold | hnew
      · exact h.named entry hold
      · rw [List.mem_singleton.mp hnew]
        exact e.isName
    · intro e' he' entry hentry
      rcases List.mem_append.mp hentry with hold | hnew
      · exact h.fresh e' (List.mem_cons_of_mem e he') entry hold
      · rw [List.mem_singleton.mp hnew]
        intro hname
        exact hnotin (List.mem_map.mpr ⟨e', he', hname.symm⟩)
  refine ⟨v, hv, ?_, hahead⟩
  apply hahead.extends
  have hnone : env.lookup e.name = none := by
    apply List.lookup_eq_none_iff.mpr
    intro entry hentry
    simpa using (h.fresh e List.mem_cons_self entry hentry).symm
  rw [List.lookup_append, hnone]
  simp

theorem Follows.run {vs : Values} {es : List Enumerator} :
    ∀ {env : Values} {next : ℤ} {st : EnumLoop}, Follows st env next → Ahead vs env next es →
      (∀ e ∈ es, e.Touching vs → vs.lookup e.name = some 0) →
        ((es.map Enumerator.element).foldl EnumLoop.element st).enum = printed vs := by
  induction es with
  | nil =>
    intro env next st h hahead _
    rw [← Option.some.inj hahead.values]
    exact h.enum
  | cons e es ih =>
    intro env next st h hahead hsafe
    obtain ⟨v, hv, hlookup, htail⟩ := hahead.tail
    have hzero : e.Touching vs → v = 0 := by
      intro htouch
      have hv0 := hsafe e List.mem_cons_self htouch
      rw [hlookup] at hv0
      exact Option.some.inj hv0
    have hstep := follows_element h hahead.named hahead.named_values hahead.extends hv
      (hahead.fresh e List.mem_cons_self) hzero
    exact ih hstep htail fun e' he' => hsafe e' (List.mem_cons_of_mem e he')

/-- The first expression that cannot be evaluated and should not be zero leaves its mark. -/
theorem Follows.run_touching {vs : Values} {es : List Enumerator} :
    ∀ {env : Values} {next : ℤ} {st : EnumLoop}, Follows st env next → Ahead vs env next es →
      (∃ e ∈ es, e.Touching vs ∧ vs.lookup e.name ≠ some 0) →
        ∃ k v, vs.lookup k = some v ∧ v ≠ 0 ∧
          ((es.map Enumerator.element).foldl EnumLoop.element st).enum.lookup k = some ['0'] := by
  induction es with
  | nil =>
    rintro env next st _ _ ⟨e, he, -⟩
    cases he
  | cons e es ih =>
    rintro env next st h hahead ⟨bad, hmem, htouch, hvalue⟩
    obtain ⟨v, hv, hlookup, htail⟩ := hahead.tail
    by_cases hhead : e.Touching vs ∧ v ≠ 0
    · refine ⟨e.name, v, hlookup, hhead.2, ?_⟩
      have hnone := (settle_enumerator hahead.named hahead.named_values hahead.extends hv).1 hhead.1
      have hnotin := (List.nodup_cons.mp hahead.distinct).1
      rw [List.map_cons, List.foldl_cons, lookup_foldl hnotin, EnumLoop.element, h.enum, h.index,
        hnone]
      exact lookup_store_self _ e.name ['0']
    · have hzero : e.Touching vs → v = 0 := by
        intro hbad
        by_contra hne
        exact hhead ⟨hbad, hne⟩
      have hstep := follows_element h hahead.named hahead.named_values hahead.extends hv
        (hahead.fresh e List.mem_cons_self) hzero
      apply ih hstep htail
      rcases List.mem_cons.mp hmem with rfl | hlater
      · exact absurd (hlookup.trans (congrArg some (hzero htouch))) hvalue
      · exact ⟨bad, hlater, htouch, hvalue⟩

/-! ## The constructor and `typedef` -/

theorem fields_foldl {es : List Element} :
    ∀ {st : EnumLoop},
      (es.foldl EnumLoop.element st).fields = st.fields ++ es.map Element.field := by
  induction es with
  | nil =>
    intro st
    rw [List.foldl_nil, List.map_nil, List.append_nil]
  | cons e es ih =>
    intro st
    rw [List.foldl_cons, ih, List.map_cons]
    simp [EnumLoop.element]

/-- The constructor returns unless there are no elements. -/
theorem Enum_spec (elements : List Element) :
    (elements = [] → Enum elements = .error .undefinedArray) ∧
      (elements ≠ [] → ∃ t, Enum elements = .ok t ∧ t.enum = .hash (_Enum elements).enum) := by
  constructor
  · rintro rfl
    rfl
  · intro hne
    obtain ⟨e, es, rfl⟩ := List.exists_cons_of_ne_nil hne
    have hfields : (_Enum (e :: es)).fields = e.field :: es.map Element.field := by
      rw [_Enum, fields_foldl]
      rfl
    rw [Enum, enumOf, hfields]
    exact ⟨_, rfl, rfl⟩

theorem lookup_typedef {entries : Table} (name : Chars) {k val : Chars}
    (h : entries.lookup k = some val) :
    (entries.map fun (entry : Chars × Chars) =>
      (name ++ "::".toList ++ entry.1, (⟨numeric entry.2, entry.1⟩ : Dualvar))).lookup
        (name ++ "::".toList ++ k) = some ⟨numeric val, k⟩ := by
  induction entries with
  | nil => cases h
  | cons entry entries ih =>
    rw [List.lookup_cons] at h
    rw [List.map_cons, List.lookup_cons]
    by_cases hk : k = entry.1
    · have hkey : (k == entry.1) = true := by simpa using hk
      rw [hkey] at h
      obtain rfl : entry.2 = val := Option.some.inj h
      simp [hk]
    · have hkey : (k == entry.1) = false := by simpa using hk
      have hfull : (name ++ "::".toList ++ k == name ++ "::".toList ++ entry.1) = false := by
        simpa using hk
      rw [hkey] at h
      rw [hfull]
      exact ih h

theorem lookup_of_nodup {vs : Values} (h : (vs.map Prod.fst).Nodup) :
    ∀ entry ∈ vs, vs.lookup entry.1 = some entry.2 := by
  induction vs with
  | nil =>
    intro entry hentry
    cases hentry
  | cons head vs ih =>
    intro entry hentry
    obtain ⟨hnotin, hnodup⟩ := List.nodup_cons.mp h
    rcases List.mem_cons.mp hentry with rfl | hrest
    · exact List.lookup_cons_self
    · have hne : (entry.1 == head.1) = false := by
        apply beq_false_of_ne
        intro hkey
        exact hnotin (hkey ▸ List.mem_map_of_mem hrest)
      rw [List.lookup_cons, hne]
      exact ih hnodup entry hrest

/-- A table of C's values makes constants of C's values. -/
theorem recordsValues_of_printed {t : EnumType} {vs : Values} (h : (vs.map Prod.fst).Nodup)
    (henum : t.enum = .hash (printed vs)) : RecordsValues t vs := by
  have hlookup : ∀ entry ∈ vs, (printed vs).lookup entry.1 = some (integer entry.2) := by
    intro entry hentry
    rw [lookup_printed, lookup_of_nodup h entry hentry]
    rfl
  constructor
  · intro entry hentry
    rw [onRecord, henum]
    exact hlookup entry hentry
  intro name
  refine ⟨_, by rw [EnumType.typedef, henum], ?_⟩
  intro entry hentry
  have hconst := lookup_typedef name (hlookup entry hentry)
  rw [numeric_integer] at hconst
  exact hconst

theorem ahead_start (E : Enumeration) {vs : Values} (hvs : E.values = some vs) :
    Ahead vs [] 0 E.enumerators := by
  refine ⟨hvs, ?_, ?_, E.distinct⟩
  · intro entry hentry
    cases hentry
  · intro e _ entry hentry
    cases hentry

theorem nodup_values {E : Enumeration} {vs : Values} (hvs : E.values = some vs) :
    (vs.map Prod.fst).Nodup := by
  obtain ⟨rest, rfl, hnames⟩ := valuesFrom_eq_append hvs
  rw [hnames]
  exact E.distinct

/-- `Enum` gives the enumerators of a C enumeration the values they have in C, and `typedef` makes
constants of them, exactly when there are enumerators and every expression that puts a minus
sign right before the name of a negative one has the value zero. -/
theorem enum_likeC_iff (E : Enumeration) {vs : Values} (hvs : E.values = some vs) :
    (∃ t, Enum E.elements = .ok t ∧ RecordsValues t vs) ↔
      E.enumerators ≠ [] ∧
        ∀ e ∈ E.enumerators, e.Touching vs → vs.lookup e.name = some 0 := by
  have hstart : Follows ⟨[], ['0'], []⟩ [] 0 := ⟨rfl, rfl⟩
  have hahead := ahead_start E hvs
  obtain ⟨hnone, hsome⟩ := Enum_spec E.elements
  constructor
  · rintro ⟨t, ht, hrecorded, -⟩
    have hne : E.enumerators ≠ [] := by
      intro hnil
      rw [hnone (by rw [Enumeration.elements, hnil]; rfl)] at ht
      cases ht
    refine ⟨hne, ?_⟩
    intro e he htouch
    by_contra hvalue
    obtain ⟨t', ht', henum⟩ := hsome (by simpa [Enumeration.elements] using hne)
    obtain rfl : t' = t := Except.ok.inj (ht'.symm.trans ht)
    obtain ⟨k, v, hk, hv, hzero⟩ := hstart.run_touching hahead ⟨e, he, htouch, hvalue⟩
    obtain ⟨before, after, hsplit, -⟩ := List.lookup_eq_some_iff.mp hk
    have hone := hrecorded (k, v) (by simp [hsplit])
    rw [onRecord, henum] at hone
    have hread : (['0'] : Chars) = integer v := Option.some.inj (hzero.symm.trans hone)
    have hnum := congrArg numeric hread
    rw [numeric_integer] at hnum
    exact hv hnum.symm
  · rintro ⟨hne, hsafe⟩
    obtain ⟨t, ht, henum⟩ := hsome (by simpa [Enumeration.elements] using hne)
    have hrun : (_Enum E.elements).enum = printed vs := hstart.run hahead hsafe
    rw [hrun] at henum
    exact ⟨t, ht, recordsValues_of_printed (nodup_values hvs) henum⟩

/-- `Enum[ [A => -1], [B => '-A'] ]`. -/
def minusOne : Initializer where
  text := ['-', '1']
  tree := .product (.unary (.neg (.primary (.operand (.literal 1)))))
  spells := by decide

def minusA : Initializer where
  text := ['-', 'A']
  tree := .product (.unary (.neg (.primary (.operand (.name ['A'])))))
  spells := by decide

def minusMinus : Enumeration where
  enumerators := [⟨['A'], by decide, some minusOne⟩, ⟨['B'], by decide, some minusA⟩]
  distinct := by decide

theorem minusMinus_values : minusMinus.values = some [(['A'], -1), (['B'], 1)] := by
  decide

/-- C makes the second one; the text that is evaluated is `--1`. -/
theorem enum_not_likeC_minusMinus : minusMinus.values = some [(['A'], -1), (['B'], 1)] ∧
    ¬ ∃ t, Enum minusMinus.elements = .ok t ∧ RecordsValues t [(['A'], -1), (['B'], 1)] := by
  refine ⟨minusMinus_values, ?_⟩
  rintro ⟨t, ht, hrecorded, -⟩
  have henum : t.enum = .hash [(['A'], ['-', '1']), (['B'], ['0'])] := by
    rw [← Except.ok.inj ht]
    decide
  have hB := hrecorded (['B'], 1) (by simp)
  rw [onRecord, henum] at hB
  exact absurd hB (by decide)

theorem enum_likeC_minusMinus :
    minusMinus.values = some [(['A'], -1), (['B'], 1)] ∧
      ((∃ t, Enum minusMinus.elements = .ok t ∧ RecordsValues t [(['A'], -1), (['B'], 1)]) ↔
        minusMinus.enumerators ≠ [] ∧ ∀ e ∈ minusMinus.enumerators,
          e.Touching [(['A'], -1), (['B'], 1)] →
            List.lookup e.name [(['A'], (-1 : ℤ)), (['B'], 1)] = some 0) :=
  ⟨minusMinus_values, enum_likeC_iff minusMinus minusMinus_values⟩

end Affix.Analysis
