import Affix.Analysis.EnumValues

/-!
# Character enumerations

`CharEnum` keeps its enumerators in an array where `typedef` and its own expression
branch want a hash. So no character enumeration can be named, and none with a name and
an operator in an expression can be built. What is built without expressions from
bare names and decimal numbers has the values of C on record.
-/

set_option autoImplicit false

namespace Affix.Analysis

open Affix.Foundation Affix.Model Affix.Interface

/-! ## Construction -/

theorem charEnum_enum {elements : List Element} {t : EnumType} (h : CharEnum elements = .ok t) :
    ∃ entries, t.enum = .array entries := by
  rw [CharEnum] at h
  cases hloop : elements.foldlM CharLoop.element ⟨['0'], [], []⟩ with
  | error e =>
    rw [hloop] at h
    cases h
  | ok st =>
    rw [hloop] at h
    cases htext : joinTexts st.text with
    | error e =>
      simp only [bind, Except.bind, htext] at h
      cases h
    | ok text =>
      simp only [bind, Except.bind, htext, pure, Except.pure] at h
      exact ⟨st.enum, by rw [← Except.ok.inj h]⟩

/-- `typedef` looks for the keys of a hash. -/
theorem charEnum_typedef {elements : List Element} {t : EnumType} (h : CharEnum elements = .ok t)
    (name : Chars) : t.typedef name = .error .notHash := by
  obtain ⟨entries, hentries⟩ := charEnum_enum h
  rw [EnumType.typedef, hentries]

/-- An expression with an operator and a word stops the constructor, whatever stands before it. -/
theorem charEnum_dies_of_expression {elements : List Element} {e : Element} {index : Chars}
    (he : e ∈ elements) (hindex : e.index = some index) (hop : hasOperator index = true)
    (hword : hasWord index = true) : ∃ why, CharEnum elements = .error why := by
  have hloop : ∀ st : CharLoop, ∃ why, elements.foldlM CharLoop.element st = .error why := by
    induction elements with
    | nil => cases he
    | cons e' es ih =>
      intro st
      rw [List.foldlM_cons]
      cases hstep : st.element e' with
      | error why => exact ⟨why, rfl⟩
      | ok st' =>
        rcases List.mem_cons.mp he with rfl | hrest
        · rw [CharLoop.element, hindex, Option.getD_some, CharLoop.settle, if_pos hop,
            if_pos hword] at hstep
          cases hstep
        · exact ih hrest st'
  obtain ⟨why, hwhy⟩ := hloop ⟨['0'], [], []⟩
  refine ⟨why, ?_⟩
  rw [CharEnum, hwhy]
  rfl

/-! ## Values on record -/

/-- A bare name, or one with a decimal number. -/
def Counted (e : CharEnumerator) : Prop :=
  ∀ c ∈ e.initializer, ∃ n : ℕ, c.text = numeral 10 n ∧ ∀ env, c.value env = some (n : ℤ)

theorem settle_numeral (st : CharLoop) (n : ℕ) :
    st.settle (numeral 10 n) = .ok (some (numeral 10 n)) := by
  have hnone : hasOperator (numeral 10 n) = false := by
    rw [hasOperator, List.any_eq_false]
    intro c hc
    have hdigit := numeral_isDigit n c hc
    have hne : ∀ d : Char, d.isDigit = false → c ≠ d := fun d hd => isDigit_ne hdigit hd
    simp [hne '+' rfl, hne '|' rfl, hne '*' rfl, hne '/' rfl, hne '^' rfl, hne '%' rfl]
  rw [CharLoop.settle, hnone]
  rfl

/-- One enumerator with the value `n`. -/
theorem charLoop_element {st : CharLoop} {e : Element} {n : ℕ}
    (h : e.index.getD st.index = numeral 10 n) :
    ∃ text, st.element e = .ok ⟨numeral 10 (n + 1), st.enum ++ [(e.name, some (numeral 10 n))],
      st.text ++ [text]⟩ := by
  have hnext : sv_inc (numeral 10 n) = numeral 10 (n + 1) := by
    rw [← integer_of_nonneg, sv_inc_integer]
    exact integer_of_nonneg (n + 1)
  have hvalue : charValue (numeral 10 n) = numeral 10 n := by
    rw [charValue, hasNonDigit_numeral]
    rfl
  refine ⟨'[' :: e.name ++ " => ".toList ++ numeral 10 n ++ [']'], ?_⟩
  rw [CharLoop.element, h, settle_numeral]
  simp only [Except.map, postInc, Option.map_some, Option.getD_some, hnext, hvalue]

/-- Counting through an enumeration. -/
theorem charLoop_run {es : List CharEnumerator} {vs : Values}
    (hcounted : ∀ e ∈ es, Counted e) :
    ∀ (st : CharLoop) {env : Values} {next : ℕ},
      st.index = numeral 10 next → st.enum = env.map (fun x => (x.1, some (integer x.2))) →
      valuesFrom CharEnumerator.name CharEnumerator.value env next es = some vs →
        ∃ st', (es.map CharEnumerator.element).foldlM CharLoop.element st = .ok st' ∧
          st'.enum = (vs.map fun x => (x.1, some (integer x.2))) ∧
          st'.text.length = st.text.length + es.length := by
  induction es with
  | nil =>
    intro st env next _ henum hvs
    obtain rfl := Option.some.inj hvs
    exact ⟨st, rfl, henum, rfl⟩
  | cons e es ih =>
    intro st env next hindex henum hvs
    obtain ⟨v, hv, hrest⟩ := Option.bind_eq_some_iff.mp hvs
    have hvalue := (Option.filter_eq_some_iff.mp hv).1
    have hcount : ∃ n : ℕ, v = n ∧ e.element.index.getD st.index = numeral 10 n := by
      cases hi : e.initializer with
      | none =>
        rw [hi] at hvalue
        refine ⟨next, (Option.some.inj hvalue).symm, ?_⟩
        rw [CharEnumerator.element, hi]
        exact hindex
      | some c =>
        obtain ⟨n, htext, hn⟩ := hcounted e List.mem_cons_self c hi
        rw [hi] at hvalue
        refine ⟨n, Option.some.inj (hvalue.symm.trans (hn env)), ?_⟩
        rw [CharEnumerator.element, hi]
        exact htext
    obtain ⟨n, rfl, htext⟩ := hcount
    obtain ⟨text, hstep⟩ := charLoop_element htext
    have hstore : st.enum ++ [(e.name, some (numeral 10 n))] =
        (env ++ [(e.name, (n : ℤ))]).map fun x => (x.1, some (integer x.2)) := by
      rw [henum, List.map_append, ← integer_of_nonneg]
      rfl
    obtain ⟨st', hrun, henum', hlength⟩ :=
      ih (fun e' he' => hcounted e' (List.mem_cons_of_mem e he'))
        ⟨numeral 10 (n + 1), st.enum ++ [(e.name, some (numeral 10 n))], st.text ++ [text]⟩
        rfl hstore hrest
    rw [List.map_cons, List.foldlM_cons, hstep]
    refine ⟨st', hrun, henum', ?_⟩
    rw [hlength, List.length_append, List.length_cons, List.length_cons, List.length_nil]
    omega

/-- Bare names and decimal numbers are recorded with the values of C. -/
theorem charEnum_counted (E : CharEnumeration) {vs : Values} (hne : E.enumerators ≠ [])
    (hcounted : ∀ e ∈ E.enumerators, Counted e) (hvs : E.values = some vs) :
    ∃ t, CharEnum E.elements = .ok t ∧
      t.enum = .array (vs.map fun x => (x.1, some (integer x.2))) := by
  obtain ⟨st, hrun, henum, hlength⟩ :=
    charLoop_run hcounted ⟨['0'], [], []⟩ rfl rfl hvs
  have htext : st.text ≠ [] := by
    intro hnil
    rw [hnil] at hlength
    apply hne
    apply List.length_eq_zero_iff.mp
    simpa using hlength.symm
  obtain ⟨text, texts, hcons⟩ := List.exists_cons_of_ne_nil htext
  rw [CharEnum, CharEnumeration.elements, hrun, ← henum]
  simp only [bind, Except.bind, hcons, joinTexts]
  exact ⟨_, rfl, rfl⟩

/-! ## Against C -/

/-- No character enumeration meets C: an empty one cannot be built, and no other can be named. -/
theorem charEnum_likeC_never (E : CharEnumeration) (vs : Values) :
    ¬ ∃ t, CharEnum E.elements = .ok t ∧ RecordsValues t vs := by
  rintro ⟨t, ht, -, hnamed⟩
  obtain ⟨constants, hconstants, -⟩ := hnamed ['N']
  rw [charEnum_typedef ht] at hconstants
  cases hconstants

/-- `CharEnum[ [X => 'a'], 'Y' ]`. -/
def letters : CharEnumeration where
  enumerators := [⟨['X'], by decide, some (.character 'a')⟩, ⟨['Y'], by decide, none⟩]
  distinct := by decide

/-- Both values are right, but naming the type dies. -/
theorem charEnum_not_likeC_letters :
    letters.values = some [(['X'], 97), (['Y'], 98)] ∧
      ¬ ∃ t, CharEnum letters.elements = .ok t ∧
        RecordsValues t [(['X'], 97), (['Y'], 98)] := by
  refine ⟨by decide, ?_⟩
  rintro ⟨t, ht, -, hnamed⟩
  obtain ⟨constants, hconstants, -⟩ := hnamed ['N']
  rw [charEnum_typedef ht] at hconstants
  cases hconstants

end Affix.Analysis
