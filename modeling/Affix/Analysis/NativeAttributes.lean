import Affix.Interface.NativeAttributes

/-!
# When a native sub is recorded as declared

The dots in the patterns match anything but a line break. The list of a signature is taken
as far as it may go, to the last bracket before an arrow, so that an arrow in the type of
the result is taken for the signature's. A symbol that is not between quotes is never
read, because the group for its quote has then taken nothing; and the name of a sub is
what follows the first package.

SOURCE: Native.pm:79-137
-/

set_option autoImplicit false

namespace Affix.Analysis.Native

open Affix.Foundation Affix.Foundation.Pattern Affix.Model Affix.Model.Native
  Affix.Interface.Native

/-! ## The condition -/

/-- An arrow after a bracket, in the type of a result. -/
def HasArrow (ret : Chars) : Prop :=
  ∃ before blank after, ret = before ++ ']' :: blank ++ '=' :: '>' :: after ∧
    ∀ c ∈ blank, isSpace c = true

/-- **An attribute can be read**: no line break is in its parts; the name of a library is not
empty; a symbol is between quotes; and no arrow after a bracket is in the type of a result, unless
a line break keeps the list from reaching it. -/
def Readable : Attribute → Prop
  | .native none => True
  | .native (some l) =>
    l.name ≠ [] ∧ '\n' ∉ l.name ∧ ∀ v ∈ l.version, '\n' ∉ v.word.chars
  | .symbol s => s.quote ≠ none ∧ '\n' ∉ s.name.chars
  | .signature g =>
    '\n' ∉ g.inner ∧ '\n' ∉ g.ret.chars ∧
      (HasArrow g.ret.chars → '\n' ∈ g.after.chars ++ g.behind.chars)

/-- **The condition on a declaration**: its attributes can be read, and its symbol is named or its
package is in no other. -/
def WellDeclared (d : Declaration) : Prop :=
  (∀ a ∈ d.attributes, Readable a) ∧ ((∃ s, .symbol s ∈ d.attributes) ∨ d.inner = [])

theorem notBreak_of_notMem {cs : Chars} (h : '\n' ∉ cs) : ∀ c ∈ cs, notBreak c = true := by
  intro c hc
  rw [notBreak, decide_eq_true_eq]
  rintro rfl
  exact h hc

theorem notMem_of_notBreak {cs : Chars} (h : ∀ c ∈ cs, notBreak c = true) : '\n' ∉ cs := by
  intro hmem
  exact absurd (h _ hmem) (by decide)

/-! ## The library -/

section Library

variable (l : Library)

/-- What the groups have taken of a library. -/
def libraryGroups : List (ℕ × Chars) :=
  (l.version.map fun v => (3, v.word.chars)).toList ++ [(2, l.name), (1, l.quote.toList)]

variable {l}

theorem library_text :
    l.text = ['('] ++ (l.quote.toList ++ (l.name ++ (l.quote.toList ++ l.afterName))) := by
  simp [Library.text]

/-- The quote, if there is one, is taken by the first group. -/
theorem after_quote {rest : Chars}
    (hrest : l.quote = none → ∀ c ∈ rest.head?, isQuote c = false) :
    After (fun _ => False) ⟨rest, [(1, l.quote.toList)]⟩
      (group 1 (opt (one isQuote)) ⟨l.quote.toList ++ rest, []⟩) := by
  cases hq : l.quote with
  | some q =>
    have htaken : one isQuote ⟨q :: rest, []⟩ = [⟨rest, []⟩] := by
      rw [one_cons, if_pos (l.isQuote q hq)]
    have hopt : After (fun _ => False) ⟨rest, []⟩ (opt (one isQuote) ⟨q :: rest, []⟩) := by
      apply After.opt
      rw [htaken]
      exact after_only _ _
    have hgroup := hopt.group (i := 1)
    rw [Scan.keep_eq [q] rfl] at hgroup
    exact hgroup.mono fun x hx => hx.choose_spec.1
  | none =>
    have hnothing : one isQuote ⟨rest, []⟩ = [] := by
      cases rest with
      | nil => rfl
      | cons c cs => rw [one_cons, if_neg (by rw [hrest hq c rfl]; decide)]
    have hopt : After (fun _ => False) ⟨rest, []⟩ (opt (one isQuote) ⟨rest, []⟩) := by
      apply after_opt_nothing.mono
      intro x hx
      rw [hnothing] at hx
      cases hx
    have hgroup := hopt.group (i := 1)
    rw [Scan.keep_eq [] rfl] at hgroup
    exact hgroup.mono fun x hx => hx.choose_spec.1

/-- The text of a version, and what follows it. -/
theorem after_version (hbreak : ∀ v ∈ l.version, '\n' ∉ v.word.chars) :
    After (fun _ => False) ⟨[], libraryGroups l⟩
      (seq [opt (seq [chars [','], greedily 0 isSpace, group 3 (greedily 1 notBreak)]),
        chars [')']] ⟨l.afterName, [(2, l.name), (1, l.quote.toList)]⟩) := by
  have hclose : ∀ groups, After (fun _ => False) ⟨[], groups⟩
      (seq [chars [')']] ⟨[')'], groups⟩) :=
    fun groups => after_chars.seq_first (after_only _ _)
  unfold Library.afterName libraryGroups
  cases hv : l.version with
  | none =>
    refine after_opt_nothing.seq ?_ (hclose _)
    intro x hx
    obtain ⟨m, hm, -⟩ := mem_seq_cons.mp hx
    exact absurd (mem_chars.mp hm).1 (by simp)
  | some v =>
    have hword : ∀ c ∈ v.word.chars, notBreak c = true := notBreak_of_notMem (hbreak v hv)
    have hlong : 1 ≤ v.word.chars.length := List.length_pos_iff.mpr v.word.nonempty
    have hspace : ∀ c ∈ (v.word.chars ++ [')']).head?, isSpace c = false := by
      rw [List.head?_append_of_ne_nil _ v.word.nonempty]
      exact v.word.head
    -- before the version is taken as it is, it is taken with what follows it
    have hversion : ∀ groups, After (fun x => x.rest = []) ⟨[')'], (3, v.word.chars) :: groups⟩
        (group 3 (greedily 1 notBreak) ⟨v.word.chars ++ [')'], groups⟩) := by
      intro groups
      have hgroup := (after_greedily [')'] groups hlong hword).group (i := 3)
      rw [Scan.keep_eq v.word.chars rfl] at hgroup
      apply hgroup.mono
      rintro x ⟨y, ⟨more, hne, -, hrest, -⟩, rfl⟩
      obtain ⟨c, cs, rfl⟩ := List.exists_cons_of_ne_nil hne
      exact (List.append_eq_nil_iff.mp (List.cons.inj hrest).2.symm).2
    have hinner : ∀ groups, After (fun x => x.rest = []) ⟨[')'], (3, v.word.chars) :: groups⟩
        (seq [chars [','], greedily 0 isSpace, group 3 (greedily 1 notBreak)]
          ⟨[','] ++ (v.blank.chars ++ (v.word.chars ++ [')'])), groups⟩) := by
      intro groups
      refine after_chars.seq_first ?_
      refine (after_greedily_stop (Nat.zero_le _) v.blank.space hspace).seq_first ?_
      refine (hversion groups).seq ?_ (after_only _ _)
      intro x hx y hy
      rw [mem_seq_nil.mp hy]
      exact hx
    have htext : (Option.map (fun v : Version => ',' :: v.blank.chars ++ v.word.chars)
        (some v)).getD [] = [','] ++ (v.blank.chars ++ v.word.chars) := rfl
    rw [htext, List.append_assoc, List.append_assoc]
    refine (hinner _).opt.seq ?_ (hclose _)
    intro x hx y hy
    obtain ⟨m, hm, -⟩ := mem_seq_cons.mp hy
    exact absurd ((mem_chars.mp hm).1.symm.trans hx) (List.cons_ne_nil _ _)

/-- Where a match may not end. -/
def NotAtEnd (s : Scan) : Prop := ¬ (s.rest = [] ∨ s.rest = ['\n'])

/-- From a part of the name there is no way to the end. -/
theorem notAtEnd_of_part {k : ℕ} (hk : k < l.name.length) {x : Scan}
    (hrest : x.rest = l.name.drop k ++ (l.quote.toList ++ l.afterName))
    (hgroup : x.group 1 = some l.quote.toList) :
    ∀ y ∈ seq [back 1, opt (seq [chars [','], greedily 0 isSpace, group 3 (greedily 1 notBreak)]),
      chars [')']] x, NotAtEnd y := by
  intro y hy
  obtain ⟨m₁, hm₁, hy⟩ := mem_seq_cons.mp hy
  obtain ⟨m₂, hm₂, hy⟩ := mem_seq_cons.mp hy
  obtain ⟨m₃, hm₃, hy⟩ := mem_seq_cons.mp hy
  obtain rfl := mem_seq_nil.mp hy
  obtain ⟨taken, htaken, hback⟩ := mem_back.mp hm₁
  obtain rfl : l.quote.toList = taken := Option.some.inj (hgroup.symm.trans htaken)
  have hdrop : l.name.drop k = l.name[k] :: l.name.drop (k + 1) := List.drop_eq_getElem_cons hk
  have hmem : l.name[k] ∈ l.name := List.getElem_mem hk
  have hquote : l.quote = none := by
    cases hq : l.quote with
    | none => rfl
    | some q =>
      -- a quote would be in the name
      have hhead := (mem_chars.mp hback).1
      rw [hrest, hdrop, hq] at hhead
      have hsame : l.name[k] = q := (List.cons.inj hhead).1
      have hno := l.noQuote _ hmem
      rw [hsame, l.isQuote q hq] at hno
      cases hno
  have hbare : m₁.rest = l.name[k] :: (l.name.drop (k + 1) ++ l.afterName) := by
    have hhead := (mem_chars.mp hback).1
    rw [hrest, hdrop, hquote] at hhead
    exact hhead.symm
  have hsame : m₂ = m₁ := by
    refine (mem_opt.mp hm₂).resolve_left fun hversion => ?_
    obtain ⟨m, hm, -⟩ := mem_seq_cons.mp hversion
    have hcomma := (mem_chars.mp hm).1
    rw [hbare] at hcomma
    exact l.noComma hquote ((List.cons.inj hcomma).1 ▸ hmem)
  have hclose := (mem_chars.mp hm₃).1
  rw [hsame, hbare] at hclose
  have hend : y.rest = l.name.drop (k + 1) ++
      (l.version.map fun v => ',' :: v.blank.chars ++ v.word.chars).getD [] ++ [')'] := by
    rw [List.append_assoc]
    exact (List.cons.inj hclose).2.symm
  unfold NotAtEnd
  rw [hend]
  rintro (hnil | hline)
  · exact absurd hnil (by simp)
  · have hlast := congrArg List.getLast? hline
    rw [List.getLast?_concat] at hlast
    exact absurd hlast (by decide)

/-- **A library that can be read** is read as it is written. -/
theorem first_library (hne : l.name ≠ []) (hname : '\n' ∉ l.name)
    (hbreak : ∀ v ∈ l.version, '\n' ∉ v.word.chars) :
    nativePattern.first (Attribute.native (some l)).text = some ⟨[], libraryGroups l⟩ := by
  have hquote : l.quote = none →
      ∀ c ∈ (l.name ++ (l.quote.toList ++ l.afterName)).head?, isQuote c = false := by
    intro _ c hc
    rw [List.head?_append_of_ne_nil _ hne] at hc
    exact l.noQuote c (List.mem_of_mem_head? hc)
  have hlazy := (after_lazily (l.quote.toList ++ l.afterName) [(1, l.quote.toList)]
    (List.length_pos_iff.mpr hne)
    (notBreak_of_notMem hname)).group (i := 2)
  rw [Scan.keep_eq l.name rfl] at hlazy
  have hinner : After NotAtEnd ⟨[], libraryGroups l⟩
      (seq [chars ['('], group 1 (opt (one isQuote)), group 2 (lazily 1 notBreak), back 1,
        opt (seq [chars [','], greedily 0 isSpace, group 3 (greedily 1 notBreak)]), chars [')']]
        ⟨l.text, []⟩) := by
    rw [library_text]
    refine after_chars.seq_first ?_
    refine (after_quote hquote).seq_first ?_
    refine hlazy.seq ?_ ((after_back _ rfl).seq_first
      ((after_version hbreak).mono fun _ h => h.elim))
    rintro x ⟨y, ⟨k, -, hk, rfl⟩, rfl⟩
    exact notAtEnd_of_part hk rfl rfl
  refine (after_chars.seq_first (hinner.opt.seq ?_ ?_)).head?
  · intro x hx y hy
    obtain ⟨m, hm, -⟩ := mem_seq_cons.mp hy
    exact hx (mem_atEnd.mp hm).2
  · exact after_atEnd.seq_first (after_only _ _)

end Library

/-- The groups of a library that is read: nothing is empty but the quote, and no line break is
taken. -/
theorem native_groups {text : Chars} {m : Scan} (h : nativePattern.first text = some m) :
    m.groups = [] ∨ ∃ quote name, name ≠ [] ∧ '\n' ∉ name ∧
      (m.groups = [(2, name), (1, quote)] ∨
        ∃ version, '\n' ∉ version ∧ m.groups = [(3, version), (2, name), (1, quote)]) := by
  have hway := List.mem_of_head? h
  unfold nativePattern at hway
  obtain ⟨s₁, h₁, hway⟩ := mem_seq_cons.mp hway
  obtain ⟨s₂, h₂, hway⟩ := mem_seq_cons.mp hway
  obtain ⟨s₃, h₃, hway⟩ := mem_seq_cons.mp hway
  obtain rfl := mem_seq_nil.mp hway
  obtain ⟨rfl, -⟩ := mem_atEnd.mp h₃
  have hstart : s₁.groups = [] := (mem_chars.mp h₁).2
  rcases mem_opt.mp h₂ with hlibrary | rfl
  · right
    obtain ⟨t₁, g₁, hlibrary⟩ := mem_seq_cons.mp hlibrary
    obtain ⟨t₂, g₂, hlibrary⟩ := mem_seq_cons.mp hlibrary
    obtain ⟨t₃, g₃, hlibrary⟩ := mem_seq_cons.mp hlibrary
    obtain ⟨t₄, g₄, hlibrary⟩ := mem_seq_cons.mp hlibrary
    obtain ⟨t₅, g₅, hlibrary⟩ := mem_seq_cons.mp hlibrary
    obtain ⟨t₆, g₆, hlibrary⟩ := mem_seq_cons.mp hlibrary
    obtain rfl := mem_seq_nil.mp hlibrary
    obtain ⟨e, he, rfl⟩ := List.mem_map.mp g₂
    have hquote : e.groups = [] := by
      rw [← hstart, ← (mem_chars.mp g₁).2]
      rcases mem_opt.mp he with hone | rfl
      · exact (mem_one.mp hone).choose_spec.2.2
      · rfl
    obtain ⟨name, -, hlong, hname, hgroups⟩ := mem_group_lazily.mp g₃
    obtain ⟨taken, -, hback⟩ := mem_back.mp g₄
    obtain ⟨quote, hkept⟩ : ∃ quote, (t₁.keep 1 e).groups = [(1, quote)] :=
      ⟨_, congrArg (List.cons _) hquote⟩
    have hbefore : t₄.groups = [(2, name), (1, quote)] := by
      rw [(mem_chars.mp hback).2, hgroups, hkept]
    refine ⟨quote, name, List.ne_nil_of_length_pos hlong, notMem_of_notBreak hname, ?_⟩
    rw [(mem_chars.mp g₆).2]
    rcases mem_opt.mp g₅ with hversion | rfl
    · obtain ⟨u₁, k₁, hversion⟩ := mem_seq_cons.mp hversion
      obtain ⟨u₂, k₂, hversion⟩ := mem_seq_cons.mp hversion
      obtain ⟨u₃, k₃, hversion⟩ := mem_seq_cons.mp hversion
      obtain rfl := mem_seq_nil.mp hversion
      obtain ⟨blank, -, -, -, hblank⟩ := mem_greedily.mp k₂
      obtain ⟨version, -, -, hnoBreak, hlast⟩ := mem_group_greedily.mp k₃
      refine Or.inr ⟨version, notMem_of_notBreak hnoBreak, ?_⟩
      rw [hlast, hblank, (mem_chars.mp k₁).2, hbefore]
    · exact Or.inl hbefore
  · exact Or.inl hstart

/-! ## One attribute -/

/-- The fields that an attribute of a kind sets. -/
def part (st : Fields) : Fin 3 → Option Chars × Option Chars
  | 0 => (st.library, st.library_version)
  | 1 => (st.symbol, none)
  | 2 => (st.signature, st.ret)

/-- What an attribute says that they are. -/
def said : Attribute → Option Chars × Option Chars
  | .native library =>
    (library.map Library.name,
      some (((library.bind Library.version).map fun v => v.word.chars).getD ['0']))
  | .symbol s => (some s.name.chars, none)
  | .signature g => (some g.args, some g.ret.chars)

/-- A pattern that starts with another text is not matched. -/
theorem first_eq_none {cs text : Chars} {ps : List Pattern} (h : ¬ cs <+: text) :
    (seq (chars cs :: ps)).first text = none := by
  have hchars : chars cs ⟨text, []⟩ = [] := if_neg h
  rw [first, seq, hchars]
  rfl

theorem readAttribute_native (st : Fields) (library : Option Library) :
    readAttribute st (Attribute.native library).text =
      (nativePattern.first (Attribute.native library).text).map fun m =>
        { st with library := m.group 2, library_version := some ((m.group 3).getD ['0']) } := by
  have hsymbol : symbolPattern.first (Attribute.native library).text = none := by
    apply first_eq_none
    cases library <;> simp [Attribute.text]
  have hsignature : signaturePattern.first (Attribute.native library).text = none := by
    apply first_eq_none
    cases library <;> simp [Attribute.text]
  unfold readAttribute
  rw [hsymbol, hsignature]
  cases nativePattern.first (Attribute.native library).text <;> rfl

theorem readAttribute_symbol (st : Fields) (s : Symbol) :
    readAttribute st (Attribute.symbol s).text =
      (symbolPattern.first (Attribute.symbol s).text).map fun m =>
        { st with symbol := m.group 2 } := by
  have hnative : nativePattern.first (Attribute.symbol s).text = none := by
    apply first_eq_none
    simp [Attribute.text]
  have hsignature : signaturePattern.first (Attribute.symbol s).text = none := by
    apply first_eq_none
    simp [Attribute.text]
  unfold readAttribute
  rw [hnative, hsignature]
  cases symbolPattern.first (Attribute.symbol s).text <;> rfl

theorem readAttribute_signature (st : Fields) (g : Signature) :
    readAttribute st (Attribute.signature g).text =
      (signaturePattern.first (Attribute.signature g).text).map fun m =>
        { st with signature := m.group 1, ret := m.group 2 } := by
  have hnative : nativePattern.first (Attribute.signature g).text = none := by
    apply first_eq_none
    simp [Attribute.text]
  have hsymbol : symbolPattern.first (Attribute.signature g).text = none := by
    apply first_eq_none
    simp [Attribute.text]
  unfold readAttribute
  rw [hnative, hsymbol]
  cases signaturePattern.first (Attribute.signature g).text <;> rfl

/-- **A library is read as it is written exactly when it can be read.** -/
theorem says_native_iff (st : Fields) (library : Option Library) :
    (∃ st', readAttribute st (Attribute.native library).text = some st' ∧
        part st' 0 = said (.native library)) ↔ Readable (.native library) := by
  rw [readAttribute_native]
  cases library with
  | none =>
    exact iff_of_true ⟨_, rfl, rfl⟩ trivial
  | some l =>
    constructor
    · rintro ⟨st', hst', hstated⟩
      obtain ⟨m, hm, rfl⟩ := Option.map_eq_some_iff.mp hst'
      obtain ⟨hlibrary, hversion⟩ := Prod.mk.inj hstated
      simp only [Scan.group] at hlibrary hversion
      rcases native_groups hm with hgroups | ⟨quote, name, hne, hname, hgroups | hgroups⟩
      · rw [hgroups] at hlibrary
        cases hlibrary
      · rw [hgroups] at hlibrary hversion
        obtain rfl : name = l.name := Option.some.inj hlibrary
        refine ⟨hne, hname, fun v hv => ?_⟩
        simp only [Option.mem_def.mp hv, Option.bind_some] at hversion
        have hzero : some ['0'] = some v.word.chars := hversion
        rw [← Option.some.inj hzero]
        decide
      · obtain ⟨version, hnoBreak, hgroups⟩ := hgroups
        rw [hgroups] at hlibrary hversion
        obtain rfl : name = l.name := Option.some.inj hlibrary
        refine ⟨hne, hname, fun v hv => ?_⟩
        simp only [Option.mem_def.mp hv, Option.bind_some] at hversion
        have hword : some version = some v.word.chars := hversion
        rw [← Option.some.inj hword]
        exact hnoBreak
    · rintro ⟨hne, hname, hbreak⟩
      rw [first_library hne hname hbreak]
      refine ⟨_, rfl, ?_⟩
      have hgroups : (⟨[], libraryGroups l⟩ : Scan).group 2 = some l.name ∧
          ((⟨[], libraryGroups l⟩ : Scan).group 3).getD ['0'] =
            (l.version.map fun v => v.word.chars).getD ['0'] := by
        unfold libraryGroups
        cases l.version <;> exact ⟨rfl, rfl⟩
      exact Prod.ext hgroups.1 (congrArg some hgroups.2)

theorem not_space_of_isQuote {q : Char} (hq : isQuote q = true) : isSpace q = false := by
  rw [isQuote, Bool.or_eq_true, decide_eq_true_eq, decide_eq_true_eq] at hq
  rcases hq with rfl | rfl <;> rfl

/-- **A symbol between quotes** is read as it is written. -/
theorem first_symbol {s : Symbol} {q : Char} (hquote : s.quote = some q)
    (hname : '\n' ∉ s.name.chars) :
    symbolPattern.first (Attribute.symbol s).text =
      some ⟨[], [(2, s.name.chars), (1, [q])]⟩ := by
  have hq : isQuote q = true := s.isQuote q hquote
  have hspace : isSpace q = false := not_space_of_isQuote hq
  have hlong : 1 ≤ s.name.chars.length := List.length_pos_iff.mpr s.name.nonempty
  have htext : (Attribute.symbol s).text = ['S', 'y', 'm', 'b', 'o', 'l', '('] ++
      (q :: (s.name.chars ++ [q, ')'])) := by
    simp [Attribute.text, Symbol.text, hquote]
  have hone : After (fun _ => False) ⟨s.name.chars ++ [q, ')'], [(1, [q])]⟩
      (opt (group 1 (one isQuote)) ⟨q :: (s.name.chars ++ [q, ')']), []⟩) := by
    have htaken : one isQuote ⟨q :: (s.name.chars ++ [q, ')']), []⟩ =
        [⟨s.name.chars ++ [q, ')'], []⟩] := by
      rw [one_cons, if_pos hq]
    apply After.opt
    have hgroup := (after_only (fun _ => False) (⟨s.name.chars ++ [q, ')'], []⟩ : Scan))
    rw [← htaken] at hgroup
    have hkept := hgroup.group (i := 1)
    rw [Scan.keep_eq [q] rfl] at hkept
    exact hkept.mono fun x hx => hx.choose_spec.1
  have hlast := (after_greedily [q, ')'] [(1, [q])] hlong
    (notBreak_of_notMem hname)).group (i := 2)
  rw [Scan.keep_eq s.name.chars rfl] at hlast
  have hstop : ∀ c ∈ (s.name.chars ++ [q, ')']).head?, isSpace c = false := by
    rw [List.head?_append_of_ne_nil _ s.name.nonempty]
    exact s.name.head
  have hnone : ∀ c ∈ [], isSpace c = true := List.forall_mem_nil _
  rw [htext]
  refine After.head? ?_
  refine after_chars.seq_first ?_
  refine (after_greedily_stop (Nat.zero_le _) hnone
    (fun c hc => by cases hc; exact hspace)).seq_first ?_
  refine hone.seq_first ?_
  refine (after_greedily_stop (Nat.zero_le _) hnone hstop).seq_first ?_
  refine hlast.seq ?_ ?_
  · -- a longer name would leave no quote to end it
    rintro x ⟨y, ⟨more, hne, -, hrest, hgroups⟩, rfl⟩ z hz
    obtain ⟨m₁, h₁, hz⟩ := mem_seq_cons.mp hz
    obtain ⟨m₂, h₂, hz⟩ := mem_seq_cons.mp hz
    obtain ⟨blank, hblank, -, -, hkeeps⟩ := mem_greedily.mp h₁
    obtain ⟨taken, htaken, hback⟩ := mem_back.mp h₂
    have hsame : [q] = taken := by
      rw [Scan.group, hkeeps, Scan.keep, hgroups] at htaken
      exact Option.some.inj htaken
    have hmem : q ∈ y.rest := by
      have hrest' : y.rest = blank ++ m₁.rest := hblank
      rw [hrest', (mem_chars.mp hback).1, ← hsame]
      simp
    obtain ⟨c, cs, rfl⟩ := List.exists_cons_of_ne_nil hne
    have hmem' : q ∈ [')'] := by
      rw [(List.cons.inj hrest).2]
      exact List.mem_append_right _ hmem
    rw [List.mem_singleton.mp hmem'] at hq
    exact absurd hq (by decide)
  · refine (after_greedily_stop (Nat.zero_le _) hnone
      (fun c hc => by cases hc; exact hspace)).seq_first ?_
    refine (after_back [q] rfl).seq_first ?_
    refine (after_greedily_stop (Nat.zero_le _) hnone
      (fun c hc => by cases hc; rfl)).seq_first ?_
    exact after_chars.seq_first (after_atEnd.seq_first (after_only _ _))

/-- The groups of a symbol that is read: its quote was taken, and no line break. -/
theorem symbol_groups {s : Symbol} {m : Scan}
    (h : symbolPattern.first (Attribute.symbol s).text = some m) :
    s.quote ≠ none ∧ ∃ name, '\n' ∉ name ∧ m.group 2 = some name := by
  have hway := List.mem_of_head? h
  unfold symbolPattern at hway
  obtain ⟨s₁, h₁, hway⟩ := mem_seq_cons.mp hway
  obtain ⟨s₂, h₂, hway⟩ := mem_seq_cons.mp hway
  obtain ⟨s₃, h₃, hway⟩ := mem_seq_cons.mp hway
  obtain ⟨s₄, h₄, hway⟩ := mem_seq_cons.mp hway
  obtain ⟨s₅, h₅, hway⟩ := mem_seq_cons.mp hway
  obtain ⟨s₆, h₆, hway⟩ := mem_seq_cons.mp hway
  obtain ⟨s₇, h₇, hway⟩ := mem_seq_cons.mp hway
  obtain ⟨s₈, h₈, hway⟩ := mem_seq_cons.mp hway
  obtain ⟨s₉, h₉, hway⟩ := mem_seq_cons.mp hway
  obtain ⟨s₁₀, h₁₀, hway⟩ := mem_seq_cons.mp hway
  obtain rfl := mem_seq_nil.mp hway
  obtain ⟨blank, hblank, -, hspace, hgroups₂⟩ := mem_greedily.mp h₂
  obtain ⟨-, -, -, -, hgroups₄⟩ := mem_greedily.mp h₄
  obtain ⟨name, -, -, hname, hgroups₅⟩ := mem_group_greedily.mp h₅
  obtain ⟨-, -, -, -, hgroups₆⟩ := mem_greedily.mp h₆
  obtain ⟨taken, htaken, hback⟩ := mem_back.mp h₇
  obtain ⟨-, -, -, -, hgroups₈⟩ := mem_greedily.mp h₈
  obtain ⟨rfl, -⟩ := mem_atEnd.mp h₁₀
  constructor
  · intro hnone
    rcases mem_opt.mp h₃ with hone | rfl
    · -- a quote would be the first character of the name
      obtain ⟨e, he, rfl⟩ := List.mem_map.mp hone
      obtain ⟨c, hc, hquote, -⟩ := mem_one.mp he
      obtain ⟨d, ds, hname'⟩ := List.exists_cons_of_ne_nil s.name.nonempty
      have hstart : d :: (ds ++ [')']) = blank ++ c :: e.rest := by
        rw [← hc, ← hblank]
        have htext := (mem_chars.mp h₁).1
        simp only [Attribute.text, Symbol.text, hnone, hname'] at htext
        exact @List.append_cancel_left _ ['S', 'y', 'm', 'b', 'o', 'l', '('] _ _
          (by simpa using htext)
      cases blank with
      | nil =>
        have hd := s.noQuote d (by rw [hname']; exact List.mem_cons_self)
        rw [(List.cons.inj hstart).1, hquote] at hd
        cases hd
      | cons b bs =>
        have hd := s.name.head d (by rw [hname']; rfl)
        rw [(List.cons.inj hstart).1, hspace b List.mem_cons_self] at hd
        cases hd
    · rw [Scan.group, hgroups₆, hgroups₅, hgroups₄, hgroups₂, (mem_chars.mp h₁).2] at htaken
      cases htaken
  · refine ⟨name, notMem_of_notBreak hname, ?_⟩
    rw [Scan.group, (mem_chars.mp h₉).2, hgroups₈, (mem_chars.mp hback).2, hgroups₆, hgroups₅]
    rfl

/-- **A symbol is read as it is written exactly when it can be read.** -/
theorem says_symbol_iff (st : Fields) (s : Symbol) :
    (∃ st', readAttribute st (Attribute.symbol s).text = some st' ∧
        part st' 1 = said (.symbol s)) ↔ Readable (.symbol s) := by
  rw [readAttribute_symbol]
  constructor
  · rintro ⟨st', hst', hstated⟩
    obtain ⟨m, hm, rfl⟩ := Option.map_eq_some_iff.mp hst'
    obtain ⟨hquote, name, hname, hgroup⟩ := symbol_groups hm
    have hsame : some name = some s.name.chars := hgroup.symm.trans (Prod.mk.inj hstated).1
    exact ⟨hquote, Option.some.inj hsame ▸ hname⟩
  · rintro ⟨hquote, hname⟩
    obtain ⟨q, hq⟩ := Option.ne_none_iff_exists'.mp hquote
    rw [first_symbol hq hname]
    exact ⟨_, rfl, rfl⟩

/-! ## The signature -/

/-- What follows the list of a signature. -/
def behindList : List Pattern :=
  [greedily 0 isSpace, chars ['=', '>'], greedily 0 isSpace, group 2 (greedily 0 notBreak),
    chars [')'], atEnd]

/-- A list in brackets: before it comes what reaches a later bracket on the same line. -/
theorem after_list (rest : Chars) {inner : Chars} (hinner : '\n' ∉ inner) :
    After (fun x => ∃ more, rest = more ++ ']' :: x.rest ∧ '\n' ∉ more ∧
        x.groups = [(1, ('[' :: inner ++ [']']) ++ more ++ [']'])])
      ⟨rest, [(1, '[' :: inner ++ [']'])]⟩
      (group 1 (seq [chars ['['], greedily 0 notBreak, chars [']']])
        ⟨('[' :: inner ++ [']']) ++ rest, []⟩) := by
  have htext : ('[' :: inner ++ [']']) ++ rest = ['['] ++ (inner ++ ([']'] ++ rest)) := by simp
  have hseq : After (fun x => ∃ more, rest = more ++ ']' :: x.rest ∧ '\n' ∉ more ∧ x.groups = [])
      ⟨rest, []⟩ (seq [chars ['['], greedily 0 notBreak, chars [']']]
        ⟨('[' :: inner ++ [']']) ++ rest, []⟩) := by
    rw [htext]
    refine after_chars.seq_first ?_
    refine (after_greedily _ _ (Nat.zero_le _) (notBreak_of_notMem hinner)).seq ?_
      (after_chars.seq_first (after_only _ _))
    rintro x ⟨more, hne, hmore, hrest, hgroups⟩ y hy
    obtain ⟨m, hm, hy⟩ := mem_seq_cons.mp hy
    obtain rfl := mem_seq_nil.mp hy
    obtain ⟨hbracket, hkeeps⟩ := mem_chars.mp hm
    obtain ⟨c, cs, rfl⟩ := List.exists_cons_of_ne_nil hne
    refine ⟨cs, ?_, ?_, hkeeps.trans hgroups⟩
    · rw [hbracket] at hrest
      exact (List.cons.inj hrest).2
    · exact fun hmem => notMem_of_notBreak hmore (List.mem_cons_of_mem _ hmem)
  have hgroup := hseq.group (i := 1)
  rw [Scan.keep_eq ('[' :: inner ++ [']']) rfl] at hgroup
  apply hgroup.mono
  rintro x ⟨y, ⟨more, hrest, hmore, hgroups⟩, rfl⟩
  refine ⟨more, hrest, hmore, ?_⟩
  have htaken : ('[' :: inner ++ [']']) ++ rest =
      (('[' :: inner ++ [']']) ++ more ++ [']']) ++ y.rest := by
    rw [hrest]
    simp
  rw [Scan.keep_eq _ htaken, hgroups]

/-- What is behind the list adds a group without a line break, and starts with an arrow. -/
theorem behind_groups {x e : Scan} (h : e ∈ seq behindList x) :
    (∃ ret, '\n' ∉ ret ∧ e.groups = (2, ret) :: x.groups) ∧
      ∃ blank after, x.rest = blank ++ '=' :: '>' :: after ∧ ∀ c ∈ blank, isSpace c = true := by
  unfold behindList at h
  obtain ⟨s₁, h₁, h⟩ := mem_seq_cons.mp h
  obtain ⟨s₂, h₂, h⟩ := mem_seq_cons.mp h
  obtain ⟨s₃, h₃, h⟩ := mem_seq_cons.mp h
  obtain ⟨s₄, h₄, h⟩ := mem_seq_cons.mp h
  obtain ⟨s₅, h₅, h⟩ := mem_seq_cons.mp h
  obtain ⟨s₆, h₆, h⟩ := mem_seq_cons.mp h
  obtain rfl := mem_seq_nil.mp h
  obtain ⟨blank, hblank, -, hspace, hgroups₁⟩ := mem_greedily.mp h₁
  obtain ⟨harrow, hgroups₂⟩ := mem_chars.mp h₂
  obtain ⟨-, -, -, -, hgroups₃⟩ := mem_greedily.mp h₃
  obtain ⟨ret, -, -, hret, hgroups₄⟩ := mem_group_greedily.mp h₄
  obtain ⟨rfl, -⟩ := mem_atEnd.mp h₆
  constructor
  · refine ⟨ret, notMem_of_notBreak hret, ?_⟩
    rw [(mem_chars.mp h₅).2, hgroups₄, hgroups₃, hgroups₂, hgroups₁]
  · exact ⟨blank, s₂.rest, by rw [hblank, harrow]; rfl, hspace⟩

/-- A bracket after the list is in the type of the result. -/
theorem bracket_in_ret {g : Signature} {more rest : Chars}
    (h : g.after.chars ++ ['=', '>'] ++ g.behind.chars ++ (g.ret.chars ++ [')']) =
      more ++ ']' :: rest) :
    ∃ before, more = g.after.chars ++ ['=', '>'] ++ g.behind.chars ++ before ∧
      g.ret.chars ++ [')'] = before ++ ']' :: rest := by
  have hno : ']' ∉ g.after.chars ++ ['=', '>'] ++ g.behind.chars := by
    intro hmem
    rcases List.mem_append.mp hmem with hmem | hmem
    · rcases List.mem_append.mp hmem with hmem | hmem
      · exact absurd (g.after.space _ hmem) (by decide)
      · exact absurd hmem (by decide)
    · exact absurd (g.behind.space _ hmem) (by decide)
  rcases List.append_eq_append_iff.mp h with ⟨before, hmore, hret⟩ | ⟨before, hfront, hret⟩
  · exact ⟨before, hmore, hret⟩
  · cases before with
    | nil => exact ⟨[], by simpa using hfront.symm, by simpa using hret.symm⟩
    | cons c cs =>
      refine absurd ?_ hno
      rw [hfront, (List.cons.inj hret).1]
      simp

theorem signature_text (g : Signature) : (Attribute.signature g).text =
    ['S', 'i', 'g', 'n', 'a', 't', 'u', 'r', 'e', '('] ++ (g.before.chars ++ (g.args ++
      (g.after.chars ++ ['=', '>'] ++ g.behind.chars ++ (g.ret.chars ++ [')'])))) := by
  simp [Attribute.text, Signature.text]

theorem head_args (g : Signature) (rest : Chars) :
    ∀ c ∈ (g.args ++ rest).head?, isSpace c = false := by
  intro c hc
  cases hc
  rfl

/-- **A signature that can be read** is read as it is written. -/
theorem first_signature {g : Signature} (h : Readable (.signature g)) :
    signaturePattern.first (Attribute.signature g).text =
      some ⟨[], [(2, g.ret.chars), (1, g.args)]⟩ := by
  obtain ⟨hinner, hret, harrow⟩ := h
  rw [signature_text]
  refine After.head? ?_
  refine after_chars.seq_first ?_
  refine (after_greedily_stop (Nat.zero_le _) g.before.space (head_args g _)).seq_first ?_
  refine (after_list _ hinner).seq ?_ ?_
  · -- a longer list would end at a bracket before an arrow in the type of the result
    rintro x ⟨more, hrest, hmore, -⟩ y hy
    obtain ⟨-, blank, after, hx, hblank⟩ := behind_groups hy
    obtain ⟨before, rfl, hbefore⟩ := bracket_in_ret hrest
    refine hmore ?_
    have hin : '\n' ∈ g.after.chars ++ g.behind.chars := by
      apply harrow
      rw [hx] at hbefore
      rcases List.eq_nil_or_concat after with rfl | ⟨init, last, rfl⟩
      · have hsame : g.ret.chars ++ [')'] = (before ++ ']' :: blank ++ ['=']) ++ ['>'] := by
          rw [hbefore]
          simp
        exact absurd (List.append_inj' hsame rfl).2 (by decide)
      · rw [List.concat_eq_append] at hbefore
        have hsame : g.ret.chars ++ [')'] =
            (before ++ ']' :: blank ++ '=' :: '>' :: init) ++ [last] := by
          rw [hbefore]
          simp
        exact ⟨before, blank, init, (List.append_inj' hsame rfl).1, hblank⟩
    rcases List.mem_append.mp hin with hin | hin <;> simp [hin]
  · simp only [List.append_assoc]
    refine (after_greedily_stop (Nat.zero_le _) g.after.space
      (fun c hc => by cases hc; rfl)).seq_first ?_
    refine after_chars.seq_first ?_
    refine (after_greedily_stop (Nat.zero_le _) g.behind.space ?_).seq_first ?_
    · rw [List.head?_append_of_ne_nil _ g.ret.nonempty]
      exact g.ret.head
    have hlast := (after_greedily [')'] [(1, g.args)]
      (Nat.zero_le g.ret.chars.length) (notBreak_of_notMem hret)).group (i := 2)
    rw [Scan.keep_eq g.ret.chars rfl] at hlast
    refine hlast.seq ?_ (after_chars.seq_first
      (after_atEnd.seq_first (after_only _ _)))
    rintro x ⟨y, ⟨more, hne, -, hrest, -⟩, rfl⟩ z hz
    obtain ⟨m, hm, -⟩ := mem_seq_cons.mp hz
    obtain ⟨c, cs, rfl⟩ := List.exists_cons_of_ne_nil hne
    have hnil : y.rest = [] := (List.append_eq_nil_iff.mp (List.cons.inj hrest).2.symm).2
    have hclose : y.rest = [')'] ++ m.rest := (mem_chars.mp hm).1
    rw [hnil] at hclose
    cases hclose

/-- The first way through goes on after a text that it must start with. -/
theorem head?_seq_chars (cs rest : Chars) (ps : List Pattern) (groups : List (ℕ × Chars)) :
    (seq (chars cs :: ps) ⟨cs ++ rest, groups⟩).head? = (seq ps ⟨rest, groups⟩).head? := by
  have hchars : chars cs ⟨cs ++ rest, groups⟩ = [⟨rest, groups⟩] := by simp [chars]
  rw [seq, hchars, List.flatMap_singleton]

/-- **A longer list is taken first**: where an arrow is in the type of the result, on the line of
the list, the list that is read is longer. -/
theorem longer_list {g : Signature} (hinner : '\n' ∉ g.inner) (hret : '\n' ∉ g.ret.chars)
    (hline : '\n' ∉ g.after.chars ++ g.behind.chars) (harrow : HasArrow g.ret.chars) {m : Scan}
    (h : signaturePattern.first (Attribute.signature g).text = some m) :
    ∃ list, m.group 1 = some list ∧ g.args.length < list.length := by
  obtain ⟨before, blank, after, hsplit, hblank⟩ := harrow
  -- the list with all that is before the last bracket
  let inner := g.inner ++ ']' :: g.after.chars ++ ['=', '>'] ++ g.behind.chars ++ before
  let rest := blank ++ (['=', '>'] ++ (after ++ [')']))
  have hbefore : '\n' ∉ before ∧ '\n' ∉ after := by
    rw [hsplit] at hret
    simp only [List.mem_append, List.mem_cons, not_or] at hret
    exact ⟨hret.1.1, hret.2.2.2⟩
  have hlong : '\n' ∉ inner := by
    simp only [List.mem_append, not_or] at hline
    simp [inner, hinner, hline.1, hline.2, hbefore.1]
  have htext : g.args ++ (g.after.chars ++ ['=', '>'] ++ g.behind.chars ++
      (g.ret.chars ++ [')'])) = ('[' :: inner ++ [']']) ++ rest := by
    simp [Signature.args, inner, rest, hsplit]
  have hlist := after_list rest hlong
  have hway : (⟨[], [(2, after), (1, '[' :: inner ++ [']'])]⟩ : Scan) ∈
      seq behindList ⟨rest, [(1, '[' :: inner ++ [']'])]⟩ := by
    refine mem_seq_cons.mpr ⟨⟨['=', '>'] ++ (after ++ [')']), _⟩,
      mem_greedily.mpr ⟨blank, rfl, Nat.zero_le _, hblank, rfl⟩, ?_⟩
    refine mem_seq_cons.mpr ⟨⟨after ++ [')'], _⟩, mem_chars.mpr ⟨rfl, rfl⟩, ?_⟩
    refine mem_seq_cons.mpr ⟨⟨after ++ [')'], _⟩,
      mem_greedily.mpr ⟨[], rfl, Nat.zero_le _, List.forall_mem_nil _, rfl⟩, ?_⟩
    refine mem_seq_cons.mpr ⟨⟨[')'], _⟩, mem_group_greedily.mpr
      ⟨after, rfl, Nat.zero_le _, notBreak_of_notMem hbefore.2, rfl⟩, ?_⟩
    refine mem_seq_cons.mpr ⟨⟨[], _⟩, mem_chars.mpr ⟨rfl, rfl⟩, ?_⟩
    exact mem_seq_cons.mpr ⟨_, mem_atEnd.mpr ⟨rfl, Or.inl rfl⟩, mem_seq_nil.mpr rfl⟩
  rw [signature_text] at h
  have hhead : (seq (greedily 0 isSpace ::
      group 1 (seq [chars ['['], greedily 0 notBreak, chars [']']]) :: behindList)
        ⟨g.before.chars ++ (g.args ++ (g.after.chars ++ ['=', '>'] ++ g.behind.chars ++
          (g.ret.chars ++ [')']))), []⟩).head? = some m :=
    (head?_seq_chars ['S', 'i', 'g', 'n', 'a', 't', 'u', 'r', 'e', '('] _ _ _).symm.trans h
  obtain ⟨x, hx, hhead⟩ := (after_greedily_stop (Nat.zero_le _) g.before.space
    (head_args g _)).of_head? (List.ne_nil_of_mem
      (mem_seq_cons.mpr ⟨_, by rw [htext]; exact hlist.mem, hway⟩)) hhead
  obtain rfl := hx.resolve_left id
  rw [htext] at hhead
  obtain ⟨x, hx, hhead⟩ := hlist.of_head? (List.ne_nil_of_mem hway) hhead
  obtain ⟨⟨ret, -, hgroups⟩, -⟩ := behind_groups (List.mem_of_head? hhead)
  have hshort : g.args.length < ('[' :: inner ++ [']']).length := by
    simp only [Signature.args, inner, List.length_append, List.length_cons, List.length_nil]
    omega
  rcases hx with ⟨more, -, -, hlonger⟩ | rfl
  · refine ⟨_, by rw [Scan.group, hgroups, hlonger]; rfl, hshort.trans_le ?_⟩
    simp only [List.length_append]
    omega
  · exact ⟨_, by rw [Scan.group, hgroups]; rfl, hshort⟩

/-- The groups of a signature that is read. -/
theorem signature_groups {text : Chars} {m : Scan} (h : signaturePattern.first text = some m) :
    ∃ inner ret, '\n' ∉ inner ∧ '\n' ∉ ret ∧
      m.groups = [(2, ret), (1, '[' :: inner ++ [']'])] := by
  have hway := List.mem_of_head? h
  unfold signaturePattern at hway
  obtain ⟨s₁, h₁, hway⟩ := mem_seq_cons.mp hway
  obtain ⟨s₂, h₂, hway⟩ := mem_seq_cons.mp hway
  obtain ⟨s₃, h₃, hway⟩ := mem_seq_cons.mp hway
  obtain ⟨⟨ret, hret, hgroups⟩, -⟩ := behind_groups hway
  obtain ⟨-, -, -, -, hgroups₂⟩ := mem_greedily.mp h₂
  obtain ⟨e, he, rfl⟩ := List.mem_map.mp h₃
  obtain ⟨t₁, k₁, he⟩ := mem_seq_cons.mp he
  obtain ⟨t₂, k₂, he⟩ := mem_seq_cons.mp he
  obtain ⟨t₃, k₃, he⟩ := mem_seq_cons.mp he
  obtain rfl := mem_seq_nil.mp he
  obtain ⟨hopen, kgroups₁⟩ := mem_chars.mp k₁
  obtain ⟨inner, hinner, -, hline, kgroups₂⟩ := mem_greedily.mp k₂
  obtain ⟨hclose, kgroups₃⟩ := mem_chars.mp k₃
  have htaken : s₂.rest = ('[' :: inner ++ [']']) ++ e.rest := by
    rw [hopen, hinner, hclose]
    simp
  refine ⟨inner, ret, notMem_of_notBreak hline, hret, ?_⟩
  rw [hgroups, Scan.keep_eq _ htaken, kgroups₃, kgroups₂, kgroups₁, hgroups₂, (mem_chars.mp h₁).2]

/-- **A signature is read as it is written exactly when it can be read.** -/
theorem says_signature_iff (st : Fields) (g : Signature) :
    (∃ st', readAttribute st (Attribute.signature g).text = some st' ∧
        part st' 2 = said (.signature g)) ↔ Readable (.signature g) := by
  rw [readAttribute_signature]
  constructor
  · rintro ⟨st', hst', hstated⟩
    obtain ⟨m, hm, rfl⟩ := Option.map_eq_some_iff.mp hst'
    obtain ⟨hargs, hret⟩ := Prod.mk.inj hstated
    obtain ⟨inner, ret, hinner, hline, hgroups⟩ := signature_groups hm
    have hlist : m.group 1 = some g.args := hargs
    have hlist' : m.group 1 = some ('[' :: inner ++ [']']) := by
      rw [Scan.group, hgroups]
      rfl
    have hret' : m.group 2 = some ret := by
      rw [Scan.group, hgroups]
      rfl
    obtain rfl : ret = g.ret.chars := Option.some.inj (hret'.symm.trans hret)
    have hsame : '[' :: inner ++ [']'] = '[' :: g.inner ++ [']'] :=
      Option.some.inj (hlist'.symm.trans hlist)
    obtain rfl : inner = g.inner := (List.append_inj' (List.cons.inj hsame).2 rfl).1
    refine ⟨hinner, hline, fun harrow => ?_⟩
    by_contra hno
    obtain ⟨list, hlonger, hlength⟩ := longer_list hinner hline hno harrow hm
    rw [hlist, Option.some.injEq] at hlonger
    rw [hlonger] at hlength
    exact lt_irrefl _ hlength
  · intro h
    rw [first_signature h]
    exact ⟨_, rfl, rfl⟩

theorem symbol_isSome {st st' : Fields} {s : Symbol}
    (h : readAttribute st (Attribute.symbol s).text = some st') :
    ∃ symbol, st'.symbol = some symbol := by
  rw [readAttribute_symbol] at h
  obtain ⟨m, hm, rfl⟩ := Option.map_eq_some_iff.mp h
  obtain ⟨-, name, -, hname⟩ := symbol_groups hm
  exact ⟨name, hname⟩

theorem signature_isSome {st st' : Fields} {g : Signature}
    (h : readAttribute st (Attribute.signature g).text = some st') :
    ∃ args ret, st'.signature = some args ∧ st'.ret = some ret := by
  rw [readAttribute_signature] at h
  obtain ⟨m, hm, rfl⟩ := Option.map_eq_some_iff.mp h
  obtain ⟨inner, ret, -, -, hgroups⟩ := signature_groups hm
  have hlist : m.group 1 = some ('[' :: inner ++ [']']) := by
    rw [Scan.group, hgroups]
    rfl
  have hret : m.group 2 = some ret := by
    rw [Scan.group, hgroups]
    rfl
  exact ⟨_, ret, hlist, hret⟩

/-! ## All attributes -/

/-- **An attribute is read as it is written exactly when it can be read.** -/
theorem said_iff_readable (st : Fields) (a : Attribute) :
    (∃ st', readAttribute st a.text = some st' ∧ part st' a.kind = said a) ↔ Readable a := by
  cases a with
  | native library => exact says_native_iff st library
  | symbol s => exact says_symbol_iff st s
  | signature g => exact says_signature_iff st g

/-- An attribute sets the fields of its kind and no others. -/
theorem part_of_ne {st st' : Fields} {a : Attribute} (h : readAttribute st a.text = some st')
    {k : Fin 3} (hk : k ≠ a.kind) : part st' k = part st k := by
  cases a with
  | native library =>
    rw [readAttribute_native] at h
    obtain ⟨m, -, rfl⟩ := Option.map_eq_some_iff.mp h
    match k with
    | 0 => exact absurd rfl hk
    | 1 => rfl
    | 2 => rfl
  | symbol s =>
    rw [readAttribute_symbol] at h
    obtain ⟨m, -, rfl⟩ := Option.map_eq_some_iff.mp h
    match k with
    | 0 => rfl
    | 1 => exact absurd rfl hk
    | 2 => rfl
  | signature g =>
    rw [readAttribute_signature] at h
    obtain ⟨m, -, rfl⟩ := Option.map_eq_some_iff.mp h
    match k with
    | 0 => rfl
    | 1 => rfl
    | 2 => exact absurd rfl hk

/-- **After the loop** each attribute's fields are as it set them, and those of no attribute are
as they were. -/
theorem readAttributes_ok {attributes : List Attribute}
    (hkinds : (attributes.map Attribute.kind).Nodup) : ∀ {st st' : Fields},
      readAttributes st (attributes.map Attribute.text) = .ok st' →
      (∀ a ∈ attributes, ∃ s₁ s₂, readAttribute s₁ a.text = some s₂ ∧
        part st' a.kind = part s₂ a.kind) ∧
      ∀ k, k ∉ attributes.map Attribute.kind → part st' k = part st k := by
  induction attributes with
  | nil =>
    intro st st' h
    cases h
    exact ⟨List.forall_mem_nil _, fun k _ => rfl⟩
  | cons a attributes ih =>
    intro st st' h
    rw [List.map_cons, List.nodup_cons] at hkinds
    rw [List.map_cons, readAttributes] at h
    cases hread : readAttribute st a.text with
    | none =>
      rw [hread] at h
      cases h
    | some s =>
      rw [hread] at h
      obtain ⟨hset, hkept⟩ := ih hkinds.2 h
      constructor
      · intro b hb
        rcases List.mem_cons.mp hb with rfl | hb
        · exact ⟨st, s, hread, hkept b.kind hkinds.1⟩
        · exact hset b hb
      · intro k hk
        rw [List.map_cons, List.mem_cons, not_or] at hk
        rw [hkept k hk.2, part_of_ne hread hk.1]

/-- The loop reads attributes that can be read. -/
theorem readAttributes_of_readable {attributes : List Attribute} : ∀ {st : Fields},
    (∀ a ∈ attributes, Readable a) →
      ∃ st', readAttributes st (attributes.map Attribute.text) = .ok st' := by
  induction attributes with
  | nil =>
    intro st _
    exact ⟨st, rfl⟩
  | cons a attributes ih =>
    intro st hreadable
    obtain ⟨s, hread, -⟩ := (said_iff_readable st a).mpr (hreadable a List.mem_cons_self)
    obtain ⟨st', hst'⟩ := @ih s fun b hb => hreadable b (List.mem_cons_of_mem _ hb)
    refine ⟨st', ?_⟩
    rw [List.map_cons, readAttributes, hread]
    exact hst'

/-! ## The name of the sub -/

/-- The name is what follows the first two colons. -/
theorem search_qualified {outer tail : Chars} (houter : ':' ∉ outer) (htail : '\n' ∉ tail) :
    fullNamePattern.search (outer ++ ([':', ':'] ++ tail)) = some ⟨[], [(1, tail)]⟩ := by
  induction outer with
  | nil =>
    have hlast := (after_lazily [] [] (Nat.zero_le tail.length)
      (notBreak_of_notMem htail)).group (i := 1)
    rw [List.append_nil, Scan.keep_eq tail (List.append_nil tail).symm] at hlast
    have hfirst : fullNamePattern.first ([':', ':'] ++ tail) = some ⟨[], [(1, tail)]⟩ := by
      refine After.head? (after_chars.seq_first (hlast.seq ?_
        (after_atEnd.seq_first (after_only _ _))))
      rintro x ⟨y, ⟨k, -, hk, rfl⟩, rfl⟩ z hz
      obtain ⟨m, hm, -⟩ := mem_seq_cons.mp hz
      have hdrop : tail.drop k = tail[k] :: tail.drop (k + 1) := List.drop_eq_getElem_cons hk
      have hends : tail.drop k = [] ∨ tail.drop k = ['\n'] := by
        simpa only [Scan.keep, List.append_nil] using (mem_atEnd.mp hm).2
      rw [hdrop] at hends
      rcases hends with hend | hend
      · cases hend
      · exact htail ((List.cons.inj hend).1 ▸ List.getElem_mem hk)
    rw [List.nil_append, List.cons_append, Pattern.search]
    exact (congrArg (Option.or · _) hfirst).trans rfl
  | cons c outer ih =>
    have hne : ¬ [':', ':'] <+: c :: (outer ++ ([':', ':'] ++ tail)) := by
      rintro ⟨rest, hrest⟩
      exact houter ((List.cons.inj hrest).1 ▸ List.mem_cons_self)
    rw [List.cons_append, Pattern.search, ih fun hmem => houter (List.mem_cons_of_mem _ hmem)]
    have hnone : fullNamePattern.first (c :: (outer ++ ([':', ':'] ++ tail))) = none :=
      first_eq_none hne
    rw [hnone]
    rfl

/-- What follows the first package of a sub. -/
def unqualified (d : Declaration) : Chars :=
  match d.inner with
  | [] => d.name
  | part :: parts => part ++ (parts.flatMap fun part => [':', ':'] ++ part) ++ [':', ':'] ++ d.name

theorem unqualified_eq_name_iff (d : Declaration) : unqualified d = d.name ↔ d.inner = [] := by
  unfold unqualified
  cases d.inner with
  | nil => exact iff_of_true rfl rfl
  | cons part parts =>
    refine iff_of_false (fun h => ?_) (List.cons_ne_nil _ _)
    have hlength := congrArg List.length h
    simp only [List.length_append, List.length_cons, List.length_nil] at hlength
    omega

theorem search_full_name (d : Declaration) :
    (fullNamePattern.search d.full_name).bind (fun m => m.group 1) = some (unqualified d) := by
  have hname : d.full_name = d.outer ++ ([':', ':'] ++ unqualified d) := by
    unfold Declaration.full_name Declaration.package unqualified
    cases d.inner with
    | nil => simp
    | cons part parts => simp
  have houter := (d.parts d.outer List.mem_cons_self).1
  have htail : '\n' ∉ unqualified d := by
    have hline : ∀ part ∈ d.name :: d.inner, '\n' ∉ part :=
      fun part hpart => (d.parts part (List.mem_cons_of_mem _ hpart)).2
    unfold unqualified
    cases hinner : d.inner with
    | nil => exact hline d.name List.mem_cons_self
    | cons part parts =>
      rw [hinner] at hline
      have hrest : '\n' ∉ parts.flatMap fun part => [':', ':'] ++ part := by
        intro hmem
        obtain ⟨p, hp, hin⟩ := List.mem_flatMap.mp hmem
        rcases List.mem_append.mp hin with hin | hin
        · exact absurd hin (by decide)
        · exact hline p (List.mem_cons_of_mem _ (List.mem_cons_of_mem _ hp)) hin
      simp only [List.mem_append, not_or]
      exact ⟨⟨⟨hline part (List.mem_cons_of_mem _ List.mem_cons_self), hrest⟩, by decide⟩,
        hline d.name List.mem_cons_self⟩
  rw [hname, search_qualified houter htail]
  rfl

/-! ## The record -/

/-- The record of a sub whose attributes were read. -/
def recordOf (d : Declaration) (st : Fields) : Record :=
  ⟨d.package, st.library, st.library_version,
    match st.symbol with
    | some symbol => some symbol
    | none => some (unqualified d),
    st.signature.getD ['[', ']'], st.ret.getD ['V', 'o', 'i', 'd'], d.full_name⟩

theorem record_eq_some_iff (d : Declaration) (defined : Bool) (r : Record) :
    (MODIFY_CODE_ATTRIBUTES d.package d.full_name defined
        (d.attributes.map Attribute.text)).record = some r ↔
      defined = false ∧
        ∃ st, readAttributes ⟨none, none, none, none, none⟩ (d.attributes.map Attribute.text) =
          .ok st ∧ r = recordOf d st := by
  unfold MODIFY_CODE_ATTRIBUTES
  cases readAttributes ⟨none, none, none, none, none⟩ (d.attributes.map Attribute.text) with
  | error a => simp [Outcome.record]
  | ok st =>
    have hname := search_full_name d
    have hout : ∀ st', (Except.ok st : Except Chars Fields) = .ok st' ↔ st = st' := by simp
    simp only [hout, exists_eq_left', hname]
    cases defined with
    | true =>
      refine iff_of_false (fun h => ?_) (fun h => Bool.noConfusion h.1)
      cases h
    | false => exact ⟨fun h => ⟨rfl, (Option.some.inj h).symm⟩, fun h => congrArg some h.2.symm⟩

/-- What a record says that was read. -/
theorem records_iff {d : Declaration} {st : Fields}
    (hread : readAttributes ⟨none, none, none, none, none⟩ (d.attributes.map Attribute.text) =
      .ok st) : Records d (recordOf d st) ↔ WellDeclared d := by
  obtain ⟨hset, hkept⟩ := readAttributes_ok d.kinds hread
  have hsaid : ∀ a ∈ d.attributes, part st a.kind = said a ↔ Readable a := by
    intro a ha
    obtain ⟨s₁, s₂, hs, hpart⟩ := hset a ha
    rw [hpart, ← said_iff_readable s₁ a]
    constructor
    · intro hstated
      exact ⟨s₂, hs, hstated⟩
    · rintro ⟨s, hs', hstated⟩
      rw [hs, Option.some.injEq] at hs'
      exact hs' ▸ hstated
  have hsymbol : ∀ s, .symbol s ∈ d.attributes → ∃ symbol, st.symbol = some symbol := by
    intro s hs
    obtain ⟨s₁, s₂, hs', hpart⟩ := hset _ hs
    obtain ⟨symbol, hsome⟩ := symbol_isSome hs'
    exact ⟨symbol, (Prod.mk.inj hpart).1.trans hsome⟩
  have hunnamed : (∀ s, .symbol s ∉ d.attributes) → st.symbol = none := by
    intro hno
    have hkind : (1 : Fin 3) ∉ d.attributes.map Attribute.kind := by
      intro hmem
      obtain ⟨a, ha, hkind⟩ := List.mem_map.mp hmem
      cases a with
      | native library => cases hkind
      | symbol s => exact hno s ha
      | signature g => cases hkind
    exact (Prod.mk.inj (hkept 1 hkind)).1
  constructor
  · intro hrecords
    constructor
    · intro a ha
      rw [← hsaid a ha]
      cases a with
      | native library =>
        obtain ⟨hlibrary, hversion⟩ := hrecords.native library ha
        exact Prod.ext hlibrary hversion
      | symbol s =>
        obtain ⟨symbol, hsome⟩ := hsymbol s ha
        have hsame := hrecords.symbol s ha
        simp only [recordOf, hsome] at hsame
        exact Prod.ext (hsome.trans hsame) rfl
      | signature g =>
        obtain ⟨s₁, s₂, hs, hpart⟩ := hset _ ha
        obtain ⟨args, ret, hargs, hret⟩ := signature_isSome hs
        have hargs' : st.signature = s₂.signature := (Prod.mk.inj hpart).1
        have hret' : st.ret = s₂.ret := (Prod.mk.inj hpart).2
        have hsame := hrecords.signature g ha
        simp only [recordOf, hargs', hret', hargs, hret, Option.getD_some] at hsame
        exact Prod.ext (by rw [said, ← hsame.1]; exact hargs'.trans hargs)
          (by rw [said, ← hsame.2]; exact hret'.trans hret)
    · by_cases hnamed : ∃ s, .symbol s ∈ d.attributes
      · exact Or.inl hnamed
      · have hno : ∀ s, .symbol s ∉ d.attributes := fun s hs => hnamed ⟨s, hs⟩
        have hname := hrecords.unnamed hno
        simp only [recordOf, hunnamed hno, Option.some.injEq] at hname
        exact Or.inr ((unqualified_eq_name_iff d).mp hname)
  · rintro ⟨hreadable, hname⟩
    have hstated : ∀ a ∈ d.attributes, part st a.kind = said a :=
      fun a ha => (hsaid a ha).mpr (hreadable a ha)
    constructor
    · intro library hlibrary
      exact Prod.mk.inj (hstated _ hlibrary)
    · intro s hs
      have hsome : st.symbol = some s.name.chars := (Prod.mk.inj (hstated _ hs)).1
      simp only [recordOf, hsome]
    · intro hno
      have hinner := hname.resolve_left fun ⟨s, hs⟩ => hno s hs
      simp only [recordOf, hunnamed hno, (unqualified_eq_name_iff d).mpr hinner]
    · intro g hg
      have hargs : st.signature = some g.args := (Prod.mk.inj (hstated _ hg)).1
      have hret : st.ret = some g.ret.chars := (Prod.mk.inj (hstated _ hg)).2
      simp only [recordOf, hargs, hret, Option.getD_some, and_self]

/-- **A sub is recorded as it is declared exactly when it has no body and is well declared**: its
attributes can be read, and its symbol is named or its package is in no other.
SOURCE: Native.pm:79-137 -/
theorem recorded_iff_wellDeclared (d : Declaration) (defined : Bool) :
    (∃ r, (MODIFY_CODE_ATTRIBUTES d.package d.full_name defined
        (d.attributes.map Attribute.text)).record = some r ∧ Records d r) ↔
      defined = false ∧ WellDeclared d := by
  simp only [record_eq_some_iff]
  constructor
  · rintro ⟨r, ⟨hbody, st, hread, rfl⟩, hrecords⟩
    exact ⟨hbody, (records_iff hread).mp hrecords⟩
  · rintro ⟨hbody, hdeclared⟩
    obtain ⟨st, hread⟩ := readAttributes_of_readable hdeclared.1
    exact ⟨recordOf d st, ⟨hbody, st, hread, rfl⟩, (records_iff hread).mpr hdeclared⟩

/-- `[] => CodeRef[[] => Int]`. -/
def callbackSignature : Signature where
  before := ⟨[], List.forall_mem_nil _⟩
  inner := []
  after := ⟨[' '], by simp [isSpace]⟩
  behind := ⟨[' '], by simp [isSpace]⟩
  ret :=
    { chars := ['C', 'o', 'd', 'e', 'R', 'e', 'f', '[', '[', ']', ' ', '=', '>', ' ', 'I', 'n', 't',
        ']']
      nonempty := List.cons_ne_nil _ _
      head := by
        intro c hc
        cases hc
        rfl }

/-- `package P; sub f :Native :Signature([] => CodeRef[[] => Int])`. -/
def callbackSub : Declaration where
  outer := ['P']
  inner := []
  name := ['f']
  parts := by simp
  attributes := [.native none, .signature callbackSignature]
  kinds := by decide

/-- The list of `f` is read as `[] => CodeRef[[]`, its result as `Int]`. -/
theorem not_recorded_callback :
    ¬ ∃ r, (MODIFY_CODE_ATTRIBUTES callbackSub.package callbackSub.full_name false
      (callbackSub.attributes.map Attribute.text)).record = some r ∧ Records callbackSub r := by
  rintro ⟨r, hr, hrecords⟩
  have hret : r.ret = ['I', 'n', 't', ']'] := by
    have hread := congrArg (Option.map Record.ret) hr
    exact Option.some.inj hread.symm
  have hsame := (hrecords.signature callbackSignature (by simp [callbackSub])).2
  rw [hret] at hsame
  exact absurd hsame (by decide)

end Affix.Analysis.Native
