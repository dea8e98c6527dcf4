import Mathlib.Data.List.TakeWhile

/-!
# Patterns

A pattern says, for where a match is, where it may be next, in the order in which a
backtracking matcher tries them. A whole match is the first that goes through.
-/

set_option autoImplicit false

namespace Affix.Foundation

/-- Where a match is: the text ahead, and what the groups have taken, the latest first. -/
structure Scan where
  rest : List Char
  groups : List (ℕ × List Char)
deriving DecidableEq

/-- The text between two places is kept in a group. -/
def Scan.keep (i : ℕ) (s e : Scan) : Scan :=
  { e with groups := (i, s.rest.take (s.rest.length - e.rest.length)) :: e.groups }

theorem Scan.keep_eq (taken : List Char) {i : ℕ} {s e : Scan} (h : s.rest = taken ++ e.rest) :
    s.keep i e = ⟨e.rest, (i, taken) :: e.groups⟩ := by
  simp [Scan.keep, h]

/-- What a group has taken. -/
def Scan.group (s : Scan) (i : ℕ) : Option (List Char) := s.groups.lookup i

/-- The ways on, in the order in which they are tried. -/
abbrev Pattern := Scan → List Scan

namespace Pattern

/-- Patterns one after another. -/
def seq : List Pattern → Pattern
  | [], s => [s]
  | p :: ps, s => (p s).flatMap (seq ps)

/-- A text as it is. -/
def chars (cs : List Char) : Pattern := fun s =>
  if cs <+: s.rest then [{ s with rest := s.rest.drop cs.length }] else []

/-- As few characters of a class as will do, but so many at least. -/
def lazily (least : ℕ) (accept : Char → Bool) : Pattern := fun s =>
  (List.range' least ((s.rest.takeWhile accept).length + 1 - least)).map fun taken =>
    { s with rest := s.rest.drop taken }

/-- As many characters of a class as will do, but so many at least. -/
def greedily (least : ℕ) (accept : Char → Bool) : Pattern := fun s =>
  (lazily least accept s).reverse

/-- One character of a class. -/
def one (accept : Char → Bool) : Pattern := fun s =>
  match s.rest with
  | [] => []
  | c :: cs => if accept c then [{ s with rest := cs }] else []

/-- A pattern, or nothing. -/
def opt (p : Pattern) : Pattern := fun s => p s ++ [s]

/-- A pattern whose text is kept. -/
def group (i : ℕ) (p : Pattern) : Pattern := fun s => (p s).map (s.keep i)

/-- The text that a group has taken; a group that has taken none does not match. -/
def back (i : ℕ) : Pattern := fun s =>
  match s.group i with
  | some cs => chars cs s
  | none => []

/-- The end of the text, or the line break at its end. -/
def atEnd : Pattern := fun s => if s.rest = [] ∨ s.rest = ['\n'] then [s] else []

/-- The first way through a text, from its start. -/
def first (p : Pattern) (cs : List Char) : Option Scan := (p ⟨cs, []⟩).head?

/-- The first way through a part of a text, from as far left as there is one. -/
def search (p : Pattern) : List Char → Option Scan
  | [] => p.first []
  | c :: cs => (p.first (c :: cs)).or (search p cs)

/-! ## What a way on looks like -/

variable {p : Pattern} {ps : List Pattern} {s e : Scan} {cs : List Char} {accept : Char → Bool}

theorem mem_seq_cons : e ∈ seq (p :: ps) s ↔ ∃ m ∈ p s, e ∈ seq ps m := List.mem_flatMap

theorem mem_seq_nil : e ∈ seq [] s ↔ e = s := List.mem_singleton

theorem mem_chars : e ∈ chars cs s ↔ s.rest = cs ++ e.rest ∧ e.groups = s.groups := by
  obtain ⟨rest, groups⟩ := s
  obtain ⟨rest', groups'⟩ := e
  unfold chars
  by_cases hprefix : cs <+: rest
  · obtain ⟨after, rfl⟩ := hprefix
    simp [eq_comm]
  · rw [if_neg hprefix]
    refine iff_of_false List.not_mem_nil fun h => hprefix ?_
    exact ⟨rest', h.1.symm⟩

theorem mem_lazily {least : ℕ} : e ∈ lazily least accept s ↔
    ∃ taken, s.rest = taken ++ e.rest ∧ least ≤ taken.length ∧
      (∀ c ∈ taken, accept c = true) ∧ e.groups = s.groups := by
  obtain ⟨rest, groups⟩ := s
  obtain ⟨rest', groups'⟩ := e
  unfold lazily
  rw [List.mem_map]
  constructor
  · rintro ⟨k, hk, heq⟩
    obtain ⟨rfl, rfl⟩ := Scan.mk.inj heq
    obtain ⟨hleast, hmost⟩ := List.mem_range'_1.mp hk
    simp only at hmost
    have hle : k ≤ (rest.takeWhile accept).length := by omega
    have hlength : k ≤ rest.length := Nat.le_trans hle (List.takeWhile_prefix accept).length_le
    refine ⟨rest.take k, (List.take_append_drop k rest).symm, ?_, ?_, rfl⟩
    · rwa [List.length_take_of_le hlength]
    · intro c hc
      have hsub : rest.take k <+: rest.takeWhile accept :=
        List.prefix_of_prefix_length_le (List.take_prefix k rest) (List.takeWhile_prefix accept)
          (Nat.le_trans (List.length_take_le k rest) hle)
      exact List.mem_takeWhile_imp (hsub.subset hc)
  · rintro ⟨taken, rfl, hleast, haccept, rfl⟩
    refine ⟨taken.length, List.mem_range'_1.mpr ⟨hleast, ?_⟩, by simp⟩
    have hwhile : (taken ++ rest').takeWhile accept = taken ++ rest'.takeWhile accept :=
      List.takeWhile_append_of_pos haccept
    simp only [hwhile, List.length_append]
    omega

theorem mem_greedily {least : ℕ} : e ∈ greedily least accept s ↔
    ∃ taken, s.rest = taken ++ e.rest ∧ least ≤ taken.length ∧
      (∀ c ∈ taken, accept c = true) ∧ e.groups = s.groups := by
  rw [greedily, List.mem_reverse, mem_lazily]

theorem mem_opt : e ∈ opt p s ↔ e ∈ p s ∨ e = s := by
  rw [opt, List.mem_append, List.mem_singleton]

/-- A group of characters of a class keeps those it takes. -/
theorem mem_group_greedily {i least : ℕ} : e ∈ group i (greedily least accept) s ↔
    ∃ taken, s.rest = taken ++ e.rest ∧ least ≤ taken.length ∧
      (∀ c ∈ taken, accept c = true) ∧ e.groups = (i, taken) :: s.groups := by
  unfold group
  rw [List.mem_map]
  constructor
  · rintro ⟨m, hm, rfl⟩
    obtain ⟨taken, hrest, hleast, haccept, hgroups⟩ := mem_greedily.mp hm
    rw [Scan.keep_eq taken hrest, hgroups]
    exact ⟨taken, hrest, hleast, haccept, rfl⟩
  · rintro ⟨taken, hrest, hleast, haccept, hgroups⟩
    refine ⟨⟨e.rest, s.groups⟩, mem_greedily.mpr ⟨taken, hrest, hleast, haccept, rfl⟩, ?_⟩
    rw [Scan.keep_eq taken (e := ⟨e.rest, s.groups⟩) hrest, ← hgroups]

theorem mem_group_lazily {i least : ℕ} : e ∈ group i (lazily least accept) s ↔
    ∃ taken, s.rest = taken ++ e.rest ∧ least ≤ taken.length ∧
      (∀ c ∈ taken, accept c = true) ∧ e.groups = (i, taken) :: s.groups := by
  rw [← mem_group_greedily, group, group, greedily, List.map_reverse, List.mem_reverse]

theorem mem_back {i : ℕ} : e ∈ back i s ↔ ∃ taken, s.group i = some taken ∧ e ∈ chars taken s := by
  unfold back
  cases s.group i <;> simp

theorem one_cons (c : Char) (cs : List Char) (groups : List (ℕ × List Char)) :
    one accept ⟨c :: cs, groups⟩ = if accept c = true then [⟨cs, groups⟩] else [] := rfl

theorem mem_one : e ∈ one accept s ↔
    ∃ c, s.rest = c :: e.rest ∧ accept c = true ∧ e.groups = s.groups := by
  obtain ⟨rest, groups⟩ := s
  obtain ⟨rest', groups'⟩ := e
  cases rest with
  | nil => simp [one]
  | cons c cs =>
    rw [one_cons]
    split
    · rename_i hc
      simp only [List.mem_singleton, Scan.mk.injEq, List.cons.injEq]
      constructor
      · rintro ⟨rfl, rfl⟩
        exact ⟨c, ⟨rfl, rfl⟩, hc, rfl⟩
      · rintro ⟨d, ⟨-, rfl⟩, -, rfl⟩
        exact ⟨rfl, rfl⟩
    · rename_i hc
      refine iff_of_false List.not_mem_nil ?_
      rintro ⟨d, hd, haccept, -⟩
      exact hc ((List.cons.inj hd).1 ▸ haccept)

theorem mem_atEnd : e ∈ atEnd s ↔ e = s ∧ (s.rest = [] ∨ s.rest = ['\n']) := by
  unfold atEnd
  split
  · rename_i h
    simp [h]
  · rename_i h
    simp [h]

/-! ## The first way on

A way on comes in a list after others of which something is known. Where what follows the
pattern fails for those, the first way through is through it. -/

/-- The way on is in the list, and what comes before it has a property. -/
def After (before : Scan → Prop) (m : Scan) (l : List Scan) : Prop :=
  ∃ earlier later, l = earlier ++ m :: later ∧ ∀ x ∈ earlier, before x

variable {before before' : Scan → Prop} {m : Scan} {l : List Scan}

theorem After.head? (h : After (fun _ => False) m l) : l.head? = some m := by
  obtain ⟨earlier, later, rfl, hbefore⟩ := h
  cases earlier with
  | nil => rfl
  | cons x earlier => exact absurd (hbefore x List.mem_cons_self) id

theorem after_only (before : Scan → Prop) (m : Scan) : After before m [m] :=
  ⟨[], [], rfl, fun x hx => by cases hx⟩

theorem After.mem (h : After before m l) : m ∈ l := by
  obtain ⟨earlier, later, rfl, -⟩ := h
  exact List.mem_append_right _ List.mem_cons_self

theorem After.mono (h : After before m l) (himp : ∀ x, before x → before' x) :
    After before' m l := by
  obtain ⟨earlier, later, hl, hbefore⟩ := h
  exact ⟨earlier, later, hl, fun x hx => himp x (hbefore x hx)⟩

/-- **One pattern after another**: ways through an earlier way on come before. -/
theorem After.seq (h : After before m (p s))
    (hearlier : ∀ x, before x → ∀ y ∈ Pattern.seq ps x, before' y)
    (he : After before' e (Pattern.seq ps m)) : After before' e (Pattern.seq (p :: ps) s) := by
  obtain ⟨earlier, later, hl, hbefore⟩ := h
  obtain ⟨earlier', later', hl', hbefore'⟩ := he
  refine ⟨earlier.flatMap (Pattern.seq ps) ++ earlier', later' ++ later.flatMap (Pattern.seq ps),
    ?_, ?_⟩
  · rw [Pattern.seq, hl, List.flatMap_append, List.flatMap_cons, hl']
    simp only [List.append_assoc, List.cons_append]
  · intro y hy
    rcases List.mem_append.mp hy with hy | hy
    · obtain ⟨x, hx, hyx⟩ := List.mem_flatMap.mp hy
      exact hearlier x (hbefore x hx) y hyx
    · exact hbefore' y hy

/-- A pattern with no way on before this one leaves what comes before to the rest. -/
theorem After.seq_first (h : After (fun _ => False) m (p s))
    (he : After before' e (Pattern.seq ps m)) : After before' e (Pattern.seq (p :: ps) s) :=
  h.seq (fun _ hx => hx.elim) he

/-- The first way through goes on by a way through which there is one, or by an earlier one. -/
theorem After.of_head? (h : After before m (p s)) (hm : Pattern.seq ps m ≠ [])
    (he : (Pattern.seq (p :: ps) s).head? = some e) :
    ∃ x, (before x ∨ x = m) ∧ (Pattern.seq ps x).head? = some e := by
  obtain ⟨earlier, later, hl, hbefore⟩ := h
  have hhead : (Pattern.seq ps m ++ later.flatMap (Pattern.seq ps)).head? =
      (Pattern.seq ps m).head? := by
    cases hps : Pattern.seq ps m with
    | nil => exact absurd hps hm
    | cons x xs => rfl
  rw [Pattern.seq, hl, List.flatMap_append, List.head?_append, List.flatMap_cons, hhead,
    List.head?_flatMap] at he
  cases hfind : earlier.findSome? fun x => (Pattern.seq ps x).head? with
  | some e' =>
    rw [hfind, Option.some_or] at he
    obtain ⟨x, hx, hxe⟩ := List.exists_of_findSome?_eq_some hfind
    exact ⟨x, Or.inl (hbefore x hx), hxe.trans he⟩
  | none =>
    rw [hfind, Option.none_or] at he
    exact ⟨m, Or.inr rfl, he⟩

theorem after_chars {rest : List Char} {groups : List (ℕ × List Char)} :
    After (fun _ => False) ⟨rest, groups⟩ (chars cs ⟨cs ++ rest, groups⟩) := by
  have hchars : chars cs ⟨cs ++ rest, groups⟩ = [⟨rest, groups⟩] := by simp [chars]
  rw [hchars]
  exact after_only _ _

theorem after_back (taken : List Char) {i : ℕ} {rest : List Char}
    {groups : List (ℕ × List Char)} (hgroup : groups.lookup i = some taken) :
    After (fun _ => False) ⟨rest, groups⟩ (back i ⟨taken ++ rest, groups⟩) := by
  have hback : back i ⟨taken ++ rest, groups⟩ = chars taken ⟨taken ++ rest, groups⟩ := by
    simp [back, Scan.group, hgroup]
  rw [hback]
  exact after_chars

theorem after_atEnd {groups : List (ℕ × List Char)} :
    After (fun _ => False) ⟨[], groups⟩ (atEnd ⟨[], groups⟩) := by
  have hend : atEnd ⟨[], groups⟩ = [⟨[], groups⟩] := if_pos (Or.inl rfl)
  rw [hend]
  exact after_only _ _

/-- The ways on that take fewer, as many and more characters. -/
theorem lazily_eq {least : ℕ} {taken rest : List Char} {groups : List (ℕ × List Char)}
    (hleast : least ≤ taken.length) (haccept : ∀ c ∈ taken, accept c = true) :
    lazily least accept ⟨taken ++ rest, groups⟩ =
      (List.range' least (taken.length - least)).map
          (fun k => (⟨taken.drop k ++ rest, groups⟩ : Scan)) ++
        ⟨rest, groups⟩ :: (List.range' 1 (rest.takeWhile accept).length).map
          fun k => ⟨rest.drop k, groups⟩ := by
  have hcount : ((taken ++ rest).takeWhile accept).length + 1 - least =
      (taken.length - least) + ((rest.takeWhile accept).length + 1) := by
    rw [List.takeWhile_append_of_pos haccept, List.length_append]
    omega
  have hstart : least + (taken.length - least) = taken.length := by omega
  unfold lazily
  simp only [hcount]
  rw [← List.range'_append_1, hstart, List.map_append, List.range'_succ, List.map_cons]
  congr 1
  · refine List.map_congr_left fun k hk => ?_
    rw [List.drop_append_of_le_length (by have := (List.mem_range'_1.mp hk).2; omega)]
  · rw [List.drop_left]
    congr 1
    rw [List.range'_eq_map_range, List.range'_eq_map_range, List.map_map, List.map_map]
    refine List.map_congr_left fun k _ => ?_
    simp only [Function.comp_apply]
    rw [show taken.length + 1 + k = taken.length + (1 + k) by omega, ← List.drop_drop,
      List.drop_left]

/-- Ways on that take fewer come before. -/
theorem after_lazily (rest : List Char) (groups : List (ℕ × List Char)) {least : ℕ}
    {taken : List Char} (hleast : least ≤ taken.length) (haccept : ∀ c ∈ taken, accept c = true) :
    After (fun x => ∃ k, least ≤ k ∧ k < taken.length ∧ x = ⟨taken.drop k ++ rest, groups⟩)
      ⟨rest, groups⟩ (lazily least accept ⟨taken ++ rest, groups⟩) := by
  refine ⟨_, _, lazily_eq hleast haccept, ?_⟩
  intro x hx
  obtain ⟨k, hk, rfl⟩ := List.mem_map.mp hx
  have hrange := List.mem_range'_1.mp hk
  exact ⟨k, hrange.1, by omega, rfl⟩

/-- Ways on that take more come before. -/
theorem after_greedily (rest : List Char) (groups : List (ℕ × List Char)) {least : ℕ}
    {taken : List Char} (hleast : least ≤ taken.length) (haccept : ∀ c ∈ taken, accept c = true) :
    After (fun x => ∃ more, more ≠ [] ∧ (∀ c ∈ more, accept c = true) ∧ rest = more ++ x.rest ∧
        x.groups = groups)
      ⟨rest, groups⟩ (greedily least accept ⟨taken ++ rest, groups⟩) := by
  unfold greedily
  rw [lazily_eq hleast haccept, List.reverse_append, List.reverse_cons, List.append_assoc]
  refine ⟨_, _, rfl, ?_⟩
  intro x hx
  obtain ⟨k, hk, rfl⟩ := List.mem_map.mp (List.mem_reverse.mp hx)
  obtain ⟨hone, hmost⟩ := List.mem_range'_1.mp hk
  have hle : k ≤ (rest.takeWhile accept).length := by omega
  have hlength := (List.takeWhile_prefix (l := rest) accept).length_le
  refine ⟨rest.take k, ?_, ?_, (List.take_append_drop k rest).symm, rfl⟩
  · exact List.ne_nil_of_length_pos (by rw [List.length_take_of_le (by omega)]; omega)
  · intro c hc
    have hsub : rest.take k <+: rest.takeWhile accept :=
      List.prefix_of_prefix_length_le (List.take_prefix k rest) (List.takeWhile_prefix accept)
        (Nat.le_trans (List.length_take_le k rest) hle)
    exact List.mem_takeWhile_imp (hsub.subset hc)

/-- Where the class ends, no way on takes more. -/
theorem after_greedily_stop {least : ℕ} {taken rest : List Char}
    {groups : List (ℕ × List Char)} (hleast : least ≤ taken.length)
    (haccept : ∀ c ∈ taken, accept c = true) (hstop : ∀ c ∈ rest.head?, accept c = false) :
    After (fun _ => False) ⟨rest, groups⟩ (greedily least accept ⟨taken ++ rest, groups⟩) := by
  refine (after_greedily rest groups hleast haccept).mono ?_
  rintro x ⟨more, hne, hmore, hrest, -⟩
  obtain ⟨c, cs, rfl⟩ := List.exists_cons_of_ne_nil hne
  have hc := hstop c (by rw [hrest]; rfl)
  rw [hmore c List.mem_cons_self] at hc
  cases hc

/-- A group keeps what its pattern takes, on every way on. -/
theorem After.group {i : ℕ} (h : After before m (p s)) :
    After (fun x => ∃ y, before y ∧ x = s.keep i y) (s.keep i m) (Pattern.group i p s) := by
  obtain ⟨earlier, later, hl, hbefore⟩ := h
  unfold Pattern.group
  rw [hl, List.map_append, List.map_cons]
  refine ⟨_, _, rfl, ?_⟩
  intro x hx
  obtain ⟨y, hy, rfl⟩ := List.mem_map.mp hx
  exact ⟨y, hbefore y hy, rfl⟩

/-- What a pattern takes comes before nothing. -/
theorem After.opt (h : After before m (p s)) : After before m (Pattern.opt p s) := by
  obtain ⟨earlier, later, hl, hbefore⟩ := h
  exact ⟨earlier, later ++ [s], by rw [Pattern.opt, hl]; simp, hbefore⟩

theorem after_opt_nothing : After (fun x => x ∈ p s) s (opt p s) :=
  ⟨p s, [], rfl, fun _ hx => hx⟩

end Pattern

/-- Any character but a line break. -/
def notBreak (c : Char) : Bool := c ≠ '\n'

end Affix.Foundation
