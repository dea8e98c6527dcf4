import Affix.Interface.FieldPath

/-!
# When `offsetof` is right

`offsetof` descends while the members are aggregates of one class, and forgets
the offset of every aggregate but the last it descends from. What it returns is
the offset of the last member it gets to and of the one before that.

SOURCE: Struct.pm:74-90, Union.pm:64-80
-/

set_option autoImplicit false

namespace Affix.Analysis

open Affix.Model Affix.Interface

/-! ## The components of a path -/

/-- The components are the first one and those of the tail. -/
theorem components_eq (path : Text) : components path = (splitDot path).1 ::
    (match (splitDot path).2 with
      | none => []
      | some tail => components tail) := by
  have hpath := (List.takeWhile_append_dropWhile (p := (· ≠ dot)) (l := path)).symm
  have hfirst : dot ∉ path.takeWhile (· ≠ dot) := by
    intro h
    have hall := List.all_takeWhile (p := (· ≠ dot)) (l := path)
    rw [List.all_eq_true] at hall
    simpa using hall dot h
  unfold components splitDot
  cases hdrop : path.dropWhile (· ≠ dot) with
  | nil =>
    rw [hdrop, List.append_nil] at hpath
    rw [← hpath] at hfirst ⊢
    exact List.splitOn_eq_singleton hfirst
  | cons c tail =>
    have hc : c = dot := by
      have hhead := List.head?_dropWhile_not (p := (· ≠ dot)) path
      rw [hdrop] at hhead
      simpa using hhead
    rw [hdrop, hc] at hpath
    calc path.splitOn dot
        = (path.takeWhile (· ≠ dot) ++ dot :: tail).splitOn dot := by rw [← hpath]
      _ = path.takeWhile (· ≠ dot) :: tail.splitOn dot :=
        List.splitOn_append_cons_self_of_not_mem hfirst tail

theorem components_ne_nil (path : Text) : components path ≠ [] := List.splitOn_ne_nil _ _

theorem components_nil : components [] = [[]] := List.splitOn_nil dot

/-- Only the empty path has the empty component alone. -/
theorem eq_nil_of_components {path : Text} (h : components path = [[]]) : path = [] := by
  have hback : [dot].intercalate (path.splitOn dot) = path := List.intercalate_splitOn dot
  have hsplit : path.splitOn dot = [[]] := h
  rw [← hback, hsplit]
  rfl

theorem looked_cons {c : Text} {cs : List Text} (hne : cs ≠ []) (hempty : cs ≠ [[]]) :
    looked (c :: cs) = c :: looked cs := by
  obtain ⟨x, xs, rfl⟩ := List.exists_cons_of_ne_nil hne
  cases xs with
  | nil =>
    have hx : x ≠ [] := fun h => hempty (by rw [h])
    simp [looked, hx]
  | cons y ys =>
    by_cases h : (y :: ys).getLast? = some [] <;> simp [looked, h]

/-- The components looked at are the first one and those of a tail that is not empty. -/
theorem looked_components (path : Text) : looked (components path) = (splitDot path).1 ::
    (if (splitDot path).2.getD [] = [] then []
      else looked (components ((splitDot path).2.getD []))) := by
  rw [components_eq]
  cases htail : (splitDot path).2 with
  | none => rfl
  | some tail =>
    by_cases hnil : tail = []
    · rw [hnil]
      simp [components_nil, looked]
    · simp only [Option.getD_some, hnil, if_false]
      exact looked_cons (components_ne_nil tail) fun h => hnil (eq_nil_of_components h)

/-! ## Step by step -/

/-- What the code makes of the components it looks at. -/
def stepwise : TypeObj → List Text → Option ℕ
  | _, [] => none
  | t, c :: rs =>
    match memberNamed t c with
    | none => none
    | some m => if rs ≠ [] ∧ sameClass t m then stepwise m rs else some (m.offset + t.offset)

theorem looked_ne_nil (path : Text) : looked (components path) ≠ [] := by
  rw [looked_components]
  exact List.cons_ne_nil _ _

/-- The method of either class, one step at a time. -/
theorem offsetof_step {t : TypeObj} (ht : IsAggregate t) (path : Text) :
    offsetof t path =
      match memberNamed t (splitDot path).1 with
      | none => none
      | some m =>
        if (splitDot path).2.getD [] ≠ [] ∧ sameClass t m then
          offsetof m ((splitDot path).2.getD [])
        else some (m.offset + t.offset) := by
  cases t with
  | struct s store => rw [offsetof, offsetofMember_eq]; rfl
  | union s store => rw [offsetof, offsetofMember_eq]; rfl
  | _ => exact ht.elim

theorem isAggregate_of_sameClass {t m : TypeObj} (h : sameClass t m = true) : IsAggregate m := by
  cases t <;> cases m <;> first | exact trivial | cases h

theorem offsetof_eq_stepwise {t : TypeObj} (ht : IsAggregate t) (path : Text) :
    offsetof t path = stepwise t (looked (components path)) := by
  generalize hrs : looked (components path) = rs
  induction rs generalizing t path with
  | nil => exact absurd hrs (looked_ne_nil path)
  | cons c rs ih =>
    rw [looked_components, List.cons.injEq] at hrs
    obtain ⟨rfl, hrs⟩ := hrs
    rw [offsetof_step ht, stepwise]
    cases hm : memberNamed t (splitDot path).1 with
    | none => rfl
    | some m =>
      by_cases htail : (splitDot path).2.getD [] = []
      · rw [if_pos htail] at hrs
        simp [htail, ← hrs]
      · rw [if_neg htail] at hrs
        have hne : rs ≠ [] := hrs ▸ looked_ne_nil _
        by_cases hclass : sameClass t m = true
        · have hrest := ih (isAggregate_of_sameClass hclass) _ hrs
          simp [htail, hne, hclass, hrest]
        · simp [hclass]

/-! ## The members on the way -/

/-- The offset of the last member got to and of the one before it. -/
def lastTwo (isa : TypeObj → Bool) : ℕ → List TypeObj → ℕ
  | own, [] => own
  | own, m :: ms => if ms ≠ [] ∧ isa m then lastTwo isa m.offset ms else m.offset + own

theorem lastTwo_go {isa : TypeObj → Bool} {own : ℕ} {m : TypeObj} {ms : List TypeObj}
    (hms : ms ≠ []) (hm : isa m = true) :
    lastTwo isa own (m :: ms) = lastTwo isa m.offset ms := by
  rw [lastTwo, if_pos ⟨hms, hm⟩]

theorem lastTwo_stop {isa : TypeObj → Bool} {own : ℕ} {m : TypeObj} {ms : List TypeObj}
    (h : ¬ (ms ≠ [] ∧ isa m = true)) : lastTwo isa own (m :: ms) = m.offset + own := by
  rw [lastTwo, if_neg h]

theorem sameClass_trans {t m : TypeObj} (h : sameClass t m = true) : sameClass m = sameClass t := by
  cases t <;> cases m <;> first | rfl | cases h

/-- A component that is looked at names nothing, and the code gets as far as that. -/
def Misses (t : TypeObj) (rs : List Text) : Prop :=
  ¬ Resolves t rs ∧ ∀ m ∈ along t rs, sameClass t m = true

open Classical in
theorem stepwise_eq {t : TypeObj} {rs : List Text} (hrs : rs ≠ []) :
    stepwise t rs =
      if Misses t rs then none else some (lastTwo (sameClass t) t.offset (along t rs)) := by
  induction rs generalizing t with
  | nil => exact absurd rfl hrs
  | cons c rs ih =>
    rw [stepwise]
    cases hm : memberNamed t c with
    | none =>
      have hmiss : Misses t (c :: rs) := by
        constructor <;> simp [Resolves, along, hm]
      rw [if_pos hmiss]
    | some m =>
      have hresolves : Resolves t (c :: rs) ↔ Resolves m rs := by
        simp [Resolves, along, hm]
      have halong : along t (c :: rs) = m :: along m rs := by
        simp [along, hm]
      simp only [Misses, hresolves, halong, List.forall_mem_cons, lastTwo]
      by_cases hnil : rs = []
      · have hres : Resolves m [] := rfl
        simp [hnil, hres, along]
      · by_cases hclass : sameClass t m = true
        · have hkin := sameClass_trans hclass
          have hrest := ih hnil (t := m)
          simp only [Misses, hkin] at hrest
          simp only [ne_eq, hnil, not_false_eq_true, hclass, and_self, if_true, true_and, hrest]
          by_cases hmiss : ¬ Resolves m rs ∧ ∀ f ∈ along m rs, sameClass t f = true
          · rw [if_pos hmiss, if_pos hmiss]
          · have hfound : along m rs ≠ [] := by
              intro hempty
              refine hmiss ⟨fun hres => hnil ?_, by simp [hempty]⟩
              rw [Resolves, hempty, List.length_nil] at hres
              exact List.length_eq_zero_iff.mp hres.symm
            simp only [if_neg hmiss, hfound, not_false_eq_true, and_true, if_true]
        · simp [hclass]

/-- What the two offsets leave out of the sum. -/
theorem sum_eq_lastTwo (t : TypeObj) (own : ℕ) {ms : List TypeObj} (hne : ms ≠ []) :
    (ms.map TypeObj.offset).sum + (if reached t ms = 1 then own else 0) =
      ((ms.take (reached t ms - 2)).map TypeObj.offset).sum + lastTwo (sameClass t) own ms +
        ((ms.drop (reached t ms)).map TypeObj.offset).sum := by
  induction ms generalizing own with
  | nil => exact absurd rfl hne
  | cons m ms ih =>
    by_cases hgo : ms ≠ [] ∧ sameClass t m = true
    · obtain ⟨hms, hclass⟩ := hgo
      have hlen : 0 < ms.length := List.length_pos_iff.mpr hms
      have hstep : reached t (m :: ms) = reached t ms + 1 := by
        simp only [reached, List.takeWhile_cons, hclass, if_true, List.length_cons]
        omega
      have hpos : 0 < reached t ms := by
        unfold reached
        omega
      have hrest := ih m.offset hms
      rw [hstep, lastTwo_go hms hclass]
      have hnot : reached t ms + 1 ≠ 1 := by omega
      simp only [hnot, if_false, List.map_cons, List.sum_cons, List.drop_succ_cons]
      by_cases hone : reached t ms = 1
      · simp only [hone, if_true] at hrest ⊢
        simpa [Nat.add_comm] using hrest
      · have htake : reached t ms + 1 - 2 = (reached t ms - 2) + 1 := by omega
        simp only [hone, if_false] at hrest
        rw [htake, List.take_succ_cons, List.map_cons, List.sum_cons]
        omega
    · have hone : reached t (m :: ms) = 1 := by
        by_cases hms : ms = []
        · simp [reached, hms]
        · have hclass : ¬ sameClass t m = true := fun h => hgo ⟨hms, h⟩
          simp [reached, hclass]
      have hnone : (m :: ms).take (1 - 2) = [] := rfl
      rw [hone, lastTwo_stop hgo, hnone]
      simp only [if_true, List.map_cons, List.sum_cons, List.drop_succ_cons, List.drop_zero,
        List.map_nil, List.sum_nil]
      omega

theorem along_prefix {t : TypeObj} {rs cs : List Text} (h : rs <+: cs) :
    along t rs <+: along t cs := by
  induction rs generalizing t cs with
  | nil => exact List.nil_prefix
  | cons c rs ih =>
    obtain ⟨ex, rfl⟩ := h
    rw [List.cons_append, along, along]
    cases memberNamed t c with
    | none => exact List.prefix_rfl
    | some m => exact (List.cons_prefix_cons.mpr ⟨rfl, ih (List.prefix_append rs ex)⟩)

/-- A path that resolves does so as far as it is looked at. -/
theorem Resolves.mono {t : TypeObj} {rs cs : List Text} (h : Resolves t cs) (hp : rs <+: cs) :
    Resolves t rs := by
  induction rs generalizing t cs with
  | nil => rfl
  | cons c rs ih =>
    obtain ⟨ex, rfl⟩ := hp
    rw [List.cons_append, Resolves, along] at h
    rw [Resolves, along]
    cases hm : memberNamed t c with
    | none => simp [hm] at h
    | some m =>
      simp only [hm, List.length_cons, Nat.add_right_cancel_iff] at h ⊢
      exact ih h (List.prefix_append rs ex)

theorem looked_prefix (cs : List Text) : looked cs <+: cs := by
  unfold looked
  split
  · exact List.dropLast_prefix cs
  · exact List.prefix_rfl

/-- **When `offsetof` returns the sum of the offsets along a path, and the empty list where
there is none.** SOURCE: Struct.pm:74-90, Union.pm:64-80 -/
theorem offsetof_eq_pathOffset_iff {t : TypeObj} (ht : IsAggregate t) (path : Text) :
    offsetof t path = pathOffset t (components path) ↔ PathAgrees t (components path) := by
  have hne := looked_ne_nil path
  rw [offsetof_eq_stepwise ht, stepwise_eq hne]
  generalize components path = cs at hne
  have hprefix := looked_prefix cs
  have hmissIff : PathAgrees t cs ↔ Misses t (looked cs) ∨ _ := Iff.rfl
  by_cases hmiss : Misses t (looked cs)
  · have hnot : ¬ Resolves t cs := fun h => hmiss.1 (Resolves.mono h hprefix)
    rw [if_pos hmiss, pathOffset, if_neg hnot]
    exact iff_of_true rfl (Or.inl hmiss)
  · rw [if_neg hmiss, hmissIff, or_iff_right hmiss, pathOffset]
    by_cases hres : Resolves t cs
    · obtain ⟨ex, hex⟩ := along_prefix (t := t) hprefix
      have hfound : along t (looked cs) ≠ [] := by
        intro hempty
        have hlen := Resolves.mono hres hprefix
        rw [Resolves, hempty, List.length_nil] at hlen
        exact hne (List.length_eq_zero_iff.mp hlen.symm)
      have hsum := sum_eq_lastTwo t t.offset hfound
      have hle : reached t (along t (looked cs)) ≤ (along t (looked cs)).length := by
        unfold reached
        omega
      rw [if_pos hres, ← hex, Option.some.injEq, List.map_append, List.sum_append,
        List.take_append_of_le_length (by omega), List.drop_append_of_le_length hle,
        List.map_append, List.sum_append]
      simp only [hres, true_and]
      omega
    · simp [hres]

/-- `Struct[ x => Int, s => … ]`. -/
def behindInt (d : Decl) : Decl :=
  .struct [(.ofBytes [0x78], .scalar .Int), (.ofBytes [0x73], d)]

/-- `Struct[ x => Int, s => Struct[ x => Int, y => Int ] ]`. -/
def twoDeep : Decl :=
  behindInt (.struct [(.ofBytes [0x78], .scalar .Int), (.ofBytes [0x79], .scalar .Int)])

/-- The depth the tests stop at. SOURCE: t/236_types_struct.t:10-28 -/
theorem offsetof_twoDeep : ∃ t, twoDeep.type = .ok t ∧
    (offsetof t (text "s.y") = pathOffset t (components (text "s.y")) ↔
      PathAgrees t (components (text "s.y"))) := by
  refine ⟨_, rfl, ?_⟩
  exact offsetof_eq_pathOffset_iff (by exact trivial) (text "s.y")

/-- One level deeper the offset of the outermost member is lost: `offsetof('s.s.y')` is `12`,
and the member is at `20`. -/
theorem offsetof_threeDeep : ∃ t, (behindInt twoDeep).type = .ok t ∧
    offsetof t (text "s.s.y") = some 12 ∧
    pathOffset t (components (text "s.s.y")) = some 20 := by
  refine ⟨_, rfl, rfl, ?_⟩
  have hsplit : components (text "s.s.y") = [[0x73], [0x73], [0x79]] := by decide
  rw [hsplit]
  rfl

end Affix.Analysis
