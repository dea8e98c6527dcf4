import Affix.Analysis.StoredMembers
import Mathlib.Data.List.Find

/-!
# Types that are members more than once

`offsetof` reads the offset slot of the object it is called on, and that is the
slot an aggregate writes when it takes the object for a member. So a struct that
has been a member somewhere reports the offsets of its own members from there.
Nothing else that a type reports is written after it is made.
-/

set_option autoImplicit false

namespace Affix.Analysis

open Affix.Foundation Affix.Model Affix.Interface

section Placements

variable {h : TypeHeap}

theorem lastPlacement_cons (x : ℕ) (p : Placement) (ps : List Placement) :
    lastPlacement x (p :: ps) = (lastPlacement x ps <|> if p.t = x then some p else none) := by
  rw [lastPlacement]
  cases lastPlacement x ps <;> rfl

/-- An object has the offset and the name of the place it was put last. -/
theorem get_placeAll {x : ℕ} (hx : x < h.length) (ps : List Placement) :
    ((placeAll h ps).get x).offset =
        ((lastPlacement x ps).map (·.offset)).getD (h.get x).offset ∧
      ((placeAll h ps).get x).field =
        ((lastPlacement x ps).map (·.field.chars)).getD (h.get x).field := by
  induction ps generalizing h with
  | nil => exact ⟨rfl, rfl⟩
  | cons p ps ih =>
    obtain ⟨hoffset, hfield⟩ := ih (h := h.place p.t p.offset p.field)
      (by rw [length_place]; omega)
    rw [placeAll, hoffset, hfield, lastPlacement_cons]
    cases lastPlacement x ps with
    | some q => exact ⟨rfl, rfl⟩
    | none =>
      by_cases hp : p.t = x
      · subst hp
        rw [get_place_self hx, if_pos rfl]
        refine ⟨offset_placed _, ?_⟩
        rw [TypeArray.field, get_placed_field]
        rfl
      · rw [get_place_of_ne hx hp, if_neg hp]
        exact ⟨rfl, rfl⟩

/-- An operation places its members and may append an object. -/
theorem perform_heap {op : TypeOp} (hin : ∀ p ∈ op.types, p.2 < h.length) :
    ∃ new : List TypeArray, (op.perform h).1 = placeAll h (op.placements h) ++ new := by
  by_cases hop : ∃ t, op = .make t
  · obtain ⟨t, rfl⟩ := hop
    exact ⟨[t], rfl⟩
  · rcases perform_aggregate hin (not_exists.mp hop) with ⟨e, hrun⟩ | ⟨o, hrun, -, -⟩ <;> rw [hrun]
    · exact ⟨[], (List.append_nil _).symm⟩
    · exact ⟨[o], rfl⟩

end Placements

/-! ## What stays -/

/-- From one heap to the other, the members below the watched types keep their offsets and
their names, and the watched types that have members are where they were. -/
structure TypesKept (watched : List ℕ) (h₀ h : TypeHeap) : Prop where
  grows : Grows h₀ h
  stored : ∀ c, Below watched h₀ c →
    (h.get c).offset = (h₀.get c).offset ∧ (h.get c).field = (h₀.get c).field
  offset : ∀ t ∈ watched, HasMembers h₀ t → (h.get t).offset = (h₀.get t).offset

section Runs

variable {watched : List ℕ} {h₀ h h' : TypeHeap}

theorem below_lt (hclosed : Closed h₀) (hw : ∀ t ∈ watched, t < h₀.length) {c : ℕ}
    (hc : Below watched h₀ c) : c < h₀.length := by
  induction hc with
  | member ht hmem => exact hclosed _ ⟨_, hw _ ht, hmem⟩
  | deeper _ hmem ih => exact hclosed _ ⟨_, ih, hmem⟩

theorem below_grows (hclosed : Closed h₀) (hw : ∀ t ∈ watched, t < h₀.length)
    (hg : Grows h₀ h) {c : ℕ} (hc : Below watched h₀ c) : Below watched h c := by
  induction hc with
  | member ht hmem => exact .member ht (by rwa [hg.store (hw _ ht)])
  | deeper hs hmem ih => exact .deeper ih (by rwa [hg.store (below_lt hclosed hw hs)])

theorem hasMembers_grows (hg : Grows h₀ h) {t : ℕ} (ht : t < h₀.length) :
    HasMembers h t ↔ HasMembers h₀ t := by
  unfold HasMembers
  rw [hg.isa t ht, hg.store ht]

/-- **One harmless operation** disturbs nothing. -/
theorem typesKept_step (hclosed : Closed h₀) (hw : ∀ t ∈ watched, t < h₀.length)
    (hu : TypesKept watched h₀ h) {op : TypeOp} (hstep : TypeStep h op h')
    (hop : Harmless watched h op) : TypesKept watched h₀ h' := by
  obtain ⟨hin, rfl⟩ := hstep
  obtain ⟨new, hnew⟩ := perform_heap hin
  have hget : ∀ x < h.length, (op.perform h).1.get x = (placeAll h (op.placements h)).get x := by
    intro x hx
    rw [hnew]
    exact get_append_of_lt new (by rw [length_placeAll]; omega)
  refine ⟨hu.grows.trans (grows_perform op hin), fun c hc => ?_, fun t ht hmem => ?_⟩
  · have hclt : c < h.length := (below_lt hclosed hw hc).trans_le hu.grows.length
    obtain ⟨hoffset, hfield⟩ := get_placeAll hclt (op.placements h)
    rw [hget c hclt, hoffset, hfield, ← (hu.stored c hc).1, ← (hu.stored c hc).2]
    cases hlast : lastPlacement c (op.placements h) with
    | none => exact ⟨rfl, rfl⟩
    | some p => exact hop.asStored c (below_grows hclosed hw hu.grows hc) p hlast
  · have htlt : t < h.length := (hw t ht).trans_le hu.grows.length
    rw [hget t htlt, (get_placeAll htlt _).1, ← hu.offset t ht hmem]
    cases hlast : lastPlacement t (op.placements h) with
    | none => rfl
    | some p => exact hop.inPlace t ht ((hasMembers_grows hu.grows (hw t ht)).mpr hmem) p hlast

/-- Where nothing is disturbed, an offset by path is what it was. The induction goes down the
members, each of which is below the type asked. -/
theorem offsetofWithin_eq (hclosed : Closed h₀) (hw : ∀ t ∈ watched, t < h₀.length)
    (hu : TypesKept watched h₀ h) (fuel : ℕ) {s : ℕ} (hs : s < h₀.length)
    (hbelow : ∀ c ∈ (h₀.get s).store, Below watched h₀ c)
    (hoff : HasMembers h₀ s → (h.get s).offset = (h₀.get s).offset) (path : Text) :
    h.offsetofWithin fuel s path = h₀.offsetofWithin fuel s path := by
  induction fuel generalizing s path with
  | zero => rfl
  | succ fuel ih =>
    unfold TypeHeap.offsetofWithin
    rw [hu.grows.isa s hs, hu.grows.store hs]
    by_cases hagg : (h₀.get s).isa = .struct ∨ (h₀.get s).isa = .union
    · rw [if_pos hagg, if_pos hagg]
      have hfind : ((h₀.get s).store.find? fun t => (h.get t).field = (splitDot path).1) =
          (h₀.get s).store.find? fun t => (h₀.get t).field = (splitDot path).1 := by
        refine List.find?_congr fun t ht => ?_
        rw [(hu.stored t (hbelow t ht)).2]
      rw [hfind]
      cases hnow : (h₀.get s).store.find? fun t => (h₀.get t).field = (splitDot path).1 with
      | none => rfl
      | some now =>
        have hmem := List.mem_of_find?_eq_some hnow
        have hnowBelow := hbelow now hmem
        have hlt := below_lt hclosed hw hnowBelow
        have hsame := (hu.stored now hnowBelow).1
        simp only [hsame, hu.grows.isa now hlt, hoff ⟨hagg, List.ne_nil_of_mem hmem⟩,
          ih hlt (fun c hc => .deeper hnowBelow hc) (fun _ => hsame)]
    · rw [if_neg hagg, if_neg hagg]

/-- Where nothing is disturbed, the watched types report what they did. -/
theorem TypesKept.sameReports (hclosed : Closed h₀) (hw : ∀ t ∈ watched, t < h₀.length)
    (hu : TypesKept watched h₀ h) : ∀ t ∈ watched, SameReports h₀ h t := fun t ht =>
  ⟨hu.grows.sizeof (hw t ht), hu.grows.align (hw t ht), hu.grows.str (hw t ht),
    fun path => offsetofWithin_eq hclosed hw hu _ (hw t ht) (fun _ hc => .member ht hc)
      (hu.offset t ht) path⟩

end Runs

/-- **Building aggregates leaves a type alone**, and the structs built from it earlier, in every
run that puts each of them where it is already and moves none of the members they store. -/
theorem reports_kept {h₀ : TypeHeap} (hclosed : Closed h₀) {t : ℕ} {earlier : List ℕ}
    (hin : ∀ x ∈ t :: earlier, x < h₀.length) {run : List (TypeOp × TypeHeap)}
    (hrun : IsRun TypeStep h₀ run) (hcond : AllSteps (Harmless (t :: earlier)) h₀ run) :
    AllStates (fun h => ∀ x ∈ t :: earlier, SameReports h₀ h x) h₀ run := by
  have h0 : TypesKept (t :: earlier) h₀ h₀ :=
    ⟨.refl h₀, fun _ _ => ⟨rfl, rfl⟩, fun _ _ _ => rfl⟩
  have hstep : ∀ h op h', TypesKept (t :: earlier) h₀ h → TypeStep h op h' →
      Harmless (t :: earlier) h op → TypesKept (t :: earlier) h₀ h' :=
    fun _ _ _ hu hstep hop => typesKept_step hclosed hin hu hstep hop
  have hall := hrun.allStates hstep h0 hcond
  exact ⟨hall.1.sameReports hclosed hin, fun p hp => (hall.2 p hp).sameReports hclosed hin⟩

/-- `$t = Struct[ x => $int ]`, at address two. -/
def aStruct : TypeHeap := (intMember.perform anInt).1

/-- `Struct[ t => $t ]`. -/
def firstMember : TypeOp := .Struct [(.ofText (text "t"), 2)]

/-- `Struct[ a => $int, t => $t ]`. -/
def secondMember : TypeOp := .Struct [(.ofText (text "a"), 0), (.ofText (text "t"), 2)]

theorem aStruct_closed : Closed aStruct := by
  rintro t ⟨s, hs, ht⟩
  have hs : s < 3 := hs
  have hstores : ∀ s < 3, ∀ t ∈ (aStruct.get s).store, t < 3 := by decide +kernel
  exact hstores s hs t ht

theorem below_aStruct {c : ℕ} (hc : Below [2] aStruct c) : c = 1 := by
  induction hc with
  | member ht hmem =>
    cases List.mem_singleton.mp ht
    exact List.mem_singleton.mp hmem
  | deeper _ hmem ih =>
    subst ih
    cases hmem

/-- As the first member of another struct. -/
theorem reports_kept_first :
    AllStates (fun h => ∀ x ∈ [2], SameReports aStruct h x) aStruct
      [(firstMember, (firstMember.perform aStruct).1)] :=
  reports_kept aStruct_closed (by decide +kernel) ⟨⟨by decide +kernel, rfl⟩, trivial⟩
    ⟨⟨by
      intro t ht _ p hp
      cases List.mem_singleton.mp ht
      cases hp
      rfl, by
      intro c hc p hp
      cases below_aStruct hc
      cases hp⟩, trivial⟩

/-- As the second member, the type says that its own member `x` is at eight, not at zero. -/
theorem reports_moved :
    IsRun TypeStep aStruct [(secondMember, (secondMember.perform aStruct).1)] ∧
      ¬ AllStates (fun h => SameReports aStruct h 2) aStruct
        [(secondMember, (secondMember.perform aStruct).1)] := by
  refine ⟨⟨⟨by decide +kernel, rfl⟩, trivial⟩, fun h => ?_⟩
  have hx := (h.2 _ List.mem_cons_self).offsetof (text "x")
  have hbefore : aStruct.offsetof 2 (text "x") = some 0 := by decide +kernel
  have hafter : (secondMember.perform aStruct).1.offsetof 2 (text "x") = some 8 := by
    decide +kernel
  rw [hbefore, hafter] at hx
  cases hx

end Affix.Analysis
