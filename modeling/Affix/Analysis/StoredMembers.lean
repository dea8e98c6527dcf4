import Mathlib.Algebra.Order.Group.Nat
import Affix.Foundation.Run
import Affix.Interface.TypeUse

/-!
# What an aggregate stores of its members

An aggregate writes two slots of a member before it copies it: the offset and the
name. No constructor writes any other slot of an object that exists, so every
stored member keeps describing the type it was made from; but the name goes into
the slot where a callback has its argument list.
-/

set_option autoImplicit false

namespace Affix.Analysis

open Affix.Foundation Affix.Model Affix.Interface

/-! ## Writing into a member -/

section Place

variable {h : TypeHeap} {t offset x : ℕ} {field : PerlStr}

theorem length_place : (h.place t offset field).length = h.length + 1 := by
  simp [TypeHeap.place]

theorem get_append_of_lt (h' : TypeHeap) (hx : x < h.length) :
    TypeHeap.get (h ++ h') x = h.get x := by
  simp [TypeHeap.get, List.getD_eq_getElem?_getD, List.getElem?_append_left hx]

theorem get_append_length (o : TypeArray) : TypeHeap.get (h ++ [o]) h.length = o := by
  simp [TypeHeap.get, List.getD_eq_getElem?_getD]

/-- The slots of a member once it is placed. -/
def placedAs (t : TypeArray) (offset : ℕ) (field : PerlStr) : TypeArray :=
  (t.set SLOT_TYPE_OFFSET (.num offset)).set SLOT_TYPE_FIELD (.name field)

theorem get_place_copy :
    (h.place t offset field).get h.length = placedAs (h.get t) offset field := by
  have hlen : (h.set t (placedAs (h.get t) offset field)).length = h.length := List.length_set
  show TypeHeap.get (h.set t (placedAs (h.get t) offset field) ++ [_]) h.length = _
  rw [← hlen, get_append_length]
  rfl

theorem get_place_self (ht : t < h.length) :
    (h.place t offset field).get t = placedAs (h.get t) offset field := by
  have hlen : t < (h.set t (placedAs (h.get t) offset field)).length := by simpa using ht
  show TypeHeap.get (h.set t (placedAs (h.get t) offset field) ++ [_]) t = _
  rw [get_append_of_lt _ hlen]
  simp [TypeHeap.get, List.getD_eq_getElem?_getD, List.getElem?_set_self ht]

theorem get_place_of_ne (hx : x < h.length) (hne : t ≠ x) :
    (h.place t offset field).get x = h.get x := by
  have hlen : x < (h.set t (placedAs (h.get t) offset field)).length := by simpa using hx
  show TypeHeap.get (h.set t (placedAs (h.get t) offset field) ++ [_]) x = _
  rw [get_append_of_lt _ hlen]
  simp [TypeHeap.get, List.getD_eq_getElem?_getD, List.getElem?_set_ne hne]

theorem get_placed_of_ne (o : TypeArray) {i : ℕ} (ho : i ≠ SLOT_TYPE_OFFSET)
    (hf : i ≠ SLOT_TYPE_FIELD) : (placedAs o offset field).get i = o.get i := by
  rw [placedAs, TypeArray.get_set_of_ne _ (Ne.symm hf), TypeArray.get_set_of_ne _ (Ne.symm ho)]

theorem get_placed_field (o : TypeArray) :
    (placedAs o offset field).get SLOT_TYPE_FIELD = .name field :=
  TypeArray.get_set_self _ _ _

theorem offset_placed (o : TypeArray) : (placedAs o offset field).offset = offset := by
  have hne : SLOT_TYPE_FIELD ≠ SLOT_TYPE_OFFSET := by decide
  rw [TypeArray.offset, placedAs, TypeArray.get_set_of_ne _ hne, TypeArray.get_set_self]
  rfl

end Place

/-! ## What no constructor changes -/

def IsName : Slot → Prop
  | .name _ => True
  | _ => False

/-- The objects of one heap are in the other, the same but for the offset and the field
slot, and what was a name there is still one. -/
structure Grows (h h' : TypeHeap) : Prop where
  length : h.length ≤ h'.length
  isa : ∀ x < h.length, (h'.get x).isa = (h.get x).isa
  slots : ∀ x < h.length, ∀ i, i ≠ SLOT_TYPE_OFFSET → i ≠ SLOT_TYPE_FIELD →
    (h'.get x).get i = (h.get x).get i
  named : ∀ x < h.length, IsName ((h.get x).get SLOT_TYPE_FIELD) →
    IsName ((h'.get x).get SLOT_TYPE_FIELD)

section Grows

variable {h h' h'' : TypeHeap}

theorem Grows.refl (h : TypeHeap) : Grows h h :=
  ⟨le_rfl, fun _ _ => rfl, fun _ _ _ _ _ => rfl, fun _ _ hn => hn⟩

theorem Grows.trans (h₁ : Grows h h') (h₂ : Grows h' h'') : Grows h h'' where
  length := h₁.length.trans h₂.length
  isa x hx := (h₂.isa x (hx.trans_le h₁.length)).trans (h₁.isa x hx)
  slots x hx i ho hf :=
    (h₂.slots x (hx.trans_le h₁.length) i ho hf).trans (h₁.slots x hx i ho hf)
  named x hx hn := h₂.named x (hx.trans_le h₁.length) (h₁.named x hx hn)

theorem grows_append (h h' : TypeHeap) : Grows h (h ++ h') := by
  have hget : ∀ x < h.length, TypeHeap.get (h ++ h') x = h.get x :=
    fun x hx => get_append_of_lt h' hx
  refine ⟨by simp, fun x hx => by rw [hget x hx], fun x hx i _ _ => by rw [hget x hx],
    fun x hx hn => ?_⟩
  rw [hget x hx]
  exact hn

theorem grows_place (h : TypeHeap) (t offset : ℕ) (field : PerlStr) :
    Grows h (h.place t offset field) := by
  refine ⟨by rw [length_place]; omega, fun x hx => ?_, fun x hx i ho hf => ?_, fun x hx hn => ?_⟩
  all_goals
    by_cases hxt : t = x
    · subst hxt
      rw [get_place_self hx]
      first
      | rfl
      | exact get_placed_of_ne _ ho hf
      | (rw [get_placed_field]; trivial)
    · rw [get_place_of_ne hx hxt]
      try exact hn

theorem Grows.sizeof (hg : Grows h h') {x : ℕ} (hx : x < h.length) :
    (h'.get x).sizeof = (h.get x).sizeof := by
  unfold TypeArray.sizeof
  rw [hg.slots x hx _ (by decide) (by decide)]

theorem Grows.align (hg : Grows h h') {x : ℕ} (hx : x < h.length) :
    (h'.get x).align = (h.get x).align := by
  unfold TypeArray.align
  rw [hg.slots x hx _ (by decide) (by decide)]

theorem Grows.store (hg : Grows h h') {x : ℕ} (hx : x < h.length) :
    (h'.get x).store = (h.get x).store := by
  unfold TypeArray.store
  rw [hg.slots x hx _ (by decide) (by decide)]

theorem Grows.str (hg : Grows h h') {x : ℕ} (hx : x < h.length) :
    (h'.get x).str = (h.get x).str := by
  unfold TypeArray.str
  rw [hg.slots x hx _ (by decide) (by decide), hg.slots x hx _ (by decide) (by decide)]

end Grows

/-! ## The constructors' loops

Both loops put one member after another; where they differ is only in the offsets. -/

def placeAll (h : TypeHeap) : List Placement → TypeHeap
  | [] => h
  | p :: ps => placeAll (h.place p.t p.offset p.field) ps

section Loops

variable {h h' : TypeHeap}

theorem length_placeAll (h : TypeHeap) (ps : List Placement) :
    (placeAll h ps).length = h.length + ps.length := by
  induction ps generalizing h with
  | nil => rfl
  | cons p ps ih =>
    rw [placeAll, ih, length_place, List.length_cons]
    omega

theorem grows_placeAll (h : TypeHeap) (ps : List Placement) : Grows h (placeAll h ps) := by
  induction ps generalizing h with
  | nil => exact .refl h
  | cons p ps ih => exact (grows_place h _ _ _).trans (ih _)

/-- The copy at an address describes an object but for a callback's argument list, whose
slot has the name. -/
structure CopyOf (h : TypeHeap) (c : ℕ) (t : TypeArray) : Prop where
  lt : c < h.length
  isa : (h.get c).isa = t.isa
  slots : ∀ i, i ≠ SLOT_TYPE_OFFSET → i ≠ SLOT_TYPE_FIELD → (h.get c).get i = t.get i
  named : IsName ((h.get c).get SLOT_TYPE_FIELD)

theorem CopyOf.grows {c : ℕ} {t : TypeArray} (hc : CopyOf h c t) (hg : Grows h h') :
    CopyOf h' c t where
  lt := hc.lt.trans_le hg.length
  isa := (hg.isa c hc.lt).trans hc.isa
  slots i ho hf := (hg.slots c hc.lt i ho hf).trans (hc.slots i ho hf)
  named := hg.named c hc.lt hc.named

theorem copyOf_place (h : TypeHeap) (t offset : ℕ) (field : PerlStr) :
    CopyOf (h.place t offset field) h.length (h.get t) := by
  refine ⟨by rw [length_place]; omega, ?_, fun i ho hf => ?_, ?_⟩ <;> rw [get_place_copy]
  · rfl
  · exact get_placed_of_ne _ ho hf
  · rw [get_placed_field]
    trivial

/-- A copy of what has grown from an object is a copy of the object. -/
theorem CopyOf.of_grows {h₀ : TypeHeap} {c t : ℕ} (hg : Grows h₀ h) (ht : t < h₀.length)
    (hc : CopyOf h' c (h.get t)) : CopyOf h' c (h₀.get t) where
  lt := hc.lt
  isa := hc.isa.trans (hg.isa t ht)
  slots i ho hf := (hc.slots i ho hf).trans (hg.slots t ht i ho hf)
  named := hc.named

/-- **The copies a loop makes**, one after another at the end of the heap. -/
theorem copyOf_placeAll (h : TypeHeap) (ps : List Placement) {i : ℕ} {p : Placement}
    (hi : ps[i]? = some p) (ht : p.t < h.length) :
    CopyOf (placeAll h ps) (h.length + i) (h.get p.t) := by
  induction ps generalizing h i with
  | nil => cases hi
  | cons q ps ih =>
    cases i with
    | zero =>
      cases hi
      exact (copyOf_place h _ _ _).grows (grows_placeAll _ ps)
    | succ i =>
      have hnext := ih (h.place q.t q.offset q.field) hi (by rw [length_place]; omega)
      rw [length_place, show h.length + 1 + i = h.length + (i + 1) by omega] at hnext
      exact hnext.of_grows (grows_place h _ _ _) ht

theorem structPlacements_congr (hg : Grows h h') {types : List (PerlStr × ℕ)}
    (hin : ∀ p ∈ types, p.2 < h.length) (sizeof : ℕ) :
    structPlacements h' sizeof types = structPlacements h sizeof types := by
  induction types generalizing sizeof with
  | nil => rfl
  | cons p types ih =>
    obtain ⟨hp, hrest⟩ := List.forall_mem_cons.mp hin
    simp only [structPlacements, hg.align hp, hg.sizeof hp, ih hrest]

/-- Where a struct puts a member of a size and an alignment. -/
def alignedUp (sizeof align : ℕ) : ℕ := (sizeof + align - 1) / align * align

theorem structStep_eq_ok {b b' : TypeHeap.Building} {field : PerlStr} {t : ℕ}
    (hstep : TypeHeap.structStep b field t = .ok b') :
    (b.heap.get t).align ≠ 0 ∧
      b'.heap = b.heap.place t (alignedUp b.sizeof (b.heap.get t).align) field ∧
      b'.sizeof = alignedUp b.sizeof (b.heap.get t).align + (b.heap.get t).sizeof ∧
      b'.store = b.store ++ [b.heap.length] := by
  unfold TypeHeap.structStep at hstep
  by_cases hal : (b.heap.get t).align = 0
  · simp [hal] at hstep
  · simp only [hal, if_false, Except.ok.injEq] at hstep
    subst hstep
    exact ⟨hal, rfl, rfl, rfl⟩

theorem structStep_error {b : TypeHeap.Building} {field : PerlStr} {t : ℕ} {e : TypeError}
    (hstep : TypeHeap.structStep b field t = .error e) : (b.heap.get t).align = 0 := by
  unfold TypeHeap.structStep at hstep
  by_cases hal : (b.heap.get t).align = 0
  · exact hal
  · simp [hal] at hstep

/-- **The loop of `Struct`** places its members until it dies. -/
theorem structLoop_eq (b : TypeHeap.Building) {types : List (PerlStr × ℕ)}
    (hin : ∀ p ∈ types, p.2 < b.heap.length) :
    (TypeHeap.structLoop b types).1.heap =
        placeAll b.heap (structPlacements b.heap b.sizeof types) ∧
      (TypeHeap.structLoop b types).1.store = b.store ++
        List.range' b.heap.length (structPlacements b.heap b.sizeof types).length ∧
      ((TypeHeap.structLoop b types).2 = none →
        (structPlacements b.heap b.sizeof types).map (fun p => (p.field, p.t)) = types) := by
  induction types generalizing b with
  | nil => simp [TypeHeap.structLoop, structPlacements, placeAll]
  | cons p types ih =>
    obtain ⟨field, t⟩ := p
    obtain ⟨ht, hrest⟩ := List.forall_mem_cons.mp hin
    cases hstep : TypeHeap.structStep b field t with
    | error e =>
      have hal := structStep_error hstep
      simp [TypeHeap.structLoop, hstep, structPlacements, placeAll, hal]
    | ok b' =>
      obtain ⟨hal, hheap', hsizeof', hstore'⟩ := structStep_eq_ok hstep
      have hgrow := grows_place b.heap t (alignedUp b.sizeof (b.heap.get t).align) field
      rw [← hheap'] at hgrow
      obtain ⟨hheap, hstore, hnames⟩ := ih b' fun q hq => (hrest q hq).trans_le hgrow.length
      rw [structPlacements_congr hgrow hrest, hsizeof'] at hheap hstore hnames
      rw [hstore', hheap', length_place, List.append_assoc] at hstore
      rw [hheap'] at hheap
      simp only [TypeHeap.structLoop, hstep, structPlacements, if_neg hal, placeAll,
        List.length_cons, List.map_cons, List.range'_succ]
      exact ⟨hheap, hstore, fun hnone => congrArg _ (hnames hnone)⟩

/-- **The loop of `Union`** places all its members at its start. -/
theorem unionLoop_eq (b : TypeHeap.Building) (types : List (PerlStr × ℕ)) :
    (TypeHeap.unionLoop b types).heap = placeAll b.heap (types.map fun p => ⟨p.2, 0, p.1⟩) ∧
      (TypeHeap.unionLoop b types).store = b.store ++ List.range' b.heap.length types.length := by
  induction types generalizing b with
  | nil => simp [TypeHeap.unionLoop, placeAll]
  | cons p types ih =>
    obtain ⟨field, t⟩ := p
    obtain ⟨hheap, hstore⟩ := ih (TypeHeap.unionStep b field t)
    have hlen : (TypeHeap.unionStep b field t).heap.length = b.heap.length + 1 := length_place
    rw [hlen] at hstore
    refine ⟨hheap, hstore.trans ?_⟩
    rw [List.length_cons, List.range'_succ]
    exact List.append_assoc _ _ _

/-- **What building an aggregate does**: its members are placed, and it is appended with one
copy of each in its store, unless it dies. -/
theorem perform_aggregate {op : TypeOp} (hin : ∀ p ∈ op.types, p.2 < h.length)
    (hop : ∀ t, op ≠ .make t) :
    (∃ e, op.perform h = (placeAll h (op.placements h), .error e)) ∨
      ∃ o : TypeArray, op.perform h = (placeAll h (op.placements h) ++ [o],
          .ok (placeAll h (op.placements h)).length) ∧
        o.store = List.range' h.length (op.placements h).length ∧
        (op.placements h).map (fun p => (p.field, p.t)) = op.types := by
  cases op with
  | make t => exact absurd rfl (hop t)
  | Struct types =>
    have hloop := structLoop_eq ⟨h, 0, 0, [], []⟩ hin
    simp only [TypeOp.perform, TypeHeap.Struct, TypeOp.placements, TypeOp.types] at hloop ⊢
    generalize TypeHeap.structLoop ⟨h, 0, 0, [], []⟩ types = r at hloop ⊢
    obtain ⟨b, e⟩ := r
    obtain ⟨hheap, hstore, hnames⟩ := hloop
    simp only at hheap hstore hnames
    cases e with
    | some e => exact Or.inl ⟨e, by rw [← hheap]⟩
    | none => exact Or.inr ⟨TypeHeap.structObject b, by rw [← hheap], hstore, hnames rfl⟩
  | Union types =>
    obtain ⟨hheap, hstore⟩ := unionLoop_eq ⟨h, 0, 0, [], []⟩ types
    simp only [TypeOp.perform, TypeHeap.Union, TypeOp.placements, TypeOp.types]
    generalize TypeHeap.unionLoop ⟨h, 0, 0, [], []⟩ types = b at hheap hstore ⊢
    refine Or.inr ⟨TypeHeap.unionObject b, by rw [hheap], ?_, ?_⟩
    · rw [List.length_map]
      exact hstore
    · rw [List.map_map]
      exact List.map_id _

theorem grows_perform (op : TypeOp) (hin : ∀ p ∈ op.types, p.2 < h.length) :
    Grows h (op.perform h).1 := by
  by_cases hop : ∃ t, op = .make t
  · obtain ⟨t, rfl⟩ := hop
    exact grows_append h [t]
  · rcases perform_aggregate hin (not_exists.mp hop) with ⟨e, hrun⟩ | ⟨o, hrun, -, -⟩ <;> rw [hrun]
    · exact grows_placeAll h _
    · exact (grows_placeAll h _).trans (grows_append _ _)

end Loops

/-- **A copy and its type**: no callback keeps its arguments, everything else does. -/
theorem CopyOf.describes_iff {h : TypeHeap} {c : ℕ} {t : TypeArray} (hc : CopyOf h c t) :
    Describes (h.get c) t ↔ t.flag ≠ .flag .codeRef := by
  constructor
  · intro hd hflag
    obtain ⟨ts, -, hargs⟩ := hd.args hflag
    have hnamed := hc.named
    rw [show SLOT_TYPE_FIELD = SLOT_CODEREF_ARGS from rfl, hargs] at hnamed
    exact hnamed
  · exact fun hflag => ⟨hc.isa, hc.slots, fun hcode => absurd hcode hflag⟩

theorem grows_run {h : TypeHeap} {run : List (TypeOp × TypeHeap)} (hrun : IsRun TypeStep h run) :
    Grows h (finalState h run) := by
  induction run generalizing h with
  | nil => exact .refl h
  | cons q run ih =>
    obtain ⟨op, h'⟩ := q
    obtain ⟨⟨hin, rfl⟩, hrest⟩ := hrun
    exact (grows_perform op hin).trans (ih hrest)

section Stored

variable {h : TypeHeap} {op : TypeOp} {a i t : ℕ} {field : PerlStr} {run : List (TypeOp × TypeHeap)}

/-- A member of a new aggregate is stored as a copy, and stays one. -/
theorem copyOf_stored (hop : ∀ t, op ≠ .make t) (hin : ∀ p ∈ op.types, p.2 < h.length)
    (ha : (op.perform h).2 = .ok a) (hrun : IsRun TypeStep (op.perform h).1 run)
    (hi : op.types[i]? = some (field, t)) :
    a < (op.perform h).1.length ∧ ∃ c, ((op.perform h).1.get a).store[i]? = some c ∧
      CopyOf (finalState (op.perform h).1 run) c (h.get t) := by
  rcases perform_aggregate hin hop with ⟨e, hperf⟩ | ⟨o, hperf, hstore, hnames⟩
  · rw [hperf] at ha
    cases ha
  · have hgrow := grows_run hrun
    have hmem := List.mem_of_getElem? hi
    rw [← hnames, List.getElem?_map] at hi
    obtain ⟨p, hp, heq⟩ := Option.map_eq_some_iff.mp hi
    cases heq
    rw [hperf] at ha hgrow ⊢
    cases ha
    have hilt : i < (op.placements h).length := (List.getElem?_eq_some_iff.mp hp).1
    refine ⟨by simp, h.length + i, ?_, ?_⟩
    · rw [get_append_length, hstore, List.getElem?_range' hilt, Nat.one_mul]
    · have hcopy := copyOf_placeAll h (op.placements h) hp (hin _ hmem)
      exact (hcopy.grows (grows_append _ [o])).grows hgrow

/-- **Every stored member, from then on**: an aggregate stores one copy of each of its
members, and whatever is built later, the copy describes the type it was made of exactly
when that is no callback. -/
theorem stored_describes_iff (hop : ∀ t, op ≠ .make t) (hin : ∀ p ∈ op.types, p.2 < h.length)
    (ha : (op.perform h).2 = .ok a) (hrun : IsRun TypeStep (op.perform h).1 run)
    (hi : op.types[i]? = some (field, t)) :
    ∃ c, ((op.perform h).1.get a).store[i]? = some c ∧
      (Describes ((finalState (op.perform h).1 run).get c) (h.get t) ↔
        (h.get t).flag ≠ .flag .codeRef) := by
  obtain ⟨-, c, hc, hcopy⟩ := copyOf_stored hop hin ha hrun hi
  exact ⟨c, hc, hcopy.describes_iff⟩

/-- **At any nesting**: the members of a stored member are the ones the type itself stores. -/
theorem memberAt_stored (hop : ∀ t, op ≠ .make t) (hin : ∀ p ∈ op.types, p.2 < h.length)
    (ha : (op.perform h).2 = .ok a) (hrun : IsRun TypeStep (op.perform h).1 run)
    (hi : op.types[i]? = some (field, t)) (j : ℕ) (path : List ℕ) :
    memberAt (finalState (op.perform h).1 run) a (i :: j :: path) =
      memberAt (finalState (op.perform h).1 run) t (j :: path) := by
  obtain ⟨halt, c, hc, hcopy⟩ := copyOf_stored hop hin ha hrun hi
  have ht : t < h.length := hin _ (List.mem_of_getElem? hi)
  have hgrow := (grows_perform op hin).trans (grows_run hrun)
  have hsame : ((finalState (op.perform h).1 run).get c).store =
      ((finalState (op.perform h).1 run).get t).store := by
    rw [hgrow.store ht]
    exact congrArg Slot.elems (hcopy.slots _ (by decide) (by decide))
  have hstore : ((finalState (op.perform h).1 run).get a).store =
      ((op.perform h).1.get a).store := (grows_run hrun).store halt
  simp only [memberAt, hstore, hc, hsame]

end Stored

def anInt : TypeHeap := [.scalar .Int]

/-- `Struct[ x => $int ]`. -/
def intMember : TypeOp := .Struct [(.ofText (text "x"), 0)]

/-- An `Int`. -/
theorem stored_describes_int :
    ∃ c, ((intMember.perform anInt).1.get 2).store[0]? = some c ∧
      (Describes ((finalState (intMember.perform anInt).1 ([] : List (TypeOp × TypeHeap))).get c)
          (anInt.get 0) ↔ (anInt.get 0).flag ≠ .flag .codeRef) :=
  stored_describes_iff (fun t h => by cases h) (by decide) rfl trivial rfl

/-- `$cb = CodeRef[ [] => Void ]`. -/
def aCallback : TypeHeap := [.scalar .Void, .CodeRef [] (text "Void") [] [] 0]

/-- `Struct[ cb => $cb ]`. -/
def callbackMember : TypeOp := .Struct [(.ofText (text "cb"), 1)]

/-- The member `cb` has its name where the callback has its arguments. -/
theorem stored_callback : (callbackMember.perform aCallback).2 = .ok 3 ∧
    ((callbackMember.perform aCallback).1.get 3).store = [2] ∧
    ¬ Describes ((callbackMember.perform aCallback).1.get 2) (aCallback.get 1) := by
  refine ⟨rfl, rfl, fun h => ?_⟩
  obtain ⟨ts, -, hargs⟩ := h.args rfl
  cases hargs

end Affix.Analysis
