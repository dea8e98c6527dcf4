import Mathlib.Data.List.Fold
import Affix.Foundation.Layout
import Affix.Model.TypeObject

/-!
# What the aggregate constructors build

The loops of `Struct` and `Union` thread a running size through their members.
The loop lemmas below say what comes out: the members in order, each at the
offset sequential placement gives it (at `0` in a union), and the end of the
placement as the size before padding. Everything later that needs a layout uses
these and not the loops.

SOURCE: Struct.pm:23-72, Union.pm:23-62, Platform.pm:4-13
-/

set_option autoImplicit false

namespace Affix.Model

open Affix.Foundation

/-- The extent a type object records. -/
def TypeObj.extent (t : TypeObj) : Extent := ⟨t.sizeof, t.align⟩

@[simp] theorem TypeObj.slots_mapSlots (f : Slots → Slots) (t : TypeObj) :
    (t.mapSlots f).slots = f t.slots := by
  cases t <;> rfl

/-- Naming a member sets its offset and its name and leaves every other shared slot. -/
@[simp] theorem TypeObj.slots_withMember (o : ℕ) (n : PerlStr) (t : TypeObj) :
    (t.withMember o n).slots = { t.slots with offset := some o, field := some n } := by
  cases t <;> rfl

@[simp] theorem TypeObj.sizeof_withMember (o : ℕ) (n : PerlStr) (t : TypeObj) :
    (t.withMember o n).sizeof = t.sizeof := by
  simp [TypeObj.sizeof]

@[simp] theorem TypeObj.align_withMember (o : ℕ) (n : PerlStr) (t : TypeObj) :
    (t.withMember o n).align = t.align := by
  simp [TypeObj.align]

@[simp] theorem TypeObj.offset_withMember (o : ℕ) (n : PerlStr) (t : TypeObj) :
    (t.withMember o n).offset = o := by
  simp [TypeObj.offset]

@[simp] theorem TypeObj.field_withMember (o : ℕ) (n : PerlStr) (t : TypeObj) :
    (t.withMember o n).field = some n := by
  simp [TypeObj.field]

/-- Padding a size that is not zero rounds it up to the alignment.
SOURCE: Platform.pm:4-13 -/
theorem add_padding_needed_for {n a : ℕ} (hn : n ≠ 0) (ha : 0 < a) :
    n + padding_needed_for n a = alignUp n a := by
  have hdiv := Nat.div_add_mod n a
  have hlt := Nat.mod_lt n ha
  unfold padding_needed_for
  simp only [hn, ha.ne', if_false, ne_eq, ite_not]
  split_ifs with hm
  · -- already a multiple
    have hk : (n + a - 1) / a = n / a := by
      apply Nat.div_eq_of_lt_le
      · rw [Nat.mul_comm]
        omega
      · rw [Nat.mul_comm, Nat.mul_succ]
        omega
    rw [alignUp, hk, Nat.mul_comm]
    omega
  · have hk : (n + a - 1) / a = n / a + 1 := by
      apply Nat.div_eq_of_lt_le
      · rw [Nat.mul_comm, Nat.mul_succ]
        omega
      · rw [Nat.mul_comm, Nat.mul_succ, Nat.mul_succ]
        omega
    rw [alignUp, hk, Nat.mul_comm, Nat.mul_succ]
    omega

/-- The members of an aggregate, cloned under their names at the given offsets. -/
def placed : List ℕ → List (PerlStr × TypeObj) → List TypeObj :=
  List.zipWith fun o p => p.2.withMember o p.1

/-- The extents of the members of an aggregate. -/
def extents (types : List (PerlStr × TypeObj)) : List Extent := types.map fun p => p.2.extent

/-- **The loop of `Struct`** places the members one after another.
SOURCE: Struct.pm:29-52 -/
theorem Struct.loop_eq {types : List (PerlStr × TypeObj)} (h : ∀ p ∈ types, p.2.align ≠ 0)
    (b : Building) :
    ∃ b', Struct.loop b types = .ok b' ∧ b'.sizeof = placeEnd b.sizeof (extents types) ∧
      b'.store = b.store ++ placed (offsets b.sizeof (extents types)) types := by
  induction types generalizing b with
  | nil => exact ⟨b, rfl, rfl, by simp [placed]⟩
  | cons p rest ih =>
    obtain ⟨name, t⟩ := p
    have ht : t.align ≠ 0 := h (name, t) (List.mem_cons_self ..)
    obtain ⟨b', hloop, hsize, hstore⟩ := ih (fun q hq => h q (List.mem_cons_of_mem _ hq))
      { b with
        sizeof := alignUp b.sizeof t.align + t.sizeof
        store := b.store ++ [t.withMember (alignUp b.sizeof t.align) name]
        fields := b.fields ++ [memberText name (t.withMember (alignUp b.sizeof t.align) name)] }
    refine ⟨b', ?_, hsize, ?_⟩
    · rw [Struct.loop, Struct.step]
      simpa [ht, alignUp] using hloop
    · rw [hstore]
      simp [placed, offsets, extents, TypeObj.extent]

/-- A member without alignment ends the loop of `Struct` by a division by zero.
SOURCE: Struct.pm:38 -/
theorem Struct.loop_error {types : List (PerlStr × TypeObj)} (h : ∃ p ∈ types, p.2.align = 0)
    (b : Building) : Struct.loop b types = .error .illegalDivisionByZero := by
  induction types generalizing b with
  | nil => simp at h
  | cons p rest ih =>
    obtain ⟨name, t⟩ := p
    rw [Struct.loop, Struct.step]
    by_cases ht : t.align = 0
    · simp [ht]
    · have hrest : ∃ q ∈ rest, q.2.align = 0 := by
        obtain ⟨q, hq, hq0⟩ := h
        rcases List.mem_cons.mp hq with rfl | hq
        · exact absurd hq0 ht
        · exact ⟨q, hq, hq0⟩
      simp [ht, ih hrest]

/-- **The value of `Struct[ … ]`** when every member has an alignment.
SOURCE: Struct.pm:23-72 -/
theorem Struct_eq {types : List (PerlStr × TypeObj)} (h : ∀ p ∈ types, p.2.align ≠ 0) :
    ∃ s, Struct types = .ok (.struct s (placed (offsets 0 (extents types)) types)) ∧
      s.alignment = BYTE_ALIGN ∧ s.offset = none ∧ s.arraylen = 1 ∧
      s.sizeof = placeEnd 0 (extents types) +
        padding_needed_for (placeEnd 0 (extents types)) BYTE_ALIGN := by
  obtain ⟨b', hloop, hsize, hstore⟩ := Struct.loop_eq h ⟨0, 0, [], []⟩
  refine ⟨Struct.slots b', ?_, rfl, rfl, rfl, ?_⟩
  · rw [Struct, hloop]
    simp only [hstore, List.nil_append]
  · simp [Struct.slots, Slots.fresh, hsize]

/-- **The loop of `Union`** overlays the members, takes the greatest size, and keeps an
alignment that any property of the running pair decides: if the pair has the property
and every member has it, the result has it. SOURCE: Union.pm:31-43 -/
theorem Union.loop_spec {P : ℕ → ℕ → Prop} {types : List (PerlStr × TypeObj)}
    (h : ∀ p ∈ types, P p.2.sizeof p.2.align) (b : Building) (hb : P b.sizeof b.alignment) :
    P (Union.loop b types).sizeof (Union.loop b types).alignment ∧
      (Union.loop b types).sizeof = (types.map fun p => p.2.sizeof).foldl max b.sizeof ∧
      (Union.loop b types).store = b.store ++ placed (types.map fun _ => 0) types := by
  induction types generalizing b with
  | nil => exact ⟨hb, rfl, by simp [placed, Union.loop]⟩
  | cons p rest ih =>
    obtain ⟨name, t⟩ := p
    have ht : P t.sizeof t.align := h (name, t) (List.mem_cons_self ..)
    have hstep : P (Union.step b name t).sizeof (Union.step b name t).alignment := by
      unfold Union.step
      dsimp only
      split
      · exact ht
      · exact hb
    obtain ⟨hP, hsize, hstore⟩ := ih (fun q hq => h q (List.mem_cons_of_mem _ hq)) _ hstep
    refine ⟨hP, ?_, ?_⟩
    · have hmax : (Union.step b name t).sizeof = max b.sizeof t.sizeof := by
        unfold Union.step
        dsimp only
        split <;> omega
      rw [Union.loop, hsize, hmax]
      rfl
    · rw [Union.loop, hstore]
      simp [placed, Union.step]

/-- **The value of `Union[ … ]`.** SOURCE: Union.pm:23-62 -/
theorem Union_eq (types : List (PerlStr × TypeObj)) {P : ℕ → ℕ → Prop}
    (h : ∀ p ∈ types, P p.2.sizeof p.2.align) (h0 : P 0 0) :
    ∃ s, Union types = .union s (placed (types.map fun _ => 0) types) ∧
      s.offset = none ∧ s.arraylen = 1 ∧
      P (maxSize (extents types)) s.alignment ∧
      s.sizeof = maxSize (extents types) +
        padding_needed_for (maxSize (extents types)) BYTE_ALIGN := by
  obtain ⟨hP, hsize, hstore⟩ := Union.loop_spec h ⟨0, 0, [], []⟩ h0
  have hmax : (Union.loop ⟨0, 0, [], []⟩ types).sizeof = maxSize (extents types) := by
    rw [hsize, List.foldl_eq_foldr]
    simp [maxSize, extents, TypeObj.extent, Function.comp_def]
  refine ⟨Union.slots (Union.loop ⟨0, 0, [], []⟩ types), ?_, rfl, rfl, ?_, ?_⟩
  · simp only [Union, hstore, List.nil_append]
  · rw [← hmax]
    exact hP
  · simp [Union.slots, Slots.fresh, hmax]

end Affix.Model
