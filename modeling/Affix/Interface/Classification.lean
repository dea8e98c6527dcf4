import Mathlib.Order.Bounds.Basic
import Affix.Interface.ArgumentPassing
import Affix.Model.Classification
import Affix.Model.Dyncall

/-!
# The class of an eightbyte

The System V convention takes the scalars of a struct one by one, wherever they are
nested: each gives its class to the eightbytes it reaches into, and an eightbyte has the
greatest of the classes it is given. A scalar that is not aligned sends the struct to
memory. What a descriptor says of its scalars is flattened here, and so is what a type
says.
-/

set_option autoImplicit false

namespace Affix.Interface

open Affix.Foundation Affix.Model

/-! ## The order of the classes -/

/-- Memory is above integers, which are above floating numbers. -/
def rank : SysvClass → ℕ
  | .none => 0
  | .sse => 1
  | .integer => 2
  | .memory => 3

theorem rank_injective : Function.Injective rank := by
  intro c c' h
  cases c <;> cases c' <;> first | rfl | exact absurd h (by decide)

instance : LinearOrder SysvClass := LinearOrder.lift' rank rank_injective

instance : OrderBot SysvClass where
  bot := .none
  bot_le c := Nat.zero_le (rank c)

/-! ## Scalars -/

/-- A scalar of a struct, or an array of them: where it is, the size and the number of the
elements, and the class. -/
structure Leaf where
  offset : ℕ
  size : ℕ
  count : ℕ
  clz : SysvClass
deriving DecidableEq, Repr

namespace Leaf

def stop (l : Leaf) : ℕ := l.offset + l.size * l.count

/-- The scalar reaches into the eightbyte of an index. -/
def Reaches (l : Leaf) (index : ℕ) : Prop := l.offset < index * 8 + 8 ∧ index * 8 < l.stop

instance (l : Leaf) (index : ℕ) : Decidable (l.Reaches index) :=
  inferInstanceAs (Decidable (_ ∧ _))

/-- What the scalar gives to the class of an eightbyte. -/
def gives (index : ℕ) (l : Leaf) : SysvClass :=
  if l.Reaches index then if l.size ∣ l.offset then l.clz else .memory else .none

end Leaf

/-- **The class of an eightbyte** is the greatest that a scalar gives it. -/
def sysvClass (index : ℕ) (ls : List Leaf) : SysvClass := (ls.map (Leaf.gives index)).foldr max ⊥

/-! ## The scalars of a descriptor -/

mutual

/-- The scalars of what a descriptor describes, at an offset. -/
def leavesIn : DCaggr → ℕ → List Leaf
  | .mk _ _ fields, base => leavesOf fields base

def leavesOf : List (DCfield × Option DCaggr) → ℕ → List Leaf
  | [], _ => []
  | (f, sub) :: rest, base =>
    (if f.type = .aggregate then
        match sub with
        | some a =>
          (List.range f.arrayLen).flatMap fun j => leavesIn a (base + f.offset.toNat + f.size * j)
        | none => []
      else [⟨base + f.offset.toNat, f.size, f.arrayLen, f.type.sysvClass⟩]) ++
      leavesOf rest base

end

/-- The alignments that `dcAggrField` can come to. -/
def Natural (alignment : ℕ) : Prop :=
  alignment = 0 ∨ alignment = 1 ∨ alignment = 2 ∨ alignment = 4 ∨ alignment = 8

instance (alignment : ℕ) : Decidable (Natural alignment) :=
  inferInstanceAs (Decidable (_ ∨ _ ∨ _ ∨ _ ∨ _))

mutual

/-- The descriptor has been made by `dcNewAggr` and `dcAggrField`. -/
def BuiltUp : DCaggr → Prop
  | .mk _ alignment fields =>
    (alignment = 0 ∨ ∃ e ∈ fields, e.1.alignment = alignment) ∧ builtFields fields

def builtFields : List (DCfield × Option DCaggr) → Prop
  | [] => True
  | (f, sub) :: rest =>
    (if f.type = .aggregate then
        match sub with
        | some a => f.size = a.size ∧ f.alignment = a.alignment ∧ BuiltUp a
        | none => False
      else f.type.fieldSize = some f.size ∧ f.alignment = f.size) ∧ builtFields rest

end

/-- A nested aggregate is where the walk finds it: it begins with an eightbyte, or it is a union of
eight bytes that is aligned. -/
def Found (f : DCfield) (a : DCaggr) (offset : ℕ) : Prop :=
  8 ∣ offset ∨ f.size = 8 ∧ f.arrayLen = 1 ∧ (∀ e ∈ a.fields, e.1.offset = 0) ∧
    (f.alignment = 0 ∨ f.alignment ∣ offset)

mutual

/-- The descriptor, at an offset, keeps its fields within its size, and wherever an aggregate is
nested the walk finds it. -/
def Placed : DCaggr → ℕ → Prop
  | .mk size _ fields, base => placedFields size fields base

def placedFields (size : ℕ) : List (DCfield × Option DCaggr) → ℕ → Prop
  | [], _ => True
  | (f, sub) :: rest, base =>
    (0 ≤ f.offset ∧ 0 < f.arrayLen ∧ f.offset.toNat + f.size * f.arrayLen ≤ size ∧
      (f.type = .aggregate →
        match sub with
        | some a =>
          0 < f.size ∧ Found f a (base + f.offset.toNat) ∧
            ∀ j < f.arrayLen, Placed a (base + f.offset.toNat + f.size * j)
        | none => True)) ∧ placedFields size rest base

end

/-- **A descriptor of a struct as C lays it out**, where nested aggregates are found: its scalars
fill it from its beginning, up to padding that leaves a multiple of their sizes. -/
structure Regular (a : DCaggr) : Prop where
  built : BuiltUp a
  placed : Placed a 0
  padded : ∀ l ∈ leavesIn a 0, l.size ∣ a.size
  begins : leavesIn a 0 ≠ [] → ∃ l ∈ leavesIn a 0, l.Reaches 0

/-! ## The scalars of a type -/

/-- The scalars of a type object, at an offset, by what the type says. -/
def scalars : TypeObj → ℕ → List Leaf
  | .scalar k s, base =>
    [⟨base, s.sizeof, 1, if k = .Float ∨ k = .Double then .sse else .integer⟩]
  | .pointer s _, base | .codeRef s _ _ _, base => [⟨base, s.sizeof, 1, .integer⟩]
  | .struct _ store, base | .union _ store, base => scalarsOf store base
where
  scalarsOf : List TypeObj → ℕ → List Leaf
    | [], _ => []
    | m :: ms, base => scalars m (base + m.offset) ++ scalarsOf ms base

/-- Every union is as aligned as its members. -/
def UnionsAligned : TypeObj → Prop
  | .scalar .. | .pointer .. | .codeRef .. => True
  | .struct _ store => allUnionsAligned store
  | .union s store => (∀ m ∈ store, m.align ≤ s.alignment) ∧ allUnionsAligned store
where
  allUnionsAligned : List TypeObj → Prop
    | [] => True
    | m :: ms => UnionsAligned m ∧ allUnionsAligned ms

/-- No aggregate is without members. -/
def Peopled : TypeObj → Prop
  | .scalar .. | .pointer .. | .codeRef .. => True
  | .struct _ store | .union _ store => store ≠ [] ∧ allPeopled store
where
  allPeopled : List TypeObj → Prop
    | [] => True
    | m :: ms => Peopled m ∧ allPeopled ms

/-! ## Arguments of C types -/

/-- An argument of a call as it is passed on: the bytes of a struct are in memory, its descriptor is
closed, and the place it is wanted at is apart from the arguments on the stack. -/
def CarriedAs (mem : ℕ → UInt8) (base total : ℕ) : DCArg → Passed → Prop
  | .int v, .word x => x = v
  | .float bits, .float _ x => x = bits
  | .double bits, .double x => x = bits
  | .aggr a bytes, .aggr ag x target => Regular a ∧ ag = dcCloseAggr a ∧
      slice mem x a.size = bytes ∧ (target + a.size ≤ base ∨ base + total ≤ target)
  | _, _ => False

/-- **An argument is received**: the number, or every scalar of the struct. -/
def Received : DCArg → Got → Prop
  | .int v, .word x => x = clonglong.wrap v
  | .float bits, .float x => x = bits % 2 ^ 32
  | .double bits, .double x => x = bits % 2 ^ 64
  | .aggr a bytes, .aggr got => got.length = a.size ∧
      ∀ l ∈ leavesIn a 0, ∀ k, l.offset ≤ k → k < l.stop → got[k]? = bytes[k]?
  | _, _ => False

end Affix.Interface
