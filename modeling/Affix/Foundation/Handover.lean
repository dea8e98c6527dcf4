import Mathlib.Data.List.Forall2
import Mathlib.Tactic.Common

/-!
# Values handed over by way of a store

One side puts values into a store, one after another; the other side takes them out
again, in the same order, and knows of each only its shape. Where a value goes may
depend on what was put before. What makes it work is that both sides keep to the same
rule, and that putting a value leaves alone what has been put.
-/

set_option autoImplicit false

namespace Affix.Foundation

/-- The two sides: the store and the reader, the values, their shapes, and what is got. -/
structure Handover (W R A S B : Type*) where
  put : A → W → W
  shape : A → S
  take : S → R → Option (B × R)

namespace Handover

variable {W R A S B : Type*} (P : Handover W R A S B)

/-- All values are put. -/
def puts : List A → W → W
  | [], w => w
  | a :: as, w => puts as (P.put a w)

/-- What is got for a list of shapes. -/
def takes : List S → R → Option (List B × R)
  | [], r => some ([], r)
  | s :: ss, r =>
    match P.take s r with
    | some (b, r) => (takes ss r).map fun q => (b :: q.1, q.2)
    | none => none

/-- Every value meets a condition on it and the store it is put in. -/
def Throughout (fits : A → W → Prop) : List A → W → Prop
  | [], _ => True
  | a :: as, w => fits a w ∧ Throughout fits as (P.put a w)

/-- **The rule that both sides keep.** `kept w e` says that what has been put by `w` is still
there in the store `e`, and `inStep e w r` that the reader, on the store `e`, is where the writer
was at `w`. -/
structure Keeps (fits : A → W → Prop) (good : A → B → Prop) (kept : W → W → Prop)
    (inStep : W → W → R → Prop) : Prop where
  refl : ∀ w, kept w w
  put : ∀ {a w e}, fits a w → kept (P.put a w) e → kept w e
  take : ∀ {a w e r}, fits a w → kept (P.put a w) e → inStep e w r →
    ∃ b r', P.take (P.shape a) r = some (b, r') ∧ good a b ∧ inStep e (P.put a w) r'

variable {P} {fits : A → W → Prop} {good : A → B → Prop} {kept : W → W → Prop}
  {inStep : W → W → R → Prop}

/-- What has been put is there in the end. -/
theorem Keeps.kept_puts (hP : P.Keeps fits good kept inStep) :
    ∀ {as : List A} {w : W}, P.Throughout fits as w → kept w (P.puts as w)
  | [], w, _ => hP.refl w
  | _ :: _, _, h => hP.put h.1 (hP.kept_puts h.2)

/-- **What is put is got**, in order and by shape alone. -/
theorem Keeps.takes_puts (hP : P.Keeps fits good kept inStep) :
    ∀ {as : List A} {w : W} {r : R}, P.Throughout fits as w → inStep (P.puts as w) w r →
      ∃ bs r', P.takes (as.map P.shape) r = some (bs, r') ∧ List.Forall₂ good as bs ∧
        inStep (P.puts as w) (P.puts as w) r'
  | [], w, r, _, hr => ⟨[], r, rfl, .nil, hr⟩
  | a :: as, w, r, h, hr => by
    obtain ⟨b, r', htake, hgood, hr'⟩ := hP.take h.1 (hP.kept_puts h.2) hr
    obtain ⟨bs, r'', htakes, hall, hend⟩ := hP.takes_puts (w := P.put a w) h.2 hr'
    refine ⟨b :: bs, r'', ?_, .cons hgood hall, hend⟩
    simp only [List.map_cons, takes, htake, htakes, Option.map_some]

end Handover

end Affix.Foundation
