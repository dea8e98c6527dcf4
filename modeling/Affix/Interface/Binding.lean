import Affix.Interface.Record
import Affix.Model.Pin

/-!
# A variable bound to a C variable

While it is bound, reading the Perl variable reads the C variable and assigning
an integer to it sets the C variable, which nothing else an assignment does can
change. Unbound, it is a Perl variable like any other.
-/

set_option autoImplicit false

namespace Affix.Interface

open Affix.Foundation Affix.Model

/-- The types of the C variables: truth values and integers, `ULong` and its like aside. -/
def Pinnable (k : Kind) : Prop :=
  k = .Bool ∨ k = .Short ∨ k = .UShort ∨ k = .Int ∨ k = .UInt ∨ k = .Long ∨ k = .LongLong

instance (k : Kind) : Decidable (Pinnable k) := inferInstanceAs (Decidable (_ ∨ _))

/-- The value of a C variable of a type, by its bytes. -/
def cValue (k : Kind) (bs : List UInt8) : ℤ :=
  match reading k with
  | some .truth => if bs = [0] then 0 else 1
  | some (.number c) => c.decode bs
  | _ => 0

def InRangeOf (k : Kind) (n : ℤ) : Prop :=
  match reading k with
  | some .truth => n = 0 ∨ n = 1
  | some (.number c) => c.InRange n
  | _ => False

/-- The value is the integer; for a truth value, also when it is asked for its truth. -/
def Carries (k : Kind) (sv : SV) (n : ℤ) : Prop :=
  ∃ s, sv = .val s ∧ s.iv = some n ∧ (k = .Bool → SvTRUE sv = decide (n ≠ 0))

/-- The value of the C variable. -/
def current (k : Kind) (p : ℕ) (h : Heap) : ℤ := cValue k (h.mem.peek p k.sizeof)

/-- From one heap to the other no live byte changed, or went away, but in a range. -/
structure OnlyWrites (p n : ℕ) (h h' : Heap) : Prop where
  live : ∀ a len, 0 < len → h.mem.InBlock a len → h'.mem.InBlock a len
  bytes : ∀ x, h.mem.InBlock x 1 → x < p ∨ p + n ≤ x → h'.mem.bytes x = h.mem.bytes x
  svs : h'.svs = h.svs
  callbacks : h'.callbacks = h.callbacks

/-- The assignment sets the C variable to a number and touches nothing else, unless there is
no memory for the block it goes through. -/
def Sets (k : Kind) (p : ℕ) (st : PinState) (sv : SV) (n : ℤ)
    (outcome : Except Halt (Effect × PinState)) : Prop :=
  (st.heap.mem.Exhausted k.sizeof ∧ outcome = .error .outOfMemory) ∨
    ∃ heap, outcome = .ok (.done, { st with heap := heap, value := sv }) ∧
      current k p heap = n ∧ OnlyWrites p k.sizeof st.heap heap

/-- What an assignment to a bound variable does. Anything can be a truth value; for the other
types an error is raised for what is no integer. -/
structure SetsPinned (k : Kind) (p : ℕ) (st : PinState) (sv : SV)
    (outcome : Except Halt (Effect × PinState)) : Prop where
  integer : ∀ n, Carries k sv n → InRangeOf k n → Sets k p st sv n outcome
  truth : k = .Bool → sv.SvOK = true → sv.elems = none →
    Sets k p st sv (if SvTRUE sv then 1 else 0) outcome
  undef : sv.SvOK = false → outcome = .ok (.done, { st with value := sv_setsv sv })
  other : k ≠ .Bool → sv.SvOK = true → sv.SvIOK = false → sv.elems = none →
    ∃ m st', outcome = .ok (.raised m, st')
  raised : ∀ m st', outcome = .ok (.raised m, st') → st'.heap = st.heap

/-- **What each operation does**, by whether the variable is bound. -/
def Behaves (k : Kind) (p : ℕ) (st : PinState) (op : PinOp)
    (outcome : Except Halt (Effect × PinState)) : Prop :=
  match op, st.pin with
  | .read, some _ => ∃ v, outcome = .ok (.value v, { st with value := v }) ∧
      Carries k v (current k p st.heap)
  | .read, none => outcome = .ok (.value st.value, st)
  | .assign sv, some _ => SetsPinned k p st sv outcome
  | .assign sv, none => outcome = .ok (.done, { st with value := sv_setsv sv })
  | .unpin, _ => ∃ answer, outcome = .ok (.answer answer, { st with pin := none })
  | .code heap, _ => outcome = .ok (.done, { st with heap := heap })

/-- An operation that does not end the program. C code leaves the C variable where it is. -/
def PinStep (k : Kind) (p : ℕ) (st : PinState) (op : PinOp) (st' : PinState) : Prop :=
  (∀ heap, op = .code heap → heap.mem.InBlock p k.sizeof) ∧
    ∃ effect, st.step op = .ok (effect, st')

end Affix.Interface
