import Affix.Foundation.CInt
import Affix.Model.TypeObject

/-!
# The C types the scalar types stand for

The integer types of `Affix::Type` are named after the C types a function is
declared with on the other side. Nothing in the code says so in one place: each
switch has its own casts, and this table is what they are compared with.
-/

set_option autoImplicit false

namespace Affix.Interface

open Affix.Foundation Affix.Model

/-- The C integer type a scalar type is named after. -/
def cInt : Kind → Option CIntType
  | .Char | .SChar => some cchar
  | .UChar => some cuchar
  | .Short => some cshort
  | .UShort => some cushort
  | .Int => some cint
  | .UInt => some cuint
  | .Long => some clong
  | .ULong => some culong
  | .LongLong => some clonglong
  | .ULongLong | .Size_t => some culonglong
  | .Void | .Bool | .WChar | .Float | .Double | .SV => none

/-- The type is one of characters. -/
def Character (k : Kind) : Prop := k = .Char ∨ k = .SChar ∨ k = .UChar

instance (k : Kind) : Decidable (Character k) := inferInstanceAs (Decidable (_ ∨ _))

/-- No C integer type is wider than a slot of a Perl scalar. -/
theorem bits_le_of_cInt {k : Kind} {t : CIntType} (h : cInt k = some t) : t.bits ≤ 64 := by
  cases k <;> simp only [cInt, Option.some.injEq, reduceCtorEq] at h <;> subst h <;> decide

end Affix.Interface
