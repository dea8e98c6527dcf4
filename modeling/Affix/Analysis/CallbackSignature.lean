import Affix.Model.Callback

/-!
# The signature of a callback

`CodeRef` keeps a string with a character for each argument, the one that stands for
the argument's flag, and `sv2ptr` hands the string to the callback library. The
handler reads it back by the same flags. The library reads its own characters: those
of the arguments, a `)`, and that of the result. The string has no `)` and no result,
and most of its characters mean another type to the library or none.

SOURCE: Type.pm:158-173, marshal.cxx:382-398, dyncall_signature.h:32-49
-/

set_option autoImplicit false

namespace Affix.Analysis

open Affix.Foundation Affix.Model

/-- The string kept for a `CodeRef`. SOURCE: Type.pm:171, marshal.cxx:386 -/
def callbackSignature : TypeObj → List Char
  | .codeRef _ _ sig _ => sig.map Flag.sigChar
  | _ => []

/-- The library's type for the C type a scalar type is named after. A `wchar_t` is an `int`,
a Perl scalar is handed over by its address. -/
def scalarChar : Kind → DCsigchar
  | .Void => .void
  | .Bool => .bool
  | .Char | .SChar => .char
  | .UChar => .uchar
  | .Short => .short
  | .UShort => .ushort
  | .Int | .WChar => .int
  | .UInt => .uint
  | .Long => .long
  | .ULong | .Size_t => .ulong
  | .LongLong => .longlong
  | .ULongLong => .ulonglong
  | .Float => .float
  | .Double => .double
  | .SV => .pointer

/-- The character of the library stands for the C type. -/
def Stands : DCsigchar → TypeObj → Prop
  | c, .scalar k _ => c = scalarChar k
  | c, .pointer _ subtype => c = .pointer ∨ c = .string ∧ subtype.isChar = true
  | c, .codeRef .. => c = .pointer
  | c, .struct .. | c, .union .. => c = .aggregate

/-- **The string denotes a function type**: a character for each argument, a `)`, and the
character of the result. `dcbNewCallback` supplies no descriptors, so that no aggregate may
be among them. -/
def Denotes (signature : List Char) (args : List TypeObj) (ret : TypeObj) : Prop :=
  ∃ cs r, signature = cs.map DCsigchar.toChar ++ [')', r.toChar] ∧
    List.Forall₂ Stands cs args ∧ Stands r ret ∧ .aggregate ∉ r :: cs

/-- No type is kept as the end of the arguments. -/
theorem endarg_notMem (sig : List Flag) : ')' ∉ sig.map Flag.sigChar := by
  intro hmem
  obtain ⟨f, -, hf⟩ := List.mem_map.mp hmem
  cases f <;> cases hf

/-- **The string handed to the library never denotes the type of the callback.**
SOURCE: Type.pm:171, dyncall_signature.h:32-49 -/
theorem callbackSignature_denotes_never (args : List TypeObj) (ret : TypeObj) :
    ¬ Denotes (callbackSignature (CodeRef args ret)) args ret := by
  rintro ⟨cs, r, hsig, -⟩
  apply endarg_notMem (args.map TypeObj.flag)
  have hmem : ')' ∈ callbackSignature (CodeRef args ret) := by
    rw [hsig]
    simp
  exact hmem

/-- `ij)d` denotes a function of an `Int` and a `Long` that returns a `Double`. -/
example : Denotes ['i', 'j', ')', 'd'] [scalarType .Int, scalarType .Long] (scalarType .Double) :=
  ⟨[.int, .long], .double, rfl, .cons rfl (.cons rfl .nil), rfl, by decide⟩

/-- `CodeRef[ [ Int ] => Double ]`: the library is handed `i`. -/
theorem callbackSignature_intToDouble :
    callbackSignature (CodeRef [scalarType .Int] (scalarType .Double)) = ['i'] ∧
      ¬ Denotes ['i'] [scalarType .Int] (scalarType .Double) := by
  refine ⟨rfl, ?_⟩
  rintro ⟨cs, r, hsig, -⟩
  have hlen := congrArg List.length hsig
  rw [List.length_append, List.length_map, List.length_singleton] at hlen
  have htwo : [')', r.toChar].length = 2 := rfl
  omega

/-! ## What the library makes of the characters -/

/-- The flags whose characters mean the same in both alphabets. -/
def agreed : Flag → Bool
  | .void | .char | .short | .int | .float | .double | .struct => true
  | _ => false

theorem scalarChar_agreed (k : Kind) :
    (scalarChar k).toChar = k.flag.sigChar ↔ agreed k.flag = true := by
  cases k <;> decide

/-- **Where the alphabets agree**: the character of the flag is the library's for the type. -/
theorem sigChar_stands_iff (t : TypeObj) :
    (∃ c : DCsigchar, c.toChar = t.flag.sigChar ∧ Stands c t) ↔ agreed t.flag = true := by
  cases t with
  | scalar k s =>
    rw [show (TypeObj.scalar k s).flag = k.flag from rfl, ← scalarChar_agreed k]
    constructor
    · rintro ⟨c, hchar, hstands⟩
      have hc : c = scalarChar k := hstands
      rw [← hc]
      exact hchar
    · intro hchar
      exact ⟨scalarChar k, hchar, rfl⟩
  | pointer s subtype =>
    refine iff_of_false ?_ (by simp [TypeObj.flag, agreed])
    rintro ⟨c, hchar, rfl | ⟨rfl, -⟩⟩ <;> cases hchar
  | codeRef s as sig r =>
    refine iff_of_false ?_ (by simp [TypeObj.flag, agreed])
    rintro ⟨c, hchar, hstands⟩
    have hc : c = .pointer := hstands
    subst hc
    cases hchar
  | struct s ts => exact iff_of_true ⟨.aggregate, rfl, rfl⟩ rfl
  | union s ts =>
    refine iff_of_false ?_ (by simp [TypeObj.flag, agreed])
    rintro ⟨c, hchar, hstands⟩
    have hc : c = .aggregate := hstands
    subst hc
    cases hchar

theorem sigChar_eq_aggregate_iff (f : Flag) : f.sigChar = 'A' ↔ f = .struct := by
  cases f <;> decide

/-- **A struct in the last place is read as the result**, and its descriptor is looked for where
there is none. SOURCE: dyncall_callback_x64.c:66-85 -/
theorem dcbInitCallback_fault_iff (args : List TypeObj) (ret : TypeObj) :
    dcbInitCallback (callbackSignature (CodeRef args ret)) = .error .fault ↔
      args.getLast?.map TypeObj.flag = some .struct := by
  have hfirst : (callbackSignature (CodeRef args ret)).head? ≠ some '_' := by
    intro hhead
    obtain ⟨f, -, hf⟩ := List.mem_map.mp (List.mem_of_head? hhead)
    cases f <;> cases hf
  have hlast : (callbackSignature (CodeRef args ret)).getLast? =
      args.getLast?.map fun t => t.flag.sigChar := by
    simp [callbackSignature, CodeRef, List.getLast?_map, Function.comp_def]
  unfold dcbInitCallback
  simp only [hfirst, if_false, hlast]
  cases args.getLast? with
  | none => simp
  | some t =>
    simp only [Option.map_some, Option.some.injEq, sigChar_eq_aggregate_iff]
    by_cases hstruct : t.flag = .struct <;> simp [hstruct]

end Affix.Analysis
