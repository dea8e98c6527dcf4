import Affix.Model.Text

/-!
# Ways to stop

The C++ half of Affix leaves a function early in three ways: it raises a Perl
exception, Perl's allocator gives up, or it touches memory it must not touch.
Only the first can be caught.
-/

set_option autoImplicit false

namespace Affix.Model

/-- How a run of C++ code ends when it does not return. -/
inductive Halt where
  /-- `croak(message)`. -/
  | croak (message : Text)
  /-- `Out of memory!`: `safemalloc` and its kin end the process. -/
  | outOfMemory
  /-- A load or a store outside every live block, or a failed `assert`. -/
  | fault
deriving DecidableEq

def IV_MAX : ℕ := 2 ^ 63 - 1

def upperHex (n : ℕ) : Text := (Nat.toDigits 16 n).map fun c => c.toUpper.toNat

/-- What `uvchr_to_utf8` dies of: a code point above `IV_MAX`. -/
def codePointNotAllowed (uv : ℕ) : Halt :=
  .croak (text "Use of code point 0x" ++ upperHex uv ++
    text " is not allowed; the permissible max is 0x" ++ upperHex IV_MAX)

end Affix.Model
