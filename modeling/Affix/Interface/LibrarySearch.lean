import Affix.Model.FindLibrary

/-!
# What a search for a library is to give

The name of a library's file may end with a version, numbers set apart by dots and
dashes. A version may be asked for in full or by its first numbers. What a search gives
must not depend on the searches before it.

SOURCE: Affix.pod:184-192, Affix.pod:429-443
-/

set_option autoImplicit false

namespace Affix.Interface.Unix

open Affix.Foundation Affix.Model Affix.Model.Unix

/-- What follows the last `.so.` of a text. -/
def afterSo : Chars → Option Chars
  | [] => none
  | c :: cs =>
    match afterSo cs with
    | some version => some version
    | none => if ['.', 's', 'o', '.'] <+: c :: cs then some (cs.drop 3) else none

/-- The version in the name of a file. -/
def fileVersion (lib : Chars) : Option Chars :=
  (afterSo lib).filter fun version => version ≠ [] && version.all isVersionChar

/-- The file has the version in its name, in full or by its first numbers. -/
def Carries (lib version : Chars) : Prop :=
  ∃ full, fileVersion lib = some full ∧ (full = version ∨ version ++ ['.'] <+: full)

/-- The numbers of a file's version, none for a file without. -/
def versionNumbers (lib : Chars) : List ℕ :=
  match fileVersion lib with
  | some version => (version.splitOnP fun c => !c.isDigit).map (readDigits 10)
  | none => []

/-- Versions by their numbers: the first that differs decides, and no number is the least. -/
def NotAbove : List ℕ → List ℕ → Prop
  | [], _ => True
  | _ :: _, [] => False
  | m :: ms, n :: ns => m < n ∨ m = n ∧ NotAbove ms ns

/-- The file is one of a list, and none of the list has a higher version. -/
def Highest (libs : List Chars) (lib : Chars) : Prop :=
  lib ∈ libs ∧ ∀ other ∈ libs, NotAbove (versionNumbers other) (versionNumbers lib)

variable (t : Tools)

/-- The name that is searched for: of a file that is a link, what the link names. -/
def resolved (name : Chars) : Chars :=
  if t.isFile name = true ∧ t.isLink name = true then t.readlink name else name

/-- The name is that of a library itself. -/
def IsLibrary (name : Chars) : Prop := t.isFile name = true ∧ t.is_elf (resolved t name) = true

instance (name : Chars) : Decidable (IsLibrary t name) := inferInstanceAs (Decidable (_ ∧ _))

/-- The files found whose names are the library's. -/
def matching (name : Chars) : List Chars :=
  ((found t name).map t.realpath).filter fun lib => (matched t name lib).isSome

/-- The files a search is to pick from. -/
def candidates (name : Chars) : List Chars :=
  if IsLibrary t name then [resolved t name] else matching t (resolved t name)

/-- **A search gives what it is to give**, with the hash as it is: with a version, no file that
has another; without, the candidate with the highest version, if there is any; and either way
what it would give first of all. -/
structure Right (cache : Cache) (name : Chars) (version : Option Chars) : Prop where
  carries : ∀ lib, (find_library t cache name version).1 = some lib →
    version.getD [] ≠ [] → Carries lib (version.getD [])
  highest : version.getD [] = [] →
    (candidates t name = [] ∧ (find_library t cache name version).1 = none) ∨
      ∃ lib, (find_library t cache name version).1 = some lib ∧ Highest (candidates t name) lib
  fresh : (find_library t cache name version).1 = (find_library t .empty name version).1

/-- All searches of a run, each with the hash that those before it left, give what they are to
give. -/
def AllRight : Cache → List (Chars × Option Chars) → Prop
  | _, [] => True
  | cache, (name, version) :: calls =>
    Right t cache name version ∧ AllRight (find_library t cache name version).2 calls

end Affix.Interface.Unix
