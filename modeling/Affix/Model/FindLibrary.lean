import Affix.Foundation.Pattern
import Affix.Model.Enum

/-!
# Finding a library

`find_library` asks four tools for the files that a name may stand for, one after the
other until one has an answer, and keeps what it picks in a hash by name and version.
The loop that fills the hash takes the version of a file for the version that was asked
for when none was.

What the tools, the file tests and `realpath` answer is a parameter, and so is how the
name reads as a pattern, for it is put into one as it is.

SOURCE: Unix.pm:70-91
-/

set_option autoImplicit false

namespace Affix.Model.Unix

open Affix.Foundation Affix.Model

/-- What the file system and the tools answer, and what a name is as a part of a pattern,
with the number of its groups. -/
structure Tools where
  isFile : Chars → Bool
  isLink : Chars → Bool
  readlink : Chars → Chars
  is_elf : Chars → Bool
  realpath : Chars → Chars
  findLib_dynaloader : Chars → List Chars
  findLib_ldconfig : Chars → List Chars
  findLib_gcc : Chars → List Chars
  findLib_ld : Chars → List Chars
  asPattern : Chars → Pattern
  groups : Chars → ℕ

/-- The hash `$cache`. -/
abbrev Cache := Chars → Chars → Option Chars

def Cache.empty : Cache := fun _ _ => none

/-- `$cache->{$name}{$version} //= $lib`. -/
def Cache.keep (cache : Cache) (name version lib : Chars) : Cache := fun n v =>
  if n = name ∧ v = version then some ((cache n v).getD lib) else cache n v

def isVersionChar (c : Char) : Bool := c.isDigit || c == '.' || c == '-'

/-- `/^.*?\/lib$name.*\.$so(?:\.([\d\.\-]+))?$/`, where `$so` is `so`. -/
def libraryPattern (t : Tools) (name : Chars) : Pattern :=
  .seq [.lazily 0 notBreak, .chars ['/', 'l', 'i', 'b'], t.asPattern name, .greedily 0 notBreak,
    .chars ['.', 's', 'o'],
    .opt (.seq [.chars ['.'], .group (t.groups name + 1) (.greedily 1 isVersionChar)]), .atEnd]

/-- The `$1` of a file that matches, which is empty when it is undefined. -/
def matched (t : Tools) (name lib : Chars) : Option Chars :=
  ((libraryPattern t name).first lib).map fun m => (m.group 1).getD []

/-- What the first tool that finds anything finds. SOURCE: Unix.pm:79-82 -/
def found (t : Tools) (name : Chars) : List Chars :=
  let ret := (t.findLib_dynaloader name).filter t.is_elf
  let ret := if ret = [] then (t.findLib_ldconfig name).filter t.is_elf else ret
  let ret := if ret = [] then (t.findLib_gcc name).filter t.is_elf else ret
  if ret = [] then (t.findLib_ld name).filter t.is_elf else ret

/-- The loop that fills the hash, and the version at its end. SOURCE: Unix.pm:84-88 -/
def fill (t : Tools) (name : Chars) : List Chars → Chars → Cache → Chars × Cache
  | [], version, cache => (version, cache)
  | lib :: libs, version, cache =>
    match matched t name lib with
    | none => fill t name libs version cache
    | some version' =>
      let version := if version = [] then version' else version
      fill t name libs version (cache.keep name version lib)

/-- What follows the test of the name as a file. SOURCE: Unix.pm:77-90 -/
def search (t : Tools) (cache : Cache) (name version : Chars) : Option Chars × Cache :=
  match cache name version with
  | some lib => (some lib, cache)
  | none =>
    let ret := found t name
    if ret = [] then (none, cache)
    else
      let (version, cache) := fill t name (ret.map t.realpath) version cache
      (cache name version, cache)

/-- `find_library`. SOURCE: Unix.pm:70-91 -/
def find_library (t : Tools) (cache : Cache) (name : Chars) (version : Option Chars) :
    Option Chars × Cache :=
  let version := version.getD []
  if t.isFile name then
    let name := if t.isLink name then t.readlink name else name
    if t.is_elf name then (some name, cache) else search t cache name version
  else search t cache name version

end Affix.Model.Unix
