import Affix.Foundation.Pattern
import Affix.Model.Enum
import Affix.Model.Perl

/-!
# Attributes of native subs

Perl hands the attributes of a sub to `MODIFY_CODE_ATTRIBUTES` as texts. Each is read by
the first of three patterns that it matches; one that matches none is handed back, which
is an error. What was read waits under the full name of the sub for its first call.

SOURCE: Native.pm:79-137
-/

set_option autoImplicit false

namespace Affix.Model.Native

open Affix.Foundation Affix.Model

/-- A quote, single or double. -/
def isQuote (c : Char) : Bool := c = '\x27' || c = '\x22'

/-- `^Native(?:\((["']?)(.+?)\1(?:,\s*(.+))?\))?$`. SOURCE: Native.pm:89 -/
def nativePattern : Pattern :=
  .seq [.chars ['N', 'a', 't', 'i', 'v', 'e'],
    .opt (.seq [.chars ['('], .group 1 (.opt (.one isQuote)), .group 2 (.lazily 1 notBreak),
      .back 1,
      .opt (.seq [.chars [','], .greedily 0 isSpace, .group 3 (.greedily 1 notBreak)]),
      .chars [')']]),
    .atEnd]

/-- `^Symbol\(\s*(['"])?\s*(.+)\s*\1\s*\)$`. SOURCE: Native.pm:98 -/
def symbolPattern : Pattern :=
  .seq [.chars ['S', 'y', 'm', 'b', 'o', 'l', '('], .greedily 0 isSpace,
    .opt (.group 1 (.one isQuote)), .greedily 0 isSpace, .group 2 (.greedily 1 notBreak),
    .greedily 0 isSpace, .back 1, .greedily 0 isSpace, .chars [')'], .atEnd]

/-- `^Signature\(\s*(\[.*\])\s*=>\s*(.*)\)$`. SOURCE: Native.pm:103 -/
def signaturePattern : Pattern :=
  .seq [.chars ['S', 'i', 'g', 'n', 'a', 't', 'u', 'r', 'e', '('], .greedily 0 isSpace,
    .group 1 (.seq [.chars ['['], .greedily 0 notBreak, .chars [']']]), .greedily 0 isSpace,
    .chars ['=', '>'], .greedily 0 isSpace, .group 2 (.greedily 0 notBreak), .chars [')'],
    .atEnd]

/-- `::(.*?)$`. SOURCE: Native.pm:114 -/
def fullNamePattern : Pattern :=
  .seq [.chars [':', ':'], .group 1 (.lazily 0 notBreak), .atEnd]

/-- The variables that the loop fills. -/
structure Fields where
  library : Option Chars
  library_version : Option Chars
  symbol : Option Chars
  signature : Option Chars
  ret : Option Chars
deriving DecidableEq

/-- One turn of the loop. SOURCE: Native.pm:86-107 -/
def readAttribute (st : Fields) (attr : Chars) : Option Fields :=
  match nativePattern.first attr with
  | some m =>
    some { st with library := m.group 2, library_version := some ((m.group 3).getD ['0']) }
  | none =>
    match symbolPattern.first attr with
    | some m => some { st with symbol := m.group 2 }
    | none =>
      match signaturePattern.first attr with
      | some m => some { st with signature := m.group 1, ret := m.group 2 }
      | none => none

/-- The loop, which ends at the first attribute it cannot read. -/
def readAttributes : Fields → List Chars → Except Chars Fields
  | st, [] => .ok st
  | st, attr :: attributes =>
    match readAttribute st attr with
    | some st' => readAttributes st' attributes
    | none => .error attr

/-- What is kept of a sub. SOURCE: Native.pm:133 -/
structure Record where
  package : Chars
  library : Option Chars
  library_version : Option Chars
  symbol : Option Chars
  signature : Chars
  ret : Chars
  full_name : Chars
deriving DecidableEq

/-- An attribute is handed back, or the code dies, or the record is kept for the first call. -/
inductive Outcome where
  | refused (attr : Chars)
  | croaked (message : Chars)
  | delayed (r : Record)
deriving DecidableEq

/-- What `%_delay` has for the sub. -/
def Outcome.record : Outcome → Option Record
  | .refused _ => none
  | .croaked _ => none
  | .delayed r => some r

/-- For a sub that is defined, `locate_lib` is called, of which the package has none: the call
gets to `AUTOLOAD`, where nothing waits under that name. SOURCE: Native.pm:21-62,
Native.pm:124-131 -/
def undefinedLocateLib : Chars :=
  "Undefined subroutine &Affix::Native::locate_lib called".toList

/-- `MODIFY_CODE_ATTRIBUTES`, for a sub of a name that `subname` gives. SOURCE: Native.pm:79-136 -/
def MODIFY_CODE_ATTRIBUTES (package full_name : Chars) (defined : Bool)
    (attributes : List Chars) : Outcome :=
  match readAttributes ⟨none, none, none, none, none⟩ attributes with
  | .error attr => .refused attr
  | .ok st =>
    let symbol := match st.symbol with
      | some symbol => some symbol
      | none => (fullNamePattern.search full_name).bind fun m => m.group 1
    let r : Record :=
      ⟨package, st.library, st.library_version, symbol, st.signature.getD ['[', ']'],
        st.ret.getD ['V', 'o', 'i', 'd'], full_name⟩
    if defined then .croaked undefinedLocateLib else .delayed r

end Affix.Model.Native
