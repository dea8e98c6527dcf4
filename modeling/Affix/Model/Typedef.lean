import Affix.Foundation.Inheritance
import Affix.Model.Enum

/-!
# `typedef`

`typedef` makes a class of its own for a type object: the class inherits from the one
the object was blessed into, a sub of the same name hands the object back, and the
object is blessed again. Then it calls the method `typedef` of the object, which is
whichever sub of that name the class or one of those it inherits from has, the function
itself among them.

Packages are kept by their path in the symbol table, where the main package is the
root. Left out are what packages other than `Affix` import, and `isa` and `can` subs a
package may define: what those answer is true for a type in any case.

SOURCE: Type.pm:42-72, Affix.pm:15-36, Affix.pm:104-134, Struct.pm:7-20, Union.pm:7-20,
Enum.pm:10-13
-/

set_option autoImplicit false

namespace Affix.Model

open Affix.Foundation

abbrev Package := List String

/-- The package a path leads to. -/
def stash (path : List String) : Package := path.dropWhile (· == "main")

/-- The sub a path leads to. -/
def codeName (path : List String) : Package × String := (stash path.dropLast, path.getLastD "")

/-! ## Classes -/

def affixType : Package := ["Affix", "Type"]

def className (c : String) : Package := affixType ++ [c]

/-- The classes that the modules leave: those under `Affix::Type`, and `Affix` itself with the
module for its platform. -/
def loadedISA : List (Package × List Package) :=
  [(["Affix", "Platform", "Unix"], [["Exporter"]]),
    (["Affix"], [["Affix", "Platform", "Unix"], ["Exporter"]]),
    (affixType, [["Exporter"]]), (className "Parameterized", [affixType]),
    (className "Struct", [["Exporter"], className "Parameterized"])] ++
  (["Void", "SV", "Bool", "Char", "SChar", "UChar", "WChar", "Short", "UShort", "Int", "UInt",
    "Long", "ULong", "LongLong", "ULongLong", "Float", "Double", "Size_t", "Enum", "String",
    "WString", "StdString", "Str"].map fun c => (className c, [affixType])) ++
  (["IntEnum", "UIntEnum", "CharEnum"].map fun c => (className c, [className "Enum"])) ++
  (["Union", "Pointer", "CodeRef", "Function"].map fun c =>
    (className c, [className "Parameterized"])) ++
  [(["Affix", "CC"], [affixType]),
    (["Affix", "Type", "Pointer", "Unmanaged"], [["Affix", "Pointer"]])] ++
  (["Reset", "This", "Ellipsis", "Varargs", "CDecl", "STDcall", "MSFastcall", "GNUFastcall",
    "MSThis", "GNUThis", "Arm", "Thumb", "Syscall"].map fun c =>
      (["Affix", "CC", c], [["Affix", "CC"]]))

/-- How many levels of classes Perl looks through. -/
def maxDepth : ℕ := 101

/-! ## Objects -/

/-- What is in the slot of the subtype. -/
inductive SubtypeSlot where
  | undef
  | type (t : TypeObj)
  | store (ts : List TypeObj)
  | enum (e : Enumerators)

/-- A type object, as `typedef` sees it. -/
structure Blessed where
  package : Package
  stringify : Text
  numeric : Flag
  sizeof : ℕ
  alignment : ℕ
  subtype : SubtypeSlot
  arraylen : ℕ
  const : Bool
  typedef : Option Text

namespace Blessed

def ofSlots (package : String) (s : Slots) (numeric : Flag) (subtype : SubtypeSlot) : Blessed where
  package := className package
  stringify := s.stringify
  numeric := numeric
  sizeof := s.sizeof
  alignment := s.alignment
  subtype := subtype
  arraylen := s.arraylen
  const := s.const
  typedef := s.typedef

/-- What the constructors of `Affix::Type` build. -/
def ofType : TypeObj → Blessed
  | .scalar k s => ofSlots k.name s k.flag .undef
  | .pointer s t => ofSlots "Pointer" s .pointer (.type t)
  | .codeRef s _ _ r => ofSlots "CodeRef" s .codeRef (.type r)
  | .struct s ts => ofSlots "Struct" s .struct (.store ts)
  | .union s ts => ofSlots "Union" s .union (.store ts)

/-- `StdString`. SOURCE: Type.pm:151-153 -/
def stdString : Blessed :=
  ofSlots "StdString" (.fresh (text "StdString") SIZEOF_INTPTR_T ALIGNOF_INTPTR_T 1) .stdstring
    .undef

def packageName : EnumClass → String
  | .Enum => "Enum"
  | .IntEnum => "IntEnum"
  | .UIntEnum => "UIntEnum"
  | .CharEnum => "CharEnum"

/-- What the constructors of `Affix::Type::Enum` build. -/
def ofEnum (t : EnumType) : Blessed :=
  ofSlots (packageName t.package) (.fresh (t.stringify.map Char.toNat) t.sizeof t.alignment 0)
    t.numeric (.enum t.enum)

/-- SOURCE: Type.pm:37-40 -/
def str (o : Blessed) : Text :=
  if o.const then text "Const[ " ++ o.stringify ++ text " ]" else o.stringify

end Blessed

/-! ## The program -/

inductive NamedSub where
  /-- `Affix::Type::typedef`, `Affix::Type::Struct::typedef` and so on. -/
  | ofType | ofStruct | ofUnion | ofEnum
  /-- What `typedef` defines under a name. -/
  | accessor (id : ℕ)
  /-- An enumerator. -/
  | constant (d : Dualvar)
deriving DecidableEq

/-- What of a program `typedef` works on: classes, subs and objects. -/
structure World where
  isa : List (Package × List Package)
  subs : List ((Package × String) × NamedSub)
  objects : List Blessed

/-- `Affix` imports the function. SOURCE: Affix.pm:34, Type.pm:52, Struct.pm:11, Union.pm:11,
Enum.pm:103 -/
def loadedSubs : List ((Package × String) × NamedSub) :=
  [((affixType, "typedef"), .ofType), ((["Affix"], "typedef"), .ofType),
    ((className "Struct", "typedef"), .ofStruct), ((className "Union", "typedef"), .ofUnion),
    ((className "Enum", "typedef"), .ofEnum)]

def parentsIn (isa : List (Package × List Package)) (c : Package) : List Package :=
  (isa.lookup c).getD []

/-- No class inherits from itself, or goes deeper than Perl looks. -/
def wellFounded (isa : List (Package × List Package)) : Bool :=
  isa.all fun entry => (linearize (parentsIn isa) maxDepth entry.1).isSome

namespace World

def parents (w : World) : Package → List Package := parentsIn w.isa

/-- The class and what it inherits from. -/
def linear (w : World) (c : Package) : Option (List Package) := linearize w.parents maxDepth c

/-- `UNIVERSAL::isa`. -/
def derives (w : World) (c d : Package) : Bool := ((w.linear c).getD []).contains d

/-- `UNIVERSAL::can`. -/
def can (w : World) (c : Package) (method : String) : Option NamedSub :=
  (w.linear c).bind fun l => l.findSome? fun d => w.subs.lookup (d, method)

/-- `*{$path} = $sub`. -/
def define (w : World) (path : List String) (s : NamedSub) : World :=
  { w with subs := (codeName path, s) :: w.subs }

/-- `@ISA = $parent`. Perl looks through what inherits from the class at once. -/
def setISA (w : World) (c parent : Package) : Except Died World :=
  let isa := (c, [parent]) :: w.isa
  if wellFounded isa then .ok { w with isa := isa } else .error .recursiveInheritance

def setObject (w : World) (id : ℕ) (o : Blessed) : World :=
  { w with objects := w.objects.set id o }

/-- The constants of an enumeration, one after the other. -/
def constants (w : World) (fqn : List String) (entries : Table) : World :=
  { w with subs := (entries.map fun entry =>
      (codeName (fqn ++ [String.ofList entry.1]),
        NamedSub.constant ⟨numeric entry.2, entry.1⟩)).reverse ++ w.subs }

/-- What a sub returns when it is called by name, if it is one `typedef` made. -/
def call (w : World) (path : List String) : Option NamedSub := w.subs.lookup (codeName path)

end World

/-! ## The methods -/

def hasColons : Text → Bool
  | 58 :: 58 :: _ => true
  | _ :: cs => hasColons cs
  | [] => false

/-- `$type->typedef($fqn)`. In the function itself the object is taken for the name and the name for
the type, which cannot be blessed; and the object cannot be assigned to as a glob, which
comes first where its text has colons. -/
def runTypedef (w : World) (id : ℕ) (o : Blessed) (fqn : List String) :
    NamedSub → Except Died World
  | .ofStruct | .ofUnion | .accessor _ | .constant _ => .ok w
  | .ofEnum =>
    match o.subtype with
    | .enum (.hash entries) => .ok (w.constants fqn entries)
    | .undef => .ok (w.setObject id { o with subtype := .enum (.hash []) })
    | _ => .error .notHash
  | .ofType => .error (if hasColons o.str then .notGlob else .cantBless)

/-- `$type->typedef($fqn) if $type->can('typedef')`. -/
def callTypedef (w : World) (id : ℕ) (o : Blessed) (fqn : List String) : Except Died World :=
  match w.can o.package "typedef" with
  | some method => runTypedef w id o fqn method
  | none => .ok w

/-! ## The function -/

/-- `$name =~ /::/ ? $name : [caller]->[0] . '::' . $name`. -/
def fullName (caller name : List String) : List String :=
  if 1 < name.length then name else caller ++ name

def joinColons : List String → Text
  | [] => []
  | [s] => text s
  | s :: ss => text s ++ text "::" ++ joinColons ss

def typedefText (name : List String) (stringify : Text) : Text :=
  text "typedef " ++
    (if 1 < name.length then text "'" ++ joinColons name ++ text "'" else joinColons name) ++
    text " => " ++ stringify

/-- The object once it is blessed into its new class. -/
def Blessed.named (o : Blessed) (package : Package) (name : List String) : Blessed :=
  { o with
    package := package
    typedef := some (joinColons name)
    stringify := typedefText name o.stringify }

/-- `typedef` called from a package. -/
def typedef (w : World) (caller name : List String) (id : ℕ) : Except Died World :=
  match w.objects[id]? with
  | none => .error .unknownType
  | some o =>
    if w.derives o.package affixType then do
      let fqn := fullName caller name
      let w ← (w.define fqn (.accessor id)).setISA (stash fqn) o.package
      let o := o.named (stash fqn) name
      callTypedef (w.setObject id o) id o fqn
    else .error .unknownType

end Affix.Model
