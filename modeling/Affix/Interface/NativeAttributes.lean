import Affix.Model.NativeAttributes

/-!
# What the attributes of a native sub say

A sub is declared in a package with the library it is in, the symbol it stands for, if it
is not its name, and its signature. Each is an attribute, and an attribute is a text: the
parts of it may be of any characters as long as they can be told from what is around
them.
-/

set_option autoImplicit false

namespace Affix.Interface.Native

open Affix.Foundation Affix.Model Affix.Model.Native

/-- White space. -/
structure Blank where
  chars : Chars
  space : ∀ c ∈ chars, isSpace c = true

/-- A text that is not empty and does not start with white space. -/
structure Word where
  chars : Chars
  nonempty : chars ≠ []
  head : ∀ c ∈ chars.head?, isSpace c = false

/-- A version, with the white space before it. -/
structure Version where
  blank : Blank
  word : Word

/-- A library: its name, without quotes, between quotes or on its own, where it has no comma,
and its version. -/
structure Library where
  quote : Option Char
  name : Chars
  version : Option Version
  isQuote : ∀ q ∈ quote, isQuote q = true
  noQuote : ∀ c ∈ name, Native.isQuote c = false
  noComma : quote = none → ',' ∉ name

/-- What follows the name and its quote. -/
def Library.afterName (l : Library) : Chars :=
  (l.version.map fun v => ',' :: v.blank.chars ++ v.word.chars).getD [] ++ [')']

def Library.text (l : Library) : Chars :=
  '(' :: l.quote.toList ++ l.name ++ l.quote.toList ++ l.afterName

/-- A symbol, between quotes or on its own. -/
structure Symbol where
  quote : Option Char
  name : Word
  isQuote : ∀ q ∈ quote, isQuote q = true
  noQuote : ∀ c ∈ name.chars, Native.isQuote c = false

def Symbol.text (s : Symbol) : Chars :=
  '(' :: s.quote.toList ++ s.name.chars ++ s.quote.toList ++ [')']

/-- A signature: a list in brackets, an arrow, and the type of the result. -/
structure Signature where
  before : Blank
  inner : Chars
  after : Blank
  behind : Blank
  ret : Word

/-- The list, with its brackets. -/
def Signature.args (g : Signature) : Chars := '[' :: g.inner ++ [']']

def Signature.text (g : Signature) : Chars :=
  '(' :: g.before.chars ++ g.args ++ g.after.chars ++ ['=', '>'] ++ g.behind.chars ++
    g.ret.chars ++ [')']

inductive Attribute where
  | native (library : Option Library)
  | symbol (s : Symbol)
  | signature (g : Signature)

namespace Attribute

/-- The attribute as it is written. -/
def text : Attribute → Chars
  | native none => ['N', 'a', 't', 'i', 'v', 'e']
  | native (some l) => ['N', 'a', 't', 'i', 'v', 'e'] ++ l.text
  | symbol s => ['S', 'y', 'm', 'b', 'o', 'l'] ++ s.text
  | signature g => ['S', 'i', 'g', 'n', 'a', 't', 'u', 'r', 'e'] ++ g.text

/-- What the attribute is about: the library, the symbol or the signature. -/
def kind : Attribute → Fin 3
  | native _ => 0
  | symbol _ => 1
  | signature _ => 2

end Attribute

/-- A sub that is declared native. Its package may be in others, `outer::inner::…`. -/
structure Declaration where
  outer : Chars
  inner : List Chars
  name : Chars
  parts : ∀ part ∈ outer :: name :: inner, ':' ∉ part ∧ '\n' ∉ part
  attributes : List Attribute
  kinds : (attributes.map Attribute.kind).Nodup

namespace Declaration

def package (d : Declaration) : Chars := d.outer ++ d.inner.flatMap fun part => [':', ':'] ++ part

def full_name (d : Declaration) : Chars := d.package ++ [':', ':'] ++ d.name

end Declaration

/-- **The record says what was declared**: the library and its version, which is `0` if there is
none, the signature, and the symbol or else the name of the sub. -/
structure Records (d : Declaration) (r : Record) : Prop where
  native : ∀ library, .native library ∈ d.attributes →
    r.library = library.map Library.name ∧
      r.library_version =
        some (((library.bind Library.version).map fun v => v.word.chars).getD ['0'])
  symbol : ∀ s, .symbol s ∈ d.attributes → r.symbol = some s.name.chars
  unnamed : (∀ s, .symbol s ∉ d.attributes) → r.symbol = some d.name
  signature : ∀ g, .signature g ∈ d.attributes → r.signature = g.args ∧ r.ret = g.ret.chars

end Affix.Interface.Native
