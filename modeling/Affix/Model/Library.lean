import Affix.Model.Trigger

/-!
# Opening and closing libraries

Four functions hand out and take back handles of shared libraries: `load_library`
wraps one in a Perl object, `affix` and `wrap` open one (or take it from such an
object) for a new wrapper, the destructor of a wrapper closes its library, and
`free_library` closes the library of an object. The loader counts how often each
library is open.

What the loader finds is a parameter: the library behind a path, the symbols in
it, whether the path exists, and the path `Affix::find_library` suggests.

SOURCE: Affix.cxx:24-79, Affix.cxx:140-306
-/

set_option autoImplicit false

namespace Affix.Model

/-- What the loader and the file system answer. -/
structure Loader where
  dlopen : Option (List UInt8) → Option ℕ
  dlsym : ℕ → List UInt8 → Option ℕ
  stat : List UInt8 → Bool
  find_library : List UInt8 → List UInt8

/-- An `Affix::Lib` object. `freed` records that `free_library` was called on it; the
object itself keeps its handle. -/
structure LibObject where
  handle : ℕ
  freed : Bool

/-- The libraries: how often each is open, and the objects and wrappers made so far. A
wrapper that was destroyed leaves a hole. -/
structure LibState where
  count : ℕ → ℕ
  libs : List LibObject
  wrappers : List (Option Fiction)

def LibState.initial : LibState := ⟨fun _ => 0, [], []⟩

/-- `dlopen` counts up what it opened. SOURCE: Affix.cxx:18-25 -/
def load_library (env : Loader) (st : LibState) (path : Option (List UInt8)) :
    Option ℕ × LibState :=
  match env.dlopen path with
  | some lib => (some lib, { st with count := Function.update st.count lib (st.count lib + 1) })
  | none => (none, st)

/-- `dlclose` counts down, and does nothing to a library that is not open.
SOURCE: Affix.cxx:27-29 -/
def free_library (st : LibState) (lib : ℕ) : LibState :=
  { st with count := Function.update st.count lib (st.count lib - 1) }

/-- The first argument of `affix`: an explicit `undef`, an object, or a path. -/
inductive LibArg where
  | undef
  | lib (object : ℕ)
  | path (p : List UInt8)

/-- The second argument: a string, or an array whose elements are strings or not. -/
inductive SymbolArg where
  | str (s : List UInt8)
  | array (elems : List (Option (List UInt8)))

/-- The library an argument stands for, opened if it has to be.
SOURCE: Affix.cxx:148-180 -/
def resolveLib (env : Loader) (st : LibState) : LibArg → Option ℕ × LibState
  | .undef => load_library env st none
  | .lib i => (st.libs[i]?.map LibObject.handle, st)
  | .path p =>
    match load_library env st (some p) with
    | (some lib, st') => (some lib, st')
    | (none, st') =>
      if env.stat p then (none, st') else load_library env st' (some (env.find_library p))

def symbolName : SymbolArg → Except Halt (List UInt8)
  | .str s => .ok s
  | .array elems =>
    if elems.length ≠ 2 then .error (.croak (text "Expected a symbol and name"))
    else
      match elems.head?.join with
      | some s => .ok s
      | none => .error (.croak (text "Undefined symbol name"))

/-- `Affix_fiction`: a wrapper, or the reason there is none, and the libraries after it.
SOURCE: Affix.cxx:140-280 -/
def Affix_fiction (env : Loader) (st : LibState) (libArg : LibArg) (symArg : SymbolArg)
    (argtypes : Option (List TypeObj)) (restype : Option TypeObj) :
    Except Halt Fiction × LibState :=
  match resolveLib env st libArg with
  | (none, st') => (.error (.croak (text "Failed to load library")), st')
  | (some lib, st') =>
    match symbolName symArg with
    | .error e => (.error e, st')
    | .ok symbol =>
      match env.dlsym lib symbol with
      | none =>
        (.error (.croak (text "Failed to locate entry point named " ++
          symbol.map UInt8.toNat)), st')
      | some entryPoint => (.ok (wrapper (some lib) entryPoint symbol argtypes restype), st')

/-- What a Perl program does with libraries. -/
inductive LibOp where
  | load_library (path : Option (List UInt8))
  | affix (libArg : LibArg) (symArg : SymbolArg) (argtypes : Option (List TypeObj))
      (restype : Option TypeObj)
  | destroy (wrapper : ℕ)
  | free_library (object : ℕ)

/-- One operation. It needs the object or the wrapper it names; a wrapper is destroyed
once. SOURCE: Affix.cxx:49-79, Affix.cxx:140-306 -/
inductive LibStep (env : Loader) : LibState → LibOp → LibState → Prop
  | load {st st' : LibState} {path : Option (List UInt8)} {lib : ℕ}
      (h : Model.load_library env st path = (some lib, st')) :
      LibStep env st (.load_library path) { st' with libs := st'.libs ++ [⟨lib, false⟩] }
  | loadFailed {st st' : LibState} {path : Option (List UInt8)}
      (h : Model.load_library env st path = (none, st')) :
      LibStep env st (.load_library path) st'
  | affix {st st' : LibState} {libArg : LibArg} {symArg : SymbolArg}
      {argtypes : Option (List TypeObj)} {restype : Option TypeObj} {f : Fiction}
      (harg : ∀ i, libArg = .lib i → i < st.libs.length)
      (h : Affix_fiction env st libArg symArg argtypes restype = (.ok f, st')) :
      LibStep env st (.affix libArg symArg argtypes restype)
        { st' with wrappers := st'.wrappers ++ [some f] }
  | affixFailed {st st' : LibState} {libArg : LibArg} {symArg : SymbolArg}
      {argtypes : Option (List TypeObj)} {restype : Option TypeObj} {e : Halt}
      (harg : ∀ i, libArg = .lib i → i < st.libs.length)
      (h : Affix_fiction env st libArg symArg argtypes restype = (.error e, st')) :
      LibStep env st (.affix libArg symArg argtypes restype) st'
  | destroy {st : LibState} {w : ℕ} {f : Fiction} (h : st.wrappers[w]? = some (some f)) :
      LibStep env st (.destroy w)
        { (match f.lib with
            | some lib => Model.free_library st lib
            | none => st) with wrappers := st.wrappers.set w none }
  | free {st : LibState} {i : ℕ} {o : LibObject} (h : st.libs[i]? = some o) :
      LibStep env st (.free_library i)
        { Model.free_library st o.handle with libs := st.libs.set i { o with freed := true } }

end Affix.Model
