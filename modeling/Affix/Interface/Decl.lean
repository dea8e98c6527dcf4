import Mathlib.Data.List.Forall2
import Affix.Model.TypeObject

/-!
# Type expressions

A Perl program writes types as nested calls of the constructor functions:
`Struct[ a => Int, b => Pointer[ Char ] ]`. A `Decl` is such an expression and
`Decl.type` is its value, the type object the calls build or the error they die
with. Statements about "every type" quantify over these expressions.
-/

set_option autoImplicit false

namespace Affix.Interface

open Affix.Model

/-- The qualifiers that may wrap a type. -/
inductive Qualifier where
  | Const | Volatile | Restrict
deriving DecidableEq, Repr

/-- What a qualifier does to a type object. -/
def Qualifier.apply : Qualifier → TypeObj → TypeObj
  | .Const => TypeObj.Const
  | .Volatile => TypeObj.Volatile
  | .Restrict => TypeObj.Restrict

inductive Decl where
  | scalar (kind : Kind)
  | qualified (q : Qualifier) (d : Decl)
  | pointer (d : Decl)
  | array (d : Decl) (length : ℕ)
  | codeRef (args : List Decl) (ret : Decl)
  | struct (fields : List (PerlStr × Decl))
  | union (fields : List (PerlStr × Decl))

namespace Decl

/-- The type object an expression evaluates to. -/
def type : Decl → Except TypeError TypeObj
  | scalar k => .ok (scalarType k)
  | qualified q d => d.type.map q.apply
  | pointer d => d.type.map Pointer
  | array d n => d.type.map (ArrayType · n)
  | codeRef args ret =>
    match types args with
    | .error e => .error e
    | .ok as => ret.type.map (CodeRef as)
  | struct fields =>
    match memberTypes fields with
    | .error e => .error e
    | .ok ts => Struct ts
  | union fields => (memberTypes fields).map Union
where
  types : List Decl → Except TypeError (List TypeObj)
    | [] => .ok []
    | d :: ds =>
      match d.type with
      | .error e => .error e
      | .ok t => (types ds).map (t :: ·)
  memberTypes : List (PerlStr × Decl) → Except TypeError (List (PerlStr × TypeObj))
    | [] => .ok []
    | (name, d) :: fs =>
      match d.type with
      | .error e => .error e
      | .ok t => (memberTypes fs).map ((name, t) :: ·)

theorem map_eq_ok {ε α β : Type} {f : α → β} {x : Except ε α} {y : β} :
    x.map f = .ok y ↔ ∃ a, x = .ok a ∧ f a = y := by
  cases x <;> simp [Except.map]

theorem types_cons_eq_ok {d : Decl} {ds : List Decl} {ts : List TypeObj} :
    type.types (d :: ds) = .ok ts ↔
      ∃ t ts', d.type = .ok t ∧ type.types ds = .ok ts' ∧ t :: ts' = ts := by
  rw [type.types]
  cases d.type with
  | error e => simp
  | ok t => simp [map_eq_ok]

theorem memberTypes_cons_eq_ok {f : PerlStr × Decl} {fs : List (PerlStr × Decl)}
    {ts : List (PerlStr × TypeObj)} :
    type.memberTypes (f :: fs) = .ok ts ↔
      ∃ t ts', f.2.type = .ok t ∧ type.memberTypes fs = .ok ts' ∧ (f.1, t) :: ts' = ts := by
  obtain ⟨name, d⟩ := f
  rw [type.memberTypes]
  cases d.type with
  | error e => simp
  | ok t => simp [map_eq_ok]

theorem type_codeRef_eq_ok {args : List Decl} {ret : Decl} {t : TypeObj} :
    (codeRef args ret).type = .ok t ↔
      ∃ as r, type.types args = .ok as ∧ ret.type = .ok r ∧ CodeRef as r = t := by
  rw [type]
  cases type.types args with
  | error e => simp
  | ok as => simp [map_eq_ok]

theorem type_struct_eq_ok {fields : List (PerlStr × Decl)} {t : TypeObj} :
    (struct fields).type = .ok t ↔ ∃ ts, type.memberTypes fields = .ok ts ∧ Struct ts = .ok t := by
  rw [type]
  cases type.memberTypes fields <;> simp

/-- A value of a member list is a list of values of the members. -/
theorem memberTypes_forall₂ {fields : List (PerlStr × Decl)} {ts : List (PerlStr × TypeObj)}
    (h : type.memberTypes fields = .ok ts) :
    List.Forall₂ (fun f p => p.1 = f.1 ∧ f.2.type = .ok p.2) fields ts := by
  induction fields generalizing ts with
  | nil =>
    rw [type.memberTypes, Except.ok.injEq] at h
    exact h ▸ .nil
  | cons f fs ih =>
    obtain ⟨t, ts', ht, hts, rfl⟩ := memberTypes_cons_eq_ok.mp h
    exact .cons ⟨rfl, ht⟩ (ih hts)

def string : Decl := pointer (qualified .Const (scalar .Char))

end Decl

end Affix.Interface
