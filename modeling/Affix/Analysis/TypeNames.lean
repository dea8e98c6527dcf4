import Affix.Interface.TypeName

/-!
# What naming a type does

Whether a name is good for a type hangs on which sub named `typedef` comes first on the
way up from the new class. Structs, unions and enumerations of numbers have one of
their own. All other types have only that of `Affix::Type`, which is the exported
function and takes the object for a name; so no other type can be named, unless the
name brings a method along.
-/

set_option autoImplicit false

namespace Affix.Analysis

open Affix.Foundation Affix.Model Affix.Interface

/-! ## Classes -/

theorem parentsIn_cons (isa : List (Package × List Package)) (c q : Package) :
    parentsIn ((c, [q]) :: isa) = reparent (parentsIn isa) c q := by
  funext d
  rw [parentsIn, List.lookup_cons, reparent]
  by_cases hd : d = c
  · simp [hd]
  · have hne : (d == c) = false := by simpa using hd
    rw [hne, Function.update_of_ne hd]
    rfl

theorem linearize_of_wellFounded {isa : List (Package × List Package)}
    (h : wellFounded isa = true) (c : Package) :
    ∃ l, linearize (parentsIn isa) maxDepth c = some l := by
  cases hc : isa.lookup c with
  | none =>
    have hparents : parentsIn isa c = [] := by
      rw [parentsIn, hc]
      rfl
    refine ⟨[c], linearize_succ.mpr ⟨[], ?_, rfl⟩⟩
    rw [hparents]
    exact List.Forall₂.nil
  | some ps =>
    obtain ⟨before, after, hsplit, -⟩ := List.lookup_eq_some_iff.mp hc
    have hentry := List.all_eq_true.mp h (c, ps) (by simp [hsplit])
    exact Option.isSome_iff_exists.mp hentry

theorem derives_iff {w : World} {c d : Package} {l : List Package} (h : w.linear c = some l) :
    w.derives c d = true ↔ Inherits w.parents c d := by
  rw [World.derives, h, Option.getD_some, List.contains_iff_mem]
  exact mem_linearize h

/-! ## Reachable programs -/

/-- The last parts of the names of the classes the constructors bless into. -/
def builtClasses : List String :=
  ["Pointer", "CodeRef", "Struct", "Union", "Enum", "IntEnum", "UIntEnum", "CharEnum", "StdString",
    "Void", "SV", "Bool", "Char", "SChar", "UChar", "WChar", "Short", "UShort", "Int", "UInt",
    "Long", "ULong", "LongLong", "ULongLong", "Float", "Double", "Size_t"]

/-- Every class has a linearization, every object is a type, and there is a method to find. -/
structure Sound (w : World) : Prop where
  linear : ∀ c, ∃ l, w.linear c = some l
  classes : ∀ c ∈ builtClasses, Inherits w.parents (className c) affixType
  types : ∀ o ∈ w.objects, Inherits w.parents o.package affixType
  method : ∃ s, w.subs.lookup (affixType, "typedef") = some s

theorem Sound.derives {w : World} (h : Sound w) {o : Blessed} (ho : o ∈ w.objects) :
    w.derives o.package affixType = true := by
  obtain ⟨l, hl⟩ := h.linear o.package
  exact (derives_iff hl).mpr (h.types o ho)

theorem wellFounded_loadedISA : wellFounded loadedISA = true := by
  decide +kernel

theorem package_of_built {o : Blessed} (h : Built o) :
    ∃ c ∈ builtClasses, o.package = className c := by
  cases h with
  | type t =>
    cases t with
    | scalar k s =>
      refine ⟨k.name, ?_, rfl⟩
      cases k <;> decide
    | pointer => exact ⟨"Pointer", by decide, rfl⟩
    | codeRef => exact ⟨"CodeRef", by decide, rfl⟩
    | struct => exact ⟨"Struct", by decide, rfl⟩
    | union => exact ⟨"Union", by decide, rfl⟩
  | enum t =>
    refine ⟨Blessed.packageName t.package, ?_, rfl⟩
    cases t.package <;> decide
  | stdString => exact ⟨"StdString", by decide, rfl⟩

theorem inherits_loaded {c : String} (hc : c ∈ builtClasses) :
    Inherits (parentsIn loadedISA) (className c) affixType := by
  have hall : ∀ c ∈ builtClasses, ((linearize (parentsIn loadedISA) maxDepth (className c)).getD
      []).contains affixType = true := by
    decide +kernel
  obtain ⟨l, hl⟩ := linearize_of_wellFounded wellFounded_loadedISA (className c)
  have hmem := hall c hc
  rw [hl, Option.getD_some, List.contains_iff_mem] at hmem
  exact (mem_linearize hl).mp hmem

theorem sound_loaded : Sound ⟨loadedISA, loadedSubs, []⟩ := by
  refine ⟨linearize_of_wellFounded wellFounded_loadedISA, fun _ => inherits_loaded, ?_,
    ⟨.ofType, rfl⟩⟩
  intro o ho
  cases ho

/-! ## One call -/

theorem lookup_append_of_some {α β : Type} [BEq α] {k : α} {v : β} {l : List (α × β)}
    (h : l.lookup k = some v) (more : List (α × β)) : ∃ v', (more ++ l).lookup k = some v' := by
  rw [List.lookup_append, h]
  cases more.lookup k with
  | none => exact ⟨v, rfl⟩
  | some v' => exact ⟨v', rfl⟩

section

variable {w : World} {caller name : List String} {id : ℕ} {o : Blessed}

/-- `typedef` up to the method. -/
theorem typedef_eq (ho : w.objects[id]? = some o) (hisa : w.derives o.package affixType = true)
    (hwf : wellFounded ((stash (fullName caller name), [o.package]) :: w.isa) = true)
    {method : NamedSub} (hcan : (reblessed w (fullName caller name) name id o).can
      (stash (fullName caller name)) "typedef" = some method) :
    typedef w caller name id = runTypedef (reblessed w (fullName caller name) name id o) id
      (o.named (stash (fullName caller name)) name) (fullName caller name) method := by
  have hset : (w.define (fullName caller name) (.accessor id)).setISA
      (stash (fullName caller name)) o.package = .ok { w with
        isa := (stash (fullName caller name), [o.package]) :: w.isa
        subs := (codeName (fullName caller name), .accessor id) :: w.subs } := by
    rw [World.setISA, World.define]
    exact if_pos hwf
  rw [typedef, ho]
  simp only [hisa, if_true, bind, Except.bind, hset]
  show callTypedef (reblessed w (fullName caller name) name id o) id
    (o.named (stash (fullName caller name)) name) (fullName caller name) = _
  have hfound : (reblessed w (fullName caller name) name id o).can
      (o.named (stash (fullName caller name)) name).package "typedef" = some method := hcan
  rw [callTypedef, hfound]

theorem typedef_recursive (ho : w.objects[id]? = some o)
    (hisa : w.derives o.package affixType = true)
    (hwf : ¬ wellFounded ((stash (fullName caller name), [o.package]) :: w.isa) = true) :
    typedef w caller name id = .error .recursiveInheritance := by
  have hset : (w.define (fullName caller name) (.accessor id)).setISA
      (stash (fullName caller name)) o.package = .error .recursiveInheritance := by
    rw [World.setISA, World.define]
    exact if_neg hwf
  rw [typedef, ho]
  simp only [hisa, if_true, bind, Except.bind, hset]

/-- The new class inherits what the old one did. -/
theorem reblessed_inherits (id : ℕ)
    (hwf : wellFounded ((stash (fullName caller name), [o.package]) :: w.isa) = true)
    {d : Package} (hd : Inherits w.parents o.package d) :
    Inherits (reblessed w (fullName caller name) name id o).parents
      (stash (fullName caller name)) d := by
  obtain ⟨l, hl⟩ := linearize_of_wellFounded hwf (stash (fullName caller name))
  rw [parentsIn_cons] at hl
  have hkept := inherits_reparent hl hd
  rw [World.parents, reblessed, parentsIn_cons]
  exact hkept

/-- There is always a method: that of `Affix::Type`, if no other. -/
theorem reblessed_can (id : ℕ) (hw : Sound w) (ho : o ∈ w.objects)
    (hwf : wellFounded ((stash (fullName caller name), [o.package]) :: w.isa) = true) :
    ∃ method, (reblessed w (fullName caller name) name id o).can (stash (fullName caller name))
      "typedef" = some method := by
  obtain ⟨l, hl⟩ := linearize_of_wellFounded hwf (stash (fullName caller name))
  have hmem : affixType ∈ l := (mem_linearize hl).mpr (reblessed_inherits id hwf (hw.types o ho))
  obtain ⟨s, hs⟩ := hw.method
  obtain ⟨s', hs'⟩ := lookup_append_of_some hs [(codeName (fullName caller name), .accessor id)]
  have hlin : (reblessed w (fullName caller name) name id o).linear (stash (fullName caller name)) =
    some l := hl
  rw [World.can, hlin, Option.bind_some]
  apply Option.isSome_iff_exists.mp
  rw [List.findSome?_isSome_iff]
  exact ⟨affixType, hmem, Option.isSome_iff_exists.mpr ⟨s', hs'⟩⟩

/-- What the methods leave alone. -/
theorem runTypedef_ok {w' : World} {fqn : List String} {method : NamedSub}
    (h : runTypedef w id o fqn method = .ok w') :
    w'.isa = w.isa ∧ (∃ more, w'.subs = more ++ w.subs) ∧
      ∀ x ∈ w'.objects, x ∈ w.objects ∨ x.package = o.package := by
  have hsame : w = w' → w'.isa = w.isa ∧ (∃ more, w'.subs = more ++ w.subs) ∧
      ∀ x ∈ w'.objects, x ∈ w.objects ∨ x.package = o.package := by
    rintro rfl
    exact ⟨rfl, ⟨[], rfl⟩, fun x hx => Or.inl hx⟩
  cases method with
  | ofStruct | ofUnion | accessor | constant => exact hsame (Except.ok.inj h)
  | ofType => cases h
  | ofEnum =>
    rw [runTypedef] at h
    split at h
    · rw [← Except.ok.inj h]
      exact ⟨rfl, ⟨_, rfl⟩, fun x hx => Or.inl hx⟩
    · rw [← Except.ok.inj h]
      refine ⟨rfl, ⟨[], rfl⟩, ?_⟩
      intro x hx
      exact (List.mem_or_eq_of_mem_set hx).imp (fun hx => hx) fun hx => by rw [hx]
    · cases h

/-- A call that returns. -/
theorem typedef_ok (hw : Sound w) {w' : World} (h : typedef w caller name id = .ok w') :
    ∃ o method, w.objects[id]? = some o ∧
      wellFounded ((stash (fullName caller name), [o.package]) :: w.isa) = true ∧
      (reblessed w (fullName caller name) name id o).can (stash (fullName caller name)) "typedef" =
        some method ∧
      runTypedef (reblessed w (fullName caller name) name id o) id
        (o.named (stash (fullName caller name)) name) (fullName caller name) method = .ok w' := by
  cases ho : w.objects[id]? with
  | none =>
    rw [typedef, ho] at h
    cases h
  | some o =>
    have hmem := List.mem_of_getElem? ho
    have hisa := hw.derives hmem
    by_cases hwf : wellFounded ((stash (fullName caller name), [o.package]) :: w.isa) = true
    · obtain ⟨method, hcan⟩ := reblessed_can id hw hmem hwf
      rw [typedef_eq ho hisa hwf hcan] at h
      exact ⟨o, method, rfl, hwf, hcan, h⟩
    · rw [typedef_recursive ho hisa hwf] at h
      cases h

/-- A call that returns leaves a sound program. -/
theorem Sound.typedef (hw : Sound w) {w' : World} (h : typedef w caller name id = .ok w') :
    Sound w' := by
  obtain ⟨o, method, ho, hwf, -, hrun⟩ := typedef_ok hw h
  obtain ⟨hisa, ⟨more, hsubs⟩, hobjects⟩ := runTypedef_ok hrun
  have hmem := List.mem_of_getElem? ho
  have hparents : w'.parents = (reblessed w (fullName caller name) name id o).parents := by
    rw [World.parents, World.parents, hisa]
  have hnew := reblessed_inherits id hwf (hw.types o hmem)
  have hold : ∀ c, Inherits w.parents c affixType → Inherits w'.parents c affixType := by
    intro c hc
    rw [hparents]
    rw [World.parents, reblessed, parentsIn_cons] at hnew ⊢
    exact inherits_reparent_of hc hnew
  refine ⟨?_, fun c hc => hold _ (hw.classes c hc), ?_, ?_⟩
  · intro c
    rw [World.linear, hparents]
    exact linearize_of_wellFounded hwf c
  · intro x hx
    have hobj : x.package = stash (fullName caller name) ∨ x ∈ w.objects := by
      rcases hobjects x hx with hx' | hx'
      · rcases List.mem_or_eq_of_mem_set hx' with hold | rfl
        · exact Or.inr hold
        · exact Or.inl rfl
      · exact Or.inl hx'
    rcases hobj with hpackage | hx'
    · rw [hpackage, hparents]
      exact hnew
    · exact hold _ (hw.types x hx')
  · obtain ⟨s, hs⟩ := hw.method
    rw [hsubs]
    exact lookup_append_of_some (lookup_append_of_some hs [_]).choose_spec more

end

theorem sound_of_reachable {w : World} (h : Reachable w) : Sound w := by
  induction h with
  | loaded => exact sound_loaded
  | build _ ho ih =>
    refine ⟨ih.linear, ih.classes, ?_, ih.method⟩
    intro x hx
    rcases List.mem_append.mp hx with hold | hnew
    · exact ih.types x hold
    · obtain ⟨c, hc, hpackage⟩ := package_of_built ho
      rw [List.mem_singleton.mp hnew, hpackage]
      exact ih.classes c hc
  | typedef _ hw' ih => exact ih.typedef hw'

/-! ## Which names are good -/

section

variable {w : World} {fqn : List String} {id : ℕ} {o : Blessed}

/-- Constants take the place of a sub exactly when one has its name. -/
theorem call_constants_iff {entries : Table} (hcall : w.call fqn = some (.accessor id)) :
    (w.constants fqn entries).call fqn = some (.accessor id) ↔
      ∀ entry ∈ entries, codeName (fqn ++ [String.ofList entry.1]) ≠ codeName fqn := by
  rw [World.call, World.constants, List.lookup_append]
  constructor
  · intro h entry hentry hname
    cases hmore : (entries.map fun entry =>
        (codeName (fqn ++ [String.ofList entry.1]),
          NamedSub.constant ⟨numeric entry.2, entry.1⟩)).reverse.lookup (codeName fqn) with
    | none =>
      have hne := List.lookup_eq_none_iff.mp hmore (codeName (fqn ++ [String.ofList entry.1]), _)
        (List.mem_reverse.mpr (List.mem_map.mpr ⟨entry, hentry, rfl⟩))
      simp [hname] at hne
    | some s =>
      rw [hmore] at h
      obtain ⟨before, after, hsplit, -⟩ := List.lookup_eq_some_iff.mp hmore
      have hmem : (codeName fqn, s) ∈ (entries.map fun entry =>
          (codeName (fqn ++ [String.ofList entry.1]),
            NamedSub.constant ⟨numeric entry.2, entry.1⟩)) := by
        rw [← List.mem_reverse, hsplit]
        simp
      obtain ⟨x, -, hx⟩ := List.mem_map.mp hmem
      obtain ⟨-, rfl⟩ := Prod.mk.inj hx
      cases h
  · intro h
    have hnone : (entries.map fun entry =>
        (codeName (fqn ++ [String.ofList entry.1]),
          NamedSub.constant ⟨numeric entry.2, entry.1⟩)).reverse.lookup (codeName fqn) = none := by
      apply List.lookup_eq_none_iff.mpr
      intro x hx
      obtain ⟨entry, hentry, rfl⟩ := List.mem_map.mp (List.mem_reverse.mp hx)
      simpa using (h entry hentry).symm
    rw [hnone]
    exact hcall

theorem reblessed_object (fqn name : List String) (ho : w.objects[id]? = some o) :
    (reblessed w fqn name id o).objects[id]? = some (o.named (stash fqn) name) := by
  rw [reblessed, List.getElem?_set_self (List.getElem?_eq_some_iff.mp ho).1]

theorem reblessed_call (w : World) (fqn name : List String) (id : ℕ) (o : Blessed) :
    (reblessed w fqn name id o).call fqn = some (.accessor id) :=
  List.lookup_cons_self

theorem sameType_named (o : Blessed) (package : Package) (name : List String) :
    SameType o (o.named package name) := ⟨rfl, rfl, rfl, rfl, rfl, rfl⟩

/-- A method that does no harm leaves the name good. -/
theorem runTypedef_of_behaved {w' : World} {method : NamedSub} (h : Behaved o fqn method)
    (hcall : w'.call fqn = some (.accessor id)) :
    ∃ w'', runTypedef w' id o fqn method = .ok w'' ∧ w''.isa = w'.isa ∧
      w''.objects = w'.objects ∧ w''.call fqn = some (.accessor id) := by
  cases method with
  | ofStruct | ofUnion | accessor | constant => exact ⟨w', rfl, rfl, rfl, hcall⟩
  | ofType => exact h.elim
  | ofEnum =>
    obtain ⟨entries, hsubtype, hnames⟩ := h
    refine ⟨w'.constants fqn entries, ?_, rfl, rfl, (call_constants_iff hcall).mpr hnames⟩
    rw [runTypedef, hsubtype]

/-- And a name is good only after such a method. -/
theorem behaved_of_names {w' w'' : World} {method : NamedSub} {o' : Blessed}
    (hrun : runTypedef w' id o fqn method = .ok w'') (hobject : w'.objects[id]? = some o)
    (hcall : w'.call fqn = some (.accessor id)) (hback : w''.call fqn = some (.accessor id))
    (hafter : w''.objects[id]? = some o') (hsame : o'.subtype = o.subtype) :
    Behaved o fqn method := by
  cases method with
  | ofStruct | ofUnion | accessor | constant => trivial
  | ofType => cases hrun
  | ofEnum =>
    rw [runTypedef] at hrun
    split at hrun
    · rename_i entries hsubtype
      refine ⟨entries, hsubtype, (call_constants_iff hcall).mp ?_⟩
      rw [Except.ok.inj hrun]
      exact hback
    · -- the slot was undefined and holds a hash now
      rename_i hsubtype
      rw [← Except.ok.inj hrun, World.setObject,
        List.getElem?_set_self (List.getElem?_eq_some_iff.mp hobject).1] at hafter
      rw [← Option.some.inj hafter, hsubtype] at hsame
      cases hsame
    · cases hrun

end

theorem names_iff_nameable {w : World} (hsound : Sound w) {caller name : List String} {id : ℕ}
    {o : Blessed} (ho : w.objects[id]? = some o) :
    (∃ w', typedef w caller name id = .ok w' ∧ Names w w' (fullName caller name) id) ↔
      Nameable w (fullName caller name) name id o := by
  have hmem := List.mem_of_getElem? ho
  have hobj := reblessed_object (fullName caller name) name ho
  have hcall := reblessed_call w (fullName caller name) name id o
  constructor
  · rintro ⟨w', h, hnames⟩
    obtain ⟨o₁, method, ho₁, hwf, hcan, hrun⟩ := typedef_ok hsound h
    obtain rfl : o = o₁ := Option.some.inj (ho.symm.trans ho₁)
    obtain ⟨o₂, o', ho₂, hafter, hsame, -⟩ := hnames.unchanged
    obtain rfl : o = o₂ := Option.some.inj (ho.symm.trans ho₂)
    have hbehaved := behaved_of_names hrun hobj hcall hnames.handsBack hafter hsame.subtype
    exact ⟨hwf, method, hcan, by cases method <;> exact hbehaved⟩
  · rintro ⟨hwf, method, hcan, hbehaved⟩
    have hnamed : Behaved (o.named (stash (fullName caller name)) name) (fullName caller name)
        method := by
      cases method <;> exact hbehaved
    obtain ⟨w', hrun, hisa, hobjects, hback⟩ := runTypedef_of_behaved hnamed hcall
    have hcalled := (typedef_eq ho (hsound.derives hmem) hwf hcan).trans hrun
    refine ⟨w', hcalled, hback, ⟨o, o.named (stash (fullName caller name)) name, ho, ?_,
      sameType_named o _ name, ?_⟩⟩
    · rw [hobjects]
      exact hobj
    · intro c hc
      obtain ⟨l, hl⟩ := hsound.linear o.package
      obtain ⟨l', hl'⟩ := (hsound.typedef hcalled).linear (stash (fullName caller name))
      apply (derives_iff hl').mpr
      rw [World.parents, hisa]
      exact reblessed_inherits id hwf ((derives_iff hl).mp hc)

/-! ## A new name in a new program -/

/-- A class nobody has heard of. -/
def Unknown (p : Package) : Prop := ∀ entry ∈ loadedISA, p ≠ entry.1 ∧ p ∉ entry.2

theorem not_inherits_unknown {p c : Package} (h : Unknown p) (hc : c ≠ p) :
    ¬ Inherits (parentsIn loadedISA) c p := by
  intro hinherits
  rcases Relation.ReflTransGen.cases_tail hinherits with heq | ⟨d, -, hedge⟩
  · exact hc heq.symm
  · rw [parentsIn] at hedge
    cases hd : loadedISA.lookup d with
    | none =>
      rw [hd] at hedge
      cases hedge
    | some ps =>
      rw [hd] at hedge
      obtain ⟨before, after, hsplit, -⟩ := List.lookup_eq_some_iff.mp hd
      exact (h (d, ps) (by simp [hsplit])).2 hedge

/-- The sub `typedef` that comes first from a class a constructor blesses into. -/
def ownMethod (c : String) : NamedSub :=
  if c = "Struct" then .ofStruct
  else if c = "Union" then .ofUnion
  else if c = "Enum" ∨ c = "IntEnum" ∨ c = "UIntEnum" ∨ c = "CharEnum" then .ofEnum
  else .ofType

theorem loaded_methods : ∀ c ∈ builtClasses,
    className c ∈ loadedISA.map Prod.fst ∧
    ∃ l, linearize (parentsIn loadedISA) 100 (className c) = some l ∧
      l.findSome? (fun d => loadedSubs.lookup (d, "typedef")) = some (ownMethod c) := by
  have hall : ∀ c ∈ builtClasses, className c ∈ loadedISA.map Prod.fst ∧
      (linearize (parentsIn loadedISA) 100 (className c)).bind
        (fun l => l.findSome? fun d => loadedSubs.lookup (d, "typedef")) = some (ownMethod c) := by
    decide +kernel
  intro c hc
  obtain ⟨hkey, hfind⟩ := hall c hc
  obtain ⟨l, hl, hmethod⟩ := Option.bind_eq_some_iff.mp hfind
  exact ⟨hkey, l, hl, hmethod⟩

theorem linearize_reblessed {p : Package} (h : Unknown p) {c : String} (hc : c ∈ builtClasses) :
    ∃ l, linearize (parentsIn ((p, [className c]) :: loadedISA)) maxDepth p = some (p :: l) ∧
      l.findSome? (fun d => loadedSubs.lookup (d, "typedef")) = some (ownMethod c) := by
  obtain ⟨hkey, l, hl, hmethod⟩ := loaded_methods c hc
  obtain ⟨entry, hentry, hfst⟩ := List.mem_map.mp hkey
  have hne : className c ≠ p := hfst ▸ (h entry hentry).1.symm
  refine ⟨l, ?_, hmethod⟩
  rw [parentsIn_cons, maxDepth]
  refine linearize_succ.mpr ⟨[l], ?_, by rw [List.flatten_singleton]⟩
  have hparents : reparent (parentsIn loadedISA) p (className c) p = [className c] := by
    simp [reparent]
  rw [hparents]
  exact List.Forall₂.cons (linearize_reparent_of_not_inherits (not_inherits_unknown h hne) hl)
    List.Forall₂.nil

theorem wellFounded_unknown {p : Package} (h : Unknown p) {c : String} (hc : c ∈ builtClasses) :
    wellFounded ((p, [className c]) :: loadedISA) = true := by
  apply List.all_eq_true.mpr
  intro entry hentry
  rcases List.mem_cons.mp hentry with rfl | hold
  · obtain ⟨l, hl, -⟩ := linearize_reblessed h hc
    rw [hl]
    rfl
  · obtain ⟨l, hl⟩ := linearize_of_wellFounded wellFounded_loadedISA entry.1
    have hkept := linearize_reparent_of_not_inherits (q := className c)
      (not_inherits_unknown h (h entry hold).1.symm) hl
    rw [parentsIn_cons, hkept]
    rfl

theorem className_inj {c d : String} (h : className c = className d) : c = d := by
  rw [className, className, List.append_right_inj] at h
  exact List.head_eq_of_cons_eq h

/-- Only enumerations have a hash, and their method comes first. -/
theorem ownMethod_of_hash {o : Blessed} (h : Built o) {c : String}
    (hpackage : o.package = className c) {entries : Table}
    (hsubtype : o.subtype = .enum (.hash entries)) : ownMethod c = .ofEnum := by
  cases h with
  | type t => cases t <;> cases hsubtype
  | enum t =>
    rw [← className_inj hpackage]
    cases t.package <;> decide
  | stdString => cases hsubtype

/-- In a program that has named nothing yet, a new name is good for the structs, the unions and
the enumerations with a hash, and for no other type. -/
theorem names_iff_of_unknown {w : World} (hsound : Sound w) (hisa : w.isa = loadedISA)
    (hsubs : w.subs = loadedSubs) (caller name : List String) (id : ℕ) {o : Blessed}
    (ho : w.objects[id]? = some o) (hbuilt : Built o)
    (hnew : Unknown (stash (fullName caller name)))
    (hroot : stash (fullName caller name) ≠ stash (fullName caller name).dropLast)
    (hname : (codeName (fullName caller name)).2 ≠ "typedef") :
    (∃ w', typedef w caller name id = .ok w' ∧ Names w w' (fullName caller name) id) ↔
      o.package = className "Struct" ∨ o.package = className "Union" ∨
        ∃ entries, o.subtype = .enum (.hash entries) := by
  rw [names_iff_nameable hsound ho]
  generalize fullName caller name = fqn at hnew hroot hname ⊢
  obtain ⟨c, hc, hpackage⟩ := package_of_built hbuilt
  obtain ⟨l, hl, hmethod⟩ := linearize_reblessed hnew hc
  have hcan : (reblessed w fqn name id o).can (stash fqn) "typedef" = some (ownMethod c) := by
    have hlinear : (reblessed w fqn name id o).linear (stash fqn) = some (stash fqn :: l) := by
      rw [World.linear, World.parents, reblessed, hisa, hpackage]
      exact hl
    have hlookup : ∀ d : Package,
        ((codeName fqn, NamedSub.accessor id) :: w.subs).lookup (d, "typedef") =
          loadedSubs.lookup (d, "typedef") := by
      intro d
      have hne : ((d, "typedef") == codeName fqn) = false := by
        apply beq_false_of_ne
        intro heq
        exact hname (heq ▸ rfl)
      rw [List.lookup_cons, hne, hsubs]
    have hown : loadedSubs.lookup (stash fqn, "typedef") = none := by
      apply List.lookup_eq_none_iff.mpr
      intro entry hentry
      have hkey : ∀ entry ∈ loadedSubs, entry.1.1 ∈ loadedISA.map Prod.fst := by
        decide +kernel
      obtain ⟨known, hknown, hfst⟩ := List.mem_map.mp (hkey entry hentry)
      rw [bne_iff_ne]
      intro heq
      exact (hnew known hknown).1 (hfst ▸ (congrArg Prod.fst heq))
    rw [World.can, hlinear, Option.bind_some]
    show (stash fqn :: l).findSome? (fun d =>
      ((codeName fqn, NamedSub.accessor id) :: w.subs).lookup (d, "typedef")) = _
    simp only [hlookup, List.findSome?_cons, hown]
    exact hmethod
  have hwf : wellFounded ((stash fqn, [o.package]) :: w.isa) = true := by
    rw [hisa, hpackage]
    exact wellFounded_unknown hnew hc
  have hkeys : ∀ key, codeName (fqn ++ [key]) ≠ codeName fqn := by
    intro key heq
    have hstash : stash (fqn ++ [key]).dropLast = stash fqn.dropLast := congrArg Prod.fst heq
    rw [List.dropLast_concat] at hstash
    exact hroot hstash
  constructor
  · rintro ⟨-, method, hfound, hbehaved⟩
    obtain rfl : ownMethod c = method := Option.some.inj (hcan.symm.trans hfound)
    rw [hpackage]
    unfold ownMethod at hbehaved
    split_ifs at hbehaved with hstruct hunion henum
    · exact Or.inl (congrArg className hstruct)
    · exact Or.inr (Or.inl (congrArg className hunion))
    · obtain ⟨entries, hsubtype, -⟩ := hbehaved
      exact Or.inr (Or.inr ⟨entries, hsubtype⟩)
    · exact hbehaved.elim
  · intro h
    refine ⟨hwf, ownMethod c, hcan, ?_⟩
    rcases h with hstruct | hunion | ⟨entries, hsubtype⟩
    · rw [className_inj (hpackage.symm.trans hstruct)]
      trivial
    · rw [className_inj (hpackage.symm.trans hunion)]
      trivial
    · have henum : ownMethod c = .ofEnum := ownMethod_of_hash hbuilt hpackage hsubtype
      rw [henum]
      exact ⟨entries, hsubtype, fun entry _ => hkeys (String.ofList entry.1)⟩

/-- `typedef N => Int`: the object goes in as the name, and the name cannot be blessed. -/
theorem not_names_int :
    ¬ ∃ w', typedef ⟨loadedISA, loadedSubs, [.ofType (scalarType .Int)]⟩ ["main"] ["N"] 0 =
        .ok w' ∧
      Names ⟨loadedISA, loadedSubs, [.ofType (scalarType .Int)]⟩ w' ["main", "N"] 0 := by
  intro h
  have hsound := sound_of_reachable (Reachable.build Reachable.loaded (.type (scalarType .Int)))
  have hnew : Unknown (stash (fullName ["main"] ["N"])) := by
    unfold Unknown
    decide +kernel
  have hiff := names_iff_of_unknown hsound rfl rfl ["main"] ["N"] 0 rfl
    (.type (scalarType .Int)) hnew (by decide) (by decide)
  rcases hiff.mp h with hstruct | hunion | ⟨entries, hsubtype⟩
  · exact absurd hstruct (by decide +kernel)
  · exact absurd hunion (by decide +kernel)
  · cases hsubtype

/-- In every program, a name is good for a type exactly when its class can be put under that of
the type and the first sub `typedef` on the way up does no harm. -/
theorem typedef_names_iff {w : World} (hw : Reachable w) {caller name : List String} {id : ℕ}
    {o : Blessed} (ho : w.objects[id]? = some o) :
    (∃ w', typedef w caller name id = .ok w' ∧ Names w w' (fullName caller name) id) ↔
      Nameable w (fullName caller name) name id o :=
  names_iff_nameable (sound_of_reachable hw) ho

/-- `typedef N => Enum[ 'A', [ B => 5 ] ]`. -/
theorem typedef_names_enum : ∃ t, Enum [⟨['A'], none⟩, ⟨['B'], some ['5']⟩] = .ok t ∧
    ∃ w', typedef ⟨loadedISA, loadedSubs, [.ofEnum t]⟩ ["main"] ["N"] 0 = .ok w' ∧
      Names ⟨loadedISA, loadedSubs, [.ofEnum t]⟩ w' (fullName ["main"] ["N"]) 0 := by
  obtain ⟨t, ht, hpackage, henum⟩ : ∃ t, Enum [⟨['A'], none⟩, ⟨['B'], some ['5']⟩] = .ok t ∧
      t.package = .Enum ∧ t.enum = .hash [(['A'], ['0']), (['B'], ['5'])] := by
    refine ⟨_, rfl, rfl, ?_⟩
    decide +kernel
  have hclass : (Blessed.ofEnum t).package = className "Enum" := by
    rw [Blessed.ofEnum, hpackage]
    rfl
  refine ⟨t, ht, (typedef_names_iff (Reachable.build Reachable.loaded (.enum t)) rfl).mpr ?_⟩
  refine ⟨?_, .ofEnum, ?_, _, congrArg SubtypeSlot.enum henum, ?_⟩
  · show wellFounded ((stash (fullName ["main"] ["N"]), [(Blessed.ofEnum t).package]) ::
      loadedISA) = true
    rw [hclass]
    decide +kernel
  · -- which sub is found depends on the packages only, never on the objects
    show (linearize (parentsIn ((stash (fullName ["main"] ["N"]),
      [(Blessed.ofEnum t).package]) :: loadedISA)) maxDepth (stash (fullName ["main"] ["N"]))).bind
        (fun l => l.findSome? fun d => List.lookup (d, "typedef")
          ((codeName (fullName ["main"] ["N"]), NamedSub.accessor 0) :: loadedSubs)) =
      some NamedSub.ofEnum
    rw [hclass]
    decide +kernel
  · decide +kernel

end Affix.Analysis
