import Affix.Analysis.Calls
import Mathlib.Data.List.Forall2

/-!
# One entry for each argument

A wrapper with a list of argument types pushes an entry for each argument, converted
for its type, or stops; only a parameter of type `Void` gets none. A wrapper made
with `undef` for the list goes by the flags of the scalar instead, and its chain of
tests has no last branch: an argument that carries no number is passed over, and
every argument after it moves up.

SOURCE: Affix.cxx:336-486
-/

set_option autoImplicit false

namespace Affix.Analysis

open Affix.Foundation Affix.Model

/-- The wrappers there are: those of `Affix_fiction`, and those made for a function that C
handed over. -/
inductive Wraps : Option (List TypeObj) → Fiction → Prop
  | affix (lib : Option ℕ) (entryPoint : ℕ) (symbol : List UInt8)
      (argtypes : Option (List TypeObj)) (restype : Option TypeObj) :
      Wraps argtypes (wrapper lib entryPoint symbol argtypes restype)
  | pointer (ts : List TypeObj) (r : TypeObj) (ptr : ℕ) :
      Wraps (some ts) (pointerFiction ts r ptr)

/-- The arguments an entry is due for, each with its declared type where it has one. -/
def owed : Option (List TypeObj) → List SV → List (Option TypeObj × SV)
  | some ts, items => ((ts.map some).zip items).filter fun p => p.1.map TypeObj.flag ≠ some .void
  | none, items => items.map (none, ·)

/-- An entry of the call machine is the one for the argument: the argument converted for its
type, in the heap the arguments before it left, or by its own flags. -/
def EntryOf : Option TypeObj × SV → DCArg → Prop
  | (some t, sv), a => ∃ h h', argument t sv h = .ok (some a, h')
  | (none, sv), a => bareArgument sv = some a

/-- Every argument has its type, if there are types, and what was pushed is one entry for each
argument, in their order. -/
def OneEach (argtypes : Option (List TypeObj)) (items : List SV) (pushed : List DCArg) : Prop :=
  (∀ ts ∈ argtypes, ts.length = items.length) ∧
    List.Forall₂ EntryOf (owed argtypes items) pushed

/-- What the C function is called with. -/
def PushedBefore (inMemory : DCaggr → Bool) (f : Fiction) (items : List SV) (st : Interp)
    (pushed : List DCArg) : Prop :=
  ∃ s₁, prepare inMemory f items st = .ok ((), s₁) ∧ s₁.vm.args = pushed

/-! ## The typed loop -/

/-- A conversion pushes nothing for `Void` and something for any other type. -/
theorem argument_eq_ok {t : TypeObj} {sv : SV} {h h' : Heap} {o : Option DCArg}
    (hrun : argument t sv h = .ok (o, h')) : o = none ↔ t.flag = .void := by
  have hmapped : ∀ {x : Eff DCArg}, (some <$> x) h = .ok (o, h') → o ≠ none := by
    intro x hx
    obtain ⟨a, -, rfl⟩ := Exec.map_eq_ok.mp hx
    exact Option.some_ne_none a
  have hpointer : ∀ {x : Eff ℕ}, ((some ∘ dcArgPointer) <$> x) h = .ok (o, h') → o ≠ none := by
    intro x hx
    obtain ⟨a, -, rfl⟩ := Exec.map_eq_ok.mp hx
    exact Option.some_ne_none _
  cases t with
  | scalar k s =>
    cases k
    case Void =>
      cases hrun
      exact iff_of_true rfl rfl
    case SChar | Char | UChar | WChar => exact iff_of_false (hmapped hrun) nofun
    case SV => cases hrun
    all_goals
      cases hrun
      exact iff_of_false nofun nofun
  | pointer s t => exact iff_of_false (hpointer hrun) nofun
  | codeRef s as sig r => exact iff_of_false (hpointer hrun) nofun
  | struct s ts => exact iff_of_false (hmapped hrun) nofun
  | union s ts => cases hrun

theorem owed_cons (t : TypeObj) (ts : List TypeObj) (sv : SV) (items : List SV) :
    owed (some (t :: ts)) (sv :: items) =
      if t.flag = .void then owed (some ts) items
      else (some t, sv) :: owed (some ts) items := by
  by_cases hflag : t.flag = .void <;> simp [owed, hflag]

/-- **The typed loop** pushes one entry for each argument, less those for `Void`. -/
theorem convertAll_entries {ts : List TypeObj} :
    ∀ {items : List SV} {h h' : Heap} {as : List DCArg},
      convertAll ts items h = .ok (as, h') →
        List.Forall₂ EntryOf (owed (some ts) items) as := by
  induction ts with
  | nil =>
    intro items h h' as hrun
    cases hrun
    exact .nil
  | cons t ts ih =>
    intro items h h' as hrun
    cases items with
    | nil =>
      cases hrun
      exact .nil
    | cons sv items =>
      obtain ⟨o, h₁, ho, hrest⟩ := Exec.bind_eq_ok.mp hrun
      obtain ⟨rest, h₂, has, hpure⟩ := Exec.bind_eq_ok.mp hrest
      cases hpure
      have htail := ih has
      have hvoid := argument_eq_ok ho
      rw [owed_cons]
      by_cases hflag : t.flag = .void
      · rw [hvoid.mpr hflag, if_pos hflag]
        exact htail
      · obtain ⟨a, ha⟩ := Option.ne_none_iff_exists'.mp fun hnone => hflag (hvoid.mp hnone)
        rw [ha] at ho ⊢
        rw [if_neg hflag]
        exact .cons ⟨h, h₁, ho⟩ htail

/-! ## The untyped loop -/

theorem bareLoop_eq (items : List SV) : ∀ st : Interp,
    (items.forM fun sv => onVM (push (bareArgument sv)) : Run Unit) st =
      .ok ((), { st with vm := { st.vm with
        args := st.vm.args ++ items.filterMap bareArgument } }) := by
  induction items with
  | nil =>
    intro st
    simp [pure]
  | cons sv items ih =>
    intro st
    refine (Exec.bind_of_ok (onVM_eq_ok (u := ()).mpr rfl)).trans ?_
    rw [ih, push_eq]
    cases hb : bareArgument sv <;> simp [hb]

/-- What carries a number is pushed. -/
theorem bareArgument_isSome (sv : SV) :
    (bareArgument sv).isSome = (sv.SvNOK || sv.SvIOK) := by
  unfold bareArgument
  cases sv with
  | val s =>
    rcases s with ⟨iv, nv, pv, hrange, hdef⟩
    cases nv with
    | some b => rfl
    | none =>
      cases iv with
      | none => rfl
      | some v =>
        by_cases hbig : (SV.val ⟨some v, none, pv, hrange, hdef⟩).SvUOK = true
        · simp [hbig, SV.SvNOK, SV.SvIOK]
        · simp [hbig, SV.SvNOK, SV.SvIOK]
  | _ => rfl

/-- **The untyped loop** pushes one entry for each argument when each carries a number. -/
theorem bare_entries_iff (items : List SV) :
    List.Forall₂ EntryOf (owed none items) (items.filterMap bareArgument) ↔
      ∀ sv ∈ items, sv.SvNOK = true ∨ sv.SvIOK = true := by
  have hcarries : ∀ sv : SV, (sv.SvNOK = true ∨ sv.SvIOK = true) ↔
      (bareArgument sv).isSome = true := by
    intro sv
    rw [bareArgument_isSome, Bool.or_eq_true]
  constructor
  · intro hone sv hsv
    -- an argument passed over leaves the list of entries short
    have hlen : (items.filterMap bareArgument).length = items.length := by
      rw [← hone.length_eq, owed, List.length_map]
    rw [hcarries]
    exact List.filterMap_length_eq_length.mp hlen sv hsv
  · intro hall
    induction items with
    | nil => exact .nil
    | cons sv items ih =>
      obtain ⟨hsv, hrest⟩ := List.forall_mem_cons.mp hall
      obtain ⟨a, ha⟩ := Option.isSome_iff_exists.mp ((hcarries sv).mp hsv)
      rw [List.filterMap_cons_some ha]
      exact .cons ha (ih hrest)

/-! ## The call -/

/-- A call that came back was prepared. -/
theorem prepare_of_trigger {inMemory : DCaggr → Bool} {f : Fiction} {callee : Callee}
    {items : List SV} {st st' : Interp} {c : Option ℕ}
    (hcall : Fiction_trigger inMemory f callee items st = .ok (c, st')) :
    ∃ s₁, prepare inMemory f items st = .ok ((), s₁) := by
  obtain ⟨u, s₁, hprep, -⟩ := Exec.bind_eq_ok.mp hcall
  exact ⟨s₁, hprep⟩

/-- What a prepared call holds, by the list of types of its wrapper. -/
theorem pushed_of_prepare {argtypes : Option (List TypeObj)} {f : Fiction} (hf : Wraps argtypes f)
    {inMemory : DCaggr → Bool} {items : List SV} {st s₁ : Interp}
    (hprep : prepare inMemory f items st = .ok ((), s₁)) :
    (∃ ts h, argtypes = some ts ∧ ts.length = items.length ∧
        convertAll ts items st.heap = .ok (s₁.vm.args, h)) ∨
      (argtypes = none ∧ s₁.vm.args = items.filterMap bareArgument) := by
  have htyped : ∀ {ts : List TypeObj}, f.signature = some (ts.map TypeObj.flag) →
      f.argtypes = some ts → ts.length = items.length ∧
        ∃ h, convertAll ts items st.heap = .ok (s₁.vm.args, h) := by
    intro ts hsig hts
    obtain ⟨hlen, b, as, h, -, has, rfl⟩ := (prepare_eq_ok hsig hts).mp hprep
    rw [List.length_map] at hlen
    exact ⟨hlen.symm, h, has⟩
  cases hf with
  | pointer ts r ptr =>
    obtain ⟨hlen, h, has⟩ := htyped rfl rfl
    exact Or.inl ⟨ts, h, rfl, hlen, has⟩
  | affix lib entryPoint symbol argtypes restype =>
    cases argtypes with
    | some ts =>
      obtain ⟨hlen, h, has⟩ := htyped rfl rfl
      exact Or.inl ⟨ts, h, rfl, hlen, has⟩
    | none =>
      obtain ⟨u₁, s, hreset, hrest⟩ := Exec.bind_eq_ok.mp hprep
      obtain ⟨u₂, s', hbegin, hargs⟩ := Exec.bind_eq_ok.mp hrest
      rw [onVM_eq_ok] at hreset
      obtain ⟨b, -, rfl⟩ := beginCall_eq_ok.mp hbegin
      have hloop := (bareLoop_eq items _).symm.trans hargs
      cases hloop
      subst hreset
      exact Or.inr ⟨rfl, by simp [DCCallVM.dcReset]⟩

/-- **One entry for each argument** is pushed exactly when the wrapper has a list of types or
each argument carries a number. SOURCE: Affix.cxx:336-486 -/
theorem pushed_oneEach_iff {argtypes : Option (List TypeObj)} {f : Fiction}
    (hf : Wraps argtypes f) {inMemory : DCaggr → Bool} {callee : Callee} {items : List SV}
    {st st' : Interp} {c : Option ℕ}
    (hcall : Fiction_trigger inMemory f callee items st = .ok (c, st')) :
    ∃ pushed, PushedBefore inMemory f items st pushed ∧ (OneEach argtypes items pushed ↔
      argtypes.isSome = true ∨ ∀ sv ∈ items, sv.SvNOK = true ∨ sv.SvIOK = true) := by
  obtain ⟨s₁, hprep⟩ := prepare_of_trigger hcall
  refine ⟨s₁.vm.args, ⟨s₁, hprep, rfl⟩, ?_⟩
  rcases pushed_of_prepare hf hprep with ⟨ts, h, rfl, hlen, has⟩ | ⟨rfl, hargs⟩
  · exact iff_of_true ⟨by simpa using hlen, convertAll_entries has⟩ (Or.inl rfl)
  · unfold OneEach
    rw [hargs, bare_entries_iff]
    simp

/-- A C function that looks at nothing. -/
def ignores : Callee := fun _ h => .ok (⟨0, 0, 0, []⟩, h)

/-- The interpreter before any call. -/
def idle : Interp := ⟨.empty, ⟨false, []⟩, [], none⟩

/-- A wrapper of a function nothing is known of. -/
def untyped : Fiction := wrapper none 1 [] none none

/-- Two numbers. SOURCE: t/001_internals.t:32-35 -/
theorem pushed_oneEach_numbers :
    ∃ pushed, PushedBefore (fun _ => false) untyped [.int 3 (by decide), .int 4 (by decide)] idle
      pushed ∧ (OneEach none [.int 3 (by decide), .int 4 (by decide)] pushed ↔
        (none : Option (List TypeObj)).isSome = true ∨
          ∀ sv ∈ [SV.int 3 (by decide), .int 4 (by decide)], sv.SvNOK = true ∨ sv.SvIOK = true) :=
  pushed_oneEach_iff (.affix none 1 [] none none)
    (show Fiction_trigger (fun _ => false) untyped ignores _ idle = .ok (_, _) from rfl)

/-- A string and a number. -/
def stringAndNumber : List SV := [.val (.ofStr (.ofBytes [0x61])), .int 5 (by decide)]

/-- The call goes through, and the number takes the place of the string. -/
theorem pushed_notOneEach_string :
    (∃ r, Fiction_trigger (fun _ => false) untyped ignores stringAndNumber idle = .ok r) ∧
      ¬ ∃ pushed, PushedBefore (fun _ => false) untyped stringAndNumber idle pushed ∧
        OneEach none stringAndNumber pushed := by
  refine ⟨⟨_, rfl⟩, ?_⟩
  rintro ⟨pushed, ⟨s₁, hprep, rfl⟩, -, hentries⟩
  cases hprep
  exact absurd hentries.length_eq (by decide)

end Affix.Analysis
