import Mathlib.Data.List.Find
import Affix.Interface.LibrarySearch

/-!
# When a search gives the right library

The loop over the files that were found stores every one of them under one version, and
only the first stays. With a version asked for that is the first file, whatever its own
version is; without, it is the first file that has a version, and the file before it is
stored under none, where the next search finds it. So what a search gives depends on the
searches before it only for a name whose first file has no version and a later one has.

SOURCE: Unix.pm:70-91
-/

set_option autoImplicit false

namespace Affix.Analysis.Unix

open Affix.Foundation Affix.Model Affix.Model.Unix Affix.Interface.Unix

variable (t : Tools)

/-- The candidate that comes first, of those with a version when there are any and none was
asked for. -/
def foremost (name version : Chars) : Option Chars :=
  let versioned := (matching t name).find? fun lib => matched t name lib ≠ some []
  if version = [] then versioned.or (matching t name).head? else (matching t name).head?

/-- Where the hash would hold a candidate that is found without a version. -/
def ownKey (name version lib : Chars) : Chars :=
  if version = [] then (matched t name lib).getD [] else version

/-- Where the search looks, the hash holds no other file. -/
def Undisturbed (cache : Cache) (name version lib : Chars) : Prop :=
  ∀ other, (cache name version).or (cache name (ownKey t name version lib)) = some other →
    other = lib

/-- The version of the first candidate that has one, where the very first has none. -/
def laterVersion (name : Chars) : Option Chars :=
  if (matching t name).head?.bind (matched t name) = some [] then
    ((matching t name).find? fun lib => matched t name lib ≠ some []).bind (matched t name)
  else none

/-- Among the searches made before there is one for a name and a version. -/
def Earlier (past : List (Chars × Option Chars)) (name version : Chars) : Prop :=
  ∃ call ∈ past, ¬ IsLibrary t call.1 ∧ resolved t call.1 = name ∧ call.2.getD [] = version

/-- **The condition on the searches before**: where the first candidate has no version and a later
one has, a search without a version comes after none without one and after none with that one,
and a search with it comes after none without. -/
def Unhindered (past : List (Chars × Option Chars)) (name version : Chars) : Prop :=
  ∀ w, laterVersion t name = some w →
    (version = [] → ¬ Earlier t past name [] ∧ ¬ Earlier t past name w) ∧
      (version = w → ¬ Earlier t past name [])

/-- **The condition on a search**: the name is that of a library that has the version asked for,
if one was; or the foremost candidate, if there is any, has it, or the highest one when none was
asked for, and the searches before leave it alone. -/
def Suits (past : List (Chars × Option Chars)) (name : Chars) (version : Option Chars) : Prop :=
  if IsLibrary t name then version.getD [] ≠ [] → Carries (resolved t name) (version.getD [])
  else ∀ lib, foremost t (resolved t name) (version.getD []) = some lib →
    (version.getD [] ≠ [] → Carries lib (version.getD [])) ∧
      (version.getD [] = [] → Highest (matching t (resolved t name)) lib) ∧
      Unhindered t past (resolved t name) (version.getD [])

/-- All searches of a run meet the condition, each with those before it. -/
def AllSuit : List (Chars × Option Chars) → List (Chars × Option Chars) → Prop
  | _, [] => True
  | past, (name, version) :: calls =>
    Suits t past name version ∧ AllSuit ((name, version) :: past) calls

/-! ## The loop -/

variable {t} {name : Chars}

@[simp] theorem keep_self (cache : Cache) (version lib : Chars) :
    cache.keep name version lib name version = some ((cache name version).getD lib) := by
  simp [Cache.keep]

theorem keep_of_ne (cache : Cache) {version v n : Chars} (lib : Chars)
    (h : ¬ (n = name ∧ v = version)) : cache.keep name version lib n v = cache n v :=
  if_neg h

/-- What is there stays. -/
theorem keep_of_hit {cache : Cache} {version other : Chars} (h : cache name version = some other)
    (lib : Chars) : cache.keep name version lib = cache := by
  funext n v
  by_cases hplace : n = name ∧ v = version
  · obtain ⟨rfl, rfl⟩ := hplace
    rw [keep_self, h, Option.getD_some]
  · rw [keep_of_ne _ _ hplace]

@[simp] theorem keep_keep (cache : Cache) (version lib lib' : Chars) :
    (cache.keep name version lib).keep name version lib' = cache.keep name version lib :=
  keep_of_hit (keep_self cache version lib) lib'

/-- The first of some files is kept. -/
def keepFirst (cache : Cache) (name version : Chars) : List Chars → Cache
  | [] => cache
  | lib :: _ => cache.keep name version lib

/-- The first of some files is kept if it has no version. -/
def keepBare (t : Tools) (cache : Cache) (name : Chars) : List Chars → Cache
  | [] => cache
  | lib :: _ => if matched t name lib = some [] then cache.keep name [] lib else cache

/-- With a version the loop keeps the first file that matches. -/
theorem fill_version {version : Chars} (hversion : version ≠ []) (libs : List Chars) :
    ∀ cache : Cache, fill t name libs version cache =
      (version, keepFirst cache name version
        (libs.filter fun lib => (matched t name lib).isSome)) := by
  induction libs with
  | nil => exact fun cache => rfl
  | cons lib libs ih =>
    intro cache
    rw [fill]
    cases hm : matched t name lib with
    | none =>
      simp only [hm, List.filter_cons, Option.isSome_none]
      exact ih cache
    | some own =>
      simp only [hm, if_neg hversion, List.filter_cons, Option.isSome_some, if_true]
      rw [ih]
      cases libs.filter fun lib => (matched t name lib).isSome with
      | nil => rfl
      | cons lib' libs' => exact congrArg (Prod.mk version) (keep_keep cache version lib lib')

/-- Without a version the loop keeps the first file that matches, if it has no version, and the
first that has one, under it. -/
theorem fill_bare (libs : List Chars) : ∀ cache : Cache,
    fill t name libs [] cache =
      match (libs.filter fun lib => (matched t name lib).isSome).find?
          fun lib => matched t name lib ≠ some [] with
      | some lib => ((matched t name lib).getD [],
          (keepBare t cache name (libs.filter fun lib => (matched t name lib).isSome)).keep name
            ((matched t name lib).getD []) lib)
      | none => ([], keepBare t cache name
          (libs.filter fun lib => (matched t name lib).isSome)) := by
  induction libs with
  | nil => exact fun cache => rfl
  | cons lib libs ih =>
    intro cache
    rw [fill]
    cases hm : matched t name lib with
    | none =>
      simp only [hm, List.filter_cons, Option.isSome_none]
      exact ih cache
    | some own =>
      simp only [hm, List.filter_cons, Option.isSome_some, if_true]
      by_cases hown : own = []
      · -- the file has no version, and the loop goes on without one
        subst hown
        have hbare : keepBare t (cache.keep name [] lib) name
            (libs.filter fun lib => (matched t name lib).isSome) = cache.keep name [] lib := by
          cases libs.filter fun lib => (matched t name lib).isSome with
          | nil => rfl
          | cons lib' libs' =>
            rw [keepBare, keep_keep]
            split <;> rfl
        rw [List.find?_cons_of_neg (by simp [hm]), keepBare, if_pos hm]
        refine (ih _).trans ?_
        rw [hbare]
      · rw [List.find?_cons_of_pos (by simp [hm, hown]), keepBare, if_neg (by simp [hm, hown]),
          fill_version hown]
        simp only [hm, Option.getD_some]
        cases libs.filter fun lib => (matched t name lib).isSome with
        | nil => rfl
        | cons lib' libs' => exact congrArg (Prod.mk own) (keep_keep cache own lib lib')

/-! ## One search -/

theorem foremost_eq_none_iff {version : Chars} :
    foremost t name version = none ↔ matching t name = [] := by
  unfold foremost
  split
  · rw [Option.or_eq_none_iff, List.head?_eq_none_iff]
    exact ⟨fun h => h.2, fun h => ⟨by rw [h]; rfl, h⟩⟩
  · exact List.head?_eq_none_iff

/-- A candidate matches. -/
theorem matched_of_mem {lib : Chars} (h : lib ∈ matching t name) :
    ∃ version, matched t name lib = some version :=
  Option.isSome_iff_exists.mp (List.mem_filter.mp h).2

/-- A search that the hash does not answer. -/
theorem search_of_miss {cache : Cache} {version : Chars} (h : cache name version = none) :
    search t cache name version =
      ((fill t name ((found t name).map t.realpath) version cache).2 name
        (fill t name ((found t name).map t.realpath) version cache).1,
        (fill t name ((found t name).map t.realpath) version cache).2) := by
  unfold search
  rw [h]
  by_cases hfound : found t name = []
  · simp [hfound, fill, h]
  · simp [hfound]

/-- With a version the hash keeps the first candidate. -/
theorem search_version {version : Chars} (hversion : version ≠ []) (cache : Cache) :
    search t cache name version =
      (keepFirst cache name version (matching t name) name version,
        keepFirst cache name version (matching t name)) := by
  cases hc : cache name version with
  | none =>
    rw [search_of_miss hc, fill_version hversion]
    rfl
  | some lib =>
    have hkept : keepFirst cache name version (matching t name) = cache := by
      cases matching t name with
      | nil => rfl
      | cons lib' libs => exact keep_of_hit hc lib'
    rw [hkept, search, hc]

/-- The first candidate that has a version has it. -/
theorem matched_of_find {lib : Chars}
    (h : ((matching t name).find? fun lib => matched t name lib ≠ some []) = some lib) :
    ∃ version, matched t name lib = some version ∧ version ≠ [] := by
  obtain ⟨version, hversion⟩ := matched_of_mem (List.mem_of_find?_eq_some h)
  have hown : matched t name lib ≠ some [] := by simpa using List.find?_some h
  exact ⟨version, hversion, fun heq => hown (heq ▸ hversion)⟩

theorem keepBare_of_ne (cache : Cache) (libs : List Chars) {n v : Chars}
    (h : ¬ (n = name ∧ v = [])) : keepBare t cache name libs n v = cache n v := by
  cases libs with
  | nil => rfl
  | cons lib libs =>
    rw [keepBare]
    split
    · exact keep_of_ne _ _ h
    · rfl

/-- Without a version the hash keeps the first candidate that has one under it, and before that
the very first, if that has none. -/
theorem search_bare_of_some {cache : Cache} (h : cache name [] = none) {lib version : Chars}
    (hlib : ((matching t name).find? fun lib => matched t name lib ≠ some []) = some lib)
    (hversion : matched t name lib = some version) :
    search t cache name [] = (some ((cache name version).getD lib),
      (keepBare t cache name (matching t name)).keep name version lib) := by
  obtain ⟨version', hversion', hne⟩ := matched_of_find hlib
  obtain rfl := Option.some.inj (hversion.symm.trans hversion')
  have hfill : fill t name ((found t name).map t.realpath) [] cache =
      (version, (keepBare t cache name (matching t name)).keep name version lib) := by
    rw [fill_bare]
    unfold matching at hlib ⊢
    rw [hlib]
    simp only [hversion, Option.getD_some]
  rw [search_of_miss h, hfill]
  simp only [keep_self, keepBare_of_ne cache (matching t name) fun h => hne h.2]

theorem search_bare_of_none {cache : Cache} (h : cache name [] = none)
    (hnone : ((matching t name).find? fun lib => matched t name lib ≠ some []) = none) :
    search t cache name [] =
      (keepBare t cache name (matching t name) name [],
        keepBare t cache name (matching t name)) := by
  have hfill : fill t name ((found t name).map t.realpath) [] cache =
      ([], keepBare t cache name (matching t name)) := by
    rw [fill_bare]
    unfold matching at hnone ⊢
    rw [hnone]
  rw [search_of_miss h, hfill]

/-- **What a search gives**: what the hash holds, and else the foremost candidate, unless the
hash holds another under the version of that. -/
theorem search_fst (cache : Cache) (version : Chars) :
    (search t cache name version).1 = (cache name version).or
      ((foremost t name version).map fun lib =>
        (cache name (ownKey t name version lib)).getD lib) := by
  by_cases hversion : version = []
  · subst hversion
    cases hc : cache name [] with
    | some lib => simp [search, hc]
    | none =>
      unfold foremost ownKey
      cases hf : (matching t name).find? fun lib => matched t name lib ≠ some [] with
      | some lib =>
        obtain ⟨own, hown, -⟩ := matched_of_find hf
        rw [search_bare_of_some hc hf hown]
        simp [hown]
      | none =>
        rw [search_bare_of_none hc hf]
        cases hlibs : matching t name with
        | nil => simp [keepBare, hc]
        | cons lib libs =>
          rw [hlibs] at hf
          have hbare : matched t name lib = some [] := by
            simpa using List.find?_eq_none.mp hf lib List.mem_cons_self
          simp [keepBare, hbare, hc]
  · rw [search_version hversion, foremost, if_neg hversion]
    cases matching t name with
    | nil => simp [keepFirst]
    | cons lib libs => cases hc : cache name version <;> simp [keepFirst, hversion, hc, ownKey]

/-- A search finds the foremost candidate exactly when the hash leaves it alone. -/
theorem search_eq_foremost_iff (cache : Cache) {version lib : Chars}
    (hlib : foremost t name version = some lib) :
    (search t cache name version).1 = some lib ↔ Undisturbed t cache name version lib := by
  rw [search_fst, hlib, Option.map_some]
  unfold Undisturbed
  cases hc : cache name version with
  | some other => simp
  | none =>
    simp only [Option.none_or, Option.some.injEq]
    cases hk : cache name (ownKey t name version lib) with
    | some other => simp
    | none => simp

/-- The first search finds the foremost candidate. -/
theorem search_empty (version : Chars) :
    (search t .empty name version).1 = foremost t name version := by
  rw [search_fst]
  cases foremost t name version <;> rfl

/-! ## What the hash remembers -/

/-- Where a version is asked for, or no candidate is passed over, the foremost is the first. -/
theorem foremost_eq_head {version : Chars}
    (h : version ≠ [] ∨ laterVersion t name = none) :
    foremost t name version = (matching t name).head? := by
  unfold foremost
  by_cases hversion : version = []
  · rw [if_pos hversion]
    have hlater := h.resolve_left fun hne => hne hversion
    unfold laterVersion at hlater
    cases hlibs : matching t name with
    | nil => rfl
    | cons lib libs =>
      rw [hlibs] at hlater
      cases hf : (lib :: libs).find? fun lib => matched t name lib ≠ some [] with
      | none => rfl
      | some other =>
        by_cases hbare : matched t name lib = some []
        · obtain ⟨own, hown, -⟩ := matched_of_find (hlibs ▸ hf)
          rw [List.head?_cons, Option.bind_some, if_pos hbare, hf, Option.bind_some, hown] at hlater
          cases hlater
        · rw [List.find?_cons_of_pos (by simp [hbare])] at hf
          rw [← hf]
          rfl
  · rw [if_neg hversion]

/-- The first candidate, the first with a version, and the version. -/
theorem laterVersion_eq_some {w : Chars} (h : laterVersion t name = some w) :
    w ≠ [] ∧ ∃ bare libs lib, matching t name = bare :: libs ∧ matched t name bare = some [] ∧
      ((matching t name).find? fun lib => matched t name lib ≠ some []) = some lib ∧
      matched t name lib = some w := by
  unfold laterVersion at h
  split at h
  · rename_i hbare
    obtain ⟨bare, hhead, hbare⟩ := Option.bind_eq_some_iff.mp hbare
    obtain ⟨lib, hlib, hw⟩ := Option.bind_eq_some_iff.mp h
    obtain ⟨libs, hlibs⟩ := List.head?_eq_some_iff.mp hhead
    obtain ⟨own, hown, hne⟩ := matched_of_find hlib
    obtain rfl := Option.some.inj (hw.symm.trans hown)
    exact ⟨hne, bare, libs, lib, hlibs, hbare, hlib, hw⟩
  · cases h

/-- **The invariant** on the hash after some searches that were left alone, for one name. The
hash holds first candidates, but for the version of a later one: under that it holds the later
one from the first search without a version on. -/
structure Remembers (t : Tools) (past : List (Chars × Option Chars)) (cache : Cache)
    (name : Chars) : Prop where
  first : ∀ {v lib}, cache name v = some lib → laterVersion t name ≠ some v →
    (matching t name).head? = some lib
  unasked : ∀ {w}, laterVersion t name = some w → ¬ Earlier t past name [] →
    cache name [] = none ∧
      (∀ lib, cache name w = some lib → (matching t name).head? = some lib) ∧
      (cache name w = none ↔ ¬ Earlier t past name w)
  asked : ∀ {w}, laterVersion t name = some w → Earlier t past name [] →
    cache name [] ≠ none ∧
      cache name w = (matching t name).find? fun lib => matched t name lib ≠ some []

theorem remembers_empty : Remembers t [] .empty name := by
  have hnone : ∀ v, ¬ Earlier t [] name v := by
    rintro v ⟨call, hcall, -⟩
    cases hcall
  constructor
  · intro v lib h
    cases h
  · intro w _ _
    exact ⟨rfl, fun lib h => (by cases h), iff_of_true rfl (hnone w)⟩
  · intro w _ h
    exact absurd h (hnone [])

/-- **What the hash does to a search is decided by the searches before.** -/
theorem undisturbed_iff_unhindered {past : List (Chars × Option Chars)} {cache : Cache}
    (hcache : Remembers t past cache name) {version lib : Chars}
    (hlib : foremost t name version = some lib) :
    Undisturbed t cache name version lib ↔ Unhindered t past name version := by
  unfold Undisturbed Unhindered
  cases hlater : laterVersion t name with
  | none =>
    rw [foremost_eq_head (Or.inr hlater)] at hlib
    refine iff_of_true (fun other hother => ?_) (fun w hw => by cases hw)
    have hfirst : (matching t name).head? = some other := by
      rcases Option.or_eq_some_iff.mp hother with h | ⟨-, h⟩ <;>
        exact hcache.first h (by simp [hlater])
    exact Option.some.inj (hfirst.symm.trans hlib)
  | some w =>
    obtain ⟨hw, bare, libs, later, hlibs, hbare, hfind, hown⟩ := laterVersion_eq_some hlater
    have hne : bare ≠ later := by
      rintro rfl
      rw [hbare] at hown
      exact hw (Option.some.inj hown).symm
    have hhead : (matching t name).head? = some bare := by rw [hlibs]; rfl
    simp only [Option.some.injEq, forall_eq']
    by_cases hversion : version = []
    · subst hversion
      have hlater' : foremost t name [] = some later := by
        rw [foremost, if_pos rfl, hfind, Option.some_or]
      obtain rfl : later = lib := Option.some.inj (hlater'.symm.trans hlib)
      have hkey : ownKey t name [] later = w := by rw [ownKey, if_pos rfl, hown]; rfl
      rw [hkey]
      simp only [forall_const, hw.symm, false_imp_iff, and_true]
      constructor
      · intro hkept
        have hunasked : ¬ Earlier t past name [] := by
          intro hasked
          obtain ⟨other, hother⟩ := Option.ne_none_iff_exists'.mp (hcache.asked hlater hasked).1
          have hfirst := hcache.first hother (by rw [hlater]; simpa using hw)
          rw [hkept other (by rw [hother]; rfl)] at hfirst
          exact hne (Option.some.inj (hhead.symm.trans hfirst))
        obtain ⟨hmiss, hbares, hnone⟩ := hcache.unasked hlater hunasked
        refine ⟨hunasked, hnone.mp ?_⟩
        by_contra hsome
        obtain ⟨other, hother⟩ := Option.ne_none_iff_exists'.mp hsome
        have hfirst := hbares other hother
        rw [hkept other (by rw [hmiss, hother]; rfl)] at hfirst
        exact hne (Option.some.inj (hhead.symm.trans hfirst))
      · rintro ⟨hunasked, hunnamed⟩ other hother
        obtain ⟨hmiss, -, hnone⟩ := hcache.unasked hlater hunasked
        rw [hmiss, hnone.mpr hunnamed] at hother
        cases hother
    · rw [foremost_eq_head (Or.inl hversion), hhead] at hlib
      obtain rfl := Option.some.inj hlib
      rw [ownKey, if_neg hversion]
      simp only [hversion, false_imp_iff, true_and, Option.or_self]
      constructor
      · rintro hkept rfl hasked
        have hlater' := (hcache.asked hlater hasked).2.trans hfind
        exact hne (hkept later hlater').symm
      · intro hunasked other hother
        have hfirst : (matching t name).head? = some other := by
          by_cases hsame : version = w
          · subst hsame
            exact (hcache.unasked hlater (hunasked rfl)).2.1 other hother
          · refine hcache.first hother ?_
            rw [hlater]
            exact fun h => hsame (Option.some.inj h).symm
        exact Option.some.inj (hfirst.symm.trans hhead)

theorem earlier_cons {call : Chars × Option Chars} {past : List (Chars × Option Chars)}
    {version : Chars} : Earlier t (call :: past) name version ↔
      (¬ IsLibrary t call.1 ∧ resolved t call.1 = name ∧ call.2.getD [] = version) ∨
        Earlier t past name version := by
  unfold Earlier
  simp only [List.mem_cons, or_and_right, exists_or, exists_eq_left]

/-- A hash that is the same for a name remembers the same of it. -/
theorem Remembers.congr {past past' : List (Chars × Option Chars)} {cache cache' : Cache}
    (h : Remembers t past cache name) (hcache : cache' name = cache name)
    (hpast : ∀ v, Earlier t past' name v ↔ Earlier t past name v) :
    Remembers t past' cache' name where
  first hv := h.first (hcache ▸ hv)
  unasked hw hno := by
    rw [hcache, hpast]
    exact h.unasked hw ((hpast _).not.mp hno)
  asked hw hyes := by
    rw [hcache]
    exact h.asked hw ((hpast _).mp hyes)

theorem keepFirst_of_ne (cache : Cache) (version : Chars) (libs : List Chars) {n v : Chars}
    (h : ¬ (n = name ∧ v = version)) : keepFirst cache name version libs n v = cache n v := by
  cases libs with
  | nil => rfl
  | cons lib libs => exact keep_of_ne cache lib h

/-- A search leaves the other names alone. -/
theorem search_of_ne (cache : Cache) (version : Chars) {n : Chars} (h : n ≠ name) :
    (search t cache name version).2 n = cache n := by
  funext v
  have hne : ∀ version, ¬ (n = name ∧ v = version) := fun version hplace => h hplace.1
  by_cases hversion : version = []
  · subst hversion
    cases hc : cache name [] with
    | some lib => rw [search, hc]
    | none =>
      cases hf : (matching t name).find? fun lib => matched t name lib ≠ some [] with
      | some lib =>
        obtain ⟨own, hown, -⟩ := matched_of_find hf
        rw [search_bare_of_some hc hf hown]
        exact (keep_of_ne _ _ (hne own)).trans (keepBare_of_ne _ _ (hne []))
      | none =>
        rw [search_bare_of_none hc hf]
        exact keepBare_of_ne _ _ (hne [])
  · rw [search_version hversion]
    exact keepFirst_of_ne _ _ _ (hne version)

/-- Where no candidate is passed over a search keeps the first, if it keeps any. -/
theorem search_plain (hlater : laterVersion t name = none) (cache : Cache) (version : Chars) :
    (search t cache name version).2 = cache ∨ ∃ v lib, (matching t name).head? = some lib ∧
      (search t cache name version).2 = cache.keep name v lib := by
  cases hlibs : matching t name with
  | nil =>
    left
    by_cases hversion : version = []
    · subst hversion
      cases hc : cache name [] with
      | some lib => rw [search, hc]
      | none => rw [search_bare_of_none hc (by rw [hlibs]; rfl), hlibs, keepBare]
    · rw [search_version hversion, hlibs, keepFirst]
  | cons lib libs =>
    by_cases hversion : version = []
    · subst hversion
      cases hc : cache name [] with
      | some lib => exact Or.inl (by rw [search, hc])
      | none =>
        by_cases hbare : matched t name lib = some []
        · have hnone :
              ((matching t name).find? fun lib => matched t name lib ≠ some []) = none := by
            by_contra hsome
            obtain ⟨other, hother⟩ := Option.ne_none_iff_exists'.mp hsome
            obtain ⟨own, hown, -⟩ := matched_of_find hother
            rw [laterVersion, hother, hlibs, List.head?_cons, Option.bind_some, if_pos hbare,
              Option.bind_some, hown] at hlater
            cases hlater
          rw [search_bare_of_none hc hnone, hlibs, keepBare, if_pos hbare]
          exact Or.inr ⟨[], lib, rfl, rfl⟩
        · have hfind : ((matching t name).find? fun lib => matched t name lib ≠ some []) =
              some lib := by
            rw [hlibs, List.find?_cons_of_pos (by simp [hbare])]
          obtain ⟨own, hown, -⟩ := matched_of_find hfind
          rw [search_bare_of_some hc hfind hown, hlibs, keepBare, if_neg hbare]
          exact Or.inr ⟨own, lib, rfl, rfl⟩
    · rw [search_version hversion, hlibs, keepFirst]
      exact Or.inr ⟨version, lib, rfl, rfl⟩

/-- What is kept is what was there or what is put there. -/
theorem keep_cases {cache : Cache} {version lib v other : Chars}
    (h : cache.keep name version lib name v = some other) :
    cache name v = some other ∨ v = version ∧ other = lib := by
  by_cases hv : v = version
  · subst hv
    rw [keep_self, Option.some.injEq] at h
    cases hc : cache name v with
    | none => exact Or.inr ⟨rfl, by rw [← h, hc, Option.getD_none]⟩
    | some old => exact Or.inl (by rw [← h, hc, Option.getD_some])
  · rw [keep_of_ne _ _ fun h => hv h.2] at h
    exact Or.inl h

theorem Remembers.plain {past past' : List (Chars × Option Chars)} {cache : Cache}
    (hcache : Remembers t past cache name) (hlater : laterVersion t name = none)
    (version : Chars) : Remembers t past' (search t cache name version).2 name := by
  refine ⟨fun {v lib} h hv => ?_, fun {w} hw => ?_, fun {w} hw => ?_⟩
  · rcases search_plain hlater cache version with heq | ⟨v', lib', hhead, heq⟩
    · rw [heq] at h
      exact hcache.first h hv
    · rw [heq] at h
      rcases keep_cases h with h | ⟨-, rfl⟩
      · exact hcache.first h hv
      · exact hhead
  · rw [hlater] at hw
    cases hw
  · rw [hlater] at hw
    cases hw

/-- **A search that is left alone is remembered**, where a candidate is passed over. -/
theorem Remembers.later {past past' : List (Chars × Option Chars)} {cache : Cache}
    (hcache : Remembers t past cache name) {w version : Chars}
    (hlater : laterVersion t name = some w)
    (hpast : ∀ v, Earlier t past' name v ↔ version = v ∨ Earlier t past name v)
    (hunhindered : Unhindered t past name version) :
    Remembers t past' (search t cache name version).2 name := by
  obtain ⟨hw, bare, libs, lib, hlibs, hbare, hfind, hown⟩ := laterVersion_eq_some hlater
  have hhead : (matching t name).head? = some bare := by rw [hlibs]; rfl
  have hsame : ∀ {w'}, laterVersion t name = some w' → w' = w := fun h =>
    Option.some.inj (h.symm.trans hlater)
  obtain ⟨hwithout, hwith⟩ := hunhindered w hlater
  by_cases hversion : version = []
  · subst hversion
    obtain ⟨hunasked, hunnamed⟩ := hwithout rfl
    obtain ⟨hmiss, -, hnone⟩ := hcache.unasked hlater hunasked
    rw [search_bare_of_some hmiss hfind hown, hlibs, keepBare, if_pos hbare]
    show Remembers t past' ((cache.keep name [] bare).keep name w lib) name
    have hempty : (cache.keep name [] bare).keep name w lib name [] = some bare := by
      rw [keep_of_ne _ _ fun h => hw h.2.symm, keep_self, hmiss, Option.getD_none]
    refine ⟨fun {v other} h hv => ?_, fun _ hno => absurd ((hpast []).mpr (Or.inl rfl)) hno, ?_⟩
    · rw [hhead]
      rcases keep_cases h with h | ⟨rfl, -⟩
      · rcases keep_cases h with h | ⟨-, rfl⟩
        · exact hhead ▸ hcache.first h hv
        · rfl
      · exact absurd hlater hv
    · intro w' hw' _
      obtain rfl := hsame hw'
      rw [hempty, keep_self, keep_of_ne _ _ fun h => hw h.2, hnone.mpr hunnamed, hfind]
      exact ⟨Option.some_ne_none _, rfl⟩
  · rw [search_version hversion, hlibs, keepFirst]
    show Remembers t past' (cache.keep name version bare) name
    have hasked : Earlier t past' name [] ↔ Earlier t past name [] := by
      rw [hpast]
      exact or_iff_right hversion
    have hempty : cache.keep name version bare name [] = cache name [] :=
      keep_of_ne _ _ fun h => hversion h.2.symm
    refine ⟨fun {v other} h hv => ?_, fun {w'} hw' hno => ?_, fun {w'} hw' hyes => ?_⟩
    · rcases keep_cases h with h | ⟨-, rfl⟩
      · exact hcache.first h hv
      · exact hhead
    · obtain rfl := hsame hw'
      obtain ⟨hmiss, hbares, hnone⟩ := hcache.unasked hlater (hasked.not.mp hno)
      refine ⟨hempty.trans hmiss, fun other h => ?_, ?_⟩
      · rcases keep_cases h with h | ⟨-, rfl⟩
        · exact hbares other h
        · exact hhead
      · rw [hpast, not_or, ← hnone]
        by_cases hv : version = w'
        · subst hv
          rw [keep_self]
          exact iff_of_false (Option.some_ne_none _) fun h => h.1 rfl
        · rw [keep_of_ne _ _ fun h => hv h.2.symm]
          exact (and_iff_right hv).symm
    · obtain rfl := hsame hw'
      have hbefore := hasked.mp hyes
      have hv : version ≠ w' := fun h => hwith h hbefore
      rw [hempty, keep_of_ne _ _ fun h => hv h.2.symm]
      exact hcache.asked hlater hbefore

/-- **A search keeps the invariant**, for every name. -/
theorem remembers_search {past : List (Chars × Option Chars)} {cache : Cache}
    (hcache : ∀ n, Remembers t past cache n) {call : Chars × Option Chars}
    (hlibrary : ¬ IsLibrary t call.1)
    (hunhindered : Unhindered t past (resolved t call.1) (call.2.getD [])) (n : Chars) :
    Remembers t (call :: past) (search t cache (resolved t call.1) (call.2.getD [])).2 n := by
  by_cases hn : resolved t call.1 = n
  · subst hn
    cases hlater : laterVersion t (resolved t call.1) with
    | none => exact (hcache _).plain hlater _
    | some w =>
      refine (hcache _).later hlater (fun v => ?_) hunhindered
      rw [earlier_cons]
      simp only [hlibrary, not_false_eq_true, true_and]
  · refine (hcache n).congr (search_of_ne cache _ fun h => hn h.symm) fun v => ?_
    rw [earlier_cons]
    exact or_iff_right fun h => hn h.2.1

/-! ## What the hash holds -/

/-- **The invariant**: the hash holds candidates. -/
def Sound (t : Tools) (cache : Cache) : Prop :=
  ∀ name version lib, cache name version = some lib → lib ∈ matching t name

theorem sound_empty : Sound t .empty := by
  intro name version lib h
  cases h

theorem fill_sound (libs : List Chars) : ∀ (version : Chars) {cache : Cache}, Sound t cache →
    (∀ lib ∈ libs, (matched t name lib).isSome = true → lib ∈ matching t name) →
    Sound t (fill t name libs version cache).2 := by
  induction libs with
  | nil =>
    intro version cache hsound _
    exact hsound
  | cons lib libs ih =>
    intro version cache hsound hlibs
    have hrest : ∀ other ∈ libs, (matched t name other).isSome = true → other ∈ matching t name :=
      fun other hother => hlibs other (List.mem_cons_of_mem _ hother)
    rw [fill]
    cases hm : matched t name lib with
    | none => exact ih version hsound hrest
    | some own =>
      apply ih _ _ hrest
      intro n v other hother
      unfold Cache.keep at hother
      by_cases hplace : n = name ∧ v = if version = [] then own else version
      · rw [if_pos hplace, Option.some.injEq] at hother
        cases hc : cache n v with
        | some old =>
          rw [hc, Option.getD_some] at hother
          exact hother ▸ hsound n v old hc
        | none =>
          rw [hc, Option.getD_none] at hother
          rw [hplace.1]
          exact hother ▸ hlibs lib List.mem_cons_self (by rw [hm]; rfl)
      · rw [if_neg hplace] at hother
        exact hsound n v other hother

theorem search_sound {cache : Cache} (hsound : Sound t cache) (version : Chars) :
    Sound t (search t cache name version).2 := by
  unfold search
  cases cache name version with
  | some lib => exact hsound
  | none =>
    simp only
    split
    · exact hsound
    · apply fill_sound _ _ hsound
      intro lib hlib hmatched
      exact List.mem_filter.mpr ⟨hlib, hmatched⟩

/-- A name that is a library's is found without the hash, another is searched for. -/
theorem find_library_eq (t : Tools) (cache : Cache) (name : Chars) (version : Option Chars) :
    find_library t cache name version =
      if IsLibrary t name then (some (resolved t name), cache)
      else search t cache (resolved t name) (version.getD []) := by
  unfold find_library IsLibrary resolved
  by_cases hfile : t.isFile name = true <;> by_cases hlink : t.isLink name = true <;>
    simp [hfile, hlink]

theorem find_library_sound {cache : Cache} (hsound : Sound t cache) (name : Chars)
    (version : Option Chars) : Sound t (find_library t cache name version).2 := by
  rw [find_library_eq]
  split
  · exact hsound
  · exact search_sound hsound _

/-! ## The version in the name of a file -/

theorem afterSo_append {cs version : Chars} (h : afterSo cs = some version) (before : Chars) :
    afterSo (before ++ cs) = some version := by
  induction before with
  | nil => exact h
  | cons c before ih => rw [List.cons_append, afterSo, ih]

theorem afterSo_eq_none {cs : Chars} (h : cs.all isVersionChar = true) : afterSo cs = none := by
  induction cs with
  | nil => rfl
  | cons c cs ih =>
    rw [List.all_cons, Bool.and_eq_true] at h
    rw [afterSo, ih h.2, if_neg]
    rintro ⟨rest, heq⟩
    obtain ⟨-, hcs⟩ := List.cons.inj heq
    rw [← hcs] at h
    exact absurd h.2 (by simp [isVersionChar])

/-- The version is what follows the last `.so.`. -/
theorem fileVersion_of_suffix (before : Chars) {version : Chars} (hne : version ≠ [])
    (hversion : version.all isVersionChar = true) :
    fileVersion (before ++ ['.', 's', 'o', '.'] ++ version) = some version := by
  have hso : afterSo ('.' :: 's' :: 'o' :: '.' :: version) = some version := by
    have hdot : afterSo ('.' :: version) = none :=
      afterSo_eq_none (by rw [List.all_cons, hversion]; rfl)
    have ho : afterSo ('o' :: '.' :: version) = none := by
      rw [afterSo, hdot]
      exact if_neg (by simp)
    have hs : afterSo ('s' :: 'o' :: '.' :: version) = none := by
      rw [afterSo, ho]
      exact if_neg (by simp)
    rw [afterSo, hs]
    exact if_pos (by simp)
  have hafter := afterSo_append hso before
  rw [List.append_assoc]
  unfold fileVersion
  rw [show ['.', 's', 'o', '.'] ++ version = '.' :: 's' :: 'o' :: '.' :: version from rfl, hafter]
  simp [hne, hversion]

theorem suffix_of_afterSo {cs version : Chars} (h : afterSo cs = some version) :
    ∃ before, cs = before ++ '.' :: version := by
  induction cs with
  | nil => cases h
  | cons c cs ih =>
    rw [afterSo] at h
    cases ha : afterSo cs with
    | some other =>
      rw [ha] at h ih
      obtain ⟨before, hbefore⟩ := ih h
      exact ⟨c :: before, by rw [hbefore]; rfl⟩
    | none =>
      rw [ha] at h
      simp only at h
      split at h
      · rename_i hprefix
        obtain ⟨rest, heq⟩ := hprefix
        obtain ⟨rfl, hcs⟩ := List.cons.inj heq
        refine ⟨['.', 's', 'o'], ?_⟩
        rw [← hcs] at h ⊢
        rw [← Option.some.inj h]
        rfl
      · cases h

/-- A file whose name ends with `.so` has no version. -/
theorem fileVersion_of_so (before : Chars) : fileVersion (before ++ ['.', 's', 'o']) = none := by
  unfold fileVersion
  cases ha : afterSo (before ++ ['.', 's', 'o']) with
  | none => rfl
  | some version =>
    obtain ⟨front, hfront⟩ := suffix_of_afterSo ha
    rw [Option.filter_some, if_neg]
    intro h
    rw [Bool.and_eq_true, decide_eq_true_eq] at h
    obtain ⟨init, last, hconcat⟩ := (List.eq_nil_or_concat version).resolve_left h.1
    rw [List.concat_eq_append] at hconcat
    -- the last character of the version is the `o`
    have hsame : before ++ ['.', 's'] ++ ['o'] = front ++ '.' :: init ++ [last] := by
      simpa [hconcat] using hfront
    have hends := congrArg List.getLast? hsame
    rw [List.getLast?_concat, List.getLast?_concat] at hends
    rw [hconcat, ← Option.some.inj hends, List.all_append, Bool.and_eq_true] at h
    exact absurd h.2.2 (by decide)

/-- What a name reads as takes a part of the text and keeps nothing. -/
def Plain (p : Pattern) : Prop := ∀ s e, e ∈ p s → e.rest <:+ s.rest ∧ e.groups = s.groups

theorem plain_chars (cs : Chars) : Plain (.chars cs) := by
  intro s e he
  obtain ⟨hrest, hgroups⟩ := Pattern.mem_chars.mp he
  exact ⟨⟨cs, hrest.symm⟩, hgroups⟩

/-- **What the loop takes for the version of a file is the version in its name**, for a name that
keeps nothing of its own. -/
theorem matched_eq_fileVersion {lib version : Chars} (hplain : Plain (t.asPattern name))
    (hgroups : t.groups name = 0) (hline : '\n' ∉ lib) (h : matched t name lib = some version) :
    version = (fileVersion lib).getD [] := by
  unfold matched at h
  obtain ⟨m, hm, rfl⟩ := Option.map_eq_some_iff.mp h
  have hway := List.mem_of_head? hm
  unfold libraryPattern at hway
  obtain ⟨s₁, h₁, hway⟩ := Pattern.mem_seq_cons.mp hway
  obtain ⟨s₂, h₂, hway⟩ := Pattern.mem_seq_cons.mp hway
  obtain ⟨s₃, h₃, hway⟩ := Pattern.mem_seq_cons.mp hway
  obtain ⟨s₄, h₄, hway⟩ := Pattern.mem_seq_cons.mp hway
  obtain ⟨s₅, h₅, hway⟩ := Pattern.mem_seq_cons.mp hway
  obtain ⟨s₆, h₆, hway⟩ := Pattern.mem_seq_cons.mp hway
  obtain ⟨s₇, h₇, hway⟩ := Pattern.mem_seq_cons.mp hway
  obtain rfl := Pattern.mem_seq_nil.mp hway
  obtain ⟨rfl, hend⟩ := Pattern.mem_atEnd.mp h₇
  obtain ⟨front, hfront, -, -, hgroups₁⟩ := Pattern.mem_lazily.mp h₁
  obtain ⟨hlib, hgroups₂⟩ := Pattern.mem_chars.mp h₂
  obtain ⟨⟨mine, hmine⟩, hgroups₃⟩ := hplain s₂ s₃ h₃
  obtain ⟨back, hback, -, -, hgroups₄⟩ := Pattern.mem_greedily.mp h₄
  obtain ⟨hso, hgroups₅⟩ := Pattern.mem_chars.mp h₅
  have hsplit : lib = (front ++ ['/', 'l', 'i', 'b'] ++ mine ++ back) ++ ['.', 's', 'o'] ++
      s₅.rest := by
    rw [show lib = front ++ s₁.rest from hfront, hlib, ← hmine, hback, hso]
    simp
  have hnone : s₅.groups = [] := by
    rw [hgroups₅, hgroups₄, hgroups₃, hgroups₂, hgroups₁]
  generalize front ++ ['/', 'l', 'i', 'b'] ++ mine ++ back = before at hsplit
  -- nothing is behind the version, for it is no line break
  have hnothing : m.rest <:+ s₅.rest → m.rest = [] := by
    rintro ⟨taken, htaken⟩
    refine hend.resolve_right fun hbreak => hline ?_
    rw [hsplit, ← htaken, hbreak]
    simp
  rcases Pattern.mem_opt.mp h₆ with hversion | rfl
  · obtain ⟨s₈, h₈, hversion⟩ := Pattern.mem_seq_cons.mp hversion
    obtain ⟨s₉, h₉, hversion⟩ := Pattern.mem_seq_cons.mp hversion
    obtain rfl := Pattern.mem_seq_nil.mp hversion
    obtain ⟨hdot, hgroups₈⟩ := Pattern.mem_chars.mp h₈
    obtain ⟨taken, htaken, hleast, haccept, hgroups₉⟩ := Pattern.mem_group_greedily.mp h₉
    rw [hgroups] at hgroups₉
    have hne : taken ≠ [] := List.ne_nil_of_length_pos hleast
    have hrest := hnothing ⟨['.'] ++ taken, by rw [hdot, htaken, List.append_assoc]⟩
    have hcarried := fileVersion_of_suffix before hne (List.all_eq_true.mpr haccept)
    rw [hsplit, hdot, htaken, hrest]
    rw [List.append_nil, ← List.append_assoc, List.append_assoc before,
      show ['.', 's', 'o'] ++ ['.'] = ['.', 's', 'o', '.'] from rfl, hcarried]
    simp [Scan.group, hgroups₉]
  · rw [hsplit, hnothing (List.suffix_refl _), List.append_nil, fileVersion_of_so]
    simp [Scan.group, hnone]

/-- A name of plain characters, and files with no line break in theirs. -/
structure PlainName (t : Tools) (name : Chars) : Prop where
  chars : t.asPattern name = .chars name
  groups : t.groups name = 0
  lines : ∀ lib ∈ (found t name).map t.realpath, '\n' ∉ lib

theorem fileVersion_ne_nil {lib version : Chars} (h : fileVersion lib = some version) :
    version ≠ [] := by
  have hversion := (Option.filter_eq_some_iff.mp h).2
  rw [Bool.and_eq_true, decide_eq_true_eq] at hversion
  exact hversion.1

theorem matched_of_plain (h : PlainName t name) {lib : Chars} (hlib : lib ∈ matching t name) :
    matched t name lib = some ((fileVersion lib).getD []) := by
  obtain ⟨version, hversion⟩ := matched_of_mem hlib
  have hplain : Plain (t.asPattern name) := h.chars ▸ plain_chars name
  have hline := h.lines lib (List.mem_filter.mp hlib).1
  rw [hversion, matched_eq_fileVersion hplain h.groups hline hversion]

theorem matched_bare_iff (h : PlainName t name) {lib : Chars} (hlib : lib ∈ matching t name) :
    matched t name lib = some [] ↔ fileVersion lib = none := by
  rw [matched_of_plain h hlib, Option.some.injEq]
  cases hversion : fileVersion lib with
  | none => exact iff_of_true rfl rfl
  | some version =>
    exact iff_of_false (fileVersion_ne_nil hversion) (Option.some_ne_none _)

theorem find_versioned (h : PlainName t name) :
    ((matching t name).find? fun lib => matched t name lib ≠ some []) =
      (matching t name).find? fun lib => (fileVersion lib).isSome := by
  apply List.find?_congr
  intro lib hlib
  cases hversion : fileVersion lib <;> simp [matched_bare_iff h hlib, hversion]

/-- **The condition on what the tools find**: for a plain name it is the versions in the names of
the candidates that say which is the foremost, and what the version of a later one is. -/
theorem foremost_of_plain (h : PlainName t name) (version : Chars) :
    foremost t name version =
      if version = [] then
        ((matching t name).find? fun lib => (fileVersion lib).isSome).or (matching t name).head?
      else (matching t name).head? := by
  unfold foremost
  rw [find_versioned h]

theorem laterVersion_of_plain (h : PlainName t name) :
    laterVersion t name =
      if (matching t name).head?.map fileVersion = some none then
        ((matching t name).find? fun lib => (fileVersion lib).isSome).bind fileVersion
      else none := by
  have hhead : (matching t name).head?.bind (matched t name) = some [] ↔
      (matching t name).head?.map fileVersion = some none := by
    cases hlibs : (matching t name).head? with
    | none => simp
    | some lib => simp [matched_bare_iff h (List.mem_of_head? hlibs)]
  unfold laterVersion
  rw [find_versioned h]
  refine ite_congr (propext hhead) (fun _ => ?_) fun _ => rfl
  cases hfind : (matching t name).find? fun lib => (fileVersion lib).isSome with
  | none => rfl
  | some lib =>
    have hsome : (fileVersion lib).isSome = true := by simpa using List.find?_some hfind
    obtain ⟨version, hversion⟩ := Option.isSome_iff_exists.mp hsome
    rw [Option.bind_some, Option.bind_some,
      matched_of_plain h (List.mem_of_find?_eq_some hfind), hversion, Option.getD_some]

/-! ## The run -/

theorem notAbove_self (ns : List ℕ) : NotAbove ns ns := by
  induction ns with
  | nil => trivial
  | cons n ns ih => exact Or.inr ⟨rfl, ih⟩

/-- **A search gives what it is to give exactly when it meets the condition.** -/
theorem right_iff_suits {past : List (Chars × Option Chars)} {cache : Cache}
    (hsound : Sound t cache) (hcache : ∀ n, Remembers t past cache n) (name : Chars)
    (version : Option Chars) : Right t cache name version ↔ Suits t past name version := by
  by_cases hlibrary : IsLibrary t name
  · have hanswer : ∀ cache : Cache,
        (find_library t cache name version).1 = some (resolved t name) := by
      intro cache
      rw [find_library_eq, if_pos hlibrary]
    have hcandidates : candidates t name = [resolved t name] := if_pos hlibrary
    rw [Suits, if_pos hlibrary]
    constructor
    · intro hright hasked
      exact hright.carries _ (hanswer cache) hasked
    · intro hcarries
      constructor
      · intro lib hlib hasked
        rw [hanswer cache] at hlib
        exact Option.some.inj hlib ▸ hcarries hasked
      · intro _
        refine Or.inr ⟨_, hanswer cache, ?_⟩
        rw [hcandidates]
        refine ⟨List.mem_singleton_self _, ?_⟩
        intro other hother
        rw [List.mem_singleton.mp hother]
        exact notAbove_self _
      · rw [hanswer, hanswer]
  · have hanswer : ∀ cache : Cache, (find_library t cache name version).1 =
        (search t cache (resolved t name) (version.getD [])).1 := by
      intro cache
      rw [find_library_eq, if_neg hlibrary]
    have hcandidates : candidates t name = matching t (resolved t name) := if_neg hlibrary
    rw [Suits, if_neg hlibrary]
    cases hf : foremost t (resolved t name) (version.getD []) with
    | none =>
      have hempty := foremost_eq_none_iff.mp hf
      have hnone : (find_library t cache name version).1 = none := by
        rw [hanswer, search_fst, hf, Option.map_none, Option.or_none]
        cases hc : cache (resolved t name) (version.getD []) with
        | none => rfl
        | some lib =>
          have hmem := hsound _ _ _ hc
          rw [hempty] at hmem
          cases hmem
      refine iff_of_true ?_ fun lib hlib => by cases hlib
      constructor
      · intro lib hlib
        rw [hnone] at hlib
        cases hlib
      · intro _
        exact Or.inl ⟨hcandidates.trans hempty, hnone⟩
      · rw [hnone, hanswer, search_empty, hf]
    | some lib =>
      have hsame := (search_eq_foremost_iff cache hf).trans
        (undisturbed_iff_unhindered (hcache _) hf)
      constructor
      · intro hright lib' hlib'
        obtain rfl : lib = lib' := Option.some.inj hlib'
        have hgives : (find_library t cache name version).1 = some lib := by
          rw [hright.fresh, hanswer, search_empty, hf]
        refine ⟨hright.carries lib hgives, ?_, ?_⟩
        · intro hbare
          rcases hright.highest hbare with ⟨-, hnone⟩ | ⟨best, hbest, hhighest⟩
          · rw [hgives] at hnone
            cases hnone
          · rw [hgives] at hbest
            rw [Option.some.inj hbest, ← hcandidates]
            exact hhighest
        · exact hsame.mp ((hanswer cache).symm.trans hgives)
      · intro hsuits
        obtain ⟨hcarries, hhighest, hunhindered⟩ := hsuits lib rfl
        have hgives : (find_library t cache name version).1 = some lib :=
          (hanswer cache).trans (hsame.mpr hunhindered)
        constructor
        · intro lib' hlib'
          rw [hgives] at hlib'
          exact Option.some.inj hlib' ▸ hcarries
        · intro hbare
          exact Or.inr ⟨lib, hgives, hcandidates ▸ hhighest hbare⟩
        · rw [hgives, hanswer, search_empty, hf]

/-- A search that meets the condition is left alone. -/
theorem Suits.unhindered {past : List (Chars × Option Chars)} {name : Chars}
    {version : Option Chars} (h : Suits t past name version) (hlibrary : ¬ IsLibrary t name) :
    Unhindered t past (resolved t name) (version.getD []) := by
  rw [Suits, if_neg hlibrary] at h
  cases hf : foremost t (resolved t name) (version.getD []) with
  | some lib => exact (h lib hf).2.2
  | none =>
    intro w hw
    obtain ⟨-, bare, libs, lib, hlibs, -⟩ := laterVersion_eq_some hw
    rw [foremost_eq_none_iff.mp hf] at hlibs
    cases hlibs

/-- **Every search of a run gives what it is to give exactly when all of them meet the
condition**, each after those before it. SOURCE: Unix.pm:70-91 -/
theorem allRight_iff_allSuit (t : Tools) (calls : List (Chars × Option Chars)) :
    AllRight t .empty calls ↔ AllSuit t [] calls := by
  have hrun : ∀ {past : List (Chars × Option Chars)} {cache : Cache}, Sound t cache →
      (∀ n, Remembers t past cache n) → (AllRight t cache calls ↔ AllSuit t past calls) := by
    induction calls with
    | nil => exact fun _ _ => Iff.rfl
    | cons call calls ih =>
      intro past cache hsound hcache
      obtain ⟨name, version⟩ := call
      rw [AllRight, AllSuit, right_iff_suits hsound hcache]
      refine and_congr_right fun hsuits => ih (find_library_sound hsound name version) ?_
      rw [find_library_eq]
      by_cases hlibrary : IsLibrary t name
      · rw [if_pos hlibrary]
        refine fun n => (hcache n).congr rfl fun v => ?_
        rw [earlier_cons]
        exact or_iff_right fun h => h.1 hlibrary
      · rw [if_neg hlibrary]
        exact remembers_search hcache hlibrary (hsuits.unhindered hlibrary)
  exact hrun sound_empty fun n => remembers_empty

/-- A system whose loader finds the same files by every name. -/
def system (libs : List Chars) : Tools where
  isFile _ := false
  isLink _ := false
  readlink name := name
  is_elf _ := true
  realpath lib := lib
  findLib_dynaloader _ := libs
  findLib_ldconfig _ := []
  findLib_gcc _ := []
  findLib_ld _ := []
  asPattern name := .chars name
  groups _ := 0

/-- `/lib/libm.so.6`. -/
def libm : Chars := ['/', 'l', 'i', 'b', '/', 'l', 'i', 'b', 'm', '.', 's', 'o', '.', '6']

example : PlainName (system [libm]) ['m'] := ⟨rfl, rfl, by decide⟩

/-- `find_library('m', '5')` gives `/lib/libm.so.6`. -/
theorem not_allRight_five :
    ¬ AllRight (system [libm]) .empty [(['m'], some ['5'])] := by
  intro h
  have hgives : (find_library (system [libm]) .empty ['m'] (some ['5'])).1 = some libm := rfl
  have hsix : fileVersion libm = some ['6'] := rfl
  obtain ⟨full, hfull, hcarries⟩ := h.1.carries libm hgives (List.cons_ne_nil _ _)
  obtain rfl : ['6'] = full := Option.some.inj (hsix.symm.trans hfull)
  exact absurd hcarries (by decide)

end Affix.Analysis.Unix
