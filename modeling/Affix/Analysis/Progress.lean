import Affix.Analysis.ScalarFields
import Affix.Interface.ArrayDecoding

/-!
# What marshalling leaves alone

Given an address, `sv2ptr` writes at that address and above it, and to memory it has
allocated; given `NULL`, to memory it has allocated only. This holds of every type
and every value, whether or not what is written fits the place it is for.

SOURCE: marshal.cxx:3-507
-/

set_option autoImplicit false

namespace Affix.Analysis

open Affix.Foundation Affix.Model Affix.Interface

/-- The addresses of old memory that a run given an address leaves alone. -/
def Before (a x : ℕ) : Prop := a ≠ 0 → x < a

theorem before_zero (x : ℕ) : Before 0 x := fun h => absurd rfl h

theorem Before.mono {a b x : ℕ} (h : Before a x) (hab : a ≠ 0 → a ≤ b) (hb : a = 0 → x < b) :
    Before b x := by
  intro _
  by_cases ha : a = 0
  · exact hb ha
  · exact (h ha).trans_le (hab ha)

/-- The heap after a run that was given the address: its memory has grown, and the values whose
addresses were old are the same. -/
structure Progress (a : ℕ) (h h' : Heap) : Prop where
  mem : h.mem.Grows h'.mem (Before a)
  svs : ∀ p < h.mem.brk, h'.svs.lookup p = h.svs.lookup p

section Steps

variable {a b : ℕ} {h h' h'' : Heap}

theorem Progress.refl (a : ℕ) (h : Heap) : Progress a h h :=
  ⟨Mem.Grows.refl _ _, fun _ _ => rfl⟩

theorem Progress.trans (hp : Progress a h h') (hp' : Progress b h' h'')
    (hab : ∀ x < h.mem.brk, Before a x → Before b x) : Progress a h h'' where
  mem := hp.mem.trans hp'.mem hab
  svs p hlt := by rw [hp'.svs p (hlt.trans_le hp.mem.brk_le), hp.svs p hlt]

theorem Progress.weaken (hp : Progress b h h')
    (hab : ∀ x < h.mem.brk, Before a x → Before b x) : Progress a h h' :=
  ⟨hp.mem.weaken hab, hp.svs⟩

/-- A run that was given `NULL` touched nothing, so nothing before any address. -/
theorem Progress.of_zero (hp : Progress 0 h h') : Progress a h h' :=
  hp.weaken fun x _ _ => before_zero x

theorem progress_store {bs : List UInt8} (hrun : store a bs h = .ok ((), h')) :
    Progress a h h' := by
  obtain ⟨hin, rfl⟩ := store_eq_ok.mp hrun
  by_cases ha : a = 0
  · -- nothing can be stored at `NULL`
    subst ha
    rcases hin with rfl | hin
    · simp only [Mem.poke_nil]
      exact Progress.refl _ _
    · exact absurd hin.pos (lt_irrefl 0)
  · exact ⟨(Mem.grows_poke _ _ _).weaken fun x _ hx => hx ha, fun _ _ => rfl⟩

theorem progress_storeEach {stride : ℕ} {image : SV → List UInt8} {es : List SV}
    (ha : a ≠ 0) (hrun : storeEach stride image a es h = .ok ((), h')) : Progress a h h' := by
  induction es generalizing a h with
  | nil =>
    cases hrun
    exact Progress.refl _ _
  | cons e es ih =>
    obtain ⟨u, h₁, hone, hrest⟩ := Exec.bind_eq_ok.mp hrun
    have hnext : Progress (a + stride) h₁ h' := ih (by omega) hrest
    refine (progress_store hone).trans hnext fun x _ hx => ?_
    exact hx.mono (fun _ => Nat.le_add_right a stride) (fun hzero => absurd hzero ha)

theorem progress_safemalloc {n p : ℕ} (hrun : safemalloc n h = .ok (p, h')) :
    Progress a h h' ∧ p = h.mem.brk := by
  obtain ⟨m, hm, rfl⟩ := safemalloc_eq_ok.mp hrun
  exact ⟨⟨Mem.grows_malloc hm, fun _ _ => rfl⟩, (Mem.malloc_eq_some hm).1⟩

/-- A zeroed block is a block that zeros are stored in. -/
theorem Newxz_cases {count size p : ℕ} (hrun : Newxz count size h = .ok (p, h')) :
    ∃ m, h.mem.malloc (atLeastOne count * size) = some (p, m) ∧
      h' = { h with mem := m.poke p (List.replicate (atLeastOne count * size) 0) } := by
  obtain ⟨m, hm, rfl⟩ := Newxz_eq_ok.mp hrun
  obtain ⟨⟨q, m₁⟩, hmalloc, heq⟩ := Option.map_eq_some_iff.mp hm
  cases heq
  exact ⟨m₁, hmalloc, rfl⟩

theorem progress_Newxz {count size p : ℕ} (hrun : Newxz count size h = .ok (p, h')) :
    Progress a h h' ∧ p = h.mem.brk := by
  obtain ⟨m, hm, rfl⟩ := Newxz_cases hrun
  have hp := (Mem.malloc_eq_some hm).1
  have hgrows : h.mem.Grows m (Before a) := Mem.grows_malloc hm
  refine ⟨⟨hgrows.trans (Mem.grows_poke m p _) fun x hx _ => hp ▸ hx, fun _ _ => rfl⟩, hp⟩

/-- A branch that works on the place it was given, or on a new block. -/
theorem progress_orNew {count size q : ℕ} {work : ℕ → Eff ℕ}
    (hwork : ∀ p h₁ h₂, p ≠ 0 → work p h₁ = .ok (q, h₂) → Progress p h₁ h₂)
    (hrun : (orNew a (Newxz count size) >>= work) h = .ok (q, h')) : Progress a h h' := by
  obtain ⟨p, h₁, hnew, hrest⟩ := Exec.bind_eq_ok.mp hrun
  unfold orNew at hnew
  split at hnew
  · obtain ⟨hp, rfl⟩ := progress_Newxz (a := a) hnew
    exact hp.trans (hwork _ _ _ h.mem.brk_pos.ne' hrest) fun x hx _ _ => hx
  · rename_i ha
    cases hnew
    exact hwork _ _ _ ha hrest

/-- A branch that fills the place it was given, or a new block. -/
theorem progress_fill {count size q : ℕ} {fill : ℕ → Eff Unit}
    (hfill : ∀ p h₁ h₂, p ≠ 0 → fill p h₁ = .ok ((), h₂) → Progress p h₁ h₂)
    (hrun : (do
      let ret ← orNew a (Newxz count size)
      fill ret
      pure ret) h = .ok (q, h')) : Progress a h h' := by
  refine progress_orNew (fun p h₁ h₂ hp hwork => ?_) hrun
  obtain ⟨u, h₃, hwrite, hpure⟩ := Exec.bind_eq_ok.mp hwork
  cases hpure
  exact hfill _ _ _ hp hwrite

theorem progress_lift {α : Type} {x : Except Halt α} {r : α}
    (hrun : (Exec.lift x : Eff α) h = .ok (r, h')) : h' = h := by
  obtain ⟨-, rfl⟩ := Exec.lift_eq_ok.mp hrun
  rfl

/-! ## The branches -/

theorem progress_object {es : List SV} {ret q : ℕ}
    (hrun : (do
      let ptr ← Exec.lift (pointerAddr es)
      if ptr.SvOK then Exec.lift (addressOf ptr) else pure ret : Eff ℕ) h = .ok (q, h')) :
    Progress a h h' := by
  obtain ⟨ptr, h₁, hptr, hrest⟩ := Exec.bind_eq_ok.mp hrun
  obtain rfl := progress_lift hptr
  split at hrest
  · obtain rfl := progress_lift hrest
    exact Progress.refl _ _
  · cases hrest
    exact Progress.refl _ _

theorem progress_int {c : CIntType} {read : SV → ℤ} {s : Slots} {v : SV} {q : ℕ}
    (hrun : sv2ptrInt c read s v a h = .ok (q, h')) : Progress a h h' := by
  unfold sv2ptrInt at hrun
  split at hrun
  · split at hrun
    · exact progress_fill (fun _ _ _ _ => progress_store) hrun
    · cases hes : v.elems with
      | some es =>
        rw [hes] at hrun
        exact progress_fill (fun _ _ _ => progress_storeEach) hrun
      | none =>
        rw [hes] at hrun
        cases hrun
  · cases hrun
    exact Progress.refl _ _

theorem progress_float {size : ℕ} {image : ℕ → ℕ} {s : Slots} {v : SV} {q : ℕ}
    (hrun : sv2ptrFloat size image s v a h = .ok (q, h')) : Progress a h h' := by
  unfold sv2ptrFloat at hrun
  split at hrun
  · split at hrun
    · exact progress_fill (fun _ _ _ _ => progress_store) hrun
    · cases hes : v.elems with
      | some es =>
        rw [hes] at hrun
        exact progress_fill (fun _ _ _ => progress_storeEach) hrun
      | none =>
        rw [hes] at hrun
        cases hrun
  · cases hrun
    exact Progress.refl _ _

theorem progress_bool {v : SV} {q : ℕ} (hrun : sv2ptrBool v a h = .ok (q, h')) :
    Progress a h h' := by
  unfold sv2ptrBool at hrun
  cases hes : v.elems with
  | some es =>
    rw [hes] at hrun
    exact progress_fill (fun _ _ _ => progress_storeEach) hrun
  | none =>
    rw [hes] at hrun
    exact progress_fill (fun _ _ _ _ => progress_store) hrun

theorem progress_char {c : CIntType} {read : SV → ℤ} {count : ℕ → ℕ} {wide : CIntType} {v : SV}
    {q : ℕ} (hrun : sv2ptrChar c read count wide v a h = .ok (q, h')) : Progress a h h' := by
  unfold sv2ptrChar at hrun
  split at hrun
  · cases hes : v.elems with
    | some es =>
      rw [hes] at hrun
      exact progress_fill (fun _ _ _ => progress_storeEach) hrun
    | none =>
      rw [hes] at hrun
      exact progress_fill (fun _ _ _ _ => progress_store) hrun
  · cases hrun
    exact Progress.refl _ _

theorem progress_void {v : SV} {q : ℕ} (hrun : sv2ptrVoid v a h = .ok (q, h')) :
    Progress a h h' := by
  unfold sv2ptrVoid at hrun
  split at hrun
  · cases hobj : asPointerObject v with
    | some es =>
      rw [hobj] at hrun
      exact progress_object hrun
    | none =>
      rw [hobj] at hrun
      obtain ⟨bs, h₁, hbs, hrest⟩ := Exec.bind_eq_ok.mp hrun
      obtain rfl := progress_lift hbs
      exact progress_fill (fun _ _ _ _ => progress_store) hrest
  · cases hrun
    exact Progress.refl _ _

theorem progress_wchar {v : SV} {q : ℕ} (hrun : sv2ptrWChar v a h = .ok (q, h')) :
    Progress a h h' := by
  unfold sv2ptrWChar at hrun
  rw [Exec.bind_of_ok (Exec.get_apply h)] at hrun
  obtain ⟨bs, h₁, hload, hrest⟩ := Exec.bind_eq_ok.mp hrun
  obtain rfl := progress_lift hload
  obtain ⟨u, h₂, hstore, hpure⟩ := Exec.bind_eq_ok.mp hrest
  cases hpure
  exact progress_store hstore

theorem progress_sv {v : SV} {q : ℕ} (hrun : sv2ptrSV v h = .ok (q, h')) : Progress a h h' := by
  obtain ⟨p, h₁, hmalloc, hrest⟩ := Exec.bind_eq_ok.mp hrun
  obtain ⟨hp, rfl⟩ := progress_safemalloc (a := a) hmalloc
  cases hrest
  refine ⟨hp.mem, fun x hx => ?_⟩
  rw [← hp.svs x hx]
  show List.lookup x ((h.mem.brk, v) :: h₁.svs) = _
  rw [List.lookup_cons, beq_false_of_ne hx.ne]

theorem progress_codeRef {args : Option (List TypeObj)} {sig : List Flag} {r : TypeObj} {v : SV}
    {q : ℕ} (hrun : sv2ptrCodeRef args sig r v h = .ok (q, h')) : Progress a h h' := by
  unfold sv2ptrCodeRef at hrun
  split at hrun
  · obtain ⟨p₁, h₁, hnew₁, hrun⟩ := Exec.bind_eq_ok.mp hrun
    obtain ⟨p₂, h₂, hnew₂, hrun⟩ := Exec.bind_eq_ok.mp hrun
    obtain ⟨p₃, h₃, hmalloc, hrun⟩ := Exec.bind_eq_ok.mp hrun
    obtain ⟨u, h₄, hinit, hrest⟩ := Exec.bind_eq_ok.mp hrun
    obtain rfl := progress_lift hinit
    cases hrest
    have hp₁ := (progress_Newxz (a := 0) hnew₁).1
    have hp₂ := (progress_Newxz (a := 0) hnew₂).1
    have hp₃ := (progress_safemalloc (a := 0) hmalloc).1
    have hall : Progress 0 h h₄ :=
      (hp₁.trans hp₂ fun x _ _ => before_zero x).trans hp₃ fun x _ _ => before_zero x
    exact Progress.of_zero ⟨hall.mem, hall.svs⟩
  · exact (progress_Newxz hrun).1

theorem progress_scalar {k : Kind} {s : Slots} {v : SV} {q : ℕ}
    (hrun : sv2ptrScalar k s v a h = .ok (q, h')) : Progress a h h' := by
  have hcharacter := characterBranch (k := k)
  have hfloat := floatBranch (k := k)
  have hinteger := fun c => integerBranch (k := k) (c := c)
  cases k with
  | Void => exact progress_void hrun
  | Bool => exact progress_bool hrun
  | WChar => exact progress_wchar hrun
  | SV => exact progress_sv hrun
  | Char | SChar | UChar =>
    obtain ⟨c, read, count, wide, -, -, hbranch⟩ := hcharacter (by decide)
    rw [hbranch] at hrun
    exact progress_char hrun
  | Float | Double =>
    obtain ⟨size, image, -, hbranch⟩ := hfloat (by decide)
    rw [hbranch] at hrun
    exact progress_float hrun
  | _ =>
    obtain ⟨read, -, hbranch⟩ := hinteger _ rfl ⟨by decide, by decide⟩
    rw [hbranch] at hrun
    exact progress_int hrun

theorem progress_storePointers {convert : SV → Eff ℕ} {es : List SV} (ha : a ≠ 0)
    (hconvert : ∀ e h₁ q h₂, convert e h₁ = .ok (q, h₂) → Progress 0 h₁ h₂)
    (hrun : storePointers convert a es h = .ok ((), h')) : Progress a h h' := by
  induction es generalizing a h with
  | nil =>
    cases hrun
    exact Progress.refl _ _
  | cons e es ih =>
    obtain ⟨q, h₁, hone, hrest⟩ := Exec.bind_eq_ok.mp hrun
    obtain ⟨u, h₂, hstore, hrest⟩ := Exec.bind_eq_ok.mp hrest
    have hnext : Progress (a + SIZEOF_INTPTR_T) h₂ h' := ih (by omega) hrest
    have hpair := (hconvert e h q h₁ hone).of_zero.trans (progress_store hstore)
      fun x _ hx => hx
    refine hpair.trans hnext fun x _ hx => ?_
    exact hx.mono (fun _ => Nat.le_add_right a _) (fun hzero => absurd hzero ha)

end Steps

/-- The explicit `undef` stays undone. -/
theorem sv2ptr_explicit {v : SV} (hexp : (!v.SvOK && v.SvREADONLY) = true) (t : TypeObj) (a : ℕ) :
    sv2ptr t v a = pure 0 := by
  cases t <;> rw [sv2ptr, if_pos hexp]

/-- The branch of a pointer to pointers stores the address of a copy of each. -/
theorem sv2ptr_pointers {s : Slots} {subtype : TypeObj} {v : SV} (hsub : subtype.isPointer = true)
    (hok : v.SvOK = true) (a : ℕ) :
    sv2ptr (.pointer s subtype) v a = (do
      let ret ← orNew a (Newxz (pointees v).length SIZEOF_INTPTR_T)
      storePointers (fun e => sv2ptr subtype e 0) ret (pointees v)
      pure ret) := by
  rw [sv2ptr, if_neg (by rw [hok]; exact Bool.false_ne_true), if_pos hsub, if_pos hok]
  unfold pointees
  cases hes : v.elems with
  | some es => rfl
  | none =>
    show _ = (do
      let ret ← orNew a (Newxz 1 SIZEOF_INTPTR_T)
      storePointers (fun e => sv2ptr subtype e 0) ret [v]
      pure ret)
    simp only [storePointers, Exec.bind_assoc]
    rfl

/-- One turn of the loop of an aggregate. -/
theorem progress_turn {α : Type} {field : TypeObj} {v : SV} {a : ℕ} {next : Eff α} {r : α}
    {h h' : Heap} (ha : a ≠ 0)
    (hfield : ∀ {b q h₁ h₂}, sv2ptr field v b h₁ = .ok (q, h₂) → Progress b h₁ h₂)
    (hrun : (if field.isPointer = true then do
        let ptr ← sv2ptr field v 0
        store (a + field.offset) (pointerBytes ptr)
        next
      else do
        let _ ← sv2ptr field v (a + field.offset)
        next) h = .ok (r, h')) :
    ∃ h₁, Progress a h h₁ ∧ next h₁ = .ok (r, h') := by
  have hbefore : ∀ x, Before a x → Before (a + field.offset) x := fun x hx =>
    hx.mono (fun _ => Nat.le_add_right a _) fun hzero => absurd hzero ha
  split at hrun
  · obtain ⟨q, h₁, hcopy, hrest⟩ := Exec.bind_eq_ok.mp hrun
    obtain ⟨u, h₂, hstore, hnext⟩ := Exec.bind_eq_ok.mp hrest
    refine ⟨h₂, (hfield hcopy).of_zero.trans (progress_store hstore) ?_, hnext⟩
    exact fun x _ hx => hbefore x hx
  · obtain ⟨q, h₁, hplace, hnext⟩ := Exec.bind_eq_ok.mp hrun
    exact ⟨h₁, (hfield hplace).weaken fun x _ hx => hbefore x hx, hnext⟩

mutual

/-- **Marshalling** writes nothing before the address it is given. -/
theorem sv2ptr_progress : ∀ (t : TypeObj) {v : SV} {a q : ℕ} {h h' : Heap},
    sv2ptr t v a h = .ok (q, h') → Progress a h h'
  | .scalar k s, v, a, q, h, h', hrun => by
    rw [sv2ptr] at hrun
    split at hrun
    · cases hrun
      exact Progress.refl _ _
    · exact progress_scalar hrun
  | .codeRef s args sig r, v, a, q, h, h', hrun => by
    rw [sv2ptr] at hrun
    split at hrun
    · cases hrun
      exact Progress.refl _ _
    · exact progress_codeRef hrun
  | .pointer s subtype, v, a, q, h, h', hrun => by
    have hcopy : ∀ e h₁ q h₂, sv2ptr subtype e 0 h₁ = .ok (q, h₂) → Progress 0 h₁ h₂ :=
      fun e h₁ q h₂ => sv2ptr_progress subtype
    by_cases hexp : (!v.SvOK && v.SvREADONLY) = true
    · rw [sv2ptr_explicit hexp] at hrun
      cases hrun
      exact Progress.refl _ _
    · cases hsub : subtype.isPointer with
      | true =>
        cases hok : v.SvOK with
        | true =>
          rw [sv2ptr_pointers hsub hok] at hrun
          exact progress_fill (fun p h₁ h₂ hp => progress_storePointers hp hcopy) hrun
        | false =>
          rw [sv2ptr, if_neg hexp, if_pos hsub, hok] at hrun
          cases hrun
          exact Progress.refl _ _
      | false =>
        rw [sv2ptr, if_neg hexp, hsub, if_neg Bool.false_ne_true] at hrun
        cases hobj : asPointerObject v with
        | some es =>
          rw [hobj] at hrun
          exact progress_object hrun
        | none =>
          rw [hobj] at hrun
          exact (hcopy v h q h' hrun).of_zero
  | .struct s fields, v, a, q, h, h', hrun => by
    rw [sv2ptr] at hrun
    split at hrun
    · cases hrun
      exact Progress.refl _ _
    · cases hes : asHash v with
      | none =>
        rw [hes] at hrun
        cases hrun
        exact Progress.refl _ _
      | some es =>
        rw [hes] at hrun
        exact progress_fill (fun p h₁ h₂ hp => sv2ptrFields_progress fields hp) hrun
  | .union s fields, v, a, q, h, h', hrun => by
    rw [sv2ptr] at hrun
    split at hrun
    · cases hrun
      exact Progress.refl _ _
    · cases hes : asHash v with
      | none =>
        rw [hes] at hrun
        cases hrun
        exact Progress.refl _ _
      | some es =>
        rw [hes] at hrun
        refine progress_orNew (fun p h₁ h₂ hp hwork => ?_) hrun
        obtain ⟨okay, h₃, hmembers, hrest⟩ := Exec.bind_eq_ok.mp hwork
        have hsame : h₃ = h₂ := by
          cases okay <;> cases hrest
          rfl
        exact hsame ▸ sv2ptrMembers_progress fields hp hmembers

theorem sv2ptrFields_progress : ∀ (fields : List TypeObj) {es : List (Text × SV)} {a : ℕ}
    {h h' : Heap}, a ≠ 0 → sv2ptrFields es a fields h = .ok ((), h') → Progress a h h'
  | [], es, a, h, h', _, hrun => by
    rw [sv2ptrFields] at hrun
    cases hrun
    exact Progress.refl _ _
  | field :: rest, es, a, h, h', ha, hrun => by
    cases hname : field.field with
    | none =>
      simp only [sv2ptrFields, hname] at hrun
      cases hrun
    | some name =>
      cases hfetch : hvFetch es name with
      | none =>
        simp only [sv2ptrFields, hname, hfetch] at hrun
        cases hrun
      | some v =>
        simp only [sv2ptrFields, hname, hfetch] at hrun
        obtain ⟨h₁, hp, hrest⟩ := progress_turn ha (sv2ptr_progress field) hrun
        exact hp.trans (sv2ptrFields_progress rest ha hrest) fun _ _ hx => hx

theorem sv2ptrMembers_progress : ∀ (fields : List TypeObj) {es : List (Text × SV)} {a : ℕ}
    {okay : Bool} {h h' : Heap}, a ≠ 0 → sv2ptrMembers es a fields h = .ok (okay, h') →
    Progress a h h'
  | [], es, a, okay, h, h', _, hrun => by
    rw [sv2ptrMembers] at hrun
    cases hrun
    exact Progress.refl _ _
  | field :: rest, es, a, okay, h, h', ha, hrun => by
    cases hname : field.field with
    | none =>
      simp only [sv2ptrMembers, hname] at hrun
      cases hrun
    | some name =>
      cases hfetch : hvFetch es name with
      | none =>
        simp only [sv2ptrMembers, hname, hfetch] at hrun
        exact sv2ptrMembers_progress rest ha hrun
      | some v =>
        simp only [sv2ptrMembers, hname, hfetch] at hrun
        obtain ⟨h₁, hp, hrest⟩ := progress_turn ha (sv2ptr_progress field) hrun
        obtain ⟨okay', h₂, hmembers, hpure⟩ := Exec.bind_eq_ok.mp hrest
        cases hpure
        exact hp.trans (sv2ptrMembers_progress rest ha hmembers) fun _ _ hx => hx

end

end Affix.Analysis
