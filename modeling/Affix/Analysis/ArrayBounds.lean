import Affix.Analysis.ArrayDecoding

/-!
# When an array is read within its copy

`Array[Pointer[…]]` is read up to the first `NULL`, whatever its length is declared to
be, and `sv2ptr` stores no `NULL` of its own: without an element that has no copy the
loop goes past the block. An array of numbers is read as far as its type says, and its
copy is as long as the Perl array. Both are made precise here: of pointers to pointers to
numbers and characters the copies that are safe are the only ones that are read within
the new blocks.

SOURCE: marshal.cxx:49-113, marshal.cxx:328-370, marshal.cxx:573-622
-/

set_option autoImplicit false

namespace Affix.Analysis

open Affix.Foundation Affix.Model Affix.Interface

/-! ## Code that only reads -/

/-- The code leaves the blocks or returns, and does nothing to the heap. -/
def OnlyReads {α : Type} (x : Eff α) (hh : Heap) : Prop :=
  x hh = .error .fault ∨ ∃ r, x hh = .ok (r, hh)

section OnlyReads

variable {α β : Type} {x : Eff α} {f : α → Eff β} {hh : Heap}

theorem OnlyReads.bind (hx : OnlyReads x hh) (hf : ∀ r, OnlyReads (f r) hh) :
    OnlyReads (x >>= f) hh := by
  rcases hx with hfault | ⟨r, hr⟩
  · exact Or.inl (Exec.bind_of_error hfault)
  · rcases hf r with hfault | ⟨r', hr'⟩
    · exact Or.inl ((Exec.bind_of_ok hr).trans hfault)
    · exact Or.inr ⟨r', (Exec.bind_of_ok hr).trans hr'⟩

theorem OnlyReads.get {g : Heap → Eff β} (hg : OnlyReads (g hh) hh) :
    OnlyReads (Exec.get >>= g) hh :=
  hg.imp (Exec.bind_of_ok (Exec.get_apply hh)).trans
    fun ⟨r, hr⟩ => ⟨r, (Exec.bind_of_ok (Exec.get_apply hh)).trans hr⟩

/-- If all of it is within the blocks, so is the first part, and the rest. -/
theorem OnlyReads.of_bind (hx : OnlyReads x hh) (hrun : (x >>= f) hh ≠ .error .fault) :
    ∃ r, x hh = .ok (r, hh) ∧ f r hh ≠ .error .fault := by
  rcases hx with hfault | ⟨r, hr⟩
  · exact absurd (Exec.bind_of_error hfault) hrun
  · exact ⟨r, hr, fun hfault => hrun ((Exec.bind_of_ok hr).trans hfault)⟩

theorem onlyReads_pure (r : α) (hh : Heap) : OnlyReads (pure r) hh := Or.inr ⟨r, rfl⟩

theorem onlyReads_lift {y : Except Halt α} (hy : ∀ e, y = .error e → e = .fault) :
    OnlyReads (Exec.lift y) hh := by
  cases y with
  | error e => exact Or.inl (by rw [hy e rfl]; rfl)
  | ok r => exact Or.inr ⟨r, rfl⟩

theorem onlyReads_loadAt (a n : ℕ) (hh : Heap) : OnlyReads (loadAt a n) hh := by
  unfold OnlyReads loadAt
  cases hload : load hh.mem a n with
  | error e => exact Or.inl (by rw [load_error hload]; rfl)
  | ok bs => exact Or.inr ⟨bs, rfl⟩

theorem onlyReads_scalar {k : Kind} (hk : k ≠ .SV) (hwide : k ≠ .WChar) (s : Slots) (q : ℕ)
    (hh : Heap) : OnlyReads (ptr2svScalar k s q) hh := by
  rcases numeric_or k with hnum | hchar | rfl | rfl | rfl
  · obtain ⟨-, f, hrun⟩ := number_load (s := s) hnum q
    rw [hrun]
    exact (onlyReads_loadAt q _ hh).bind fun bs => onlyReads_pure _ hh
  · have hsame : ptr2svScalar k s q = ptr2svChars q := by
      rcases hchar with rfl | rfl | rfl <;> rfl
    rw [hsame]
    exact OnlyReads.get ((onlyReads_lift fun e => cstring_error).bind
      fun bs => onlyReads_pure _ hh)
  · exact onlyReads_pure _ hh
  · exact absurd rfl hwide
  · exact absurd rfl hk

theorem onlyReads_elems {convert : ℕ → Eff SV} (hconvert : ∀ p, OnlyReads (convert p) hh)
    (stride n a : ℕ) : OnlyReads (ptr2svElems convert stride n a) hh := by
  induction n generalizing a with
  | zero => exact onlyReads_pure _ hh
  | succ n ih =>
    exact (hconvert a).bind fun e => (ih _).bind fun rest => onlyReads_pure _ hh

theorem OnlyReads.congr {y : Eff α} (h : x hh = y hh) (hy : OnlyReads y hh) : OnlyReads x hh := by
  unfold OnlyReads
  rw [h]
  exact hy

/-- A type that is read from its blocks, other than a wide character. -/
theorem onlyReads_element {t : TypeObj} (hplain : Plain t) (hpointer : t.isPointer = false)
    (hwide : t.flag ≠ .wchar) (q : ℕ) (hh : Heap) : OnlyReads (ptr2sv t q) hh := by
  cases t with
  | scalar k s =>
    rw [ptr2sv]
    split
    · exact onlyReads_pure _ hh
    · exact onlyReads_scalar hplain (fun hk => hwide (by rw [hk]; rfl)) s q hh
  | pointer => cases hpointer
  | codeRef | struct | union => exact hplain.elim

/-- A pointer to one or to an array of them. -/
theorem onlyReads_elements {s : Slots} {t : TypeObj} (hplain : Plain t)
    (hpointer : t.isPointer = false) (hwide : t.flag ≠ .wchar) {q : ℕ} (hq : q ≠ 0) (hh : Heap) :
    OnlyReads (ptr2sv (.pointer s t) q) hh := by
  have helem := fun p => onlyReads_element hplain hpointer hwide p hh
  by_cases hone : s.arraylen = 1 ∨ isCharacter t = true
  · rw [ptr2sv_one hpointer (hone.imp_right Or.inl)]
    exact helem q
  · obtain ⟨hlen, hchar⟩ := not_or.mp hone
    rw [Bool.not_eq_true] at hchar
    rw [ptr2sv_elems hq hpointer hlen hchar hwide]
    exact (onlyReads_elems helem _ _ q).bind fun es => onlyReads_pure _ hh

end OnlyReads

/-! ## What was accepted -/

/-- Every element of an array was copied. -/
theorem storePointers_all {convert : SV → Eff ℕ} {es : List SV} {a : ℕ} {h h' : Heap}
    (hrun : storePointers convert a es h = .ok ((), h')) {e : SV} (he : e ∈ es) :
    ∃ h₁ q h₂, convert e h₁ = .ok (q, h₂) := by
  induction es generalizing a h with
  | nil => cases he
  | cons e' es ih =>
    obtain ⟨q, h₁, hone, hrest⟩ := Exec.bind_eq_ok.mp hrun
    obtain ⟨u, h₂, -, hrest⟩ := Exec.bind_eq_ok.mp hrest
    rcases List.mem_cons.mp he with rfl | he
    · exact ⟨h, q, h₁, hone⟩
    · exact ih hrest he

theorem copyFits_of_explicitUndef {v : SV} (hexp : ExplicitUndef v) :
    ∀ {t : TypeObj}, Plain t → CopyFits t v
  | .scalar k s, _ => by
    cases k with
    | Void => exact fun es hobj => by cases (no_object_of_undef hexp.1).symm.trans hobj
    | WChar => exact hexp
    | _ => exact trivial
  | .pointer s subtype, hplain => by
    refine ⟨fun _ hok => ?_, fun _ => ⟨fun es hobj => ?_, fun _ => ?_⟩⟩
    · cases hexp.1.symm.trans hok
    · cases (no_object_of_undef hexp.1).symm.trans hobj
    · exact copyFits_of_explicitUndef hexp (t := subtype) hplain

/-- **What is accepted for such a type can be copied.** -/
theorem copyFits_of_plain : ∀ {t : TypeObj}, Plain t → ∀ {v : SV} {h h' : Heap} {q : ℕ},
    sv2ptr t v 0 h = .ok (q, h') → CopyFits t v
  | .scalar k s, hplain, v, h, h', q, hrun => by
    rcases sv2ptr_scalar_cases hrun with ⟨hexp, -⟩ | ⟨hexp, hbranch⟩
    · exact copyFits_of_explicitUndef hexp hplain
    · cases k with
      | Void =>
        have hvoid : sv2ptrVoid v 0 h = .ok (q, h') := hbranch
        exact (copied_void hvoid).2
      | WChar => cases no_wide_copy.symm.trans hbranch
      | _ => exact trivial
  | .pointer s subtype, hplain, v, h, h', q, hrun => by
    have helem : ∀ {v h q h'}, sv2ptr subtype v 0 h = .ok (q, h') → CopyFits subtype v :=
      copyFits_of_plain (t := subtype) hplain
    cases sv2ptr_pointer_cases hrun with
    | nothing hnull _ =>
      rcases hnull with hexp | ⟨hsub, hok⟩
      · exact copyFits_of_explicitUndef hexp (t := .pointer s subtype) hplain
      · refine ⟨fun _ hok' => ?_, fun hsub' => ?_⟩
        · cases hok.symm.trans hok'
        · cases hsub.symm.trans hsub'
    | array hsub hok hm hstore =>
      refine ⟨fun _ _ => ⟨fun es hes e he => ?_, fun hes => ?_⟩, fun hsub' => ?_⟩
      · obtain ⟨h₁, q₁, h₂, hone⟩ := storePointers_all hstore (pointees_of_elems hes ▸ he)
        exact helem hone
      · have hmem : v ∈ pointees v := by
          rw [pointees_of_single hes]
          exact List.mem_singleton_self v
        obtain ⟨h₁, q₁, h₂, hone⟩ := storePointers_all hstore hmem
        exact helem hone
      · cases hsub.symm.trans hsub'
    | object hsub hobj hptr hq =>
      refine ⟨fun hsub' => ?_, fun _ => ⟨(object_address hobj hptr hq).2.1, fun hnone => ?_⟩⟩
      · cases hsub.symm.trans hsub'
      · cases hobj.symm.trans hnone
    | copy hsub hobj hcopy =>
      refine ⟨fun hsub' => ?_, fun _ => ⟨fun es hsome => ?_, fun _ => helem hcopy⟩⟩
      · cases hsub.symm.trans hsub'
      · cases hobj.symm.trans hsome

/-- **An address that is `NULL` is that of no copy.** -/
theorem nullCopy_of_zero : ∀ {t : TypeObj}, Plain t → ∀ {v : SV} {h h' : Heap},
    sv2ptr t v 0 h = .ok (0, h') → NullCopy t v
  | .scalar k s, hplain, v, h, h', hrun => (scalar_null hplain hrun).mp rfl
  | .pointer s subtype, hplain, v, h, h', hrun => by
    cases sv2ptr_pointer_cases hrun with
    | nothing hnull _ =>
      rcases hnull with hexp | ⟨hsub, hok⟩
      · exact Or.inl hexp
      · exact Or.inr (by rw [if_pos hsub]; exact hok)
    | array hsub hok hm hstore =>
      exact absurd (Mem.malloc_eq_some hm).1 h.mem.brk_pos.ne
    | object hsub hobj hptr hq =>
      refine Or.inr ?_
      rw [hsub, if_neg Bool.false_ne_true]
      exact Or.inl ((object_address hobj hptr hq).1.mp rfl)
    | copy hsub hobj hcopy =>
      refine Or.inr ?_
      rw [hsub, if_neg Bool.false_ne_true]
      exact Or.inr ⟨hobj, nullCopy_of_zero (t := subtype) hplain hcopy⟩

/-! ## What was read -/

section Read

variable {subtype : TypeObj} {h h₁ h' hh : Heap} {a q n : ℕ}

/-- Each element of an array that is read within the blocks is. -/
theorem elems_within {convert : ℕ → Eff SV} {stride : ℕ} (hconvert : ∀ p, OnlyReads (convert p) hh)
    (hread : ptr2svElems convert stride n a hh ≠ .error .fault) {i : ℕ} (hi : i < n) :
    convert (a + i * stride) hh ≠ .error .fault := by
  induction n generalizing a i with
  | zero => exact absurd hi (Nat.not_lt_zero i)
  | succ n ih =>
    obtain ⟨r, hone, hrest⟩ := (hconvert a).of_bind hread
    cases i with
    | zero =>
      rw [Nat.zero_mul, Nat.add_zero, hone]
      intro hfault
      cases hfault
    | succ i =>
      have hloop : ptr2svElems convert stride n (a + stride) hh ≠ .error .fault :=
        fun hfault => hrest (Exec.bind_of_error hfault)
      have hnext := ih hloop (Nat.lt_of_succ_lt_succ hi)
      rw [Nat.succ_mul, Nat.add_comm (i * stride), ← Nat.add_assoc]
      exact hnext

/-- There is no number or string outside the blocks. -/
theorem scalar_outside {k : Kind} {s : Slots} (hvoid : k ≠ .Void) (hsv : k ≠ .SV) (hq : q ≠ 0)
    (hout : ∀ len, ¬ hh.mem.InBlock q len) : ptr2sv (.scalar k s) q hh = .error .fault := by
  rw [ptr2sv, if_neg hq]
  rcases numeric_or k with hnum | hchar | rfl | rfl | rfl
  · exact number_outside hnum (hout _)
  · have hsame : ptr2svScalar k s q = ptr2svChars q := by
      rcases hchar with rfl | rfl | rfl <;> rfl
    rw [hsame]
    exact chars_outside (hout 1)
  · exact absurd rfl hvoid
  · have hwide : wcstring hh.mem hh.mem.brk q = .error .fault := by
      obtain ⟨fuel, hfuel⟩ := Nat.exists_eq_succ_of_ne_zero hh.mem.brk_pos.ne'
      rw [hfuel, wcstring, load_outside (by decide) (hout 4)]
    refine (Exec.bind_of_ok (Exec.get_apply hh)).trans ?_
    rw [hwide]
    exact Exec.bind_of_error (Exec.lift_error_apply _ hh)
  · exact absurd rfl hsv

/-- The loop over an array of pointers reads alone if that is how the copies are read. -/
theorem onlyReads_pointers {es : List SV} (ht : LaidOut subtype)
    (hfits : ∀ e ∈ es, CopyFits subtype e)
    (honly : ∀ e ∈ es, ∀ {h₁ h₂ : Heap} {q : ℕ}, sv2ptr subtype e 0 h₁ = .ok (q, h₂) →
      Later h₁ h₂ hh → OnlyReads (ptr2sv subtype q) hh) (hlo : h.mem.brk ≤ a)
    (hrun : storePointers (fun e => sv2ptr subtype e 0) a es h₁ = .ok ((), h'))
    (hroom : a + es.length * SIZEOF_INTPTR_T ≤ h₁.mem.brk) (hl : Later h h' hh)
    (hend : ¬ hh.mem.InBlock (a + es.length * SIZEOF_INTPTR_T) SIZEOF_INTPTR_T) (fuel : ℕ) :
    OnlyReads (ptr2svPointers (fun p => ptr2sv subtype p) fuel a) hh := by
  have hstops : ∀ {a : ℕ} (fuel : ℕ), ¬ hh.mem.InBlock a SIZEOF_INTPTR_T →
      OnlyReads (ptr2svPointers (fun p => ptr2sv subtype p) (fuel + 1) a) hh := by
    intro a fuel hout
    refine OnlyReads.get (Or.inl (Exec.bind_of_error ?_))
    rw [loadPointer, load_outside (by decide) hout]
    rfl
  induction es generalizing a h₁ fuel with
  | nil =>
    rw [List.length_nil, Nat.zero_mul, Nat.add_zero] at hend
    cases fuel with
    | zero => exact Or.inl rfl
    | succ fuel => exact hstops fuel hend
  | cons e es ih =>
    cases fuel with
    | zero => exact Or.inl rfl
    | succ fuel =>
      by_cases hin : hh.mem.InBlock a SIZEOF_INTPTR_T
      · obtain ⟨q, h₂, h₃, hone, hlater, haddr, hrest, hbrk⟩ :=
          storePointers_turn (hfits e List.mem_cons_self) ht hrun hl hlo hroom
        refine OnlyReads.congr (ptr2svPointers_turn fuel hin) ?_
        rw [haddr]
        refine (honly e List.mem_cons_self hone hlater).bind fun r => ?_
        split
        · exact onlyReads_pure _ hh
        · rw [List.length_cons, Nat.succ_mul] at hroom hend
          rw [Nat.add_comm (es.length * _), ← Nat.add_assoc] at hend
          exact (ih (fun e' he' => hfits e' (List.mem_cons_of_mem _ he'))
            (fun e' he' => honly e' (List.mem_cons_of_mem _ he'))
            (hlo.trans (Nat.le_add_right _ _)) hrest (by omega) hend fuel).bind
              fun rest => onlyReads_pure _ hh
      · exact hstops fuel hin

/-- **The loop over an array of pointers stops at one that is `NULL`**, or goes past the block. -/
theorem pointers_split {es : List SV} (ht : LaidOut subtype) (hplain : Plain subtype)
    (hfits : ∀ e ∈ es, CopyFits subtype e)
    (honly : ∀ e ∈ es, ∀ {h₁ h₂ : Heap} {q : ℕ}, sv2ptr subtype e 0 h₁ = .ok (q, h₂) →
      Later h₁ h₂ hh → OnlyReads (ptr2sv subtype q) hh)
    (hsafe : ∀ e ∈ es, ∀ {h₁ h₂ : Heap} {q : ℕ}, sv2ptr subtype e 0 h₁ = .ok (q, h₂) →
      Later h₁ h₂ hh → ptr2sv subtype q hh ≠ .error .fault → CopySafe subtype e)
    (hlo : h.mem.brk ≤ a)
    (hrun : storePointers (fun e => sv2ptr subtype e 0) a es h₁ = .ok ((), h'))
    (hroom : a + es.length * SIZEOF_INTPTR_T ≤ h₁.mem.brk) (hl : Later h h' hh)
    (hblock : ∀ i ≤ es.length,
      hh.mem.InBlock (a + i * SIZEOF_INTPTR_T) SIZEOF_INTPTR_T ↔ i < es.length) {fuel : ℕ}
    (hread : ptr2svPointers (fun p => ptr2sv subtype p) fuel a hh ≠ .error .fault) :
    ∃ before e after, es = before ++ e :: after ∧ NullCopy subtype e ∧
      ∀ e' ∈ before, CopySafe subtype e' := by
  induction es generalizing a h₁ fuel with
  | nil =>
    have hout : ¬ hh.mem.InBlock a SIZEOF_INTPTR_T := fun hin => by
      have hfirst := (hblock 0 (Nat.zero_le _)).mp (by rwa [Nat.zero_mul, Nat.add_zero])
      exact absurd hfirst (lt_irrefl 0)
    cases fuel with
    | zero => exact absurd rfl hread
    | succ fuel =>
      refine absurd ((Exec.bind_of_ok (Exec.get_apply hh)).trans ?_) hread
      rw [loadPointer, load_outside (by decide) hout]
      exact Exec.bind_of_error (Exec.lift_error_apply _ hh)
  | cons e es ih =>
    cases fuel with
    | zero => exact absurd rfl hread
    | succ fuel =>
      obtain ⟨q, h₂, h₃, hone, hlater, haddr, hrest, hbrk⟩ :=
        storePointers_turn (hfits e List.mem_cons_self) ht hrun hl hlo hroom
      have hin := (hblock 0 (Nat.zero_le _)).mpr (Nat.succ_pos _)
      rw [Nat.zero_mul, Nat.add_zero] at hin
      rw [ptr2svPointers_turn fuel hin, haddr] at hread
      obtain ⟨r, hvalue, hnext⟩ := (honly e List.mem_cons_self hone hlater).of_bind hread
      by_cases hq : q = 0
      · subst hq
        exact ⟨[], e, es, rfl, nullCopy_of_zero hplain hone, List.forall_mem_nil _⟩
      · rw [if_neg hq] at hnext
        have hloop : ptr2svPointers (fun p => ptr2sv subtype p) fuel (a + SIZEOF_INTPTR_T) hh ≠
            .error .fault := fun hfault => hnext (Exec.bind_of_error hfault)
        have hblock' : ∀ i ≤ es.length, hh.mem.InBlock
            (a + SIZEOF_INTPTR_T + i * SIZEOF_INTPTR_T) SIZEOF_INTPTR_T ↔ i < es.length := by
          intro i hi
          have hshifted := hblock (i + 1) (Nat.succ_le_succ hi)
          rw [Nat.succ_mul, Nat.add_comm (i * _), ← Nat.add_assoc, List.length_cons,
            Nat.succ_lt_succ_iff] at hshifted
          exact hshifted
        rw [List.length_cons, Nat.succ_mul] at hroom
        obtain ⟨before, e', after, rfl, hnull, hbefore⟩ :=
          ih (fun e' he' => hfits e' (List.mem_cons_of_mem _ he'))
            (fun e' he' => honly e' (List.mem_cons_of_mem _ he'))
            (fun e' he' => hsafe e' (List.mem_cons_of_mem _ he'))
            (hlo.trans (Nat.le_add_right _ _)) hrest (by omega) hblock' hloop
        refine ⟨e :: before, e', after, rfl, hnull, List.forall_mem_cons.mpr ⟨?_, hbefore⟩⟩
        refine hsafe e List.mem_cons_self hone hlater ?_
        rw [hvalue]
        intro hfault
        cases hfault

/-- What is read at a pointer to anything but pointers: one value, or so many. -/
theorem pointer_read {s : Slots} (hplain : Plain subtype) (hq : q ≠ 0)
    (hsub : subtype.isPointer = false)
    (hread : ptr2sv (.pointer s subtype) q hh ≠ .error .fault) :
    (s.arraylen = 1 ∨ isCharacter subtype = true ∨ subtype.flag = .wchar →
      ptr2sv subtype q hh ≠ .error .fault) ∧
    (s.arraylen ≠ 1 → isCharacter subtype = false → subtype.flag ≠ .wchar → ∀ i < s.arraylen,
      ptr2sv subtype (q + i * subtype.sizeof) hh ≠ .error .fault) := by
  refine ⟨fun hone => ?_, fun hlen hchar hwide i hi => ?_⟩
  · rw [ptr2sv_one hsub hone] at hread
    exact hread
  · rw [ptr2sv_elems hq hsub hlen hchar hwide] at hread
    have hloop : ptr2svElems (fun p => ptr2sv subtype p) subtype.sizeof s.arraylen q hh ≠
        .error .fault := fun hfault => hread (Exec.bind_of_error hfault)
    exact elems_within (fun p => onlyReads_element hplain hsub hwide p hh) hloop hi

/-- Where no memory is, nothing is read. -/
theorem unread_of_outside {s : Slots} (hplain : Plain subtype) (hq : q ≠ 0)
    (hsub : subtype.isPointer = false) (hout : ∀ len, ¬ hh.mem.InBlock q len)
    (hread : ptr2sv (.pointer s subtype) q hh ≠ .error .fault) : Unread s.arraylen subtype := by
  obtain ⟨hone, helems⟩ := pointer_read hplain hq hsub hread
  cases subtype with
  | scalar k s' =>
    by_cases hvoid : k = .Void
    · exact Or.inl hvoid
    have hfault : ptr2sv (.scalar k s') q hh = .error .fault :=
      scalar_outside hvoid hplain hq hout
    have hmany := mt hone fun hno => hno hfault
    obtain ⟨hlen, hmany⟩ := not_or.mp hmany
    obtain ⟨hchar, hwide⟩ := not_or.mp hmany
    rw [Bool.not_eq_true] at hchar
    refine Or.inr ⟨?_, hchar, hwide⟩
    by_contra hne
    have hfirst := helems hlen hchar hwide 0 (Nat.pos_of_ne_zero hne)
    rw [Nat.zero_mul, Nat.add_zero] at hfirst
    exact hfirst hfault
  | pointer => cases hsub
  | codeRef | struct | union => exact hplain.elim

/-- An array that is read has as many elements as are read. -/
theorem enough_of_read {s : Slots} {v : SV} (ht : LaidOut subtype) (hplain : Plain subtype)
    (hq : q ≠ 0) (hsub : subtype.isPointer = false) (hrun : sv2ptr subtype v 0 h = .ok (q, h'))
    (hl : Later h h' hh) (hlen : s.arraylen ≠ 1) (hchar : isCharacter subtype = false)
    (hread : ptr2sv (.pointer s subtype) q hh ≠ .error .fault) :
    Enough s.arraylen subtype v := by
  have hwide : subtype.flag ≠ .wchar := fun hwide => hq (wide_zero hwide hrun)
  have helems := (pointer_read hplain hq hsub hread).2 hlen hchar hwide
  cases subtype with
  | scalar k s' =>
    have hsize : (TypeObj.scalar k s').sizeof = k.sizeof := ht
    rw [hsize] at helems
    have hbranch := ((sv2ptr_scalar_cases hrun).resolve_left fun hno => hq hno.2).2
    rcases numeric_or k with hnum | hcharacter | rfl | rfl | rfl
    · refine Or.inr (Or.inr (Or.inr ?_))
      by_contra hlt
      have hb := (copied_numbers hnum hbranch).resolve_left fun hno => hq hno.1
      have hout := mt (number_inBlock hnum hb hl le_rfl).mp (lt_irrefl _)
      have hnext := helems _ (Nat.lt_of_not_le hlt)
      rw [ptr2sv, if_neg (by omega)] at hnext
      exact hnext (number_outside hnum hout)
    · simp [isCharacter, hcharacter] at hchar
    · exact Or.inl rfl
    · exact absurd rfl hwide
    · exact absurd rfl hplain
  | pointer => cases hsub
  | codeRef | struct | union => exact hplain.elim

end Read

/-- **The copy for a pointer to pointers to numbers and characters** is decoded by reading alone. Of
a wide string no copy is made. -/
theorem onlyReads_copy (brk : ℕ) (hh : Heap) (hdead : ∀ x < brk, ∀ len, ¬ hh.mem.InBlock x len) :
    ∀ {t : TypeObj}, LaidOut t → Plain t → ∀ {v : SV} {h h' : Heap} {q : ℕ}, OldObjects brk t v →
    sv2ptr t v 0 h = .ok (q, h') → Later h h' hh → OnlyReads (ptr2sv t q) hh
  | .scalar k s, _, hplain, v, h, h', q, _, hrun, _ => by
    by_cases hq : q = 0
    · rw [hq, ptr2sv_null]
      exact onlyReads_pure _ hh
    · exact onlyReads_element hplain rfl (fun hwide => hq (wide_zero hwide hrun)) q hh
  | .pointer s subtype, ht, hplain, v, h, h', q, hold, hrun, hl => by
    by_cases hq : q = 0
    · rw [hq, ptr2sv_null]
      exact onlyReads_pure _ hh
    have hsubplain : Plain subtype := hplain
    cases sv2ptr_pointer_cases hrun with
    | nothing _ hzero => exact absurd hzero hq
    | array hsub hok hm hstore =>
      rw [OldObjects, if_pos hsub] at hold
      rw [ptr2sv_pointers hq hsub]
      refine OnlyReads.get (OnlyReads.bind ?_ fun es => onlyReads_pure _ hh)
      by_cases hempty : pointees v = []
      · rw [hempty] at hm hstore
        cases hstore
        obtain ⟨r, hread⟩ : ∃ r, ptr2svPointers (fun p => ptr2sv subtype p) hh.mem.brk q hh =
            .ok (r, hh) := no_pointers_read hm hl hh.mem.brk_pos
        exact Or.inr ⟨r, hread⟩
      have hcount : atLeastOne (pointees v).length = (pointees v).length :=
        atLeastOne_of_pos (List.length_pos_of_ne_nil hempty)
      rw [hcount] at hm hstore
      have hb := atBreak_of_progress hm
        (progress_storePointers hq (fun e h₁ q h₂ => sv2ptr_progress subtype) hstore)
      refine onlyReads_pointers ht.2 (elements_fit (copyFits_of_plain hplain hrun) hsub hok)
        (fun e he _ _ _ => onlyReads_copy brk hh hdead (t := subtype) ht.2 hplain (hold e he))
        hb.start.ge hstore (Mem.malloc_cases hm).2.2.2.1 hl ?_ _
      rw [hb.inBlock_iff hl (by decide) le_rfl]
      exact Nat.not_le.mpr (Nat.lt_add_of_pos_right (by decide))
    | object hsub hobj hptr haddr =>
      rw [OldObjects, hsub, if_neg Bool.false_ne_true] at hold
      have hbelow := hold q ((object_address hobj hptr haddr).2.2 hq)
      by_cases hwide : subtype.flag = .wchar
      · rw [ptr2sv_one hsub (Or.inr (Or.inr hwide))]
        cases subtype with
        | scalar k s' =>
          refine Or.inl (scalar_outside ?_ hsubplain hq (hdead q hbelow))
          rintro rfl
          cases hwide
        | pointer => cases hsub
        | codeRef | struct | union => exact hsubplain.elim
      · exact onlyReads_elements hsubplain hsub hwide hq hh
    | copy hsub hobj hcopy =>
      exact onlyReads_elements hsubplain hsub (fun hwide => hq (wide_zero hwide hcopy)) hq hh

/-- **Of such a type only what is safe is read back within the copy.** -/
theorem copySafe_of_read (brk : ℕ) (hh : Heap) (hdead : ∀ x < brk, ∀ len, ¬ hh.mem.InBlock x len) :
    ∀ {t : TypeObj}, LaidOut t → Plain t → ∀ {v : SV} {h h' : Heap} {q : ℕ}, OldObjects brk t v →
    sv2ptr t v 0 h = .ok (q, h') → Later h h' hh → ptr2sv t q hh ≠ .error .fault → CopySafe t v
  | .scalar .., _, _, _, _, _, _, _, _, _, _ => trivial
  | .pointer s subtype, ht, hplain, v, h, h', q, hold, hrun, hl, hread => by
    by_cases hq : q = 0
    · exact Or.inl (nullCopy_of_zero hplain (hq ▸ hrun))
    have hsubread : ∀ {v h h' q}, OldObjects brk subtype v → sv2ptr subtype v 0 h = .ok (q, h') →
        Later h h' hh → ptr2sv subtype q hh ≠ .error .fault → CopySafe subtype v :=
      copySafe_of_read brk hh hdead (t := subtype) ht.2 hplain
    have hsubplain : Plain subtype := hplain
    refine Or.inr ?_
    cases sv2ptr_pointer_cases hrun with
    | nothing _ hzero => exact absurd hzero hq
    | array hsub hok hm hstore =>
      rw [OldObjects, if_pos hsub] at hold
      rw [if_pos hsub]
      have hb := atBreak_of_progress hm
        (progress_storePointers hq (fun e h₁ q h₂ => sv2ptr_progress subtype) hstore)
      rw [ptr2sv_pointers hq hsub] at hread
      have hloop : ptr2svPointers (fun p => ptr2sv subtype p) hh.mem.brk q hh ≠ .error .fault :=
        fun hfault => hread
          ((Exec.bind_of_ok (Exec.get_apply hh)).trans (Exec.bind_of_error hfault))
      by_cases hempty : pointees v = []
      · exact Or.inl hempty
      have hcount : atLeastOne (pointees v).length = (pointees v).length :=
        atLeastOne_of_pos (List.length_pos_of_ne_nil hempty)
      rw [hcount] at hm hstore hb
      refine Or.inr ?_
      refine pointers_split ht.2 hplain (elements_fit (copyFits_of_plain hplain hrun) hsub hok)
        (fun e he _ _ _ => onlyReads_copy brk hh hdead ht.2 hsubplain (hold e he))
        (fun e he _ _ _ hcopy hlater => hsubread (hold e he) hcopy hlater) hb.start.ge hstore
        (Mem.malloc_cases hm).2.2.2.1 hl (fun i hi => ?_) hloop
      rw [hb.inBlock_iff hl (by decide) (Nat.mul_le_mul_right _ hi), ← Nat.succ_mul]
      exact Nat.mul_le_mul_right_iff (by decide)
    | object hsub hobj hptr haddr =>
      rw [OldObjects, hsub, if_neg Bool.false_ne_true] at hold
      rw [hsub, if_neg Bool.false_ne_true, hobj]
      have hbelow := hold q ((object_address hobj hptr haddr).2.2 hq)
      exact unread_of_outside hsubplain hq hsub (hdead q hbelow) hread
    | copy hsub hobj hcopy =>
      rw [hsub, if_neg Bool.false_ne_true, hobj]
      by_cases hcase : s.arraylen = 1 ∨ isCharacter subtype = true
      · simp only [hcase, if_true]
        have hold : OldObjects brk subtype v := by
          cases subtype with
          | pointer => cases hsub
          | _ => trivial
        refine hsubread hold hcopy hl ((pointer_read hsubplain hq hsub hread).1 ?_)
        exact hcase.imp_right Or.inl
      · simp only [hcase, if_false]
        obtain ⟨hlen, hchar⟩ := not_or.mp hcase
        rw [Bool.not_eq_true] at hchar
        exact enough_of_read ht.2 hsubplain hq hsub hcopy hl hlen hchar hread

/-! ## Arrays -/

section Arrays

variable {d : Decl} {n : ℕ} {t : TypeObj} {v : SV} {h h' : Heap} {q : ℕ}

theorem later_onlyNew (h h' : Heap) : Later h h' (onlyNew h h') :=
  ⟨Mem.shows_above h'.mem h.mem.brk, fun _ _ _ => rfl⟩

/-- With the new blocks alone, nothing is live where memory was before. -/
theorem dead_onlyNew (h h' : Heap) :
    ∀ x < h.mem.brk, ∀ len, ¬ (onlyNew h h').mem.InBlock x len := by
  intro x hx len hin
  obtain ⟨b, -, hlo, hbx, -⟩ := Mem.inBlock_above.mp hin
  omega

/-- **When an array is read back within the blocks that were made for it.** A copy that is safe
is; of pointers to pointers to numbers and characters no other is. SOURCE: marshal.cxx:573-622 -/
theorem readsWithin_iff_copySafe (ht : (Decl.array d n).type = .ok t)
    (hrun : sv2ptr t v 0 h = .ok (q, h')) :
    (CopyFits t v → CopySafe t v → ReadsWithin t q h h') ∧
      (Plain t → OldObjects h.mem.brk t v → (ReadsWithin t q h h' ↔ CopySafe t v)) := by
  have hlaid : LaidOut t := type_induction laidOut_closed ht
  have hproper : Proper t := type_induction proper_closed ht
  have hl := later_onlyNew h h'
  have hsafe : CopyFits t v → CopySafe t v → ReadsWithin t q h h' := fun hfits hsafe =>
    (copy_staysIn t hlaid hproper hfits hsafe hrun hl).not_fault
  refine ⟨hsafe, fun hplain hold => ⟨fun hread => ?_, hsafe (copyFits_of_plain hplain hrun)⟩⟩
  exact copySafe_of_read h.mem.brk _ (dead_onlyNew h h') hlaid hplain hold hrun hl hread

end Arrays

/-- An array of pointers without a `NULL` is not read back safely. -/
theorem not_copySafe_of_no_null {s : Slots} {subtype : TypeObj} {v : SV}
    (hsub : subtype.isPointer = true) (hok : v.SvOK = true) (hsome : pointees v ≠ [])
    (hnone : ∀ e ∈ pointees v, ¬ NullCopy subtype e) : ¬ CopySafe (.pointer s subtype) v := by
  rintro (hnull | hsplit)
  · rw [NullCopy, if_pos hsub] at hnull
    rcases hnull with hexp | hundef
    · cases hok.symm.trans hexp.1
    · cases hok.symm.trans hundef
  · rw [if_pos hsub] at hsplit
    obtain ⟨before, e, after, hsplit, hnull, -⟩ := hsplit.resolve_left hsome
    exact hnone e (hsplit ▸ List.mem_append_right _ List.mem_cons_self) hnull

/-- `Array[ Int, 2 ]`. -/
def twoInts : Decl := .array (.scalar .Int) 2

/-- `[ 5, 5 ]`. -/
def twoFives : SV := .aref (.new []) [.val (.newSViv 5), .val (.newSViv 5)]

/-- Two numbers for as many are read back. -/
theorem readsWithin_twoFives :
    ∃ t q h', twoInts.type = .ok t ∧ sv2ptr t twoFives 0 .empty = .ok (q, h') ∧
      ReadsWithin t q .empty h' := by
  obtain ⟨t, ht⟩ : ∃ t, twoInts.type = .ok t := ⟨_, rfl⟩
  have hvalue : t = ArrayType (scalarType .Int) 2 := (Except.ok.inj ht).symm
  obtain ⟨q, h', hrun⟩ : ∃ q h', sv2ptr t twoFives 0 .empty = .ok (q, h') := by
    rw [hvalue]
    exact ⟨_, _, rfl⟩
  refine ⟨t, q, h', ht, hrun, ?_⟩
  refine ((readsWithin_iff_copySafe ht hrun).2 ?_ ?_).mpr ?_
  · rw [hvalue]
    exact Kind.noConfusion
  · rw [hvalue]
    rintro q ⟨es, ptr, hobj, -⟩
    have hnone : asPointerObject twoFives = none := rfl
    cases hnone.symm.trans hobj
  · rw [hvalue]
    refine Or.inr ?_
    show Enough 2 (scalarType .Int) twoFives
    exact Or.inr (Or.inr (Or.inr le_rfl))

/-- `Array[ Pointer[ Char ], 2 ]`. -/
def charPointers : Decl := .array (.pointer (.scalar .Char)) 2

/-- `[ "a", "b" ]`. -/
def twoStrings : SV :=
  .aref (.new []) [.val (.ofStr (.ofBytes [0x61])), .val (.ofStr (.ofBytes [0x62]))]

/-- Of two strings for as many the loop looks for a third pointer. -/
theorem not_readsWithin_twoStrings :
    ∃ t q h', charPointers.type = .ok t ∧ sv2ptr t twoStrings 0 .empty = .ok (q, h') ∧
      ¬ ReadsWithin t q .empty h' := by
  obtain ⟨t, ht⟩ : ∃ t, charPointers.type = .ok t := ⟨_, rfl⟩
  have hvalue : t = ArrayType (Pointer (scalarType .Char)) 2 := (Except.ok.inj ht).symm
  obtain ⟨q, h', hrun⟩ : ∃ q h', sv2ptr t twoStrings 0 .empty = .ok (q, h') := by
    rw [hvalue]
    exact ⟨_, _, rfl⟩
  have hstring : ∀ e ∈ pointees twoStrings, asPointerObject e = none ∧ e.SvOK = true := by
    refine List.forall_mem_cons.mpr ⟨⟨rfl, rfl⟩, List.forall_mem_singleton.mpr ⟨rfl, rfl⟩⟩
  refine ⟨t, q, h', ht, hrun, fun hread => ?_⟩
  have hsafe := copySafe_of_read Heap.empty.mem.brk _ (dead_onlyNew .empty h')
    (type_induction laidOut_closed ht) (hvalue ▸ Kind.noConfusion) ?_ hrun
    (later_onlyNew .empty h') hread
  · rw [hvalue] at hsafe
    have hsome : pointees twoStrings ≠ [] := List.cons_ne_nil _ _
    refine not_copySafe_of_no_null rfl rfl hsome (fun e he hnull => ?_) hsafe
    obtain ⟨hnone, hok⟩ := hstring e he
    rcases hnull with hexp | ⟨es, ptr, hobj, -⟩ | ⟨-, hexp | hundef⟩
    · cases hok.symm.trans hexp.1
    · cases hnone.symm.trans hobj
    · cases hok.symm.trans hexp.1
    · cases hok.symm.trans hundef
  · rw [hvalue]
    intro e he q' hobject
    obtain ⟨es, ptr, hobj, -⟩ := hobject
    cases (hstring e he).1.symm.trans hobj

end Affix.Analysis
