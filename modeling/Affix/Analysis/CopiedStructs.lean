import Affix.Analysis.CopiedScalars
import Affix.Analysis.StructImage

/-!
# Copies of structs, and what reads them

`ptr2sv` reads the members of a struct where they lie, and goes after a pointer only
where it is one to characters. So a struct can be read when it lies in a block and the
strings it points to have their ends. What `sv2ptr` leaves in a new block is such a
struct, if the strings that were copied are: the block was zero, and a member that is
written is not written again.

SOURCE: marshal.cxx:441-469, marshal.cxx:682-739
-/

set_option autoImplicit false

namespace Affix.Analysis

open Affix.Foundation Affix.Model Affix.Interface

/-! ## Names -/

/-- Throughout a type object, the members of an aggregate have names and a struct has a size. -/
def Proper : TypeObj → Prop
  | .pointer _ subtype => Proper subtype
  | .struct s fields => 0 < s.sizeof ∧ allProper fields
  | .union _ fields => allProper fields
  | .scalar .. | .codeRef .. => True
where
  allProper : List TypeObj → Prop
    | [] => True
    | field :: rest => (field.field.isSome = true ∧ Proper field) ∧ allProper rest

theorem allProper_iff {fields : List TypeObj} :
    Proper.allProper fields ↔ ∀ field ∈ fields, field.field.isSome = true ∧ Proper field := by
  induction fields with
  | nil => simp [Proper.allProper]
  | cons field rest ih => rw [Proper.allProper, ih, List.forall_mem_cons]

theorem Proper.withMember {t : TypeObj} (h : Proper t) (o : ℕ) (n : PerlStr) :
    Proper (t.withMember o n) := by
  cases t <;> exact h

theorem Proper.qualified {t : TypeObj} (h : Proper t) (q : Qualifier) : Proper (q.apply t) := by
  cases q <;> cases t <;> exact h

theorem proper_placed {os : List ℕ} {types : List (PerlStr × TypeObj)}
    (hts : ∀ p ∈ types, Proper p.2) : Proper.allProper (placed os types) := by
  refine allProper_iff.mpr fun m hm => ?_
  obtain ⟨o, -, p, hp, rfl⟩ := mem_placed hm
  refine ⟨?_, (hts p hp).withMember o p.1⟩
  rw [TypeObj.field_withMember, Option.isSome_some]

/-- **Every type object that is built is proper.** SOURCE: Type.pm:54-258 -/
theorem proper_closed : ConstructorClosed Proper where
  scalar _ := trivial
  qualified q _ ht := ht.qualified q
  pointer _ ht := ht
  array _ _ ht := ht
  codeRef _ _ _ _ := trivial
  struct types t hts hS := by
    obtain ⟨-, s, rfl, -, -, -, hsize⟩ := Struct_cases hS
    exact ⟨hsize ▸ (padded_size _).1, proper_placed hts⟩
  union types hts := by
    obtain ⟨s, hU, -⟩ := Union_eq types (P := fun _ _ => True) (by simp) trivial
    rw [hU]
    exact proper_placed hts

/-! ## What can be read -/

/-- A string can be read from the address. -/
def StringEnds (m : Mem) (q : ℕ) : Prop := ∃ i, m.bytes (q + i) = 0 ∧ m.InBlock q (i + 1)

/-- The address that is stored in the memory. -/
def addressAt (m : Mem) (a : ℕ) : ℕ := decodeLE (m.peek a SIZEOF_INTPTR_T)

/-- The strings that are pointed to from the struct can be read. -/
def StringsEnd (m : Mem) : TypeObj → ℕ → Prop
  | .pointer _ subtype, a => subtype.isChar = true → addressAt m a ≠ 0 →
      StringEnds m (addressAt m a)
  | .struct _ fields, a => allEnd fields a
  | .scalar .., _ | .codeRef .., _ | .union .., _ => True
where
  allEnd : List TypeObj → ℕ → Prop
    | [], _ => True
    | field :: rest, a => StringsEnd m field (a + field.offset) ∧ allEnd rest a

section Reading

variable {hh : Heap} {a : ℕ}

theorem loadPointer_within (hin : hh.mem.InBlock a SIZEOF_INTPTR_T) :
    loadPointer hh.mem a = .ok (addressAt hh.mem a) := by
  rw [loadPointer, load, Mem.read_eq_peek hin]
  rfl

theorem terminated_read {q : ℕ} (ht : StringEnds hh.mem q) :
    ∃ r, ptr2svChars q hh = .ok (r, hh) := by
  obtain ⟨i, hzero, hin⟩ := ht
  exact chars_within hzero hin

/-- A member that is a pointer. -/
theorem pointerField_read {s : Slots} {subtype : TypeObj} {whole : ℕ → Eff SV}
    (hin : hh.mem.InBlock a SIZEOF_INTPTR_T) (hleg : StringsEnd hh.mem (.pointer s subtype) a) :
    ∃ r, ptr2svField whole (.pointer s subtype) a hh = .ok (r, hh) := by
  have hgo : ∀ rest : ℕ → Eff SV, (do
      let h ← Exec.get
      let q ← Exec.lift (loadPointer h.mem a)
      rest q : Eff SV) hh = rest (addressAt hh.mem a) hh := by
    intro rest
    refine (Exec.bind_of_ok (Exec.get_apply hh)).trans ?_
    rw [loadPointer_within hin]
    exact Exec.bind_of_ok (Exec.lift_ok_apply _ hh)
  simp only [ptr2svField, hgo]
  by_cases hq : addressAt hh.mem a = 0
  · exact ⟨_, by rw [if_pos hq]; rfl⟩
  · rw [if_neg hq]
    cases hchar : subtype.isChar with
    | false => exact ⟨_, rfl⟩
    | true => exact terminated_read (hleg hchar hq)

/-- The loop over the members of a union reads the pointers among them. -/
theorem members_read {fields : List TypeObj} (hnames : Proper.allProper fields)
    (hin : ∀ m ∈ fields, m.isPointer = true → hh.mem.InBlock (a + m.offset) SIZEOF_INTPTR_T)
    (acc : List (Text × SV)) : ∃ r, ptr2svMembers a acc fields hh = .ok (r, hh) := by
  induction fields generalizing acc with
  | nil => exact ⟨acc, rfl⟩
  | cons field rest ih =>
    obtain ⟨hfield, hrest⟩ := List.forall_mem_cons.mp hin
    obtain ⟨name, hname⟩ := Option.isSome_iff_exists.mp hnames.1.1
    have hnext := ih hnames.2 hrest
    simp only [ptr2svMembers, hname]
    cases field with
    | pointer s subtype =>
      have hinField := hfield rfl
      obtain ⟨r, hrun⟩ := hnext (hvStore name.chars (.pinned (.pointer s subtype)
        (addressAt hh.mem (a + (TypeObj.pointer s subtype).offset))) acc)
      refine ⟨r, (Exec.bind_of_ok (Exec.get_apply hh)).trans ?_⟩
      simp only [TypeObj.isPointer, loadPointer_within hinField]
      exact (Exec.bind_of_ok (Exec.lift_ok_apply _ hh)).trans hrun
    | _ =>
      obtain ⟨r, hrun⟩ := hnext _
      exact ⟨r, (Exec.bind_of_ok (Exec.get_apply hh)).trans
        ((Exec.bind_of_ok (Exec.pure_apply _ hh)).trans hrun)⟩

theorem union_read {s : Slots} {fields : List TypeObj} (hnames : Proper (.union s fields))
    (ht : LaidOut (.union s fields)) (ha : a ≠ 0)
    (hin : 0 < s.sizeof → hh.mem.InBlock a s.sizeof) :
    ∃ r, ptr2sv (.union s fields) a hh = .ok (r, hh) := by
  have hpointers : ∀ m ∈ fields, m.isPointer = true →
      hh.mem.InBlock (a + m.offset) SIZEOF_INTPTR_T := by
    intro m hm hptr
    have hend := ht.1 m hm
    have hlaid := allLaidOut_iff.mp ht.2 m hm
    cases m with
    | pointer s' subtype =>
      have hsize : (TypeObj.pointer s' subtype).sizeof = SIZEOF_INTPTR_T := hlaid.1
      rw [hsize] at hend
      have hpos : 0 < SIZEOF_INTPTR_T := by decide
      exact (hin (by omega)).mono (Nat.le_add_right _ _) (by omega)
    | _ => cases hptr
  obtain ⟨r, hrun⟩ := members_read hnames hpointers []
  refine ⟨.href (.new []) r, ?_⟩
  simp only [ptr2sv, ha, if_false]
  exact Exec.bind_of_ok hrun

/-- A member that is a scalar. -/
theorem scalarField_read {k : Kind} {s : Slots} (hk : Decodable (.scalar k s))
    (hin : hh.mem.InBlock a k.sizeof) :
    ∃ r, ptr2svField (fun p => ptr2sv (.scalar k s) p) (.scalar k s) a hh = .ok (r, hh) := by
  have hne := hin.pos.ne'
  have hnumber : Numeric k → ∃ r, ptr2sv (.scalar k s) a hh = .ok (r, hh) := by
    intro hnum
    simp only [ptr2sv, hne, if_false]
    exact number_within hnum hin
  obtain ⟨hwchar, hsv⟩ := hk
  cases k with
  | WChar => exact absurd rfl hwchar
  | SV => exact absurd rfl hsv
  | Void =>
    simp only [ptr2svField, ptr2sv, hne, if_false]
    exact ⟨_, rfl⟩
  | Char | SChar | UChar => exact ⟨_, Exec.bind_of_ok (loadAt_of_inBlock hin)⟩
  | _ => exact hnumber ⟨Kind.noConfusion, by decide, Kind.noConfusion, Kind.noConfusion⟩

mutual

/-- **A member that can be decoded is read where it lies.** -/
theorem field_read : ∀ {t : TypeObj} {a : ℕ}, LaidOut t → Proper t → Decodable t →
    hh.mem.InBlock a t.sizeof → StringsEnd hh.mem t a →
    ∃ r, ptr2svField (fun p => ptr2sv t p) t a hh = .ok (r, hh)
  | .scalar k s, a, ht, _, hdec, hin, _ => by
    have hsize : (TypeObj.scalar k s).sizeof = k.sizeof := ht
    exact scalarField_read hdec (hsize ▸ hin)
  | .pointer s subtype, a, ht, _, _, hin, hleg => by
    have hsize : (TypeObj.pointer s subtype).sizeof = SIZEOF_INTPTR_T := ht.1
    exact pointerField_read (hsize ▸ hin) hleg
  | .codeRef .., _, _, _, hdec, _, _ => hdec.elim
  | .union s fields, a, ht, hnames, _, hin, _ => union_read hnames ht hin.pos.ne' fun _ => hin
  | .struct s fields, a, ht, hnames, hdec, hin, hleg => struct_read ht hnames hdec hin hleg

theorem struct_read : ∀ {s : Slots} {fields : List TypeObj} {a : ℕ}, LaidOut (.struct s fields) →
    Proper (.struct s fields) → Decodable.allDecodable fields → hh.mem.InBlock a s.sizeof →
    StringsEnd.allEnd hh.mem fields a → ∃ r, ptr2sv (.struct s fields) a hh = .ok (r, hh)
  | s, fields, a, ht, hnames, hdec, hin, hleg => by
    obtain ⟨r, hrun⟩ := fields_read ht.1 ht.2 hnames.2 hdec hin hleg []
    refine ⟨.href (.new []) r, ?_⟩
    simp only [ptr2sv, hin.pos.ne', if_false]
    exact Exec.bind_of_ok hrun

theorem fields_read : ∀ {fields : List TypeObj} {lo hi a : ℕ}, InOrder lo hi fields →
    LaidOut.allLaidOut fields → Proper.allProper fields → Decodable.allDecodable fields →
    hh.mem.InBlock a hi → StringsEnd.allEnd hh.mem fields a → ∀ acc : List (Text × SV),
    ∃ r, ptr2svFields a acc fields hh = .ok (r, hh)
  | [], _, _, _, _, _, _, _, _, _, acc => ⟨acc, rfl⟩
  | field :: rest, lo, hi, a, horder, hall, hnames, hdec, hin, hleg, acc => by
    obtain ⟨-, hlo, hrest⟩ := horder
    obtain ⟨name, hname⟩ := Option.isSome_iff_exists.mp hnames.1.1
    have hend := hrest.lo_le_hi
    have hinField : hh.mem.InBlock (a + field.offset) field.sizeof := hin.mono (by omega) (by omega)
    obtain ⟨w, hone⟩ := field_read hall.1 hnames.1.2 hdec.1 hinField hleg.1
    obtain ⟨r, hloop⟩ := fields_read hrest hall.2 hnames.2 hdec.2 hin hleg.2
      (hvStore name.chars w acc)
    refine ⟨r, ?_⟩
    simp only [ptr2svFields, hname]
    exact (Exec.bind_of_ok hone).trans hloop

end

end Reading

/-! ## What marshalling leaves -/

section Writing

variable {h h₁ h₂ h' hh : Heap} {keep : ℕ → Prop} {a q : ℕ}

/-- A part of a run, of which the rest leaves alone what it made. -/
theorem Later.part (hl : Later h h' hh) (h₁₂ : Progress a h₁ h₂) (h₂₃ : h₂.mem.Grows h'.mem keep)
    (hsvs : ∀ p < h₂.mem.brk, h'.svs.lookup p = h₂.svs.lookup p) (hlo : h.mem.brk ≤ h₁.mem.brk)
    (hkeep : ∀ x, h₁.mem.brk ≤ x → x < h₂.mem.brk → keep x) : Later h₁ h₂ hh where
  mem := hl.mem.part h₁₂.mem h₂₃ hlo h₂₃.brk_le hkeep
  svs p hp hlt := (hl.svs p (hlo.trans hp) (hlt.trans_le h₂₃.brk_le)).trans (hsvs p hlt)

/-- The end of a string in a new block is there later. -/
theorem terminated_of_block {n : ℕ} (hb : AtBreak h h' q n) (hend : EndsWithin h'.mem q n)
    (hl : Later h h' hh) : StringEnds hh.mem q := by
  obtain ⟨i, hi, hzero⟩ := hend
  refine ⟨i, ?_, ?_⟩
  · have hstart := hb.start
    have hbrk := hb.lt_brk
    rw [hl.mem.bytes _ (by omega) (by omega), hzero]
  · have hin := (hb.inBlock_iff hl (Nat.succ_pos i) (Nat.zero_le n)).mpr (by omega)
    exact hin

/-- **The copy of a string**, if it is one. -/
theorem string_terminated {s : Slots} {subtype : TypeObj} {v : SV} (hchar : subtype.isChar = true)
    (hsafe : StringSafe v) (hrun : sv2ptr (.pointer s subtype) v 0 h = .ok (q, h'))
    (hl : Later h h' hh) (hq : q ≠ 0) : StringEnds hh.mem q := by
  obtain ⟨k, s', rfl, hk⟩ : ∃ k s', subtype = .scalar k s' ∧ Character k := by
    cases subtype with
    | scalar k s' => cases k <;> first | exact ⟨_, _, rfl, Or.inl rfl⟩ | cases hchar
    | _ => cases hchar
  by_cases hexp : ExplicitUndef v
  · cases (sv2ptr_explicitUndef hexp _).symm.trans hrun
    exact absurd rfl hq
  have hconst := not_explicitUndef hexp
  simp only [sv2ptr, hconst, Bool.false_eq_true, if_false, TypeObj.isPointer] at hrun
  rcases hsafe with ⟨es, ptr, hobj, haddr, hnull⟩ | hobj
  · rw [hobj] at hrun
    obtain ⟨ptr', h₁, hptr, hrest⟩ := Exec.bind_eq_ok.mp hrun
    obtain ⟨hptr', -⟩ := Exec.lift_eq_ok.mp hptr
    cases haddr.symm.trans hptr'
    split at hrest
    · rename_i hok
      have hzero := (Exec.lift_eq_ok.mp hrest).1
      cases (hnull hok).symm.trans hzero
      exact absurd rfl hq
    · cases hrest
      exact absurd rfl hq
  · rw [hobj] at hrun
    rcases copied_characters hk hrun with ⟨hzero, -⟩ | ⟨n, hb, hend⟩
    · exact absurd hzero hq
    · exact terminated_of_block hb hend hl

theorem addressAt_store {m : Mem} (hq : q < 256 ^ SIZEOF_INTPTR_T)
    (hpeek : m.peek a SIZEOF_INTPTR_T = pointerBytes q) : addressAt m a = q := by
  rw [addressAt, hpeek]
  exact decodeLE_encodeLE_of_lt hq

theorem addressAt_zero {m : Mem}
    (hzero : ∀ x, a ≤ x → x < a + SIZEOF_INTPTR_T → m.bytes x = 0) : addressAt m a = 0 := by
  have hpeek : m.peek a SIZEOF_INTPTR_T = List.replicate SIZEOF_INTPTR_T 0 := by
    rw [← Mem.peek_poke_replicate m a SIZEOF_INTPTR_T]
    refine Mem.peek_congr fun x hlo hhi => (hzero x hlo hhi).trans ?_
    obtain ⟨i, rfl⟩ := Nat.exists_eq_add_of_le hlo
    exact (zero_of_replicate (Nat.lt_of_add_lt_add_left hhi)).symm
  exact addressAt_store (by decide) hpeek

mutual

/-- Where nothing has been written there are no strings. -/
theorem stringsEnd_zero {m : Mem} : ∀ {t : TypeObj} {a : ℕ}, LaidOut t →
    (∀ x, a ≤ x → x < a + t.sizeof → m.bytes x = 0) → StringsEnd m t a
  | .scalar .., _, _, _ => trivial
  | .codeRef .., _, _, _ => trivial
  | .union .., _, _, _ => trivial
  | .pointer s subtype, a, ht, hzero => by
    have hsize : (TypeObj.pointer s subtype).sizeof = SIZEOF_INTPTR_T := ht.1
    exact fun _ hne => absurd (addressAt_zero (hsize ▸ hzero)) hne
  | .struct s fields, a, ht, hzero =>
    allEnd_zero ht.1 ht.2 fun x hlo hhi => hzero x (by omega) hhi

theorem allEnd_zero {m : Mem} : ∀ {fields : List TypeObj} {lo hi a : ℕ},
    InOrder lo hi fields → LaidOut.allLaidOut fields →
    (∀ x, a + lo ≤ x → x < a + hi → m.bytes x = 0) → StringsEnd.allEnd m fields a
  | [], _, _, _, _, _, _ => trivial
  | field :: rest, lo, hi, a, horder, hall, hzero => by
    obtain ⟨-, hlo, hrest⟩ := horder
    have hend := hrest.lo_le_hi
    refine ⟨stringsEnd_zero hall.1 fun x h1 h2 => hzero x (by omega) (by omega), ?_⟩
    exact allEnd_zero hrest hall.2 fun x h1 h2 => hzero x (by omega) h2

end

/-- The address of a copy is no longer than a pointer. -/
theorem address_lt {bound : ℕ} {m : Mem} {t : TypeObj} {v : SV}
    (hq : CopyAddress bound m t v q) : q < 256 ^ SIZEOF_INTPTR_T := by
  have hlimit : addrLimit < 256 ^ SIZEOF_INTPTR_T := by
    unfold addrLimit SIZEOF_INTPTR_T
    norm_num
  have hpos : 0 < 256 ^ SIZEOF_INTPTR_T := Nat.lt_of_le_of_lt (Nat.zero_le _) hlimit
  rcases hq with ⟨-, n, hblock⟩ | ⟨es, ptr, -, -, -, haddr⟩ | ⟨rfl, -⟩
  · have hend := m.block_end _ hblock
    have hbrk := m.brk_le
    dsimp only at hend
    omega
  · cases ptr with
    | sref r target =>
      cases haddr
      have hrange := culong.wrap_inRange (SvIV target)
      generalize culong.wrap (SvIV target) = n at hrange
      norm_num [CIntType.InRange, CIntType.minValue, CIntType.card, culong] at hrange
      show n.toNat < 256 ^ 8
      omega
    | undef | val | pinned => cases haddr
    | aref | href | code | type =>
      cases haddr
      exact hpos
  · exact hpos

/-- A run that is known by what it leaves alone. -/
theorem Progress.grows (hp : Progress a h h') (hext : h.mem.Extends h'.mem keep) :
    h.mem.Grows h'.mem keep :=
  ⟨hext, hp.mem.fresh⟩

mutual

/-- **A struct that is written where there were zeros** can be read, if its strings were
copied whole. -/
theorem sv2ptr_stringsEnd : ∀ {t : TypeObj} {v : SV}, LaidOut t → t.isPointer = false →
    ∀ {h h' hh : Heap} {a room q : ℕ}, Fits room t v → h.mem.InBlock a room → t.sizeof ≤ room →
    (∀ x, a ≤ x → x < a + t.sizeof → h.mem.bytes x = 0) → StringsSafe.fieldSafe t v →
    sv2ptr t v a h = .ok (q, h') → Later h h' hh →
    (∀ x, a ≤ x → x < a + t.sizeof → hh.mem.bytes x = h'.mem.bytes x) → StringsEnd hh.mem t a
  | .scalar .., _, _, _, _, _, _, _, _, _, _, _, _, _, _, _, _, _ => trivial
  | .codeRef .., _, _, _, _, _, _, _, _, _, _, _, _, _, _, _, _, _ => trivial
  | .union .., _, _, _, _, _, _, _, _, _, _, _, _, _, _, _, _, _ => trivial
  | .struct s fields, v, ht, _, h, h', hh, a, room, q, hfits, hin, hroom, hzero, hsafe, hrun, hl,
      hsame => by
    -- a value that is no hash leaves the zeros
    have hnothing : h' = h → StringsEnd hh.mem (.struct s fields) a := by
      rintro rfl
      exact stringsEnd_zero ht fun x hlo hhi => (hsame x hlo hhi).trans (hzero x hlo hhi)
    by_cases hexp : ExplicitUndef v
    · cases (sv2ptr_explicitUndef hexp _).symm.trans hrun
      exact hnothing rfl
    have hconst := not_explicitUndef hexp
    simp only [sv2ptr, hconst, Bool.false_eq_true, if_false, asHash] at hrun
    cases hes : v.entries with
    | none =>
      rw [hes] at hrun
      cases hrun
      exact hnothing rfl
    | some es =>
      rw [hes] at hrun
      obtain ⟨p, h₁, hnew, hrest⟩ := Exec.bind_eq_ok.mp hrun
      cases (orNew_of_ne hin.pos.ne' _ h).symm.trans hnew
      obtain ⟨u, h₂, hloop, hpure⟩ := Exec.bind_eq_ok.mp hrest
      cases hpure
      exact sv2ptrFields_stringsEnd ht.1 ht.2 (hfits es hes) hin hroom
        (fun x hlo hhi => hzero x (by omega) hhi) (hsafe es hes) hloop hl
        fun x hlo hhi => hsame x (by omega) hhi

theorem sv2ptrFields_stringsEnd : ∀ {fields : List TypeObj} {es : List (Text × SV)} {lo hi : ℕ},
    InOrder lo hi fields → LaidOut.allLaidOut fields → ∀ {h h' hh : Heap} {a room : ℕ},
    FieldsFit room es fields → h.mem.InBlock a room → hi ≤ room →
    (∀ x, a + lo ≤ x → x < a + hi → h.mem.bytes x = 0) → StringsSafe es fields →
    sv2ptrFields es a fields h = .ok ((), h') → Later h h' hh →
    (∀ x, a + lo ≤ x → x < a + hi → hh.mem.bytes x = h'.mem.bytes x) →
    StringsEnd.allEnd hh.mem fields a
  | [], _, _, _, _, _, _, _, _, _, _, _, _, _, _, _, _, _, _ => trivial
  | field :: rest, es, lo, hi, horder, hall, h, h', hh, a, room, hfits, hin, hroom, hzero, hsafe,
      hrun, hl, hsame => by
    obtain ⟨-, hlo, hrest⟩ := horder
    obtain ⟨hfieldFits, hrestFits⟩ := hfits
    obtain ⟨hfieldSafe, hrestSafe⟩ := hsafe
    have hend := hrest.lo_le_hi
    have hbrk := hin.le_brk
    have hinField : h.mem.InBlock (a + field.offset) (room - field.offset) :=
      hin.mono (by omega) (by omega)
    -- what is left to say once the field has been written
    have hthen : ∀ {h₁ : Heap}, Progress a h h₁ →
        h.mem.Extends h₁.mem (fun x => ¬ InField field (a + field.offset) x) →
        sv2ptrFields es a rest h₁ = .ok ((), h') →
        (h₁.mem.Grows h'.mem fun x => ¬ InField.inAny rest a x) ∧
          (∀ p < h₁.mem.brk, h'.svs.lookup p = h₁.svs.lookup p) ∧
          StringsEnd.allEnd hh.mem rest a := by
      intro h₁ hp hext hloop
      have hinRoom := hext.inBlock hin
      have hprogress := sv2ptrFields_progress rest hin.pos.ne' hloop
      have hwritten := (sv2ptrFields_fills hrest hall.2 hrestFits hinRoom hroom
        (Nat.zero_le _) fun x _ _ => Eq.refl (h₁.mem.bytes x)).of_ok hloop
      refine ⟨hprogress.grows hwritten.1, hprogress.svs, ?_⟩
      have hlater : Later h₁ h' hh := by
        refine hl.part hprogress (Mem.Grows.refl _ fun _ => True) (fun _ _ => rfl) hext.brk_le ?_
        exact fun _ _ _ => trivial
      refine sv2ptrFields_stringsEnd hrest hall.2 hrestFits hinRoom hroom (fun x h1 h2 => ?_)
        hrestSafe hloop hlater fun x h1 h2 => hsame x (by omega) h2
      rw [hext.bytes x (by omega) fun hx => ?_]
      · exact hzero x (by omega) h2
      · have hbounds := inField_bounds hall.1 hx
        omega
    have houtside : ∀ x, h.mem.brk ≤ x ∨ x < a + field.offset + field.sizeof →
        ¬ InField.inAny rest a x := fun x hx hin => by
      have hbounds := inAny_bounds hrest hall.2 hin
      omega
    cases hname : field.field with
    | none =>
      simp only [sv2ptrFields, hname] at hrun
      cases hrun
    | some name =>
      cases hfetch : hvFetch es name with
      | none =>
        simp only [sv2ptrFields, hname, hfetch] at hrun
        cases hrun
      | some w =>
        have hw : fetched es field = some w := by rw [fetched, hname, Option.bind_some, hfetch]
        have hfit := hfieldFits w hw
        have hsafe := hfieldSafe w hw
        simp only [sv2ptrFields, hname, hfetch] at hrun
        cases hptr : field.isPointer with
        | false =>
          rw [hptr, if_neg Bool.false_ne_true] at hrun
          obtain ⟨q, h₁, hplace, hloop⟩ := Exec.bind_eq_ok.mp hrun
          have hwritten := (sv2ptr_fills hall.1 hptr hfit hinField (by omega)
            (Nat.zero_le _) fun x _ _ => Eq.refl (h.mem.bytes x)).of_ok hplace
          have hp := sv2ptr_progress field hplace
          have hpa : Progress a h h₁ := hp.weaken fun x _ hx hne =>
            (hx hin.pos.ne').trans_le (Nat.le_add_right _ _)
          obtain ⟨hgrows, hsvs, hothers⟩ := hthen hpa hwritten.1 hloop
          refine ⟨sv2ptr_stringsEnd hall.1 hptr hfit hinField (by omega)
            (fun x h1 h2 => hzero x (by omega) (by omega)) hsafe hplace
            (hl.part hp hgrows hsvs le_rfl fun x hx _ => houtside x (Or.inl hx))
            fun x h1 h2 => ?_, hothers⟩
          rw [hsame x (by omega) (by omega)]
          exact hgrows.bytes x (by have := hwritten.1.brk_le; omega) (houtside x (Or.inr h2))
        | true =>
          rw [hptr, if_pos rfl] at hrun
          obtain ⟨q, h₀, hcopy, hrest'⟩ := Exec.bind_eq_ok.mp hrun
          obtain ⟨u, h₁, hstore, hloop⟩ := Exec.bind_eq_ok.mp hrest'
          have hcopied := (sv2ptr_copies hall.1 (copyFits_of_fits hptr hfit)
            (Nat.zero_le _)).of_ok hcopy
          have hp := sv2ptr_progress field hcopy
          obtain ⟨h₂, hstore', hwritten⟩ :=
            store_copied hall.1 hptr hcopied (hinField.mono le_rfl (by omega))
          cases hstore'.symm.trans hstore
          have hpa : Progress a h h₁ := hp.of_zero.trans (progress_store hstore)
            fun x _ hx hne => (hx hin.pos.ne').trans_le (Nat.le_add_right _ _)
          obtain ⟨hgrows, hsvs, hothers⟩ := hthen hpa (hwritten h.mem).1 hloop
          refine ⟨?_, hothers⟩
          cases field with
          | pointer s subtype =>
            have hsize : (TypeObj.pointer s subtype).sizeof = SIZEOF_INTPTR_T := hall.1.1
            have hlen : (pointerBytes q).length = SIZEOF_INTPTR_T := length_encodeLE _ _
            obtain ⟨-, rfl⟩ := store_eq_ok.mp hstore
            have haddr : addressAt hh.mem (a + (TypeObj.pointer s subtype).offset) = q := by
              have hpeek := Mem.peek_poke_same h₀.mem
                (a + (TypeObj.pointer s subtype).offset) (pointerBytes q)
              rw [hlen] at hpeek
              refine addressAt_store (address_lt hcopied.2) (Eq.trans ?_ hpeek)
              refine Mem.peek_congr fun x h1 h2 => ?_
              rw [hsame x (by omega) (by omega)]
              refine hgrows.bytes x ?_ (houtside x (Or.inr (by omega)))
              have := (hwritten h.mem).1.brk_le
              omega
            have hpoke : h₀.mem.Grows (h₀.mem.poke (a + (TypeObj.pointer s subtype).offset)
                (pointerBytes q)) fun x => h.mem.brk ≤ x := (progress_store hstore).grows
              ((Mem.extends_poke _ _ _).weaken fun x _ hx => Or.inr (by omega))
            have hlater : Later h _ hh := hl.part hp (hpoke.trans
              (hgrows.weaken fun x _ hx => houtside x (Or.inl hx)) fun _ _ hx => hx) hsvs le_rfl
              fun _ hx _ => hx
            intro hchar hne
            rw [haddr] at hne ⊢
            exact string_terminated hchar (hsafe hchar) hcopy hlater hne
          | _ => cases hptr

end

/-- **The copy of a struct** is read back, if its members can be decoded and its strings were
copied whole. -/
theorem struct_copy_read {s : Slots} {fields : List TypeObj} {v : SV} {es : List (Text × SV)}
    (ht : LaidOut (.struct s fields)) (hnames : Proper (.struct s fields))
    (hes : v.entries = some es) (hfits : FieldsFit s.sizeof es fields)
    (hdec : Decodable.allDecodable fields)
    (hsafe : StringsSafe es fields) (hrun : sv2ptr (.struct s fields) v 0 h = .ok (q, h'))
    (hl : Later h h' hh) : ∃ r, ptr2sv (.struct s fields) q hh = .ok (r, hh) := by
  have hok : v.SvOK = true := by cases v <;> first | rfl | cases hes
  simp only [sv2ptr, hok, Bool.not_true, Bool.false_and, Bool.false_eq_true, if_false, asHash,
    hes] at hrun
  have hb := atBreak_fill (fun p h₁ h₂ hp => sv2ptrFields_progress fields hp) hrun
  rw [bytes_one] at hb
  have hin : hh.mem.InBlock q s.sizeof := by
    have hblock := (hb.inBlock_iff hl hnames.1 (Nat.zero_le _)).mpr (Nat.zero_add _).le
    exact hblock
  obtain ⟨p, m, hm, hrest⟩ := orNew_cases hrun
  rw [bytes_one] at hm hrest
  obtain ⟨u, h₂, hloop, hpure⟩ := Exec.bind_eq_ok.mp hrest
  cases hpure
  have hq := (Mem.malloc_eq_some hm).1
  have hbrk := hb.lt_brk
  -- the block was zero, and is the beginning of what was made
  refine struct_read ht hnames hdec hin (sv2ptrFields_stringsEnd ht.1 ht.2 hfits ?_ le_rfl
    (fun x hlo hhi => ?_) hsafe hloop ?_ fun x hlo hhi => hl.mem.bytes x (by omega) (by omega))
  · have hblock := Mem.malloc_block hm
    exact ⟨(q, s.sizeof), hblock, le_rfl, le_rfl⟩
  · obtain ⟨i, rfl⟩ := Nat.exists_eq_add_of_le (by omega : q ≤ x)
    exact zero_of_replicate (by omega)
  · refine hl.part (sv2ptrFields_progress fields ?_ hloop) (Mem.Grows.refl _ fun _ => True)
      (fun _ _ => rfl) ?_ fun _ _ _ => trivial
    · exact hb.ne_zero
    · exact (Mem.malloc_cases hm).2.2.2.2.brk_le

/-- The copy of a union is read back always. -/
theorem union_copy_read {s : Slots} {fields : List TypeObj} {v : SV} {es : List (Text × SV)}
    (ht : LaidOut (.union s fields)) (hnames : Proper (.union s fields)) (hes : v.entries = some es)
    (hrun : sv2ptr (.union s fields) v 0 h = .ok (q, h')) (hl : Later h h' hh) :
    ∃ r, ptr2sv (.union s fields) q hh = .ok (r, hh) := by
  have hok : v.SvOK = true := by cases v <;> first | rfl | cases hes
  simp only [sv2ptr, hok, Bool.not_true, Bool.false_and, Bool.false_eq_true, if_false, asHash,
    hes] at hrun
  obtain ⟨p, m, hm, hrest⟩ := orNew_cases hrun
  rw [bytes_one] at hm hrest
  obtain ⟨okay, h₂, hloop, hlast⟩ := Exec.bind_eq_ok.mp hrest
  cases okay with
  | false => cases hlast
  | true =>
    cases hlast
    have hne : q ≠ 0 := (Mem.malloc_eq_some hm).1 ▸ h.mem.brk_pos.ne'
    have hb := atBreak_of_progress hm (sv2ptrMembers_progress fields hne hloop)
    refine union_read hnames ht hne fun hpos => ?_
    have hblock := (hb.inBlock_iff hl hpos (Nat.zero_le _)).mpr (Nat.zero_add _).le
    exact hblock

end Writing

end Affix.Analysis
