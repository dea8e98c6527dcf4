import Affix.Analysis.FieldRanges
import Affix.Analysis.RecordRoundTrip
import Affix.Analysis.ScalarFields

/-!
# The image of a hash

`sv2ptr` marshals a hash field by field, at every depth, and copies what a field points
to into blocks of its own. One induction goes through all of it: a value that fits
touches its field and new memory only and, where it fills its field, leaves its image
there. The fields of a struct are apart, so what one writes the others leave alone.

SOURCE: marshal.cxx:328-377, marshal.cxx:382-398, marshal.cxx:441-502
-/

set_option autoImplicit false

namespace Affix.Analysis

open Affix.Foundation Affix.Model Affix.Interface

/-! ## Layout -/

/-- Throughout a type object, sizes are recorded and the members of an aggregate lie in it, those
of a struct one after another. -/
def LaidOut : TypeObj → Prop
  | .scalar k s => s.sizeof = k.sizeof
  | .pointer s subtype => s.sizeof = SIZEOF_INTPTR_T ∧ LaidOut subtype
  | .codeRef s _ _ _ => s.sizeof = SIZEOF_INTPTR_T
  | .struct s fields => InOrder 0 s.sizeof fields ∧ allLaidOut fields
  | .union s fields => (∀ m ∈ fields, m.offset + m.sizeof ≤ s.sizeof) ∧ allLaidOut fields
where
  allLaidOut : List TypeObj → Prop
    | [] => True
    | field :: rest => LaidOut field ∧ allLaidOut rest

theorem allLaidOut_iff {fields : List TypeObj} :
    LaidOut.allLaidOut fields ↔ ∀ field ∈ fields, LaidOut field := by
  induction fields with
  | nil => simp [LaidOut.allLaidOut]
  | cons field rest ih => rw [LaidOut.allLaidOut, ih, List.forall_mem_cons]

theorem LaidOut.withMember {t : TypeObj} (h : LaidOut t) (o : ℕ) (n : PerlStr) :
    LaidOut (t.withMember o n) := by
  cases t <;> exact h

theorem LaidOut.qualified {t : TypeObj} (h : LaidOut t) (q : Qualifier) : LaidOut (q.apply t) := by
  cases q <;> cases t <;> exact h

/-- **Every type object that is built is laid out.** SOURCE: Type.pm:54-258 -/
theorem laidOut_closed : ConstructorClosed LaidOut where
  scalar _ := rfl
  qualified q _ ht := ht.qualified q
  pointer _ ht := ⟨rfl, ht⟩
  array _ _ ht := ⟨rfl, ht⟩
  codeRef _ _ _ _ := rfl
  struct types t hts hS := by
    obtain ⟨halign, s, rfl, -, -, -, hsize⟩ := Struct_cases hS
    refine ⟨(inOrder_placed halign 0).mono ?_, allLaidOut_iff.mpr fun m hm => ?_⟩
    · rw [hsize]
      exact Nat.le_add_right _ _
    · obtain ⟨o, -, p, hp, rfl⟩ := mem_placed hm
      exact (hts p hp).withMember o p.1
  union types hts := by
    have hsound := soundHere_union types
    obtain ⟨s, hU, -⟩ := Union_eq types (P := fun _ _ => True) (by simp) trivial
    rw [hU] at hsound ⊢
    refine ⟨hsound, allLaidOut_iff.mpr fun m hm => ?_⟩
    obtain ⟨o, -, p, hp, rfl⟩ := mem_placed hm
    exact (hts p hp).withMember o p.1

mutual

/-- Fields lie in what they are fields of. -/
theorem inField_bounds : ∀ {t : TypeObj} {a x : ℕ}, LaidOut t → InField t a x →
    a ≤ x ∧ x < a + t.sizeof
  | .scalar .., _, _, _, hx => hx
  | .pointer .., _, _, _, hx => hx
  | .codeRef .., _, _, _, hx => hx
  | .union .., _, _, _, hx => hx
  | .struct s fields, a, x, ht, hx => by
    have hbounds := inAny_bounds ht.1 ht.2 hx
    exact ⟨hbounds.1, hbounds.2⟩

theorem inAny_bounds : ∀ {fields : List TypeObj} {lo hi a x : ℕ}, InOrder lo hi fields →
    LaidOut.allLaidOut fields → InField.inAny fields a x → a + lo ≤ x ∧ x < a + hi
  | [], _, _, _, _, _, _, hx => hx.elim
  | field :: rest, lo, hi, a, x, horder, hall, hx => by
    obtain ⟨-, hlo, hrest⟩ := horder
    have hend := hrest.lo_le_hi
    rcases hx with hx | hx
    · have hbounds := inField_bounds hall.1 hx
      omega
    · have hbounds := inAny_bounds hrest hall.2 hx
      omega

end

/-! ## What stays -/

section Frame

variable {m m' : Mem} {bound : ℕ} {keep : ℕ → Prop}

theorem copyAddress_frame {t : TypeObj} {v : SV} {q : ℕ} (h : CopyAddress bound m t v q)
    (hext : m.Extends m' keep) : CopyAddress bound m' t v q := by
  rcases h with ⟨hq, n, hblock⟩ | h
  · exact Or.inl ⟨hq, n, hext.blocks _ hblock⟩
  · exact Or.inr h

theorem callbackAddress_frame {v : SV} {q : ℕ} (h : CallbackAddress bound m v q)
    (hext : m.Extends m' keep) : CallbackAddress bound m' v q := by
  rcases h with ⟨hq, n, hblock⟩ | h
  · exact Or.inl ⟨hq, n, hext.blocks _ hblock⟩
  · exact Or.inr h

mutual

/-- **The image of a value stays** while what it lies in is left alone. -/
theorem holds_frame : ∀ {t : TypeObj} {a : ℕ} {v : SV}, LaidOut t → Holds bound m t a v →
    m.InBlock a t.sizeof → m.Extends m' keep → (∀ x, a ≤ x → x < a + t.sizeof → keep x) →
    Holds bound m' t a v
  | .scalar k s, a, v, ht, h, hin, hext, hkeep => by
    have hsize : (TypeObj.scalar k s).sizeof = k.sizeof := ht
    rw [hsize] at hin hkeep
    show m'.peek a k.sizeof = fieldEncoding k v
    rw [hext.peek hin hkeep]
    exact h
  | .pointer s subtype, a, v, ht, h, hin, hext, hkeep => by
    have hsize : (TypeObj.pointer s subtype).sizeof = SIZEOF_INTPTR_T := ht.1
    rw [hsize] at hin hkeep
    obtain ⟨q, hq, haddr⟩ := h
    exact ⟨q, by rw [hext.peek hin hkeep]; exact hq, copyAddress_frame haddr hext⟩
  | .codeRef s args sig ret, a, v, ht, h, hin, hext, hkeep => by
    have hsize : (TypeObj.codeRef s args sig ret).sizeof = SIZEOF_INTPTR_T := ht
    rw [hsize] at hin hkeep
    obtain ⟨q, hq, haddr⟩ := h
    exact ⟨q, by rw [hext.peek hin hkeep]; exact hq, callbackAddress_frame haddr hext⟩
  | .struct s fields, a, v, ht, h, hin, hext, hkeep => by
    obtain ⟨es, hes, hfields⟩ := h
    exact ⟨es, hes, holdsAll_frame ht.1 ht.2 hfields hin hext
      fun x hlo hhi => hkeep x (by omega) hhi⟩
  | .union s fields, a, v, ht, h, hin, hext, hkeep => by
    obtain ⟨es, hes, hfields⟩ := h
    exact ⟨es, hes, holdsOne_frame ht.1 ht.2 hfields hin hext hkeep⟩

theorem holdsAll_frame : ∀ {fields : List TypeObj} {es : List (Text × SV)} {a lo hi : ℕ},
    InOrder lo hi fields → LaidOut.allLaidOut fields → Holds.holdsAll bound m es a fields →
    m.InBlock a hi → m.Extends m' keep → (∀ x, a + lo ≤ x → x < a + hi → keep x) →
    Holds.holdsAll bound m' es a fields
  | [], _, _, _, _, _, _, _, _, _, _ => trivial
  | field :: rest, es, a, lo, hi, horder, hall, h, hin, hext, hkeep => by
    obtain ⟨-, hlo, hrest⟩ := horder
    obtain ⟨⟨w, hw, hfield⟩, htail⟩ := h
    have hend := hrest.lo_le_hi
    have hinField : m.InBlock (a + field.offset) field.sizeof := hin.mono (by omega) (by omega)
    refine ⟨⟨w, hw, ?_⟩, ?_⟩
    · exact holds_frame hall.1 hfield hinField hext fun x h1 h2 => hkeep x (by omega) (by omega)
    · exact holdsAll_frame hrest hall.2 htail hin hext fun x h1 h2 => hkeep x (by omega) h2

theorem holdsOne_frame : ∀ {fields : List TypeObj} {es : List (Text × SV)} {a hi : ℕ},
    (∀ field ∈ fields, field.offset + field.sizeof ≤ hi) → LaidOut.allLaidOut fields →
    Holds.holdsOne bound m es a fields → m.InBlock a hi → m.Extends m' keep →
    (∀ x, a ≤ x → x < a + hi → keep x) → Holds.holdsOne bound m' es a fields
  | [], _, _, _, _, _, h, _, _, _ => h.elim
  | field :: rest, es, a, hi, hends, hall, h, hin, hext, hkeep => by
    obtain ⟨hend, hrest⟩ := List.forall_mem_cons.mp hends
    rcases h with ⟨⟨w, hw, hfield⟩, hun⟩ | ⟨hnone, htail⟩
    · have hinField : m.InBlock (a + field.offset) field.sizeof := hin.mono (by omega) (by omega)
      exact Or.inl ⟨⟨w, hw, holds_frame hall.1 hfield hinField hext
        fun x h1 h2 => hkeep x (by omega) (by omega)⟩, hun⟩
    · exact Or.inr ⟨hnone, holdsOne_frame hrest hall.2 htail hin hext hkeep⟩

end

end Frame

/-! ## The parts -/

section Parts

variable {v : SV} {a : ℕ} {h : Heap}

theorem not_explicitUndef (hnot : ¬ ExplicitUndef v) : (!v.SvOK && v.SvREADONLY) = false := by
  unfold ExplicitUndef at hnot
  cases hok : v.SvOK <;> cases hro : v.SvREADONLY <;> simp_all

/-- The explicit `undef` is not converted. -/
theorem sv2ptr_explicitUndef (hexp : ExplicitUndef v) (t : TypeObj) :
    sv2ptr t v a h = .ok (0, h) := by
  cases t <;> simp [sv2ptr, hexp.1, hexp.2]

/-- A field that it is given for has its image if it had it. -/
theorem holds_explicitUndef {t : TypeObj} (ht : LaidOut t) (hptr : t.isPointer = false)
    (hexp : ExplicitUndef v) {m₀ : Mem}
    (hsame : ∀ x, a ≤ x → x < a + t.sizeof → h.mem.bytes x = m₀.bytes x) (hfills : Fills m₀ t a v)
    (bound : ℕ) : Holds bound h.mem t a v := by
  have hentries : v.entries = none := by
    have hok := hexp.1
    cases v <;> first | rfl | cases hok
  cases t with
  | scalar k s =>
    have hsize : (TypeObj.scalar k s).sizeof = k.sizeof := ht
    rw [hsize] at hsame
    exact (Mem.peek_congr hsame).trans (hfills.2 (Or.inl hexp))
  | pointer s subtype => cases hptr
  | codeRef s args sig ret =>
    have hsize : (TypeObj.codeRef s args sig ret).sizeof = SIZEOF_INTPTR_T := ht
    rw [hsize] at hsame
    exact ⟨0, (Mem.peek_congr hsame).trans hfills.2, Or.inr ⟨rfl, hexp.1⟩⟩
  | struct s fields =>
    obtain ⟨es, hes, -⟩ := hfills
    cases hentries.symm.trans hes
  | union s fields =>
    obtain ⟨es, hes, -⟩ := hfills
    cases hentries.symm.trans hes

/-- A callback, or a word in its place, is a new block. -/
theorem sv2ptrCodeRef_made (args : Option (List TypeObj)) {sig : List Flag} (r : TypeObj) {v : SV}
    (hfits : CallbackFits sig v) (h : Heap) :
    Exec.Ends (· ≠ .fault) (sv2ptrCodeRef args sig r v) h fun q h' => ∃ n, Made h h' n q := by
  unfold sv2ptrCodeRef
  cases hok : v.SvOK with
  | false => exact (made_one _ h).mono fun q h' hm => ⟨_, hm⟩
  | true =>
    have hinit := hfits hok
    rw [hinit]
    refine (made_one 56 h).bind fun _ h₁ hm₁ => (made_one 8 h₁).bind fun _ h₂ hm₂ => ?_
    refine (ends_safemalloc 56 h₂).bind fun q h₃ hm₃ => ?_
    have hframe := hm₁.frame.trans hm₂.frame
    refine Exec.ends_of_ok rfl ⟨56, ?_, hm₃.block, ?_⟩
    · exact hframe.brk_le.trans hm₃.above
    · exact (hframe.trans hm₃.frame).weaken fun _ _ _ => ⟨⟨trivial, trivial⟩, trivial⟩

/-- The addresses of the copies of an array's elements are stored in a block with room. -/
theorem storePointers_fits {convert : SV → Eff ℕ} {lo p n : ℕ} (es : List SV) {h : Heap}
    (hconvert : ∀ e ∈ es, ∀ h₁ : Heap, Exec.Ends (· ≠ .fault) (convert e) h₁ fun _ h' =>
      h₁.mem.Extends h'.mem fun _ => True)
    (hlo : lo ≤ p) (hin : h.mem.InBlock p n) (hroom : es.length * SIZEOF_INTPTR_T ≤ n) :
    Exec.Ends (· ≠ .fault) (storePointers convert p es) h fun _ h' =>
      h.mem.Extends h'.mem fun x => x < lo := by
  induction es generalizing p n h with
  | nil => exact Exec.ends_of_ok rfl (Mem.Extends.refl _ _)
  | cons e es ih =>
    obtain ⟨hhead, hrest⟩ := List.forall_mem_cons.mp hconvert
    rw [List.length_cons, Nat.succ_mul] at hroom
    refine (hhead h).bind fun q h₁ hext => ?_
    have hlen : (pointerBytes q).length = SIZEOF_INTPTR_T := length_encodeLE _ _
    have hin₁ := hext.inBlock hin
    have hstore : store p (pointerBytes q) h₁ = .ok ((), _) :=
      store_eq_ok.mpr ⟨Or.inr (hin₁.mono (le_refl p) (by omega)), rfl⟩
    refine Exec.Ends.bind_of_ok hstore ?_
    have hpoke := Mem.extends_poke h₁.mem p (pointerBytes q)
    have hthen := ih (p := p + SIZEOF_INTPTR_T) (n := n - SIZEOF_INTPTR_T)
      (h := { h₁ with mem := h₁.mem.poke p (pointerBytes q) }) hrest (by omega)
      ((hpoke.inBlock hin₁).mono (by omega) (by omega)) (by omega)
    exact hthen.mono fun _ h' hext' => ((hext.trans hpoke).trans hext').weaken
      fun x _ hx => ⟨⟨trivial, Or.inl (by omega)⟩, hx⟩

/-- The address that a type other than a pointer is copied to is the address for a pointer to
it. -/
theorem copyAddress_pointer {bound : ℕ} {m : Mem} {s : Slots} {subtype : TypeObj} {q : ℕ}
    (hq : CopyAddress bound m subtype v q) (hsub : subtype.isPointer = false) :
    CopyAddress bound m (.pointer s subtype) v q := by
  refine hq.imp_right (Or.imp_right fun hnone => ⟨hnone.1, ?_⟩)
  refine hnone.2.imp_right (Or.imp_right fun hagg => ?_)
  cases subtype <;> first | exact hagg | exact hagg.elim | cases hsub

/-- Where no field has an entry, the loop of a union does nothing. -/
theorem sv2ptrMembers_unnamed {es : List (Text × SV)} {fields : List TypeObj}
    (hun : ∀ field ∈ fields, fetched es field = none) :
    Exec.Ends (· ≠ .fault) (sv2ptrMembers es a fields) h fun okay h' => okay = false ∧ h' = h := by
  induction fields with
  | nil => exact Exec.ends_of_ok (by simp only [sv2ptrMembers]; rfl) ⟨rfl, rfl⟩
  | cons field rest ih =>
    obtain ⟨hfield, hrest⟩ := List.forall_mem_cons.mp hun
    cases hname : field.field with
    | none =>
      simp only [sv2ptrMembers, hname]
      exact Halt.noConfusion
    | some name =>
      rw [fetched, hname, Option.bind_some] at hfield
      simp only [sv2ptrMembers, hname, hfield]
      exact ih hrest

end Parts

/-! ## The whole -/

/-- A field has been written: nothing else of the old memory was touched and, if the value fills
the field of the memory before the struct was begun, it has its image. -/
abbrev Written (m₀ : Mem) (bound : ℕ) (t : TypeObj) (a : ℕ) (v : SV) (h h' : Heap) : Prop :=
  h.mem.Extends h'.mem (fun x => ¬ InField t a x) ∧ (Fills m₀ t a v → Holds bound h'.mem t a v)

/-- A copy has been made: the old memory is untouched and the address is that of the copy. -/
abbrev Copied (bound : ℕ) (t : TypeObj) (v : SV) (h : Heap) (q : ℕ) (h' : Heap) : Prop :=
  h.mem.Extends h'.mem (fun _ => True) ∧ CopyAddress bound h'.mem t v q

/-- The same of fields that were written one after another from the entries of a hash. -/
abbrev AllWritten (m₀ : Mem) (bound : ℕ) (fields : List TypeObj) (a : ℕ) (es : List (Text × SV))
    (h h' : Heap) : Prop :=
  h.mem.Extends h'.mem (fun x => ¬ InField.inAny fields a x) ∧ (NamesAgree es fields →
    Fills.fillsAll m₀ es a fields → Holds.holdsAll bound h'.mem es a fields)

/-- The same of the members of a union, which end at an offset, if any was written. -/
abbrev OneWritten (m₀ : Mem) (bound : ℕ) (fields : List TypeObj) (a hi : ℕ)
    (es : List (Text × SV)) (h : Heap) (okay : Bool) (h' : Heap) : Prop :=
  h.mem.Extends h'.mem (Outside a (a + hi)) ∧ (okay = true → NamesAgree es fields →
    Fills.fillsOne m₀ es a fields → Holds.holdsOne bound h'.mem es a fields)

theorem copyFits_of_fits {t : TypeObj} (hptr : t.isPointer = true) {room : ℕ} {v : SV}
    (h : Fits room t v) : CopyFits t v := by
  cases t <;> first | exact h | cases hptr

/-- The address of a copy is stored in the field of a pointer. -/
theorem store_copied {t : TypeObj} (ht : LaidOut t) (hptr : t.isPointer = true) {v : SV} {a : ℕ}
    {bound q : ℕ} {h h₁ : Heap} (hc : Copied bound t v h q h₁) (hin : h.mem.InBlock a t.sizeof) :
    ∃ h₂, store a (pointerBytes q) h₁ = .ok ((), h₂) ∧ ∀ m₀, Written m₀ bound t a v h h₂ := by
  cases t with
  | pointer s subtype =>
    have hsize : (TypeObj.pointer s subtype).sizeof = SIZEOF_INTPTR_T := ht.1
    have hlen : (pointerBytes q).length = SIZEOF_INTPTR_T := length_encodeLE _ _
    have hpoke := Mem.extends_poke h₁.mem a (pointerBytes q)
    have hin₁ : h₁.mem.InBlock a (pointerBytes q).length :=
      (hc.1.inBlock hin).mono (le_refl a) (by omega)
    refine ⟨_, store_eq_ok.mpr ⟨Or.inr hin₁, rfl⟩, fun m₀ => ⟨?_, fun _ => ⟨q, ?_, ?_⟩⟩⟩
    · refine (hc.1.trans hpoke).weaken fun x _ hx => ⟨trivial, ?_⟩
      have hx' : ¬ (a ≤ x ∧ x < a + (TypeObj.pointer s subtype).sizeof) := hx
      omega
    · rw [← hlen]
      exact Mem.peek_poke_same _ _ _
    · exact copyAddress_frame hc.2 hpoke
  | _ => cases hptr

section Written

variable {m₀ : Mem} {bound : ℕ} {field : TypeObj} {rest : List TypeObj} {a hi : ℕ}
  {es : List (Text × SV)} {v : SV} {h h₁ h' : Heap}

/-- A field is converted in place, or its copy is made and the address stored. -/
theorem convertField_then {β : Type} {next : Eff β} {post : β → Heap → Prop}
    (ht : LaidOut field) (hin : h.mem.InBlock (a + field.offset) field.sizeof)
    (hplace : field.isPointer = false →
      Exec.Ends (· ≠ .fault) (sv2ptr field v (a + field.offset)) h fun _ h₁ =>
        Written m₀ bound field (a + field.offset) v h h₁)
    (hcopy : field.isPointer = true →
      Exec.Ends (· ≠ .fault) (sv2ptr field v 0) h fun q h₁ => Copied bound field v h q h₁)
    (hnext : ∀ h₁, Written m₀ bound field (a + field.offset) v h h₁ →
      Exec.Ends (· ≠ .fault) next h₁ post) :
    Exec.Ends (· ≠ .fault)
      (if field.isPointer = true then do
        let ptr ← sv2ptr field v 0
        store (a + field.offset) (pointerBytes ptr)
        next
      else do
        let _ ← sv2ptr field v (a + field.offset)
        next) h post := by
  cases hptr : field.isPointer with
  | false =>
    simp only [Bool.false_eq_true, if_false]
    exact (hplace hptr).bind fun _ h₁ hfield => hnext h₁ hfield
  | true =>
    simp only [if_true]
    refine (hcopy hptr).bind fun q h₁ hcopied => ?_
    obtain ⟨h₂, hstore, hwritten⟩ := store_copied ht hptr hcopied hin
    exact Exec.Ends.bind_of_ok hstore (hnext h₂ (hwritten m₀))

/-- Behind the field the memory is as it was. -/
theorem Written.bytes_outside (hfield : Written m₀ bound field a v h h₁) (ht : LaidOut field)
    {x : ℕ} (hbrk : x < h.mem.brk) (hx : a + field.sizeof ≤ x) :
    h₁.mem.bytes x = h.mem.bytes x := by
  refine hfield.1.bytes x hbrk fun hin => ?_
  have hbounds := inField_bounds ht hin
  omega

/-- Once a field is there, the rest of the loop leaves it alone. -/
theorem Written.allWritten (hfield : Written m₀ bound field (a + field.offset) v h h₁)
    (hall : LaidOut.allLaidOut (field :: rest))
    (hrest : InOrder (field.offset + field.sizeof) hi rest)
    (hin : h.mem.InBlock (a + field.offset) field.sizeof) (hv : fetched es field = some v)
    (hw : AllWritten m₀ bound rest a es h₁ h') :
    AllWritten m₀ bound (field :: rest) a es h h' := by
  obtain ⟨hext, hholds⟩ := hfield
  obtain ⟨hext', hholds'⟩ := hw
  refine ⟨(hext.trans hext').weaken fun x _ hx => ⟨fun hin => hx (Or.inl hin),
    fun hin => hx (Or.inr hin)⟩, fun hnames hfills => ?_⟩
  obtain ⟨hname, hnames'⟩ := List.forall_mem_cons.mp hnames
  have hlookup := hname.symm.trans hv
  refine ⟨⟨v, hlookup, ?_⟩, hholds' hnames' hfills.2⟩
  refine holds_frame hall.1 (hholds (hfills.1 v hlookup)) (hext.inBlock hin) hext'
    fun x h1 h2 hx => ?_
  have hbounds := inAny_bounds hrest hall.2 hx
  omega

end Written

mutual

/-- **A value that fits is marshalled into its field.** -/
theorem sv2ptr_fills : ∀ {t : TypeObj} {v : SV}, LaidOut t → t.isPointer = false →
    ∀ {h : Heap} {a room bound : ℕ} {m₀ : Mem}, Fits room t v → h.mem.InBlock a room →
    t.sizeof ≤ room → bound ≤ h.mem.brk →
    (∀ x, a ≤ x → x < a + t.sizeof → h.mem.bytes x = m₀.bytes x) →
    Exec.Ends (· ≠ .fault) (sv2ptr t v a) h fun _ h' => Written m₀ bound t a v h h'
  | t, v, ht, hptr, h, a, room, bound, m₀, hfits, hin, hroom, hbound, hsame => by
    by_cases hexp : ExplicitUndef v
    · exact Exec.ends_of_ok (sv2ptr_explicitUndef hexp t)
        ⟨Mem.Extends.refl _ _, fun hfills => holds_explicitUndef ht hptr hexp hsame hfills bound⟩
    have hconst := not_explicitUndef hexp
    match t, ht, hptr, hfits, hroom, hsame with
    | .scalar k s, ht, _, hfits, hroom, hsame =>
      have hsize : (TypeObj.scalar k s).sizeof = k.sizeof := ht
      rw [hsize] at hroom hsame
      simp only [sv2ptr, hconst, Bool.false_eq_true, if_false]
      refine (sv2ptrScalar_fills hfits hexp hin hroom s).mono fun _ h' hw => ?_
      refine ⟨hw.1.weaken fun x _ hx => ?_, fun hfills => ?_⟩
      · unfold Outside
        unfold InField at hx
        omega
      · refine hw.2 hfills.1 fun hsilent => ?_
        rw [← hfills.2 hsilent]
        exact Mem.peek_congr hsame
    | .codeRef s args sig r, ht, _, hfits, _, hsame =>
      have hsize : (TypeObj.codeRef s args sig r).sizeof = SIZEOF_INTPTR_T := ht
      simp only [sv2ptr, hconst, Bool.false_eq_true, if_false]
      refine (sv2ptrCodeRef_made args r hfits h).mono fun q h' ⟨n, hm⟩ => ?_
      refine ⟨hm.frame.weaken fun _ _ _ => trivial, fun hfills => ⟨0, ?_, Or.inr ⟨rfl, hfills.1⟩⟩⟩
      rw [hsize] at hsame
      have hin' : h.mem.InBlock a SIZEOF_INTPTR_T := hin.mono (le_refl a) (by omega)
      rw [hm.frame.peek hin' fun _ _ _ => trivial, ← hfills.2]
      exact Mem.peek_congr hsame
    | .struct s fields, ht, _, hfits, hroom, hsame =>
      cases hes : v.entries with
      | none =>
        simp only [sv2ptr, hconst, Bool.false_eq_true, if_false, asHash, hes]
        refine Exec.ends_of_ok rfl ⟨Mem.Extends.refl _ _, fun hfills => ?_⟩
        obtain ⟨es, hsome, -⟩ := hfills
        cases hes.symm.trans hsome
      | some es =>
        simp only [sv2ptr, hconst, Bool.false_eq_true, if_false, asHash, hes]
        refine Exec.Ends.bind_of_ok (orNew_of_ne hin.pos.ne' _ h) ?_
        refine (sv2ptrFields_fills ht.1 ht.2 (hfits es hes) hin hroom hbound
          fun x hlo hhi => hsame x (by omega) hhi).bind fun _ h₁ hw => ?_
        refine Exec.ends_of_ok rfl ⟨hw.1, fun hfills => ?_⟩
        obtain ⟨es', hsome, hnames, hall⟩ := hfills
        cases hes.symm.trans hsome
        exact ⟨es, hes, hw.2 hnames hall⟩
    | .union s fields, ht, _, hfits, hroom, hsame =>
      cases hes : v.entries with
      | none =>
        simp only [sv2ptr, hconst, Bool.false_eq_true, if_false, asHash, hes]
        refine Exec.ends_of_ok rfl ⟨Mem.Extends.refl _ _, fun hfills => ?_⟩
        obtain ⟨es, hsome, -⟩ := hfills
        cases hes.symm.trans hsome
      | some es =>
        simp only [sv2ptr, hconst, Bool.false_eq_true, if_false, asHash, hes]
        refine Exec.Ends.bind_of_ok (orNew_of_ne hin.pos.ne' _ h) ?_
        refine (sv2ptrMembers_fills ht.1 ht.2 (hfits es hes) hin hroom hbound hsame).bind
          fun okay h₁ hw => ?_
        cases okay with
        | false => exact Halt.noConfusion
        | true =>
          refine Exec.ends_of_ok rfl ⟨hw.1.weaken fun x _ hx => ?_, fun hfills => ?_⟩
          · unfold Outside
            unfold InField at hx
            show x < a ∨ a + s.sizeof ≤ x
            have hx' : ¬ (a ≤ x ∧ x < a + s.sizeof) := hx
            omega
          · obtain ⟨es', hsome, hnames, hone⟩ := hfills
            cases hes.symm.trans hsome
            exact ⟨es, hes, hw.2 rfl hnames hone⟩

/-- **The loop over the fields of a struct.** What was written stays while the fields after it
are. -/
theorem sv2ptrFields_fills : ∀ {fields : List TypeObj} {es : List (Text × SV)} {lo hi : ℕ},
    InOrder lo hi fields → LaidOut.allLaidOut fields →
    ∀ {h : Heap} {a room bound : ℕ} {m₀ : Mem}, FieldsFit room es fields → h.mem.InBlock a room →
    hi ≤ room → bound ≤ h.mem.brk →
    (∀ x, a + lo ≤ x → x < a + hi → h.mem.bytes x = m₀.bytes x) →
    Exec.Ends (· ≠ .fault) (sv2ptrFields es a fields) h fun _ h' =>
      AllWritten m₀ bound fields a es h h'
  | [], _, _, _, _, _, h, _, _, _, _, _, _, _, _, _ =>
    Exec.ends_of_ok (by simp only [sv2ptrFields]; rfl) ⟨Mem.Extends.refl _ _, fun _ _ => trivial⟩
  | field :: rest, es, lo, hi, horder, hall, h, a, room, bound, m₀, hfits, hin, hroom, hbound,
      hsame => by
    obtain ⟨-, hlo, hrest⟩ := horder
    obtain ⟨hfieldFits, hrestFits⟩ := hfits
    have hend := hrest.lo_le_hi
    have hinField : h.mem.InBlock (a + field.offset) (room - field.offset) :=
      hin.mono (by omega) (by omega)
    have hsameField : ∀ x, a + field.offset ≤ x → x < a + field.offset + field.sizeof →
        h.mem.bytes x = m₀.bytes x := fun x h1 h2 => hsame x (by omega) (by omega)
    have hthen : ∀ w, fetched es field = some w → ∀ h₁ : Heap,
        Written m₀ bound field (a + field.offset) w h h₁ →
        Exec.Ends (· ≠ .fault) (sv2ptrFields es a rest) h₁ fun _ h' =>
          AllWritten m₀ bound (field :: rest) a es h h' := by
      intro w hw h₁ hfield
      refine (sv2ptrFields_fills hrest hall.2 hrestFits (hfield.1.inBlock hin) hroom
        (hbound.trans hfield.1.brk_le) fun x h1 h2 => ?_).mono fun _ h' hw' =>
          hfield.allWritten hall hrest (hinField.mono (le_refl _) (by omega)) hw hw'
      have hbrk := hin.le_brk
      rw [hfield.bytes_outside hall.1 (by omega) (by omega)]
      exact hsame x (by omega) h2
    cases hname : field.field with
    | none =>
      simp only [sv2ptrFields, hname]
      exact Halt.noConfusion
    | some name =>
      cases hfetch : hvFetch es name with
      | none =>
        simp only [sv2ptrFields, hname, hfetch]
        exact Halt.noConfusion
      | some w =>
        have hw : fetched es field = some w := by rw [fetched, hname, Option.bind_some, hfetch]
        have hfit := hfieldFits w hw
        simp only [sv2ptrFields, hname, hfetch]
        refine convertField_then hall.1 (hinField.mono (le_refl _) (by omega)) (fun hptr => ?_)
          (fun hptr => ?_) (hthen w hw)
        · exact sv2ptr_fills hall.1 hptr hfit hinField (by omega) hbound hsameField
        · exact sv2ptr_copies hall.1 (copyFits_of_fits hptr hfit) hbound

/-- **The loop over the members of a union**, which all lie in it. -/
theorem sv2ptrMembers_fills : ∀ {fields : List TypeObj} {es : List (Text × SV)} {hi : ℕ},
    (∀ field ∈ fields, field.offset + field.sizeof ≤ hi) → LaidOut.allLaidOut fields →
    ∀ {h : Heap} {a room bound : ℕ} {m₀ : Mem}, FieldsFit room es fields → h.mem.InBlock a room →
    hi ≤ room → bound ≤ h.mem.brk →
    (∀ x, a ≤ x → x < a + hi → h.mem.bytes x = m₀.bytes x) →
    Exec.Ends (· ≠ .fault) (sv2ptrMembers es a fields) h fun okay h' =>
      OneWritten m₀ bound fields a hi es h okay h'
  | [], _, _, _, _, h, _, _, _, _, _, _, _, _, _ =>
    Exec.ends_of_ok (a := false) (t := h) (by simp only [sv2ptrMembers]; rfl)
      ⟨Mem.Extends.refl _ _, nofun⟩
  | field :: rest, es, hi, hends, hall, h, a, room, bound, m₀, hfits, hin, hroom, hbound,
      hsame => by
    obtain ⟨hend, hrest⟩ := List.forall_mem_cons.mp hends
    obtain ⟨hfieldFits, hrestFits⟩ := hfits
    have hinField : h.mem.InBlock (a + field.offset) (room - field.offset) :=
      hin.mono (by omega) (by omega)
    have hsameField : ∀ x, a + field.offset ≤ x → x < a + field.offset + field.sizeof →
        h.mem.bytes x = m₀.bytes x := fun x h1 h2 => hsame x (by omega) (by omega)
    -- the hash is a value of the union only if no other member has an entry
    have hthen : ∀ w, fetched es field = some w → ∀ h₁ : Heap,
        Written m₀ bound field (a + field.offset) w h h₁ →
        Exec.Ends (· ≠ .fault) (do
          let _ ← sv2ptrMembers es a rest
          pure true) h₁ fun okay h' => OneWritten m₀ bound (field :: rest) a hi es h okay h' := by
      intro w hw h₁ hfield
      obtain ⟨hext, hholds⟩ := hfield
      have hextOutside : h.mem.Extends h₁.mem (Outside a (a + hi)) := by
        refine hext.weaken fun x _ hx hin => ?_
        have hbounds := inField_bounds hall.1 hin
        unfold Outside at hx
        omega
      by_cases hun : ∀ g ∈ rest, fetched es g = none
      · refine (sv2ptrMembers_unnamed hun).bind fun okay h₂ hnothing => ?_
        obtain ⟨-, rfl⟩ := hnothing
        refine Exec.ends_of_ok rfl ⟨hextOutside, fun _ hnames hfills => ?_⟩
        have hlookup := (hnames field List.mem_cons_self).symm.trans hw
        rcases hfills with ⟨⟨w', hw', hfillsField⟩, hunnamed⟩ | ⟨hnone, -⟩
        · cases hlookup.symm.trans hw'
          exact Or.inl ⟨⟨w, hlookup, hholds hfillsField⟩, hunnamed⟩
        · cases hlookup.symm.trans hnone
      · refine (sv2ptrMembers_fills hrest hall.2 hrestFits (hext.inBlock hin) hroom
          (hbound.trans hext.brk_le) fun x _ _ => rfl).bind fun okay h₂ hw₂ => ?_
        refine Exec.ends_of_ok rfl ⟨(hextOutside.trans hw₂.1).weaken fun x _ hx => ⟨hx, hx⟩,
          fun _ hnames hfills => absurd (fun g hg => ?_) hun⟩
        have hlookup := (hnames field List.mem_cons_self).symm.trans hw
        rcases hfills with ⟨-, hunnamed⟩ | ⟨hnone, -⟩
        · exact (hnames g (List.mem_cons_of_mem _ hg)).trans (hunnamed g hg)
        · cases hlookup.symm.trans hnone
    cases hname : field.field with
    | none =>
      simp only [sv2ptrMembers, hname]
      exact Halt.noConfusion
    | some name =>
      cases hfetch : hvFetch es name with
      | none =>
        have hw : fetched es field = none := by rw [fetched, hname, Option.bind_some, hfetch]
        simp only [sv2ptrMembers, hname, hfetch]
        refine (sv2ptrMembers_fills hrest hall.2 hrestFits hin hroom hbound hsame).mono
          fun okay h' hw' => ⟨hw'.1, fun hokay hnames hfills => ?_⟩
        obtain ⟨hagree, hnames'⟩ := List.forall_mem_cons.mp hnames
        have hlookup := hagree.symm.trans hw
        rcases hfills with ⟨⟨w, hw₂, -⟩, -⟩ | ⟨-, hfillsRest⟩
        · cases hlookup.symm.trans hw₂
        · exact Or.inr ⟨hlookup, hw'.2 hokay hnames' hfillsRest⟩
      | some w =>
        have hw : fetched es field = some w := by rw [fetched, hname, Option.bind_some, hfetch]
        have hfit := hfieldFits w hw
        simp only [sv2ptrMembers, hname, hfetch]
        refine convertField_then hall.1 (hinField.mono (le_refl _) (by omega)) (fun hptr => ?_)
          (fun hptr => ?_) (hthen w hw)
        · exact sv2ptr_fills hall.1 hptr hfit hinField (by omega) hbound hsameField
        · exact sv2ptr_copies hall.1 (copyFits_of_fits hptr hfit) hbound

/-- **A value whose copy fits is copied**, and what it points to in turn. -/
theorem sv2ptr_copies : ∀ {t : TypeObj} {v : SV}, LaidOut t → CopyFits t v →
    ∀ {h : Heap} {bound : ℕ}, bound ≤ h.mem.brk →
    Exec.Ends (· ≠ .fault) (sv2ptr t v 0) h fun q h' => Copied bound t v h q h'
  | t, v, ht, hfits, h, bound, hbound => by
    by_cases hexp : ExplicitUndef v
    · exact Exec.ends_of_ok (sv2ptr_explicitUndef hexp t)
        ⟨Mem.Extends.refl _ _, Or.inr (Or.inr ⟨rfl, Or.inl hexp.1⟩)⟩
    have hconst := not_explicitUndef hexp
    match t, ht, hfits with
    | .scalar k s, _, hfits =>
      simp only [sv2ptr, hconst, Bool.false_eq_true, if_false]
      exact sv2ptrScalar_copies hfits hexp s hbound
    | .codeRef s args sig r, _, hfits =>
      simp only [sv2ptr, hconst, Bool.false_eq_true, if_false]
      exact (sv2ptrCodeRef_made args r hfits h).mono fun q h' ⟨n, hm⟩ =>
        ⟨hm.frame, Or.inl ⟨hbound.trans hm.above, n, hm.block⟩⟩
    | .pointer s subtype, ht, hfits =>
      cases hsub : subtype.isPointer with
      | false =>
        obtain ⟨hreadable, hcopy⟩ := hfits.2 hsub
        cases hobj : asPointerObject v with
        | none =>
          simp only [sv2ptr, hconst, hsub, hobj, Bool.false_eq_true, if_false]
          exact (sv2ptr_copies ht.2 (hcopy hobj) hbound).mono fun q h' hc =>
            ⟨hc.1, copyAddress_pointer hc.2 hsub⟩
        | some es =>
          simp only [sv2ptr, hconst, hsub, hobj, Bool.false_eq_true, if_false]
          exact copied_object hobj hreadable _ bound h
      | true =>
        cases hok : v.SvOK with
        | false =>
          simp only [sv2ptr, hok, Bool.not_false, Bool.true_and, hsub, Bool.false_eq_true, if_false,
            if_true]
          rw [hok, Bool.not_false, Bool.true_and] at hconst
          rw [hconst]
          exact Exec.ends_of_ok rfl ⟨Mem.Extends.refl _ _, Or.inr (Or.inr ⟨rfl, Or.inl hok⟩)⟩
        | true =>
          obtain ⟨helems, hone⟩ := hfits.1 hsub hok
          have hmade : ∀ {n : ℕ} {q : ℕ} {h' : Heap}, Made h h' n q →
              Copied bound (.pointer s subtype) v h q h' := fun hm =>
            ⟨hm.frame, Or.inl ⟨hbound.trans hm.above, _, hm.block⟩⟩
          cases hes : v.elems with
          | some es =>
            simp only [sv2ptr, hok, Bool.not_true, Bool.false_and, hsub, Bool.false_eq_true,
              if_false, if_true, hes]
            refine (filled_new fun p h₁ hm => ?_).mono fun q h' hm => hmade hm
            refine storePointers_fits es (fun e he h₂ => ?_) (le_refl p) hm.inBlock (le_bytes _ _)
            exact (sv2ptr_copies ht.2 (helems es hes e he) (Nat.zero_le _)).mono fun _ _ hc => hc.1
          | none =>
            simp only [sv2ptr, hok, Bool.not_true, Bool.false_and, hsub, Bool.false_eq_true,
              if_false, if_true, hes]
            refine (made_one SIZEOF_INTPTR_T h).bind fun p h₁ hm => ?_
            refine (sv2ptr_copies ht.2 (hone hes) (Nat.zero_le _)).bind fun q h₂ hc => ?_
            have hin : h₂.mem.InBlock p (pointerBytes q).length :=
              (hc.1.inBlock hm.inBlock).mono (le_refl p) (by rw [pointerBytes, length_encodeLE])
            refine Exec.Ends.bind_of_ok (store_eq_ok.mpr ⟨Or.inr hin, rfl⟩) ?_
            have hpoke := Mem.extends_poke h₂.mem p (pointerBytes q)
            refine Exec.ends_of_ok rfl (hmade ⟨hm.above, hc.1.blocks _ hm.block, ?_⟩)
            exact ((hm.frame.trans hc.1).trans hpoke).weaken fun x hx _ =>
              ⟨⟨trivial, trivial⟩, Or.inl (hx.trans_le hm.above)⟩
    | .struct s fields, ht, hfits =>
      cases hes : v.entries with
      | none =>
        simp only [sv2ptr, hconst, Bool.false_eq_true, if_false, asHash, hes]
        exact Exec.ends_of_ok rfl
          ⟨Mem.Extends.refl _ _, Or.inr (Or.inr ⟨rfl, Or.inr (Or.inr hes)⟩)⟩
      | some es =>
        simp only [sv2ptr, hconst, Bool.false_eq_true, if_false, asHash, hes]
        refine (filled_new fun p h₁ hm => ?_).mono fun q h' hm =>
          ⟨hm.frame, Or.inl ⟨hbound.trans hm.above, _, hm.block⟩⟩
        have hin := hm.inBlock
        rw [bytes_one] at hin
        refine (sv2ptrFields_fills ht.1 ht.2 (hfits es hes) hin (le_refl _)
          (Nat.zero_le _) fun x _ _ => rfl).mono fun _ h' hw => ?_
        refine hw.1.weaken fun x _ hx hin => ?_
        have hbounds := inAny_bounds ht.1 ht.2 hin
        omega
    | .union s fields, ht, hfits =>
      cases hes : v.entries with
      | none =>
        simp only [sv2ptr, hconst, Bool.false_eq_true, if_false, asHash, hes]
        exact Exec.ends_of_ok rfl
          ⟨Mem.Extends.refl _ _, Or.inr (Or.inr ⟨rfl, Or.inr (Or.inr hes)⟩)⟩
      | some es =>
        simp only [sv2ptr, hconst, Bool.false_eq_true, if_false, asHash, hes]
        refine (made_one s.sizeof h).bind fun p h₁ hm => ?_
        refine (sv2ptrMembers_fills ht.1 ht.2 (hfits es hes) hm.inBlock (le_refl _)
          (Nat.zero_le _) fun x _ _ => rfl).bind fun okay h₂ hw => ?_
        cases okay with
        | false => exact Halt.noConfusion
        | true =>
          refine Exec.ends_of_ok rfl
            ⟨?_, Or.inl ⟨hbound.trans hm.above, _, hw.1.blocks _ hm.block⟩⟩
          exact (hm.frame.trans hw.1).weaken fun x hx _ =>
            ⟨trivial, Or.inl (hx.trans_le hm.above)⟩

end

end Affix.Analysis
