import Affix.Analysis.Pinning
import Affix.Analysis.Placement
import Affix.Analysis.ScalarFields
import Affix.Interface.UnionElements

/-!
# What the elements of a union do

All members lie at the start of the union, and the magic of an element has the
address of its member, but that of a string has the address the union held when
the hash was made. An access keeps the block of the union alive. What it does to
the bytes follows member by member: integers are as they should be, characters go
through the code for strings, and an assignment to a string goes to its old place.
-/

set_option autoImplicit false

namespace Affix.Analysis

open Affix.Foundation Affix.Model Affix.Interface

theorem unionMember_cases {field : TypeObj} (h : UnionMember field) :
    (∃ k s c, field = .scalar k s ∧ cInt k = some c ∧ s.sizeof = k.sizeof) ∨
      ∃ s s', field = .pointer s (.scalar .Char s') ∧ s.sizeof = SIZEOF_INTPTR_T := by
  cases field with
  | scalar k s =>
    obtain ⟨hk, hs⟩ := h
    obtain ⟨c, hk⟩ := Option.isSome_iff_exists.mp hk
    exact Or.inl ⟨k, s, c, rfl, hk, hs⟩
  | pointer s subtype =>
    cases subtype with
    | scalar k s' =>
      cases k with
      | Char => exact Or.inr ⟨s, s', rfl, h⟩
      | _ => exact h.elim
    | _ => exact h.elim
  | _ => exact h.elim

/-! ## Making the hash -/

theorem lookup_hvStore (key k : Text) (w : SV) (acc : List (Text × SV)) :
    (hvStore key w acc).lookup k = if k = key then some w else acc.lookup k := by
  induction acc with
  | nil =>
    by_cases h : k = key
    · simp [hvStore, h]
    · simp [hvStore, h]
  | cons q acc ih =>
    obtain ⟨k', w'⟩ := q
    by_cases hk : k' = key
    · subst hk
      rw [hvStore, if_pos rfl]
      by_cases h : k = k'
      · simp [h]
      · simp [h, List.lookup_cons, beq_false_of_ne h]
    · rw [hvStore, if_neg hk]
      by_cases h : k = k'
      · subst h
        simp [hk]
      · simp [List.lookup_cons, beq_false_of_ne h, ih]

/-- The address in the magic of a member that is at the start of the union. -/
def boundAt (h : Heap) (p : ℕ) (field : TypeObj) : ℕ :=
  if field.isPointer then decodeLE (h.mem.peek p SIZEOF_INTPTR_T) else p

/-- The elements of the hash are the members of the union under their names, each with its
address. -/
def Members (types : List (PerlStr × TypeObj)) (p : ℕ) (h : Heap) (entries : List (Text × SV)) :
    Prop :=
  ∀ key sv, entries.lookup key = some sv → ∃ q ∈ types, q.1.chars = key ∧
    sv = .pinned (q.2.withMember 0 q.1) (boundAt h p (q.2.withMember 0 q.1))

theorem isPointer_withMember (t : TypeObj) (name : PerlStr) :
    (t.withMember 0 name).isPointer = t.isPointer := by
  cases t <;> rfl

/-- **The loop of the union branch** pins each member and changes no memory. -/
theorem ptr2svMembers_pins {types all : List (PerlStr × TypeObj)} {p : ℕ} {h : Heap}
    (hsub : ∀ q ∈ types, q ∈ all)
    (hin : ∀ q ∈ types, q.2.isPointer = true → h.mem.InBlock p SIZEOF_INTPTR_T)
    {acc : List (Text × SV)} (hacc : Members all p h acc) :
    ∃ entries, ptr2svMembers p acc (types.map fun q => q.2.withMember 0 q.1) h =
        .ok (entries, h) ∧ Members all p h entries ∧
      ∀ key, (acc.lookup key).isSome = true ∨ key ∈ types.map (fun q => q.1.chars) →
        (entries.lookup key).isSome = true := by
  induction types generalizing acc with
  | nil => exact ⟨acc, rfl, hacc, fun key hkey => hkey.resolve_right (List.not_mem_nil)⟩
  | cons q rest ih =>
    obtain ⟨hq, hrest⟩ := List.forall_mem_cons.mp hsub
    obtain ⟨hinq, hinrest⟩ := List.forall_mem_cons.mp hin
    generalize hm : q.2.withMember 0 q.1 = member
    have hfield : member.field = some q.1 := by rw [← hm, TypeObj.field_withMember]
    have hoffset : member.offset = 0 := by rw [← hm, TypeObj.offset_withMember]
    have hpointer : member.isPointer = q.2.isPointer := by rw [← hm, isPointer_withMember]
    have hnext : Members all p h (hvStore q.1.chars (.pinned member (boundAt h p member)) acc) := by
      intro key sv hsv
      rw [lookup_hvStore] at hsv
      split at hsv
      · rename_i hkey
        cases hsv
        exact ⟨q, hq, hkey.symm, by rw [hm]⟩
      · exact hacc key sv hsv
    obtain ⟨entries, hrun, hentries, hkeys⟩ := ih hrest hinrest hnext
    refine ⟨entries, ?_, hentries, fun key hkey => hkeys key ?_⟩
    · rw [List.map_cons, hm, ptr2svMembers, hfield, hoffset]
      simp only [Nat.add_zero]
      refine (Exec.bind_of_ok (Exec.get_apply h)).trans ?_
      cases hcase : member.isPointer with
      | false =>
        simp only [boundAt, hcase, Bool.false_eq_true, if_false] at hrun ⊢
        exact (Exec.bind_of_ok (Exec.pure_apply p h)).trans hrun
      | true =>
        simp only [boundAt, hcase, if_true] at hrun ⊢
        have hload : loadPointer h.mem p = .ok (decodeLE (h.mem.peek p SIZEOF_INTPTR_T)) := by
          rw [loadPointer, load, Mem.read_eq_peek (hinq (hpointer ▸ hcase))]
          rfl
        rw [hload]
        exact (Exec.bind_of_ok (Exec.lift_ok_apply _ h)).trans hrun
    · rw [lookup_hvStore]
      by_cases hname : key = q.1.chars
      · exact Or.inl (by rw [if_pos hname]; rfl)
      · rw [if_neg hname]
        refine hkey.imp id fun hmem => ?_
        exact (List.mem_cons.mp hmem).resolve_left hname

section Accesses

variable {k : Kind} {s : Slots} {h : Heap} {p : ℕ} {v : SV}

/-! ## Reads -/

theorem get_pin_scalar (hin : h.mem.InBlock p k.sizeof) :
    get_pin (.scalar k s) p = ptr2svScalar k s p := by
  rw [get_pin, ptr2sv, if_neg hin.pos.ne']

/-- The types of characters and the other types of integers. -/
theorem cInt_cases {c : CIntType} (hk : cInt k = some c) :
    Character k ∨ ¬ Character k ∧ c.size = k.sizeof ∧
      (∀ whole p, ptr2svField whole (.scalar k s) p = whole p) ∧
      ∃ new, ptr2svScalar k s p = ptr2svInt c new p := by
  cases k <;> simp only [cInt, Option.some.injEq, reduceCtorEq] at hk <;> subst hk
  case Char | SChar | UChar => exact Or.inl (by decide)
  all_goals exact Or.inr ⟨by decide, rfl, fun _ _ => rfl, _, rfl⟩

/-- A character is read like one that is a field when it is a string of one byte. -/
theorem get_pin_character (hk : Character k) {b : UInt8} (hb : b ≠ 0) (hin : h.mem.InBlock p 2)
    (hpeek : h.mem.peek p 2 = [b, 0]) (whole : ℕ → Eff SV) :
    get_pin (.scalar k s) p h = ptr2svField whole (.scalar k s) p h := by
  have hin1 : h.mem.InBlock p 1 := hin.mono le_rfl (by omega)
  have hone : h.mem.peek p 1 = [b] := by
    have happend := Mem.peek_append h.mem p 1 1
    rw [hpeek] at happend
    exact (List.append_inj happend (by simp)).1.symm
  have hsize : k.sizeof = 1 := by
    rcases hk with rfl | rfl | rfl <;> rfl
  have hstring : ptr2svScalar k s p = ptr2svChars p := by
    rcases hk with rfl | rfl | rfl <;> rfl
  have hfield : ptr2svField whole (.scalar k s) p = (do
      let bs ← loadAt p 1
      pure (.val (.ofStr (.ofGuess bs)))) := by
    rcases hk with rfl | rfl | rfl <;> rfl
  have hfuel : 1 < h.mem.brk := by
    have := hin.le_brk
    have := hin.pos
    omega
  have hcstring : cstring h.mem h.mem.brk p = .ok [b] := by
    refine cstring_of_peek [b] hin hpeek ?_ hfuel
    simpa using hb.symm
  rw [get_pin_scalar (hsize ▸ hin1), hstring, hfield]
  have hload := loadAt_of_inBlock hin1
  rw [hone] at hload
  refine Eq.trans ?_ (Exec.bind_of_ok hload).symm
  refine (Exec.bind_of_ok (Exec.get_apply h)).trans ?_
  rw [hcstring]
  exact Exec.bind_of_ok (Exec.lift_ok_apply [b] h)

/-- A string is read like one that is a field when it is bound to where the field points. -/
theorem get_pin_string {s' : Slots} {ptr : ℕ} (hin : h.mem.InBlock p SIZEOF_INTPTR_T)
    (hptr : decodeLE (h.mem.peek p SIZEOF_INTPTR_T) = ptr) (whole : ℕ → Eff SV) :
    get_pin (.pointer s (.scalar .Char s')) ptr h =
      ptr2svField whole (.pointer s (.scalar .Char s')) p h := by
  have hload : loadPointer h.mem p = .ok ptr := by
    rw [loadPointer, load, Mem.read_eq_peek hin, ← hptr]
    rfl
  have hfield : ptr2svField whole (.pointer s (.scalar .Char s')) p h =
      (if ptr = 0 then pure (.undef false) else ptr2svChars ptr : Eff SV) h := by
    refine (Exec.bind_of_ok (Exec.get_apply h)).trans ?_
    rw [hload]
    exact Exec.bind_of_ok (Exec.lift_ok_apply ptr h)
  rw [hfield, get_pin, ptr2sv]
  by_cases hzero : ptr = 0
  · rw [if_pos hzero, if_pos hzero]
  · rw [if_neg hzero, if_neg hzero]
    show ptr2sv (.scalar .Char s') ptr h = _
    rw [ptr2sv, if_neg hzero]
    rfl

/-! ## Assignments -/

/-- Marshalling to a new place does not fault, and makes a block with room for the type. -/
structure MakesRoom (type : TypeObj) (v : SV) (h : Heap) : Prop where
  ends : sv2ptr type v 0 h ≠ .error .fault
  block : ∀ q h₁, sv2ptr type v 0 h = .ok (q, h₁) → ∃ n, NewBlock h h₁ q n ∧ type.sizeof ≤ n

theorem eq_fault_of_magical {type : TypeObj} {e : Halt} (h : ofMagical type v e = .fault) :
    e = .fault := by
  cases e with
  | croak m =>
    rw [ofMagical] at h
    split at h <;> cases h
  | fault | outOfMemory => exact h

/-- **An assignment that makes room** for the type does not fault, and writes the member
only. -/
theorem set_pin_room {type : TypeObj} (hin : h.mem.InBlock p type.sizeof)
    (hroom : v.SvOK = true → MakesRoom type v h) :
    set_pin type p v h ≠ .error .fault ∧
      ∀ h', set_pin type p v h = .ok ((), h') → OnlyWrites p type.sizeof h h' := by
  refine ⟨fun hfault => ?_, fun h' hrun => set_pin_onlyWrites hrun fun hok q h₁ hblock => ?_⟩
  · by_cases hok : v.SvOK = true
    · cases hblock : sv2ptr type v 0 h with
      | error e =>
        have hsame : ofMagical type v e = .fault :=
          Except.error.inj ((set_pin_error hok hblock).symm.trans hfault)
        exact (hroom hok).ends (hblock.trans (congrArg _ (eq_fault_of_magical hsame)))
      | ok r =>
        obtain ⟨n, hnew, hn⟩ := (hroom hok).block r.1 r.2 hblock
        obtain ⟨h', hrun, -⟩ := set_pin_moves hok hin hblock hnew hn
        cases hrun.symm.trans hfault
    · rw [set_pin, if_neg hok] at hfault
      cases hfault
  · obtain ⟨n, hnew, -⟩ := (hroom hok).block q h₁ hblock
    exact ⟨n, hnew⟩

/-- The branch of an integer type makes room for the type, whatever it is given. -/
theorem makesRoom_integer {c : CIntType} (hk : cInt k = some c) (hwide : ¬ Character k)
    (hs : s.sizeof = k.sizeof) (hok : v.SvOK = true) : MakesRoom (.scalar k s) v h := by
  have hneither : c ≠ cchar ∧ c ≠ cuchar := by
    cases k <;> simp only [cInt, Option.some.injEq, reduceCtorEq] at hk <;> subst hk
    case Char | SChar | UChar => exact absurd (by decide) hwide
    all_goals decide
  obtain ⟨read, -, hbranch⟩ := integerBranch hk hneither
  have hsize : c.size = k.sizeof := by
    rcases cInt_cases (s := s) (p := 0) hk with hchar | ⟨-, hsize, -⟩
    · exact absurd hchar hwide
    · exact hsize
  have hrun : sv2ptr (.scalar k s) v 0 = sv2ptrInt c read s v 0 := by
    rw [sv2ptr_scalar hok, hbranch]
  have hscalar : (TypeObj.scalar k s).sizeof = c.size := hs.trans hsize.symm
  refine ⟨fun hfault => ?_, fun q h₁ hblock => ?_⟩
  · rw [hrun] at hfault
    have hends : Exec.Ends (· ≠ .fault) (sv2ptrInt c read s v 0) h _ := sv2ptrInt_copies s v h
    unfold Exec.Ends at hends
    rw [hfault] at hends
    exact hends rfl
  · rw [hrun] at hblock
    simp only [sv2ptrInt, hok, if_true] at hblock
    rw [hscalar]
    by_cases hiok : v.SvIOK = true
    · rw [if_pos hiok] at hblock
      exact ⟨_, newBlock_fill (fun hf hw => hf.store le_rfl hw) hblock, (bytes_one _).ge⟩
    · rw [if_neg hiok] at hblock
      cases hcase : v.elems with
      | none =>
        simp only [hcase] at hblock
        cases hblock
      | some es =>
        simp only [hcase] at hblock
        exact ⟨_, newBlock_fill (fun hf hw => hf.storeEach le_rfl hw) hblock,
          Nat.le_mul_of_pos_left _ (atLeastOne_pos _)⟩

/-- The branch of a type of characters makes room for one, whatever it is given. -/
theorem makesRoom_character (hk : Character k) (hs : s.sizeof = k.sizeof) (hok : v.SvOK = true) :
    MakesRoom (.scalar k s) v h := by
  obtain ⟨c, read, count, wide, hread, hcount, hbranch⟩ := characterBranch hk
  have hrun : sv2ptr (.scalar k s) v 0 = sv2ptrChar c read count wide v 0 := by
    rw [sv2ptr_scalar hok, hbranch]
  have hsize : (TypeObj.scalar k s).sizeof = 1 := by
    rw [show (TypeObj.scalar k s).sizeof = k.sizeof from hs]
    rcases hk with rfl | rfl | rfl <;> rfl
  have hone : ∀ e, (c.encode (read e)).length = 1 := fun e => by rw [hread]; rfl
  refine ⟨fun hfault => ?_, fun q h₁ hblock => ?_⟩
  · rw [hrun] at hfault
    have hends := sv2ptrChar_copies hone hcount v h
    unfold Exec.Ends at hends
    rw [hfault] at hends
    exact hends rfl
  · rw [hrun] at hblock
    simp only [sv2ptrChar, hok, if_true] at hblock
    rw [hsize]
    cases hcase : v.elems with
    | none =>
      simp only [hcase] at hblock
      refine ⟨_, newBlock_fill (fun hf hw => hf.store le_rfl hw) hblock, ?_⟩
      rw [bytes_of_string]
      exact Nat.le_add_left 1 _
    | some es =>
      simp only [hcase] at hblock
      have hwide : 0 < wide.size := by
        -- one element has room, so the wider type has a size
        have hroom := hcount 1
        refine Nat.pos_of_ne_zero fun hzero => ?_
        rw [hzero, Nat.mul_zero] at hroom
        omega
      exact ⟨_, newBlock_fill (fun hf hw => hf.storeEach le_rfl hw) hblock,
        Nat.mul_pos (atLeastOne_pos _) hwide⟩

/-- **An assignment to an integer** stores the integer of the value. -/
theorem set_pin_integer {c : CIntType} (hk : cInt k = some c) (hwide : ¬ Character k)
    (hs : s.sizeof = k.sizeof) (hin : h.mem.InBlock p k.sizeof) (hiok : v.SvIOK = true) :
    (∃ n, h.mem.Exhausted n) ∧ set_pin (.scalar k s) p v h = .error .outOfMemory ∨
      ∃ h', set_pin (.scalar k s) p v h = .ok ((), h') ∧
        h'.mem.peek p k.sizeof = encoding k v := by
  have hneither : c ≠ cchar ∧ c ≠ cuchar := by
    cases k <;> simp only [cInt, Option.some.injEq, reduceCtorEq] at hk <;> subst hk
    case Char | SChar | UChar => exact absurd (by decide) hwide
    all_goals decide
  have hok : v.SvOK = true := by
    cases v <;> first | rfl | cases hiok
  obtain ⟨read, hread, hbranch⟩ := integerBranch hk hneither
  have hsize : (TypeObj.scalar k s).sizeof = k.sizeof := hs
  have hlen : (encoding k v).length = c.size := by rw [← hread, CIntType.length_encode]
  have hbytes : (encoding k v).length = k.sizeof := length_encoding k v
  have hrun : sv2ptr (.scalar k s) v 0 = (do
      let ret ← orNew 0 (Newxz 1 c.size)
      store ret (encoding k v)
      pure ret) := by
    rw [sv2ptr_scalar hok, hbranch]
    simp only [sv2ptrInt, hok, hiok, if_true, hread]
  rcases set_pin_filled hok (hsize ▸ hin) (bytes_one _) hlen.le (by rw [hsize, ← hbytes, hlen])
      hrun with
    ⟨hfull, herror⟩ | ⟨h', hset, hpeek⟩
  · exact Or.inl ⟨⟨_, hfull⟩, herror⟩
  · refine Or.inr ⟨h', hset, ?_⟩
    rw [hsize, ← hbytes, List.take_left] at hpeek
    rw [← hbytes, hpeek]

/-- **An assignment to a character** stores the first byte of the string. -/
theorem set_pin_character (hk : Character k) (hs : s.sizeof = k.sizeof)
    (hin : h.mem.InBlock p k.sizeof) (hok : v.SvOK = true) (hes : v.elems = none) :
    (∃ n, h.mem.Exhausted n) ∧ set_pin (.scalar k s) p v h = .error .outOfMemory ∨
      ∃ h', set_pin (.scalar k s) p v h = .ok ((), h') ∧
        h'.mem.peek p k.sizeof = [(SvPV v).bytes.headD 0] := by
  have hone : k.sizeof = 1 := by
    rcases hk with rfl | rfl | rfl <;> rfl
  have hsize : (TypeObj.scalar k s).sizeof = k.sizeof := hs
  obtain ⟨c, read, count, wide, -, -, hbranch⟩ := characterBranch hk
  have hrun : sv2ptr (.scalar k s) v 0 = (do
      let ret ← orNew 0 (Newxz ((SvPV v).bytes.length + 1) 1)
      store ret (SvPV v).bytes
      pure ret) := by
    rw [sv2ptr_scalar hok, hbranch]
    simp only [sv2ptrChar, hok, hes, if_true]
  rcases set_pin_filled hok (hsize ▸ hin) (bytes_of_string _) (Nat.le_succ _)
      (by rw [hsize, hone]; omega) hrun with
    ⟨hfull, herror⟩ | ⟨h', hset, hpeek⟩
  · exact Or.inl ⟨⟨_, hfull⟩, herror⟩
  · refine Or.inr ⟨h', hset, ?_⟩
    rw [hsize, hone] at hpeek
    rw [hone, hpeek]
    cases (SvPV v).bytes with
    | nil => rfl
    | cons b bs => rfl

/-! ## One access -/

/-- What the magic of an assignment leaves. -/
def outcomeOf (r : Except Halt (Unit × Heap)) (h : Heap) : Except Halt (Effect × Heap) :=
  match r with
  | .ok (_, h') => .ok (.done, h')
  | .error (.croak m) => .ok (.raised m, h)
  | .error e => .error e

theorem perform_assign {entries : List (Text × SV)} {key : Text} {field : TypeObj} {ptr : ℕ}
    (hkey : entries.lookup key = some (.pinned field ptr)) :
    (ElementOp.assign key v).perform entries h =
      outcomeOf (set_pin field ptr (sv_setsv v) h) h := by
  simp only [ElementOp.perform, ElementOp.key, hkey, PinState.assign, PinState.pinned]
  cases set_pin field ptr (sv_setsv v) h with
  | ok r => rfl
  | error e => cases e <;> rfl

theorem perform_read {entries : List (Text × SV)} {key : Text} {field : TypeObj} {ptr : ℕ}
    (hkey : entries.lookup key = some (.pinned field ptr))
    (hcroak : ∀ m, get_pin field ptr h ≠ .error (.croak m)) :
    (ElementOp.read key).perform entries h =
      (get_pin field ptr h).map fun r => (.value r.1, r.2) := by
  simp only [ElementOp.perform, ElementOp.key, hkey, PinState.read, PinState.pinned]
  cases hget : get_pin field ptr h with
  | ok r => rfl
  | error e =>
    cases e with
    | croak m => exact absurd hget (hcroak m)
    | fault | outOfMemory => rfl

/-- A member is decoded without an exception and without a change to the heap. -/
structure Decodes (x : Eff SV) (h : Heap) : Prop where
  noCroak : ∀ m, x h ≠ .error (.croak m)
  same : ∀ v h', x h = .ok (v, h') → h' = h

theorem decodes_of_load {a n : ℕ} (f : List UInt8 → SV) :
    Decodes (do
      let bs ← loadAt a n
      pure (f bs)) h := by
  cases hload : loadAt a n h with
  | ok r =>
    obtain ⟨bs, h₁⟩ := r
    obtain ⟨-, rfl⟩ := loadAt_eq_ok hload
    refine ⟨fun m hm => ?_, fun v h' hv => ?_⟩
    · cases (Exec.bind_of_ok hload).symm.trans hm
    · cases (Exec.bind_of_ok hload).symm.trans hv
      rfl
  | error e =>
    refine ⟨fun m hm => ?_, fun v h' hv => ?_⟩
    · cases (Exec.bind_of_error hload).symm.trans hm
      cases loadAt_error hload
    · cases (Exec.bind_of_error hload).symm.trans hv

theorem decodes_chars {a : ℕ} : Decodes (ptr2svChars a) h := by
  have hrun : ptr2svChars a h = (Exec.lift (cstring h.mem h.mem.brk a) >>= fun bs =>
      pure (.val (.ofStr (.ofGuess bs))) : Eff SV) h := Exec.bind_of_ok (Exec.get_apply h)
  cases hstring : cstring h.mem h.mem.brk a with
  | ok bs =>
    rw [hstring] at hrun
    have hok := hrun.trans (Exec.bind_of_ok (Exec.lift_ok_apply bs h))
    refine ⟨fun m hm => ?_, fun v h' hv => ?_⟩
    · cases hok.symm.trans hm
    · cases hok.symm.trans hv
      rfl
  | error e =>
    rw [hstring] at hrun
    have herror := hrun.trans (Exec.bind_of_error (Exec.lift_error_apply e h))
    refine ⟨fun m hm => ?_, fun v h' hv => ?_⟩
    · cases herror.symm.trans hm
      cases cstring_error hstring
    · cases herror.symm.trans hv

/-- A member, as its magic reads it. -/
theorem decodes_member {field : TypeObj} (hmember : UnionMember field) (ptr : ℕ) :
    Decodes (get_pin field ptr) h := by
  have hundef : Decodes (pure (.undef false)) h :=
    ⟨fun m hm => (by cases hm), fun v h' hv => by cases hv; rfl⟩
  have hscalar : ∀ {k s}, (cInt k).isSome = true → Decodes (get_pin (.scalar k s) ptr) h := by
    intro k s hk
    obtain ⟨c, hk⟩ := Option.isSome_iff_exists.mp hk
    by_cases hzero : ptr = 0
    · rw [get_pin, ptr2sv, if_pos hzero]
      exact hundef
    · rw [get_pin, ptr2sv, if_neg hzero]
      rcases cInt_cases (s := s) (p := ptr) hk with hchar | ⟨-, -, -, new, hrun⟩
      · have hchars : ptr2svScalar k s ptr = ptr2svChars ptr := by
          rcases hchar with rfl | rfl | rfl <;> rfl
        rw [hchars]
        exact decodes_chars
      · rw [hrun]
        exact decodes_of_load fun bs => .val (new (c.decode bs))
  rcases unionMember_cases hmember with ⟨k, s, c, rfl, hk, -⟩ | ⟨s, s', rfl, -⟩
  · exact hscalar (Option.isSome_of_eq_some hk)
  · have hchar : Decodes (get_pin (.scalar .Char s') ptr) h := hscalar rfl
    rw [get_pin, ptr2sv]
    by_cases hzero : ptr = 0
    · rw [if_pos hzero]
      exact hundef
    · rw [if_neg hzero]
      exact hchar

/-- **A read of a member** gives what a field of a struct is decoded to there. -/
theorem read_behaves {field : TypeObj} (hmember : UnionMember field) {ptr : ℕ}
    (hin : h.mem.InBlock p field.sizeof) (hptr : field.isPointer = false → ptr = p)
    {entries : List (Text × SV)} {key : Text}
    (hkey : entries.lookup key = some (.pinned field ptr))
    (hholds : ElementHolds field ptr p h (.read key)) :
    (ElementOp.read key).perform entries h = decoded field p h := by
  rw [perform_read hkey (decodes_member hmember ptr).noCroak, decoded]
  apply congrArg
  rcases unionMember_cases hmember with ⟨k, s, c, rfl, hk, hs⟩ | ⟨s, s', rfl, hs⟩
  · obtain rfl := hptr rfl
    rcases cInt_cases (s := s) (p := ptr) hk with hchar | ⟨-, -, hfield, -⟩
    · obtain ⟨b, hb, hin2, hpeek⟩ := hholds hchar
      exact get_pin_character hchar hb hin2 hpeek _
    · rw [hfield]
      rfl
  · have hsize : (TypeObj.pointer s (.scalar .Char s')).sizeof = SIZEOF_INTPTR_T := hs
    rw [hsize] at hin
    exact get_pin_string hin hholds _

/-- A value that a number or a character can be given is defined. -/
theorem SvOK_of_encodes (hv : Encodes (.scalar k s) v) : v.SvOK = true := by
  simp only [Encodes] at hv
  split at hv
  · exact hv.1
  · cases v with
    | val s => rfl
    | _ => cases hv

theorem makesRoom_member {s : Slots} (hmember : UnionMember (.scalar k s))
    (hok : v.SvOK = true) : MakesRoom (.scalar k s) v h := by
  obtain ⟨hk, hs⟩ := hmember
  obtain ⟨c, hk⟩ := Option.isSome_iff_exists.mp hk
  by_cases hchar : Character k
  · exact makesRoom_character hchar hs hok
  · exact makesRoom_integer hk hchar hs hok

/-- An assignment to a number or a character stores the encoding of the value. -/
theorem set_pin_encoded (hmember : UnionMember (.scalar k s)) (hin : h.mem.InBlock p k.sizeof)
    {key : Text} (hholds : ElementHolds (.scalar k s) p p h (.assign key v))
    (hv : Encodes (.scalar k s) v) :
    (∃ n, h.mem.Exhausted n) ∧ set_pin (.scalar k s) p v h = .error .outOfMemory ∨
      ∃ h', set_pin (.scalar k s) p v h = .ok ((), h') ∧ Encoded h'.mem (.scalar k s) p v := by
  obtain ⟨hk, hs⟩ := hmember
  obtain ⟨c, hk⟩ := Option.isSome_iff_exists.mp hk
  simp only [Encodes] at hv
  by_cases hchar : Character k
  · rw [if_pos hchar] at hv
    have hbyte := hholds hchar hv.1 hv.2
    rcases set_pin_character hchar hs hin hv.1 hv.2 with hfull | ⟨h', hrun, hpeek⟩
    · exact Or.inl hfull
    · exact Or.inr ⟨h', hrun, hpeek.trans hbyte⟩
  · rw [if_neg hchar] at hv
    exact set_pin_integer hk hchar hs hin hv

/-- **An assignment to a number or a character** is as it should be. -/
theorem stores_scalar (hmember : UnionMember (.scalar k s)) (hin : h.mem.InBlock p k.sizeof)
    {entries : List (Text × SV)} {key : Text}
    (hkey : entries.lookup key = some (.pinned (.scalar k s) p))
    (hholds : ElementHolds (.scalar k s) p p h (.assign key v)) :
    Stores (.scalar k s) p h v ((ElementOp.assign key v).perform entries h) := by
  have hsize : (TypeObj.scalar k s).sizeof = k.sizeof := hmember.2
  have hsetsv : v.SvOK = true → sv_setsv v = v := sv_setsv_of_SvOK
  have hroom := set_pin_room (v := sv_setsv v) (hsize ▸ hin) fun hok => by
    rw [SvOK_sv_setsv] at hok
    rw [hsetsv hok]
    exact makesRoom_member hmember hok
  rw [perform_assign hkey]
  refine ⟨fun hfault => ?_, fun hv => ?_, fun effect h' hrun => ?_⟩
  · cases hset : set_pin (.scalar k s) p (sv_setsv v) h with
    | ok r =>
      rw [hset] at hfault
      cases hfault
    | error e =>
      rw [hset] at hfault
      cases e with
      | fault => exact hroom.1 hset
      | croak m => cases hfault
      | outOfMemory => cases hfault
  · rw [hsetsv (SvOK_of_encodes hv)]
    rcases set_pin_encoded hmember hin hholds hv with ⟨hfull, hrun⟩ | ⟨h', hrun, henc⟩
    · exact Or.inl ⟨hfull, by rw [hrun]; rfl⟩
    · exact Or.inr ⟨h', by rw [hrun]; rfl, henc⟩
  · cases hset : set_pin (.scalar k s) p (sv_setsv v) h with
    | ok r =>
      rw [hset] at hrun
      cases hrun
      exact hroom.2 _ hset
    | error e =>
      rw [hset] at hrun
      cases e with
      | croak m =>
        cases hrun
        exact OnlyWrites_refl _ _ _
      | fault => cases hrun
      | outOfMemory => cases hrun

/-- **An assignment of no value to a string** that is none leaves it so. -/
theorem stores_undef {s' : Slots} {ptr : ℕ} {entries : List (Text × SV)} {key : Text}
    (hkey : entries.lookup key = some (.pinned (.pointer s (.scalar .Char s')) ptr))
    (hholds : ElementHolds (.pointer s (.scalar .Char s')) ptr p h (.assign key v)) :
    Stores (.pointer s (.scalar .Char s')) p h v ((ElementOp.assign key v).perform entries h) := by
  obtain ⟨hok, hnull⟩ := hholds
  have hset : set_pin (.pointer s (.scalar .Char s')) ptr (sv_setsv v) h = .ok ((), h) := by
    rw [set_pin, SvOK_sv_setsv, hok, if_neg Bool.false_ne_true]
    rfl
  rw [perform_assign hkey, hset]
  refine ⟨fun hfault => (by cases hfault), fun _ => Or.inr ⟨h, rfl, 0, hnull, ?_⟩,
    fun effect h' hrun => ?_⟩
  · rw [hok, if_neg Bool.false_ne_true]
  · cases hrun
    exact OnlyWrites_refl _ _ _

/-- **One access** behaves where it holds, and writes nothing but the member. -/
theorem element_behaves {field : TypeObj} (hmember : UnionMember field) {ptr : ℕ}
    (hin : h.mem.InBlock p field.sizeof) (hptr : field.isPointer = false → ptr = p)
    {entries : List (Text × SV)} {op : ElementOp}
    (hkey : entries.lookup op.key = some (.pinned field ptr))
    (hholds : ElementHolds field ptr p h op) :
    ElementBehaves field p h op (op.perform entries h) ∧
      ∀ effect h', op.perform entries h = .ok (effect, h') → OnlyWrites p field.sizeof h h' := by
  cases op with
  | read key =>
    have hread := read_behaves hmember hin hptr hkey hholds
    refine ⟨hread, fun effect h' hrun => ?_⟩
    have hget := (perform_read hkey (decodes_member hmember ptr).noCroak).symm.trans hrun
    cases hval : get_pin field ptr h with
    | error e =>
      rw [hval] at hget
      cases hget
    | ok r =>
      rw [hval] at hget
      cases hget
      rw [(decodes_member hmember ptr).same r.1 r.2 hval]
      exact OnlyWrites_refl _ _ _
  | assign key v =>
    have hstores : Stores field p h v ((ElementOp.assign key v).perform entries h) := by
      rcases unionMember_cases hmember with ⟨k, s, c, rfl, -, hs⟩ | ⟨s, s', rfl, -⟩
      · obtain rfl := hptr rfl
        have hsize : (TypeObj.scalar k s).sizeof = k.sizeof := hs
        exact stores_scalar hmember (hsize ▸ hin) hkey hholds
      · exact stores_undef hkey hholds
    exact ⟨hstores, hstores.frame⟩

end Accesses

/-! ## Runs -/

theorem unionMember_withMember {t : TypeObj} (h : UnionMember t) (name : PerlStr) :
    UnionMember (t.withMember 0 name) := by
  rcases unionMember_cases h with ⟨k, s, c, rfl, -⟩ | ⟨s, s', rfl, -⟩
  · exact h
  · exact h

/-- A member has a size. -/
theorem sizeof_pos_of_unionMember {t : TypeObj} (h : UnionMember t) : 0 < t.sizeof := by
  rcases unionMember_cases h with ⟨k, s, c, rfl, hk, hs⟩ | ⟨s, s', rfl, hs⟩
  · have hsize : (TypeObj.scalar k s).sizeof = k.sizeof := hs
    rw [hsize]
    cases k <;> first | exact Nat.succ_pos _ | cases hk
  · have hsize : (TypeObj.pointer s (.scalar .Char s')).sizeof = SIZEOF_INTPTR_T := hs
    rw [hsize]
    exact Nat.succ_pos 7

section Runs

variable {types : List (PerlStr × TypeObj)} {p : ℕ} {h h₀ : Heap} {entries : List (Text × SV)}

/-- The members of the union are in memory. -/
def UnionLive (types : List (PerlStr × TypeObj)) (p : ℕ) (h : Heap) : Prop :=
  ∀ q ∈ types, h.mem.InBlock p q.2.sizeof

/-- **One access to the hash** behaves where it holds, and keeps the union in memory. -/
theorem member_behaves (hmembers : ∀ q ∈ types, UnionMember q.2) (hlive : UnionLive types p h)
    (hentries : Members types p h₀ entries) {op : ElementOp} (hholds : MemberHolds entries p h op) :
    MemberBehaves entries p h op ∧
      ∀ h', ElementStep entries h op h' → UnionLive types p h' := by
  have hone : ∀ field ptr, entries.lookup op.key = some (.pinned field ptr) →
      ElementBehaves field p h op (op.perform entries h) ∧
        ∀ effect h', op.perform entries h = .ok (effect, h') →
          OnlyWrites p field.sizeof h h' := by
    intro field ptr hkey
    obtain ⟨q, hq, -, hpinned⟩ := hentries op.key _ hkey
    cases hpinned
    refine element_behaves (unionMember_withMember (hmembers q hq) q.1) ?_ (fun hpointer => ?_) hkey
      (hholds _ _ hkey)
    · rw [TypeObj.sizeof_withMember]
      exact hlive q hq
    · rw [boundAt, hpointer, if_neg Bool.false_ne_true]
  refine ⟨fun field ptr hkey => (hone field ptr hkey).1, fun h' hstep q hq => ?_⟩
  obtain ⟨effect, hrun⟩ := hstep
  cases hkey : entries.lookup op.key with
  | none =>
    rw [ElementOp.perform, hkey] at hrun
    cases hrun
    exact hlive q hq
  | some sv =>
    obtain ⟨q', hq', -, rfl⟩ := hentries op.key sv hkey
    exact ((hone _ _ hkey).2 effect h' hrun).live p _ (sizeof_pos_of_unionMember (hmembers q hq))
      (hlive q hq)

/-- **Every state of a run** whose accesses all hold has the union in memory. -/
theorem unionLive_run (hmembers : ∀ q ∈ types, UnionMember q.2) (hlive : UnionLive types p h)
    (hentries : Members types p h₀ entries) {run : List (ElementOp × Heap)}
    (hrun : IsRun (ElementStep entries) h run) (hholds : AllSteps (MemberHolds entries p) h run) :
    UnionLive types p (finalState h run) := by
  have hstates : AllStates (UnionLive types p) h run := by
    refine hrun.allStates (fun s op s' hs hstep hcond => ?_) hlive hholds
    exact (member_behaves hmembers hs hentries hcond).2 s' hstep
  exact hstates.final

end Runs

/-- **The elements of a union**: the hash has one for each member, and after any sequence of
reads and assignments that all meet the condition, the next one that does gives the decoding
of the union's bytes or stores the encoding of the value. -/
theorem union_elements_behave {types : List (PerlStr × TypeObj)}
    (hmembers : ∀ q ∈ types, UnionMember q.2) {p : ℕ} (hp : p ≠ 0) {h : Heap}
    (hlive : ∀ q ∈ types, h.mem.InBlock p q.2.sizeof) :
    ∃ entries, ptr2sv (Union types) p h = .ok (.href (.new []) entries, h) ∧
      (∀ q ∈ types, ∃ q' ∈ types, q'.1.chars = q.1.chars ∧
        ∃ ptr, entries.lookup q.1.chars = some (.pinned (q'.2.withMember 0 q'.1) ptr)) ∧
      ∀ run, IsRun (ElementStep entries) h run → AllSteps (MemberHolds entries p) h run →
        ∀ op, MemberHolds entries p (finalState h run) op →
          MemberBehaves entries p (finalState h run) op := by
  have hnone : Members types p h [] := fun key sv hsv => by cases hsv
  have hpointer : ∀ q ∈ types, q.2.isPointer = true → h.mem.InBlock p SIZEOF_INTPTR_T := by
    intro q hq hq2
    rcases unionMember_cases (hmembers q hq) with ⟨k, s, c, heq, -⟩ | ⟨s, s', heq, hs⟩
    · rw [heq] at hq2
      cases hq2
    · have hin := hlive q hq
      rw [heq] at hin
      exact hs ▸ hin
  obtain ⟨entries, hrun, hentries, hkeys⟩ := ptr2svMembers_pins (fun q hq => hq) hpointer hnone
  have hunion : ptr2sv (Union types) p h = .ok (.href (.new []) entries, h) := by
    obtain ⟨s, hU, -⟩ := Union_eq types (P := fun _ _ => True) (by simp) trivial
    have hplaced : placed (types.map fun _ => 0) types =
        types.map fun q => q.2.withMember 0 q.1 := by
      rw [placed, List.zipWith_map_left, List.zipWith_self]
    rw [hU, hplaced, ptr2sv, if_neg hp]
    exact Exec.bind_of_ok hrun
  refine ⟨entries, hunion, fun q hq => ?_, fun run hsteps hholds op hop => ?_⟩
  · have hsome := hkeys q.1.chars (Or.inr (List.mem_map_of_mem hq))
    obtain ⟨sv, hsv⟩ := Option.isSome_iff_exists.mp hsome
    obtain ⟨q', hq', hname, rfl⟩ := hentries _ sv hsv
    exact ⟨q', hq', hname, _, hsv⟩
  · have hfinal := unionLive_run hmembers hlive hentries hsteps hholds
    exact (member_behaves hmembers hfinal hentries hop).1

/-- `Union[ c => Char, i => Int ]`. -/
def charInt : List (PerlStr × TypeObj) :=
  [(.ofBytes [0x63], scalarType .Char), (.ofBytes [0x69], scalarType .Int)]

/-- A union at `8192`, all zeros. -/
def zeroUnion : Heap where
  mem := ⟨fun _ => 0, [(8192, 8)], 8200, by decide, by decide, by decide, by decide⟩
  svs := []
  callbacks := []

/-- The hash of this union. -/
theorem union_elements_behave_charInt :
    ∃ entries, ptr2sv (Union charInt) 8192 zeroUnion = .ok (.href (.new []) entries, zeroUnion) ∧
      (∀ q ∈ charInt, ∃ q' ∈ charInt, q'.1.chars = q.1.chars ∧
        ∃ ptr, entries.lookup q.1.chars = some (.pinned (q'.2.withMember 0 q'.1) ptr)) ∧
      ∀ run, IsRun (ElementStep entries) zeroUnion run →
        AllSteps (MemberHolds entries 8192) zeroUnion run →
        ∀ op, MemberHolds entries 8192 (finalState zeroUnion run) op →
          MemberBehaves entries 8192 (finalState zeroUnion run) op := by
  have hmembers : ∀ q ∈ charInt, UnionMember q.2 := by
    intro q hq
    rcases List.mem_cons.mp hq with rfl | hq
    · exact ⟨rfl, rfl⟩
    · cases List.mem_singleton.mp hq
      exact ⟨rfl, rfl⟩
  have hlive : ∀ q ∈ charInt, zeroUnion.mem.InBlock 8192 q.2.sizeof := by
    intro q hq
    rcases List.mem_cons.mp hq with rfl | hq
    · exact ⟨(8192, 8), List.mem_cons_self, by decide, by decide⟩
    · cases List.mem_singleton.mp hq
      exact ⟨(8192, 8), List.mem_cons_self, by decide, by decide⟩
  exact union_elements_behave hmembers (by decide) hlive

/-- `$u->{c} = 65` stores the digit six, whose code is 54. -/
theorem element_not_behaves_digit :
    ∃ entries, ptr2sv (Union charInt) 8192 zeroUnion = .ok (.href (.new []) entries, zeroUnion) ∧
      ¬ MemberBehaves entries 8192 zeroUnion (.assign [0x63] (.val (.newSViv 65))) := by
  refine ⟨_, rfl, fun hbehaves => ?_⟩
  have hstores := hbehaves _ 8192 rfl
  rcases hstores.value ⟨rfl, rfl⟩ with ⟨-, hfull⟩ | ⟨h', hrun, henc⟩
  · cases hfull
  · cases hrun
    revert henc
    show ¬ (_ = _)
    decide

end Affix.Analysis
