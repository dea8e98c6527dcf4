import Affix.Analysis.InPlace

/-!
# The same value at another place

What holds of the scalar branches holds of all types: a struct and a union work on
their members one after the other, each at its offset. A member that is a pointer has
the address of a copy stored in it, and a copy is work on a new block. So work in place
and copies go through the type together.

SOURCE: marshal.cxx:328-501
-/

set_option autoImplicit false

namespace Affix.Analysis

open Affix.Foundation Affix.Model Affix.Interface

/-! ## Addresses that are held -/

section Addresses

variable {v : SV} {h h' : Heap} {q a : ℕ}

theorem object_held {es : List SV} {ptr : SV} (hptr : pointerAddr es = .ok ptr)
    (hq : (if ptr.SvOK = true then addressOf ptr else .ok 0) = .ok q)
    (ha : objectAddress es = some a) : q = a := by
  cases es with
  | nil => cases hptr
  | cons e es =>
    cases hptr
    rw [objectAddress] at ha
    split at ha
    · rename_i hok
      rw [if_pos hok] at hq
      rw [hq] at ha
      exact Option.some.inj ha
    · rename_i hok
      rw [if_neg hok] at hq
      cases hq
      cases ha
      rfl

theorem scalar_held {k : Kind} {s : Slots} (hrun : sv2ptrScalar k s v 0 h = .ok (q, h'))
    (ha : heldScalar k v = some a) : q = a := by
  have hundef : v.SvOK = false → k ≠ .Bool → k ≠ .WChar → k ≠ .SV → q = 0 := by
    intro hok hbool hwide hsv
    cases (scalar_undef hok hbool hwide hsv).symm.trans hrun
    rfl
  have hothers : (if v.SvOK then none else some 0) = some a → k ≠ .Bool → k ≠ .WChar →
      k ≠ .SV → q = a := by
    intro hsome hbool hwide hsv
    cases hok : v.SvOK with
    | true =>
      rw [hok] at hsome
      cases hsome
    | false =>
      rw [hok] at hsome
      exact (hundef hok hbool hwide hsv).trans (Option.some.inj hsome)
  cases k with
  | Bool | SV => cases ha
  | WChar => cases no_wide_copy.symm.trans hrun
  | Void =>
    cases hok : v.SvOK with
    | false =>
      rw [heldScalar, hok] at ha
      exact (hundef hok Kind.noConfusion Kind.noConfusion Kind.noConfusion).trans
        (Option.some.inj ha)
    | true =>
      have hvoid : sv2ptrVoid v 0 h = .ok (q, h') := hrun
      rw [heldScalar, if_pos hok] at ha
      obtain ⟨es, hobj, haddr⟩ := Option.bind_eq_some_iff.mp ha
      rw [sv2ptrVoid, hok, if_pos rfl, hobj] at hvoid
      obtain ⟨ptr, hptr, hq⟩ := object_cases hvoid
      exact object_held hptr hq haddr
  | _ => exact hothers ha Kind.noConfusion Kind.noConfusion Kind.noConfusion

/-- What is no hash is not marshalled into an aggregate. -/
theorem sv2ptr_no_hash {t : TypeObj} (ht : IsAggregate t) (hes : v.entries = none) (a : ℕ)
    (h : Heap) : sv2ptr t v a h = .ok (0, h) := by
  cases t with
  | struct s fields =>
    rw [sv2ptr, asHash, hes]
    split <;> rfl
  | union s fields =>
    rw [sv2ptr, asHash, hes]
    split <;> rfl
  | _ => exact ht.elim

theorem hash_held {t : TypeObj} (ht : IsAggregate t) (hrun : sv2ptr t v 0 h = .ok (q, h'))
    (ha : (if v.entries.isSome then none else some 0) = some a) : q = a := by
  cases hes : v.entries with
  | some es =>
    rw [hes] at ha
    cases ha
  | none =>
    rw [hes] at ha
    cases (sv2ptr_no_hash ht hes 0 h).symm.trans hrun
    exact Option.some.inj ha

/-- **Where no copy is made** the address that is got is the one held. -/
theorem address_held : ∀ (t : TypeObj) {q : ℕ} {h' : Heap}, sv2ptr t v 0 h = .ok (q, h') →
    heldAddress t v = some a → q = a
  | .pointer s subtype, q, h', hrun, ha => by
    rw [heldAddress] at ha
    cases sv2ptr_pointer_cases hrun with
    | nothing hnull hq =>
      rcases hnull with hexp | ⟨hsub, hok⟩
      · rw [if_pos hexp] at ha
        exact hq.trans (Option.some.inj ha)
      · rw [hsub, hok] at ha
        simp only [if_true, Bool.false_eq_true, if_false, ite_self, Option.some.injEq] at ha
        exact hq.trans ha
    | array hsub hok hm hstore =>
      have hexp : ¬ ExplicitUndef v := fun hexp => by cases hok.symm.trans hexp.1
      rw [if_neg hexp, hsub, hok] at ha
      cases ha
    | object hsub hobj hptr hq =>
      have hexp : ¬ ExplicitUndef v := by
        intro hexp
        have hok := hexp.1
        cases v <;> first | cases hobj | cases hok
      rw [if_neg hexp, hsub, if_neg Bool.false_ne_true, hobj] at ha
      exact object_held hptr hq ha
    | copy hsub hobj hcopy =>
      by_cases hexp : ExplicitUndef v
      · cases (sv2ptr_explicitUndef hexp _).symm.trans hrun
        rw [if_pos hexp] at ha
        exact Option.some.inj ha
      · rw [if_neg hexp, hsub, if_neg Bool.false_ne_true, hobj] at ha
        exact address_held subtype hcopy ha
  | .scalar k s, q, h', hrun, ha => by
    rw [heldAddress] at ha
    rcases sv2ptr_scalar_cases hrun with ⟨hexp, rfl⟩ | ⟨hexp, hbranch⟩
    · rw [if_pos hexp] at ha
      exact Option.some.inj ha
    rw [if_neg hexp] at ha
    exact scalar_held hbranch ha
  | .codeRef .., q, h', hrun, ha => by
    rw [heldAddress] at ha
    split at ha
    · rename_i hexp
      cases (sv2ptr_explicitUndef hexp _).symm.trans hrun
      exact Option.some.inj ha
    · cases ha
  | .struct .., q, h', hrun, ha => by
    rw [heldAddress] at ha
    exact hash_held (t := .struct _ _) trivial hrun ha
  | .union .., q, h', hrun, ha => by
    rw [heldAddress] at ha
    exact hash_held (t := .union _ _) trivial hrun ha

end Addresses

/-! ## Fields -/

section Fields

variable {field : TypeObj} {v : SV}

/-- The address of a copy is stored. -/
theorem lays_storeCopy {s : Slots} {subtype : TypeObj}
    (hcopy : Repeats (sv2ptr (.pointer s subtype) v 0)) :
    Lays SIZEOF_INTPTR_T (fun a => do
      let ptr ← sv2ptr (.pointer s subtype) v 0
      store a (pointerBytes ptr)) (laidAt (.pointer s subtype) v) SIZEOF_INTPTR_T where
  progress ha hrun := by
    obtain ⟨q, h₁, hone, hstore⟩ := Exec.bind_eq_ok.mp hrun
    exact (sv2ptr_progress _ hone).of_zero.trans (progress_store hstore) fun _ _ hx => hx
  bytes {a h r h'} ha hrun i hi := by
    obtain ⟨q, h₁, hone, hstore⟩ := Exec.bind_eq_ok.mp hrun
    have hsame := (sv2ptr_progress _ hone).mem.bytes _ hi (before_zero _)
    obtain ⟨-, rfl⟩ := store_eq_ok.mp hstore
    have hlaid := leaves_poke h₁.mem a (pointerBytes q) i
    rw [hsame] at hlaid
    rw [laidAt]
    split
    · cases hheld : heldAddress (.pointer s subtype) v with
      | none => trivial
      | some q' =>
        obtain rfl := address_held _ hone hheld
        exact hlaid
    · rename_i hout
      have hlen : (pointerBytes q).length = SIZEOF_INTPTR_T := length_encodeLE _ _
      rw [List.getElem?_eq_none (by omega)] at hlaid
      exact hlaid
  within {a h r h' room} ha hrun hs hroom := hroom
  again ha hrun a h room e hin hroom herr := by
    obtain ⟨q, h₁, hone, hstore⟩ := Exec.bind_eq_ok.mp hrun
    rcases Exec.bind_eq_error.mp herr with herr | ⟨q', h', hok, herr⟩
    · exact Or.inl (hcopy hone herr)
    · have hin' := (sv2ptr_progress _ hok).mem.inBlock hin
      have hlen : (pointerBytes q').length = SIZEOF_INTPTR_T := length_encodeLE _ _
      exact absurd (Or.inr (hin'.mono le_rfl (by omega))) (store_error herr).2

theorem lays_storeField (hlaid : LaidOut field) (hplace : field.isPointer = false →
      Lays field.sizeof (sv2ptr field v) (laidAt field v) (reach field v))
    (hcopy : field.isPointer = true → Repeats (sv2ptr field v 0)) :
    Lays field.sizeof (storeField field v) (laidAt field v) (reach field v) := by
  unfold storeField
  cases field with
  | pointer s subtype =>
    have hsize : (TypeObj.pointer s subtype).sizeof = SIZEOF_INTPTR_T := hlaid.1
    rw [hsize]
    exact lays_storeCopy (hcopy rfl)
  | _ => exact (hplace rfl).map _

/-- One turn of the loop of a struct. -/
theorem sv2ptrFields_turn {es : List (Text × SV)} {rest : List TypeObj} {w : SV}
    (hw : fetched es field = some w) (a : ℕ) :
    sv2ptrFields es a (field :: rest) =
      storeField field w (a + field.offset) >>= fun _ => sv2ptrFields es a rest := by
  obtain ⟨name, hname, hfetch⟩ := Option.bind_eq_some_iff.mp hw
  simp only [sv2ptrFields, hname, hfetch, storeField]
  cases field.isPointer with
  | true =>
    simp only [if_true]
    exact (Exec.bind_assoc _ _ _).symm
  | false =>
    simp only [Bool.false_eq_true, if_false, Exec.bind_assoc]
    rfl

/-- One turn of the loop of a union for a member that has an entry. -/
theorem sv2ptrMembers_turn {es : List (Text × SV)} {rest : List TypeObj} {w : SV}
    (hw : fetched es field = some w) (a : ℕ) :
    sv2ptrMembers es a (field :: rest) =
      storeField field w (a + field.offset) >>= fun _ =>
        sv2ptrMembers es a rest >>= fun _ => pure true := by
  obtain ⟨name, hname, hfetch⟩ := Option.bind_eq_some_iff.mp hw
  simp only [sv2ptrMembers, hname, hfetch, storeField]
  cases field.isPointer with
  | true =>
    simp only [if_true]
    exact (Exec.bind_assoc _ _ _).symm
  | false =>
    simp only [Bool.false_eq_true, if_false, Exec.bind_assoc]
    rfl

end Fields

/-! ## All types -/

section Types

variable {v : SV}

/-- Code that always returns. -/
theorem repeats_return {α : Type} {x : Eff α} {r : α} (hrun : ∀ h, x h = .ok (r, h)) :
    Repeats x := by
  intro h₂ r' h₂' _ h e herr
  cases (hrun h).symm.trans herr

theorem repeats_codeRef {args : Option (List TypeObj)} {sig : List Flag} {r : TypeObj} :
    Repeats (sv2ptrCodeRef args sig r v) := by
  intro h₂ q h₂' hrun h e herr
  unfold sv2ptrCodeRef at hrun herr
  cases hok : v.SvOK with
  | false =>
    rw [hok] at herr
    exact Newxz_error herr
  | true =>
    rw [hok, if_pos rfl] at hrun herr
    -- the callback library has taken the signature
    obtain ⟨p₁, h₁, -, hrun⟩ := Exec.bind_eq_ok.mp hrun
    obtain ⟨p₂, h₃, -, hrun⟩ := Exec.bind_eq_ok.mp hrun
    obtain ⟨p₃, h₄, -, hrun⟩ := Exec.bind_eq_ok.mp hrun
    obtain ⟨u, h₅, hinit, -⟩ := Exec.bind_eq_ok.mp hrun
    obtain ⟨hinit, -⟩ := Exec.lift_eq_ok.mp hinit
    rcases Exec.bind_eq_error.mp herr with herr | ⟨q₁, k₁, -, herr⟩
    · exact Newxz_error herr
    rcases Exec.bind_eq_error.mp herr with herr | ⟨q₂, k₂, -, herr⟩
    · exact Newxz_error herr
    rcases Exec.bind_eq_error.mp herr with herr | ⟨q₃, k₃, -, herr⟩
    · exact safemalloc_error herr
    rw [hinit] at herr
    cases herr

/-- The addresses of copies are stored where there is room for as many. -/
theorem lays_storePointers {convert : SV → Eff ℕ} (hconvert : ∀ e, Repeats (convert e))
    (hprogress : ∀ e h₁ q h₂, convert e h₁ = .ok (q, h₂) → Progress 0 h₁ h₂) (es : List SV) :
    Lays (es.length * SIZEOF_INTPTR_T) (fun a => storePointers convert a es)
      (fun _ => some .address) (es.length * SIZEOF_INTPTR_T) where
  progress ha hrun := progress_storePointers ha hprogress hrun
  bytes _ _ _ _ := trivial
  within _ _ _ hroom := hroom
  again {a₂ h₂ r h₂'} _ hrun a h room e hin hroom herr := by
    left
    induction es generalizing a₂ h₂ a h room with
    | nil => cases herr
    | cons e es ih =>
      rw [List.length_cons, Nat.succ_mul] at hroom
      obtain ⟨q, h₃, hone, hrest⟩ := Exec.bind_eq_ok.mp hrun
      obtain ⟨u, h₄, -, hrest⟩ := Exec.bind_eq_ok.mp hrest
      rcases Exec.bind_eq_error.mp herr with herr | ⟨q', h', hok, herr⟩
      · exact hconvert e hone herr
      have hin' := (hprogress _ _ _ _ hok).mem.inBlock hin
      rcases Exec.bind_eq_error.mp herr with herr | ⟨u', h'', hstore, herr⟩
      · have hlen : (pointerBytes q').length = SIZEOF_INTPTR_T := length_encodeLE _ _
        exact absurd (Or.inr (hin'.mono le_rfl (by omega))) (store_error herr).2
      · have hrest' : h''.mem.InBlock (a + SIZEOF_INTPTR_T) (room - SIZEOF_INTPTR_T) :=
          ((progress_store hstore).mem.inBlock hin').mono (by omega) (by omega)
        exact ih (Nat.succ_ne_zero _) hrest _ _ _ hrest' (by omega) herr

theorem sv2ptrMembers_okay {es : List (Text × SV)} {fields : List TypeObj} {a : ℕ} {okay : Bool}
    {h h' : Heap} (hrun : sv2ptrMembers es a fields h = .ok (okay, h')) :
    okay = fields.any fun field => (fetched es field).isSome := by
  induction fields generalizing okay h h' with
  | nil =>
    rw [sv2ptrMembers] at hrun
    cases hrun
    rfl
  | cons field rest ih =>
    cases hw : fetched es field with
    | some w =>
      rw [sv2ptrMembers_turn hw] at hrun
      obtain ⟨u, h₁, -, hrest⟩ := Exec.bind_eq_ok.mp hrun
      obtain ⟨okay', h₂, -, hpure⟩ := Exec.bind_eq_ok.mp hrest
      cases hpure
      simp [hw]
    | none =>
      cases hname : field.field with
      | none =>
        simp only [sv2ptrMembers, hname] at hrun
        cases hrun
      | some name =>
        have hfetch : hvFetch es name = none := by
          rw [fetched, hname] at hw
          exact hw
        simp only [sv2ptrMembers, hname, hfetch] at hrun
        rw [ih hrun, List.any_cons, hw]
        rfl

theorem laidAt_none {t : TypeObj} (hptr : t.isPointer = false) (hexp : ExplicitUndef v) :
    laidAt t v = fun _ => none := by
  have hes : v.entries = none := by
    have hok := hexp.1
    cases v <;> first | rfl | cases hok
  funext i
  cases t with
  | pointer => cases hptr
  | scalar k s => rw [laidAt, if_pos hexp]
  | codeRef => rw [laidAt]
  | struct s fields => rw [laidAt, hes]
  | union s fields => rw [laidAt, hes]

theorem reach_zero {t : TypeObj} (hptr : t.isPointer = false) (hexp : ExplicitUndef v) :
    reach t v = 0 := by
  have hes : v.entries = none := by
    have hok := hexp.1
    cases v <;> first | rfl | cases hok
  cases t with
  | pointer => cases hptr
  | scalar k s => rw [reach, if_pos hexp]
  | codeRef => rw [reach]
  | struct s fields => rw [reach, hes]
  | union s fields => rw [reach, hes]

/-- For the explicit `undef` nothing is done. -/
theorem lays_explicit {t : TypeObj} (hptr : t.isPointer = false) (hexp : ExplicitUndef v) :
    Lays t.sizeof (sv2ptr t v) (laidAt t v) (reach t v) := by
  rw [laidAt_none hptr hexp, reach_zero hptr hexp]
  exact (lays_return fun a h => sv2ptr_explicitUndef hexp t).mono (Nat.zero_le _)

/-- A struct has to have an entry for every field. -/
theorem sv2ptrFields_missing {field : TypeObj} {rest : List TypeObj} {es : List (Text × SV)}
    (hw : fetched es field = none) (a : ℕ) (h : Heap) :
    ∃ e, sv2ptrFields es a (field :: rest) h = .error e := by
  cases hname : field.field with
  | none =>
    simp only [sv2ptrFields, hname]
    exact ⟨_, rfl⟩
  | some name =>
    have hfetch : hvFetch es name = none := by
      rw [fetched, hname] at hw
      exact hw
    simp only [sv2ptrFields, hname, hfetch]
    exact ⟨_, rfl⟩

theorem sv2ptr_union {s : Slots} {fields : List TypeObj} {es : List (Text × SV)}
    (hconst : (!v.SvOK && v.SvREADONLY) = false) (hes : v.entries = some es) :
    sv2ptr (.union s fields) v = fun a => orNew a (Newxz 1 s.sizeof) >>= fun ret =>
      sv2ptrMembers es ret fields >>= fun okay =>
        if okay then pure ret
        else croak (text "Malformed Union[...] field; missing defined field") := by
  funext a
  rw [sv2ptr, hconst, if_neg Bool.false_ne_true, asHash, hes]

/-- The end of the branch of a union. -/
theorem lays_croakUnless (okay : Bool) (message : Text) :
    Lays 0 (fun a => if okay then pure a else croak message : ℕ → Eff ℕ) (fun _ => none) 0 := by
  cases okay with
  | true => exact lays_return fun a h => rfl
  | false => exact lays_stop (fun a h _ => ⟨_, rfl⟩) _ _

/-- Whether a member was written is known from the entries. -/
theorem lays_membersThen {size need : ℕ} {laid : ℕ → Option Mark} {fields : List TypeObj}
    (es : List (Text × SV)) {message : Text}
    (hmembers : Lays size (fun a => sv2ptrMembers es a fields) laid need) :
    Lays size (fun a => sv2ptrMembers es a fields >>= fun okay =>
      if okay then pure a else croak message : ℕ → Eff ℕ) laid need := by
  have hboth := hmembers.seq ((lays_croakUnless
    (fields.any fun field => (fetched es field).isSome) message).mono (Nat.zero_le size))
  simp only [Option.none_or, Nat.max_zero] at hboth
  refine hboth.congr fun a _ => ?_
  funext h
  cases hrun : sv2ptrMembers es a fields h with
  | error e => rw [Exec.bind_of_error hrun, Exec.bind_of_error hrun]
  | ok r =>
    rw [Exec.bind_of_ok hrun, Exec.bind_of_ok hrun, sv2ptrMembers_okay hrun]

mutual

/-- **Marshalling in place** is the same at every place. -/
theorem lays_sv2ptr : ∀ (t : TypeObj) (v : SV), LaidOut t → t.isPointer = false →
    Lays t.sizeof (sv2ptr t v) (laidAt t v) (reach t v)
  | t, v, hlaid, hptr => by
    by_cases hexp : ExplicitUndef v
    · exact lays_explicit hptr hexp
    have hconst := not_explicitUndef hexp
    cases t with
    | pointer => cases hptr
    | scalar k s =>
      have hrun : sv2ptr (.scalar k s) v = sv2ptrScalar k s v := by
        funext a
        rw [sv2ptr, hconst, if_neg Bool.false_ne_true]
      have hlaid : laidAt (.scalar k s) v = fun i => (laid k v)[i]?.map .byte := by
        funext i
        rw [laidAt, if_neg hexp]
      rw [hrun, hlaid, reach, if_neg hexp]
      exact (branch_scalar k s v).lays.mono (Nat.zero_le _)
    | codeRef s args sig r =>
      have hrun : sv2ptr (.codeRef s args sig r) v = fun _ => sv2ptrCodeRef args sig r v := by
        funext a
        rw [sv2ptr, hconst, if_neg Bool.false_ne_true]
      have hlaid : laidAt (.codeRef s args sig r) v = fun _ => none := by
        funext i
        rw [laidAt]
      rw [hrun, hlaid, reach]
      exact (lays_elsewhere (fun hrun => progress_codeRef hrun) repeats_codeRef).mono
        (Nat.zero_le _)
    | struct s fields =>
      cases hes : v.entries with
      | none =>
        have hlaid : laidAt (.struct s fields) v = fun _ => none := by
          funext i
          rw [laidAt, hes]
        rw [hlaid, reach, hes]
        exact (lays_return fun a h => sv2ptr_no_hash (t := .struct s fields) trivial hes a h).mono
          (Nat.zero_le _)
      | some es =>
        have hrun : sv2ptr (.struct s fields) v = fun a => orNew a (Newxz 1 s.sizeof) >>= fun ret =>
            sv2ptrFields es ret fields >>= fun _ => pure (id ret) := by
          funext a
          rw [sv2ptr, hconst, if_neg Bool.false_ne_true, asHash, hes]
          rfl
        have hlaid' : laidAt (.struct s fields) v = laidIn es fields := by
          funext i
          rw [laidAt, hes]
        rw [hrun, hlaid', reach, hes]
        exact ((lays_fields fields es hlaid.1 hlaid.2).map id).orNew _
    | union s fields =>
      cases hes : v.entries with
      | none =>
        have hlaid : laidAt (.union s fields) v = fun _ => none := by
          funext i
          rw [laidAt, hes]
        rw [hlaid, reach, hes]
        exact (lays_return fun a h => sv2ptr_no_hash (t := .union s fields) trivial hes a h).mono
          (Nat.zero_le _)
      | some es =>
        have hlaid' : laidAt (.union s fields) v = laidIn es fields := by
          funext i
          rw [laidAt, hes]
        rw [sv2ptr_union hconst hes, hlaid', reach, hes]
        exact (lays_membersThen es (lays_members fields es hlaid.1 hlaid.2)).orNew _

theorem lays_fields : ∀ (fields : List TypeObj) (es : List (Text × SV)) {lo hi : ℕ},
    InOrder lo hi fields → LaidOut.allLaidOut fields →
    Lays hi (fun a => sv2ptrFields es a fields) (laidIn es fields) (reachIn es fields)
  | [], es, lo, hi, _, _ => by
    have hlaid : laidIn es [] = fun _ => none := by
      funext i
      rw [laidIn]
    rw [hlaid, reachIn]
    exact (lays_return fun a h => by rw [sv2ptrFields]; rfl).mono (Nat.zero_le _)
  | field :: rest, es, lo, hi, horder, hall => by
    obtain ⟨-, hlo, hrest⟩ := horder
    have hend := hrest.lo_le_hi
    cases hw : fetched es field with
    | none =>
      exact (lays_stop (fun a h _ => sv2ptrFields_missing hw a h) _ _).mono (Nat.zero_le _)
    | some w =>
      have hlaid : laidIn es (field :: rest) = fun i => (laidIn es rest i).or
          (if field.offset ≤ i then laidAt field w (i - field.offset) else none) := by
        funext i
        rw [laidIn, hw]
      rw [funext (sv2ptrFields_turn hw), hlaid, reachIn, hw]
      exact ((lays_storeField hall.1 (lays_sv2ptr field w hall.1)
        fun _ => repeats_sv2ptr field w hall.1).shift hend).seq (lays_fields rest es hrest hall.2)

theorem lays_members : ∀ (fields : List TypeObj) (es : List (Text × SV)) {hi : ℕ},
    (∀ field ∈ fields, field.offset + field.sizeof ≤ hi) → LaidOut.allLaidOut fields →
    Lays hi (fun a => sv2ptrMembers es a fields) (laidIn es fields) (reachIn es fields)
  | [], es, hi, _, _ => by
    have hlaid : laidIn es [] = fun _ => none := by
      funext i
      rw [laidIn]
    rw [hlaid, reachIn]
    exact (lays_return fun a h => by rw [sv2ptrMembers]; rfl).mono (Nat.zero_le _)
  | field :: rest, es, hi, hends, hall => by
    obtain ⟨hend, hrest⟩ := List.forall_mem_cons.mp hends
    have hothers := lays_members rest es hrest hall.2
    cases hw : fetched es field with
    | none =>
      have hlaid : laidIn es (field :: rest) = laidIn es rest := by
        funext i
        rw [laidIn, hw, Option.or_none]
      rw [hlaid, reachIn, hw, Nat.zero_max]
      cases hname : field.field with
      | none =>
        refine (lays_stop (fun a h _ => ?_) _ _).mono (Nat.zero_le _)
        simp only [sv2ptrMembers, hname]
        exact ⟨_, rfl⟩
      | some name =>
        have hfetch : hvFetch es name = none := by
          rw [fetched, hname] at hw
          exact hw
        refine hothers.congr fun a _ => ?_
        simp only [sv2ptrMembers, hname, hfetch]
    | some w =>
      have hlaid : laidIn es (field :: rest) = fun i => (laidIn es rest i).or
          (if field.offset ≤ i then laidAt field w (i - field.offset) else none) := by
        funext i
        rw [laidIn, hw]
      rw [funext (sv2ptrMembers_turn hw), hlaid, reachIn, hw]
      exact ((lays_storeField hall.1 (lays_sv2ptr field w hall.1)
        fun _ => repeats_sv2ptr field w hall.1).shift hend).seq (hothers.map fun _ => true)

/-- **A copy that was made** can be made again. -/
theorem repeats_sv2ptr : ∀ (t : TypeObj) (v : SV), LaidOut t → Repeats (sv2ptr t v 0)
  | t, v, hlaid => by
    by_cases hexp : ExplicitUndef v
    · exact repeats_return fun h => sv2ptr_explicitUndef hexp t
    have hconst := not_explicitUndef hexp
    cases t with
    | scalar k s =>
      rw [sv2ptr, hconst, if_neg Bool.false_ne_true]
      exact (branch_scalar k s v).repeats
    | codeRef s args sig r =>
      rw [sv2ptr, hconst, if_neg Bool.false_ne_true]
      exact repeats_codeRef
    | pointer s subtype =>
      cases hsub : subtype.isPointer with
      | true =>
        cases hok : v.SvOK with
        | true =>
          rw [sv2ptr_pointers hsub hok]
          have hstore := lays_storePointers (fun e => repeats_sv2ptr subtype e hlaid.2)
            (fun e h₁ q h₂ => sv2ptr_progress subtype) (pointees v)
          exact (hstore.map id).repeats (le_bytes _ _)
        | false =>
          rw [sv2ptr, hconst, if_neg Bool.false_ne_true, if_pos hsub, hok]
          exact repeats_return fun h => rfl
      | false =>
        rw [sv2ptr, hconst, hsub, if_neg Bool.false_ne_true, if_neg Bool.false_ne_true]
        cases hobj : asPointerObject v with
        | some es => exact (branch_object es).repeats
        | none => exact repeats_sv2ptr subtype v hlaid.2
    | struct s fields =>
      cases hes : v.entries with
      | none =>
        exact repeats_return (sv2ptr_no_hash (t := .struct s fields) trivial hes 0)
      | some es =>
        rw [sv2ptr, hconst, if_neg Bool.false_ne_true, asHash, hes]
        exact ((lays_fields fields es hlaid.1 hlaid.2).map id).repeats (bytes_one _).ge
    | union s fields =>
      cases hes : v.entries with
      | none =>
        exact repeats_return (sv2ptr_no_hash (t := .union s fields) trivial hes 0)
      | some es =>
        rw [sv2ptr_union hconst hes]
        exact (lays_membersThen es (lays_members fields es hlaid.1 hlaid.2)).repeats
          (bytes_one _).ge

end

end Types

/-- **Marshalling does not depend on the place.** A value that has been marshalled somewhere is
marshalled wherever there is room for it, if the memory suffices. It leaves the same bytes there,
up to the addresses of new copies, if the bytes that are not laid were the same; and nothing
before the place is written. -/
theorem marshalled_again {d : Decl} {t : TypeObj} (hd : d.type = .ok t)
    (hptr : t.isPointer = false) {v : SV} {a a₂ r room : ℕ} {h h₂ h₂' : Heap}
    (hrun : sv2ptr t v a₂ h₂ = .ok (r, h₂')) (hin₂ : h₂.mem.InBlock a₂ room)
    (hin : h.mem.InBlock a room) (hsize : t.sizeof ≤ room) (hreach : reach t v ≤ room) :
    sv2ptr t v a h = .error .outOfMemory ∨ ∃ r' h', sv2ptr t v a h = .ok (r', h') ∧
      (∀ i < room, laidAt t v i ≠ some .address →
        (laidAt t v i = none → h.mem.bytes (a + i) = h₂.mem.bytes (a₂ + i)) →
        h'.mem.bytes (a + i) = h₂'.mem.bytes (a₂ + i)) ∧
      ∀ x < a, h'.mem.bytes x = h.mem.bytes x := by
  have hl := lays_sv2ptr t v (type_induction laidOut_closed hd) hptr
  have hbrk := hin.le_brk
  have hbrk₂ := hin₂.le_brk
  cases hagain : sv2ptr t v a h with
  | error e =>
    rcases hl.again hin₂.pos.ne' hrun hin hsize hagain with rfl | ⟨-, hshort⟩
    · exact Or.inl rfl
    · omega
  | ok q =>
    refine Or.inr ⟨q.1, q.2, rfl, fun i hi hne hkept => ?_, fun x hx => ?_⟩
    · have hhere := hl.bytes hin.pos.ne' hagain i (by omega)
      have hthere := hl.bytes hin₂.pos.ne' hrun i (by omega)
      exact hhere.same hthere hne hkept
    · exact (hl.progress hin.pos.ne' hagain).mem.bytes x (by omega) fun _ => hx

/-- `Struct[ c => Char, s => Str, n => Int ]`. -/
def namedRecord : Decl :=
  .struct [(.ofBytes [0x63], .scalar .Char), (.ofBytes [0x73], .string),
    (.ofBytes [0x6e], .scalar .Int)]

/-- `{ c => 'x', s => 'yz', n => 1234 }`. -/
def namedHash : SV :=
  .href (.new []) [([0x63], .val (.ofStr (.ofBytes [0x78]))),
    ([0x73], .val (.ofStr (.ofBytes [0x79, 0x7a]))), ([0x6e], .int 1234 (by decide))]

/-- Two C variables of the type. -/
def namedVariables : Heap where
  mem := ⟨fun _ => 0, [(4096, 24), (4128, 24)], 4152, by decide, by decide, by decide, by decide⟩
  svs := []
  callbacks := []

/-- Once in the second variable, and again in the first, with another copy of the string; the
bytes of the padding are not laid. -/
theorem marshalled_again_named : ∃ t, namedRecord.type = .ok t ∧ ∃ r h₂',
    sv2ptr t namedHash 4128 namedVariables = .ok (r, h₂') ∧
    (sv2ptr t namedHash 4096 namedVariables = .error .outOfMemory ∨
      ∃ r' h', sv2ptr t namedHash 4096 namedVariables = .ok (r', h') ∧
        (∀ i < 24, laidAt t namedHash i ≠ some .address →
          (laidAt t namedHash i = none →
            namedVariables.mem.bytes (4096 + i) = namedVariables.mem.bytes (4128 + i)) →
          h'.mem.bytes (4096 + i) = h₂'.mem.bytes (4128 + i)) ∧
        ∀ x < 4096, h'.mem.bytes x = namedVariables.mem.bytes x) := by
  refine ⟨_, rfl, _, _, rfl, ?_⟩
  have hd : namedRecord.type = .ok _ := rfl
  exact marshalled_again hd rfl rfl (by decide) (by decide) (by decide) (by decide)

end Affix.Analysis
