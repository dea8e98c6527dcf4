import Affix.Analysis.ArrayDecoding
import Affix.Interface.PinnedFields

/-!
# Marshalling in place

What a branch of `sv2ptr` does at the address it is given depends on the value alone.
Wherever it returns it lays the same bytes, but for the addresses of new copies. It
reaches as far as it has room for, if there is nothing to go on in behind that. And
where it has returned once it returns again, in any heap that has the room and the
memory.

SOURCE: marshal.cxx:3-507
-/

set_option autoImplicit false

namespace Affix.Analysis

open Affix.Foundation Affix.Model Affix.Interface

/-! ## Code that works in place -/

/-- What there is at a byte when something has been laid there. -/
def Leaves : Option Mark → UInt8 → UInt8 → Prop
  | none, before, after => after = before
  | some (.byte b), _, after => after = b
  | some .address, _, _ => True

theorem Leaves.or {laid laid' : Option Mark} {b b' b'' : UInt8} (h : Leaves laid b b')
    (h' : Leaves laid' b' b'') : Leaves (laid'.or laid) b b'' := by
  cases laid' with
  | none =>
    have hsame : b'' = b' := h'
    rw [Option.none_or, hsame]
    exact h
  | some mark =>
    rw [Option.some_or]
    cases mark with
    | byte c => exact h'
    | address => trivial

/-- What was laid at two places is the same, where it was laid. -/
theorem Leaves.same {laid : Option Mark} {b b' c c' : UInt8} (hb : Leaves laid b b')
    (hc : Leaves laid c c') (hne : laid ≠ some .address) (hkept : laid = none → b = c) :
    b' = c' := by
  cases laid with
  | none =>
    have hb : b' = b := hb
    have hc : c' = c := hc
    rw [hb, hc, hkept rfl]
  | some mark =>
    cases mark with
    | byte x =>
      have hb : b' = x := hb
      have hc : c' = x := hc
      rw [hb, hc]
    | address => exact absurd rfl hne

/-- **Code that is given an address** does not write before it, lays something from there on,
stays in a place that ends, and does the same wherever it has room. -/
structure Lays {α : Type} (size : ℕ) (work : ℕ → Eff α) (laid : ℕ → Option Mark) (need : ℕ) :
    Prop where
  progress : ∀ {a h r h'}, a ≠ 0 → work a h = .ok (r, h') → Progress a h h'
  bytes : ∀ {a h r h'}, a ≠ 0 → work a h = .ok (r, h') → ∀ i, a + i < h.mem.brk →
    Leaves (laid i) (h.mem.bytes (a + i)) (h'.mem.bytes (a + i))
  within : ∀ {a h r h' room}, a ≠ 0 → work a h = .ok (r, h') → h.mem.Sealed a room →
    size ≤ room → need ≤ room
  again : ∀ {a₂ h₂ r h₂'}, a₂ ≠ 0 → work a₂ h₂ = .ok (r, h₂') → ∀ {a h room e},
    h.mem.InBlock a room → size ≤ room → work a h = .error e →
    e = .outOfMemory ∨ e = .fault ∧ room < need

/-- Where it has returned, it stops elsewhere for want of memory only. -/
def Repeats {α : Type} (x : Eff α) : Prop :=
  ∀ {h₂ r h₂'}, x h₂ = .ok (r, h₂') → ∀ {h e}, x h = .error e → e = .outOfMemory

section Work

variable {α β : Type} {size size' need need' : ℕ} {laid laid' : ℕ → Option Mark}
  {work : ℕ → Eff α} {next : ℕ → Eff β}

theorem Newxz_error {count size : ℕ} {h : Heap} {e : Halt}
    (herr : Newxz count size h = .error e) : e = .outOfMemory := by
  rw [Newxz] at herr
  split at herr <;> cases herr
  rfl

theorem safemalloc_error {n : ℕ} {h : Heap} {e : Halt} (herr : safemalloc n h = .error e) :
    e = .outOfMemory := by
  rw [safemalloc] at herr
  split at herr <;> cases herr
  rfl

theorem store_error {a : ℕ} {bs : List UInt8} {h : Heap} {e : Halt}
    (herr : store a bs h = .error e) :
    e = .fault ∧ ¬ (bs = [] ∨ h.mem.InBlock a bs.length) := by
  rw [store, Mem.write] at herr
  split at herr
  · rename_i heq
    split at heq <;> cases heq
    cases herr
  · rename_i heq
    split at heq
    · cases heq
    · rename_i hout
      cases herr
      exact ⟨rfl, hout⟩

theorem Lays.mono (hw : Lays size work laid need) (hsize : size ≤ size') :
    Lays size' work laid need where
  progress := hw.progress
  bytes := hw.bytes
  within ha hrun hs hroom := hw.within ha hrun hs (hsize.trans hroom)
  again ha hrun _ _ _ _ hin hroom := hw.again ha hrun hin (hsize.trans hroom)

theorem Lays.congr {work' : ℕ → Eff α} (hw : Lays size work laid need)
    (hsame : ∀ a, a ≠ 0 → work' a = work a) : Lays size work' laid need where
  progress ha hrun := hw.progress ha (hsame _ ha ▸ hrun)
  bytes ha hrun := hw.bytes ha (hsame _ ha ▸ hrun)
  within ha hrun := hw.within ha (hsame _ ha ▸ hrun)
  again ha hrun _ _ _ _ hin hroom herr :=
    hw.again ha (hsame _ ha ▸ hrun) hin hroom (hsame _ hin.pos.ne' ▸ herr)

/-- Code that only returns. -/
theorem lays_return {f : ℕ → α} (hrun : ∀ a h, work a h = .ok (f a, h)) :
    Lays 0 work (fun _ => none) 0 where
  progress _ hok := by
    cases (hrun _ _).symm.trans hok
    exact Progress.refl _ _
  bytes _ hok _ _ := by
    cases (hrun _ _).symm.trans hok
    rfl
  within _ _ _ _ := Nat.zero_le _
  again _ _ _ _ _ _ _ _ herr := by cases (hrun _ _).symm.trans herr

/-- Code that never returns. -/
theorem lays_stop (hrun : ∀ a h, a ≠ 0 → ∃ e, work a h = .error e) (laid : ℕ → Option Mark)
    (need : ℕ) : Lays 0 work laid need := by
  have hno : ∀ {a h r h'}, a ≠ 0 → work a h ≠ .ok (r, h') := by
    intro a h r h' ha hok
    obtain ⟨e, he⟩ := hrun a h ha
    cases hok.symm.trans he
  exact ⟨fun ha hok => absurd hok (hno ha), fun ha hok => absurd hok (hno ha),
    fun ha hok => absurd hok (hno ha), fun ha hok => absurd hok (hno ha)⟩

/-- Code that does not look at the address, and makes what it makes elsewhere. -/
theorem lays_elsewhere {x : Eff α}
    (hprogress : ∀ {h r h'}, x h = .ok (r, h') → Progress 0 h h') (hx : Repeats x) :
    Lays 0 (fun _ => x) (fun _ => none) 0 where
  progress _ hrun := (hprogress hrun).of_zero
  bytes _ hrun _ hi := (hprogress hrun).mem.bytes _ hi (before_zero _)
  within _ _ _ _ := Nat.zero_le _
  again _ hrun _ _ _ _ _ _ herr := Or.inl (hx hrun herr)

/-- **One after the other**: what is laid last counts. -/
theorem Lays.seq (hw : Lays size work laid need) (hn : Lays size next laid' need') :
    Lays size (fun a => work a >>= fun _ => next a) (fun i => (laid' i).or (laid i))
      (max need need') where
  progress ha hrun := by
    obtain ⟨r, h₁, hfirst, hrest⟩ := Exec.bind_eq_ok.mp hrun
    exact (hw.progress ha hfirst).trans (hn.progress ha hrest) fun _ _ hx => hx
  bytes ha hrun i hi := by
    obtain ⟨r, h₁, hfirst, hrest⟩ := Exec.bind_eq_ok.mp hrun
    have hbrk := (hw.progress ha hfirst).mem.brk_le
    exact (hw.bytes ha hfirst i hi).or (hn.bytes ha hrest i (hi.trans_le hbrk))
  within ha hrun hs hroom := by
    obtain ⟨r, h₁, hfirst, hrest⟩ := Exec.bind_eq_ok.mp hrun
    have hs₁ := hs.grows (hw.progress ha hfirst).mem
    exact max_le (hw.within ha hfirst hs hroom) (hn.within ha hrest hs₁ hroom)
  again ha hrun a h room e hin hroom herr := by
    obtain ⟨r, h₁, hfirst, hrest⟩ := Exec.bind_eq_ok.mp hrun
    rcases Exec.bind_eq_error.mp herr with herr | ⟨r', h', hok, herr⟩
    · refine (hw.again ha hfirst hin hroom herr).imp_right fun hfault => ⟨hfault.1, ?_⟩
      exact hfault.2.trans_le (le_max_left _ _)
    · have hin' := (hw.progress hin.pos.ne' hok).mem.inBlock hin
      refine (hn.again ha hrest hin' hroom herr).imp_right fun hfault => ⟨hfault.1, ?_⟩
      exact hfault.2.trans_le (le_max_right _ _)

theorem Lays.map (hw : Lays size work laid need) (f : ℕ → β) :
    Lays size (fun a => work a >>= fun _ => pure (f a)) laid need := by
  have hboth := hw.seq ((lays_return fun a h => Exec.pure_apply (f a) h).mono (Nat.zero_le size))
  rw [Nat.max_zero] at hboth
  exact hboth

/-- **At an offset**: the work starts there. -/
theorem Lays.shift (hw : Lays size work laid need) {o : ℕ} (ho : o + size ≤ size') :
    Lays size' (fun a => work (a + o)) (fun i => if o ≤ i then laid (i - o) else none)
      (past o need) where
  progress ha hrun := by
    refine (hw.progress (by omega) hrun).weaken fun x _ hx => hx.mono (fun _ => ?_) fun hzero => ?_
    · exact Nat.le_add_right _ _
    · exact absurd hzero ha
  bytes ha hrun i hi := by
    split
    · rename_i hoi
      have hbyte := hw.bytes (by omega) hrun (i - o) (by omega)
      rwa [Nat.add_assoc, Nat.add_sub_cancel' hoi] at hbyte
    · exact (hw.progress (by omega) hrun).mem.bytes _ hi fun _ => by omega
  within ha hrun hs hroom := by
    have hneed := hw.within (by omega) hrun (hs.part (by omega)) (by omega)
    unfold past
    split <;> omega
  again ha hrun a h room e hin hroom herr := by
    have hin' : h.mem.InBlock (a + o) (room - o) := hin.mono (by omega) (by omega)
    refine (hw.again (by omega) hrun hin' (by omega) herr).imp_right fun hfault => ⟨hfault.1, ?_⟩
    unfold past
    split <;> omega

/-! ## Stores -/

theorem leaves_poke (m : Mem) (a : ℕ) (bs : List UInt8) (i : ℕ) :
    Leaves (bs[i]?.map .byte) (m.bytes (a + i)) ((m.poke a bs).bytes (a + i)) := by
  have hbyte : (m.poke a bs).bytes (a + i) = bs[i]?.getD (m.bytes (a + i)) := by
    simp [Mem.poke, Mem.overlay]
  rw [hbyte]
  cases bs[i]? with
  | none => rfl
  | some b => rfl

theorem lays_store (bs : List UInt8) :
    Lays 0 (fun a => store a bs) (fun i => bs[i]?.map .byte) bs.length where
  progress _ hrun := progress_store hrun
  bytes _ hrun i _ := by
    obtain ⟨-, rfl⟩ := store_eq_ok.mp hrun
    exact leaves_poke _ _ _ _
  within _ hrun hs _ := by
    obtain ⟨hin, -⟩ := store_eq_ok.mp hrun
    rcases hin with rfl | hin
    · exact Nat.zero_le _
    · rcases Nat.eq_zero_or_pos bs.length with hzero | hpos
      · omega
      · have := hs.within 0 _ (Nat.zero_le _) hpos hin
        omega
  again _ _ a h room e hin _ herr := by
    obtain ⟨rfl, hout⟩ := store_error herr
    refine Or.inr ⟨rfl, ?_⟩
    by_contra hle
    exact hout (Or.inr (hin.mono le_rfl (by omega)))

section Elements

variable {stride : ℕ} {image : SV → List UInt8}

theorem length_flatMap_image (himage : ∀ e, (image e).length = stride) (es : List SV) :
    (es.flatMap image).length = es.length * stride := by
  induction es with
  | nil => simp
  | cons e es ih =>
    rw [List.flatMap_cons, List.length_append, himage, ih, List.length_cons, Nat.succ_mul,
      Nat.add_comm]

/-- The elements of an array, one after the other, in a place that has room for them. -/
theorem lays_elements (himage : ∀ e, (image e).length = stride) (es : List SV) :
    Lays (es.length * stride) (fun a => storeEach stride image a es)
      (fun i => (es.flatMap image)[i]?.map .byte) (es.flatMap image).length := by
  induction es with
  | nil => exact (lays_return fun a h => rfl).mono (Nat.zero_le _)
  | cons e es ih =>
    have hroom : stride + es.length * stride = (e :: es).length * stride := by
      rw [List.length_cons, Nat.succ_mul, Nat.add_comm]
    have hboth := ((lays_store (image e)).mono (Nat.zero_le _)).seq (ih.shift hroom.le)
    have hlaid : (fun i => (if stride ≤ i then (es.flatMap image)[i - stride]?.map Mark.byte
        else none).or ((image e)[i]?.map .byte)) =
          fun i => ((e :: es).flatMap image)[i]?.map .byte := by
      funext i
      rw [List.flatMap_cons]
      by_cases hi : stride ≤ i
      · rw [if_pos hi, List.getElem?_eq_none (l := image e) (by rw [himage]; exact hi),
          List.getElem?_append_right (by rw [himage]; exact hi), himage, Option.map_none,
          Option.or_none]
      · rw [if_neg hi, List.getElem?_append_left (by rw [himage]; omega), Option.none_or]
    have hneed : max (image e).length (past stride (es.flatMap image).length) =
        ((e :: es).flatMap image).length := by
      rw [List.flatMap_cons, List.length_append, himage]
      unfold past
      split <;> omega
    rw [hlaid, hneed] at hboth
    exact hboth

theorem storeEach_error (es : List SV) {a : ℕ} {h : Heap} {e : Halt}
    (herr : storeEach stride image a es h = .error e) : e = .fault := by
  induction es generalizing a h with
  | nil => cases herr
  | cons x es ih =>
    rcases Exec.bind_eq_error.mp herr with hone | ⟨u, h₁, -, hrest⟩
    · exact (store_error hone).1
    · exact ih hrest

/-- In a place that ends the elements are stored only if it has room for all. -/
theorem storeEach_within (himage : ∀ e, (image e).length = stride) (hpos : 0 < stride)
    {es : List SV} {a room : ℕ} {h h' : Heap} (ha : a ≠ 0)
    (hrun : storeEach stride image a es h = .ok ((), h')) (hs : h.mem.Sealed a room) :
    es.length * stride ≤ room := by
  induction es generalizing a room h with
  | nil => simp
  | cons e es ih =>
    obtain ⟨u, h₁, hone, hrest⟩ := Exec.bind_eq_ok.mp hrun
    have hfirst : stride ≤ room := by
      obtain ⟨hin, -⟩ := store_eq_ok.mp hone
      have hne : image e ≠ [] := List.ne_nil_of_length_pos (by rw [himage]; exact hpos)
      have hend := hs.within 0 (image e).length (Nat.zero_le _) (by rw [himage]; exact hpos)
        (hin.resolve_left hne)
      rw [himage] at hend
      omega
    have hnext := ih (by omega) hrest ((hs.grows (progress_store hone).mem).part hfirst)
    rw [List.length_cons, Nat.succ_mul]
    omega

theorem lays_storeEach (himage : ∀ e, (image e).length = stride) (hpos : 0 < stride)
    (es : List SV) :
    Lays 0 (fun a => storeEach stride image a es) (fun i => (es.flatMap image)[i]?.map .byte)
      (es.flatMap image).length where
  progress ha hrun := progress_storeEach ha hrun
  bytes ha hrun := (lays_elements himage es).bytes ha hrun
  within ha hrun hs _ := by
    rw [length_flatMap_image himage]
    exact storeEach_within himage hpos ha hrun hs
  again ha hrun a h room e hin _ herr := by
    refine Or.inr ⟨storeEach_error es herr, ?_⟩
    by_contra hle
    rw [length_flatMap_image himage, not_lt] at hle
    rcases (lays_elements himage es).again ha hrun hin hle herr with hmem | ⟨-, hshort⟩
    · cases hmem.symm.trans (storeEach_error es herr)
    · rw [length_flatMap_image himage] at hshort
      omega

end Elements

theorem loadAt_cases {a n : ℕ} (hn : n ≠ 0) (h : Heap) :
    h.mem.InBlock a n ∧ loadAt a n h = .ok (h.mem.peek a n, h) ∨
      ¬ h.mem.InBlock a n ∧ loadAt a n h = .error .fault := by
  by_cases hin : h.mem.InBlock a n
  · exact Or.inl ⟨hin, loadAt_of_inBlock hin⟩
  · exact Or.inr ⟨hin, loadAt_outside hn hin⟩

/-- Bytes that are looked at, as the branch of `WCHAR_FLAG` does. -/
theorem lays_loadAt {n : ℕ} (hn : n ≠ 0) : Lays 0 (fun a => loadAt a n) (fun _ => none) n where
  progress {a h r h'} _ hrun := by
    rcases loadAt_cases hn h with ⟨-, hok⟩ | ⟨-, hno⟩
    · cases hok.symm.trans hrun
      exact Progress.refl _ _
    · cases hno.symm.trans hrun
  bytes {a h r h'} _ hrun i _ := by
    rcases loadAt_cases hn h with ⟨-, hok⟩ | ⟨-, hno⟩
    · cases hok.symm.trans hrun
      rfl
    · cases hno.symm.trans hrun
  within {a h r h' room} _ hrun hs _ := by
    rcases loadAt_cases hn h with ⟨hin, -⟩ | ⟨-, hno⟩
    · have hend := hs.within 0 n (Nat.zero_le _) (Nat.pos_of_ne_zero hn) hin
      omega
    · cases hno.symm.trans hrun
  again _ _ a h room e hin _ herr := by
    rcases loadAt_cases hn h with ⟨-, hok⟩ | ⟨hout, hno⟩
    · cases hok.symm.trans herr
    · cases hno.symm.trans herr
      refine Or.inr ⟨rfl, ?_⟩
      by_contra hle
      exact hout (hin.mono le_rfl (by omega))

/-! ## New blocks -/

/-- **Work on a new block**: it has just the room it is made with, wherever that is. -/
theorem Lays.repeats (hw : Lays size work laid need) {count item : ℕ}
    (hsize : size ≤ atLeastOne count * item) : Repeats (orNew 0 (Newxz count item) >>= work) := by
  intro h₂ r h₂' hrun h e herr
  obtain ⟨p, h₁, hmade, hwork⟩ := Exec.bind_eq_ok.mp hrun
  obtain ⟨m, hm, rfl⟩ := Newxz_cases hmade
  set n := atLeastOne count * item with hn
  have hp : p ≠ 0 := (Mem.malloc_eq_some hm).1 ▸ h₂.mem.brk_pos.ne'
  have hs : (m.poke p (List.replicate n 0)).Sealed p n :=
    (Mem.sealed_malloc hm).grows (Mem.grows_poke m p _)
  have hneed := hw.within hp hwork hs hsize
  rcases Exec.bind_eq_error.mp herr with hnew | ⟨q, h₁, hnew, hstop⟩
  · exact Newxz_error hnew
  · obtain ⟨m', hm', rfl⟩ := Newxz_cases hnew
    have hblock : (q, n) ∈ m'.blocks := Mem.malloc_block hm'
    have hin : (m'.poke q (List.replicate n 0)).InBlock q n := ⟨_, hblock, le_rfl, le_rfl⟩
    rcases hw.again hp hwork hin hsize hstop with hmem | ⟨-, hshort⟩
    · exact hmem
    · omega

/-- The given address is used, if there is one. -/
theorem Lays.orNew (hw : Lays size work laid need) (new : Eff ℕ) :
    Lays size (fun a => Model.orNew a new >>= work) laid need :=
  hw.congr fun a ha => by
    funext h
    exact Exec.bind_of_ok (orNew_of_ne ha new h)

/-- A branch of a scalar type: what it does in place, and that it can be done again. -/
structure Branch (work : ℕ → Eff ℕ) (bs : List UInt8) (need : ℕ) : Prop where
  lays : Lays 0 work (fun i => bs[i]?.map .byte) need
  repeats : Repeats (work 0)

theorem branch_fill {fill : ℕ → Eff Unit} {bs : List UInt8} {count item : ℕ}
    (hfill : Lays 0 fill (fun i => bs[i]?.map .byte) bs.length) :
    Branch (fun a => do
      let ret ← Model.orNew a (Newxz count item)
      fill ret
      pure ret) bs bs.length :=
  have hwork := hfill.map (id : ℕ → ℕ)
  ⟨hwork.orNew _, hwork.repeats (Nat.zero_le _)⟩

theorem branch_return {work : ℕ → Eff ℕ} {f : ℕ → ℕ} (hrun : ∀ a h, work a h = .ok (f a, h)) :
    Branch work [] 0 where
  lays := lays_return hrun
  repeats _ h e herr := by cases (hrun _ _).symm.trans herr

theorem branch_stop {work : ℕ → Eff ℕ} (e : Halt) (hrun : ∀ a h, work a h = .error e)
    (bs : List UInt8) (need : ℕ) : Branch work bs need where
  lays := lays_stop (fun a h _ => ⟨e, hrun a h⟩) _ need
  repeats hok := by cases (hrun _ _).symm.trans hok

end Work

/-! ## Scalars -/

section Scalars

variable {k : Kind} {v : SV}

theorem branch_int {c : CIntType} {read : SV → ℤ} {s : Slots}
    (hread : ∀ e, c.encode (read e) = encoding k e) (hpos : 0 < k.sizeof) :
    Branch (sv2ptrInt c read s v) (if v.SvOK then fieldEncoding k v else [])
      (if v.SvOK then fieldEncoding k v else []).length := by
  have hsize : ∀ e, (encoding k e).length = k.sizeof := length_encoding k
  have hc : c.size = k.sizeof := by
    rw [← length_encoding k v, ← hread, CIntType.length_encode]
  unfold sv2ptrInt
  simp only [hread]
  cases hok : v.SvOK with
  | false => exact branch_return fun a h => rfl
  | true =>
    simp only [if_true]
    cases hiok : v.SvIOK with
    | true =>
      have hes : v.elems = none := by cases v <;> first | rfl | cases hiok
      rw [fieldEncoding_none hes]
      exact branch_fill (lays_store _)
    | false =>
      cases hes : v.elems with
      | none => exact branch_stop _ (fun a h => rfl) _ _
      | some es =>
        rw [fieldEncoding_some hes, hc]
        exact branch_fill (lays_storeEach hsize hpos es)

theorem branch_float {size : ℕ} {image : ℕ → ℕ} {s : Slots}
    (hread : ∀ e, encodeLE size (image (SvNV e)) = encoding k e) (hpos : 0 < k.sizeof) :
    Branch (sv2ptrFloat size image s v) (if v.SvOK then fieldEncoding k v else [])
      (if v.SvOK then fieldEncoding k v else []).length := by
  have hsize : ∀ e, (encoding k e).length = k.sizeof := length_encoding k
  have hwidth : size = k.sizeof := by
    rw [← length_encoding k v, ← hread, length_encodeLE]
  unfold sv2ptrFloat
  simp only [hread]
  cases hok : v.SvOK with
  | false => exact branch_return fun a h => rfl
  | true =>
    simp only [if_true]
    cases hnum : v.SvNOK || v.SvIOK with
    | true =>
      have hes : v.elems = none := by cases v <;> first | rfl | cases hnum
      rw [fieldEncoding_none hes]
      exact branch_fill (lays_store _)
    | false =>
      cases hes : v.elems with
      | none => exact branch_stop _ (fun a h => rfl) _ _
      | some es =>
        rw [fieldEncoding_some hes, hwidth]
        exact branch_fill (lays_storeEach hsize hpos es)

theorem branch_bool : Branch (sv2ptrBool v) (laid .Bool v) (laid .Bool v).length := by
  unfold sv2ptrBool laid
  cases hes : v.elems with
  | none =>
    rw [fieldEncoding_none hes]
    exact branch_fill (lays_store _)
  | some es =>
    have hone : ∀ e, (boolByte (SvTRUE e)).length = 1 := fun _ => rfl
    rw [fieldEncoding_some hes]
    exact branch_fill (lays_storeEach hone Nat.one_pos es)

theorem branch_char {c wide : CIntType} {read : SV → ℤ} {count : ℕ → ℕ}
    (hread : ∀ e, c.encode (read e) = cchar.encode (svSlot e)) :
    Branch (sv2ptrChar c read count wide v) (laid .Char v) (laid .Char v).length := by
  unfold sv2ptrChar laid
  simp only [hread]
  cases hok : v.SvOK with
  | false => exact branch_return fun a h => rfl
  | true =>
    simp only [if_true]
    cases hes : v.elems with
    | none => exact branch_fill (lays_store _)
    | some es =>
      have hone : ∀ e, (cchar.encode (svSlot e)).length = 1 := fun _ => rfl
      exact branch_fill (lays_storeEach hone Nat.one_pos es)

/-- The branch of an object returns its address, if that can be read. -/
theorem branch_object (es : List SV) :
    Branch (fun a => do
      let ptr ← Exec.lift (pointerAddr es)
      if ptr.SvOK then Exec.lift (addressOf ptr) else pure a) [] 0 := by
  cases hptr : pointerAddr es with
  | error e => exact branch_stop e (fun a h => rfl) _ _
  | ok ptr =>
    cases hok : ptr.SvOK with
    | false =>
      refine branch_return (f := id) fun a h =>
        (Exec.bind_of_ok (Exec.lift_ok_apply ptr h)).trans ?_
      rw [hok]
      rfl
    | true =>
      cases haddr : addressOf ptr with
      | error e =>
        refine branch_stop e (fun a h => (Exec.bind_of_ok (Exec.lift_ok_apply ptr h)).trans ?_) _ _
        rw [hok, if_pos rfl, haddr]
        rfl
      | ok q =>
        refine branch_return (f := fun _ => q) fun a h =>
          (Exec.bind_of_ok (Exec.lift_ok_apply ptr h)).trans ?_
        rw [hok, if_pos rfl, haddr]
        rfl

theorem branch_void : Branch (sv2ptrVoid v) (laid .Void v) (laid .Void v).length := by
  unfold sv2ptrVoid laid
  cases hok : v.SvOK with
  | false => exact branch_return fun a h => rfl
  | true =>
    simp only [if_true, Bool.true_and]
    cases hobj : asPointerObject v with
    | some es => exact branch_object es
    | none =>
      simp only [Option.isNone_none, if_true]
      cases hpv : (SvPV v).pvbyte with
      | none =>
        have hbyte : SvPVbyte v = .error (.croak (text "Wide character")) := by
          rw [SvPVbyte, hpv]
        rw [hbyte]
        exact branch_stop _ (fun a h => rfl) _ _
      | some bs =>
        have hbyte : SvPVbyte v = .ok bs := by rw [SvPVbyte, hpv]
        rw [hbyte]
        exact branch_fill (lays_store bs)

theorem branch_wchar :
    Branch (sv2ptrWChar v) (laid .WChar v) (max 16 (laid .WChar v).length) where
  lays := by
    have hboth := (lays_loadAt (n := 16) (by decide)).seq ((lays_store (laid .WChar v)).map id)
    simp only [Option.or_none] at hboth
    exact hboth
  repeats hrun := by cases (no_wide_copy (s := (scalarType .WChar).slots)).symm.trans hrun

theorem branch_sv : Branch (fun _ => sv2ptrSV v) [] 0 := by
  have hrepeats : Repeats (sv2ptrSV v) := by
    intro h₂ r h₂' _ h e herr
    rcases Exec.bind_eq_error.mp herr with hmalloc | ⟨p, h₁, -, hrest⟩
    · exact safemalloc_error hmalloc
    · cases hrest
  exact ⟨lays_elsewhere (fun hrun => progress_sv hrun) hrepeats, hrepeats⟩

/-- **What a scalar branch lays** depends on the value alone. -/
theorem branch_scalar (k : Kind) (s : Slots) (v : SV) :
    Branch (sv2ptrScalar k s v) (laid k v) (scalarReach k v) := by
  have hcharacter := characterBranch (k := k)
  have hfloat := floatBranch (k := k)
  have hinteger := fun c => integerBranch (k := k) (c := c)
  cases k with
  | Void => exact branch_void
  | Bool => exact branch_bool
  | WChar => exact branch_wchar
  | SV => exact branch_sv
  | Char | SChar | UChar =>
    obtain ⟨c, read, count, wide, hread, -, hbranch⟩ := hcharacter (by decide)
    rw [funext (hbranch s v)]
    exact branch_char hread
  | Float | Double =>
    obtain ⟨size, image, hread, hbranch⟩ := hfloat (by decide)
    rw [funext (hbranch s v)]
    exact branch_float hread (by decide)
  | _ =>
    obtain ⟨read, hread, hbranch⟩ := hinteger _ rfl ⟨by decide, by decide⟩
    rw [funext (hbranch s v)]
    exact branch_int hread (by decide)

end Scalars

end Affix.Analysis
