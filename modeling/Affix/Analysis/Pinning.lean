import Affix.Analysis.RecordDecoding
import Affix.Foundation.Run
import Affix.Interface.Binding

/-!
# What a pinned variable does

An assignment marshals the value to a new block, moves the bytes of the type from
there to the C variable and frees the block. The block is new, so the move
is the only write to memory that was live before. The invariant of a run is that
the magic, where there is any, still names the C variable.
-/

set_option autoImplicit false

namespace Affix.Analysis

open Affix.Foundation Affix.Model Affix.Interface

/-! ## The new block -/

/-- A heap with one more block, at the end of what there was. -/
structure NewBlock (h h' : Heap) (q n : ℕ) : Prop where
  start : q = h.mem.brk
  blocks : h'.mem.blocks = (q, n) :: h.mem.blocks
  bytes : ∀ x < q, h'.mem.bytes x = h.mem.bytes x
  svs : h'.svs = h.svs
  callbacks : h'.callbacks = h.callbacks

section Block

variable {h h' h'' : Heap} {q n count size : ℕ}

theorem newBlock_Newxz (hq : Newxz count size h = .ok (q, h')) :
    NewBlock h h' q (atLeastOne count * size) := by
  obtain ⟨m, hm, rfl⟩ := Newxz_eq_ok.mp hq
  obtain ⟨hstart, -, -, -, hext, -⟩ := Mem.calloc_cases hm
  obtain ⟨⟨q', m₁⟩, hmalloc, heq⟩ := Option.map_eq_some_iff.mp hm
  cases heq
  refine ⟨hstart, ?_, fun x hx => hext.bytes x (hstart ▸ hx) trivial, rfl, rfl⟩
  unfold Mem.malloc at hmalloc
  split at hmalloc
  · cases hmalloc
    rfl
  · cases hmalloc

theorem NewBlock.store (hf : NewBlock h h' q n) {a : ℕ} {bs : List UInt8} (ha : q ≤ a)
    (hst : Model.store a bs h' = .ok ((), h'')) : NewBlock h h'' q n := by
  obtain ⟨-, rfl⟩ := store_eq_ok.mp hst
  refine ⟨hf.start, hf.blocks, fun x hx => ?_, hf.svs, hf.callbacks⟩
  rw [← hf.bytes x hx]
  exact Mem.bytes_poke_of_disjoint (Or.inl (hx.trans_le ha))

theorem NewBlock.storeEach (hf : NewBlock h h' q n) {stride : ℕ} {image : SV → List UInt8}
    {es : List SV} {a : ℕ} (ha : q ≤ a)
    (hst : Model.storeEach stride image a es h' = .ok ((), h'')) :
    NewBlock h h'' q n := by
  induction es generalizing a h' with
  | nil =>
    cases hst
    exact hf
  | cons e es ih =>
    obtain ⟨u, h₁, hone, hrest⟩ := Exec.bind_eq_ok.mp hst
    exact ih (hf.store ha hone) (ha.trans (Nat.le_add_right a stride)) hrest

/-- A branch that allocates its result and fills it. -/
theorem newBlock_fill {fill : ℕ → Eff Unit}
    (hfill : ∀ {n p h₁ h₂}, NewBlock h h₁ p n → fill p h₁ = .ok ((), h₂) → NewBlock h h₂ p n)
    (hrun : (do
      let ret ← orNew 0 (Newxz count size)
      fill ret
      pure ret) h = .ok (q, h')) : NewBlock h h' q (atLeastOne count * size) := by
  obtain ⟨p, h₁, hnew, hrest⟩ := Exec.bind_eq_ok.mp hrun
  obtain ⟨u, h₂, hwrite, hpure⟩ := Exec.bind_eq_ok.mp hrest
  cases hpure
  exact hfill (newBlock_Newxz hnew) hwrite

end Block

/-- A type of a C variable is of truth values or of integers whose values a Perl scalar
shows as they are. -/
theorem pinnable_reading {k : Kind} (hk : Pinnable k) : k = .Bool ∨
    ∃ c new, reading k = some (.number c) ∧ c.Bytewise ∧
      (∀ s p, ptr2svScalar k s p = ptr2svInt c new p) ∧ ∀ v, c.InRange v → (new v).iv = some v := by
  have hiv : ∀ {c : CIntType}, c.Fits clong → ∀ v, c.InRange v →
      (Scalar.newSViv v).iv = some v := by
    intro c hc v hv
    exact congrArg some (CIntType.wrap_of_inRange (hc.inRange hv))
  rcases hk with rfl | rfl | rfl | rfl | rfl | rfl | rfl
  · exact Or.inl rfl
  · exact Or.inr ⟨cshort, .newSViv, rfl, by decide, fun _ _ => rfl, hiv (by decide)⟩
  · refine Or.inr ⟨cushort, .newSVuv, rfl, by decide, fun _ _ => rfl, fun v hv => ?_⟩
    have hfit : cushort.Fits culong := by decide
    exact congrArg some (CIntType.wrap_of_inRange (hfit.inRange hv))
  · exact Or.inr ⟨cint, .newSViv, rfl, by decide, fun _ _ => rfl, hiv (by decide)⟩
  · exact Or.inr ⟨cuint, .newSViv, rfl, by decide, fun _ _ => rfl, hiv (by decide)⟩
  · exact Or.inr ⟨clong, .newSViv, rfl, by decide, fun _ _ => rfl, hiv (by decide)⟩
  · exact Or.inr ⟨clonglong, .newSViv, rfl, by decide, fun _ _ => rfl, hiv (by decide)⟩

section Scalar

variable {k : Kind} {s : Slots} {h h' : Heap} {p q : ℕ} {sv : SV}

theorem sv2ptr_scalar (hok : sv.SvOK = true) (a : ℕ) :
    sv2ptr (.scalar k s) sv a = sv2ptrScalar k s sv a := by
  rw [sv2ptr, hok]
  rfl

/-- Whatever value is marshalled, it goes to a new block. -/
theorem newBlock_sv2ptr (hk : Pinnable k) (hok : sv.SvOK = true)
    (hrun : sv2ptr (.scalar k s) sv 0 h = .ok (q, h')) : ∃ n, NewBlock h h' q n := by
  rw [sv2ptr_scalar hok] at hrun
  rcases pinnable_reading hk with rfl | ⟨c, new, hread, -, -, -⟩
  · simp only [sv2ptrScalar, sv2ptrBool] at hrun
    cases hes : sv.elems with
    | none =>
      simp only [hes] at hrun
      exact ⟨_, newBlock_fill (fun hf hw => hf.store le_rfl hw) hrun⟩
    | some es =>
      simp only [hes] at hrun
      exact ⟨_, newBlock_fill (fun hf hw => hf.storeEach le_rfl hw) hrun⟩
  · obtain ⟨-, read, -, hscalar⟩ := sv2ptrScalar_number hread
    simp only [hscalar, sv2ptrInt, hok, if_true] at hrun
    by_cases hiok : sv.SvIOK = true
    · rw [if_pos hiok] at hrun
      exact ⟨_, newBlock_fill (fun hf hw => hf.store le_rfl hw) hrun⟩
    · rw [if_neg hiok] at hrun
      cases hes : sv.elems with
      | none =>
        simp only [hes] at hrun
        cases hrun
      | some es =>
        simp only [hes] at hrun
        exact ⟨_, newBlock_fill (fun hf hw => hf.storeEach le_rfl hw) hrun⟩

theorem loadAt_eq_ok {a n : ℕ} {bs : List UInt8} (hrun : loadAt a n h = .ok (bs, h')) :
    bs.length = n ∧ h' = h := by
  unfold loadAt load Mem.read at hrun
  split at hrun
  · rename_i bs' hread
    split at hread
    · cases hread
      cases hrun
      exact ⟨Mem.length_peek _ _ _, rfl⟩
    · cases hread
  · cases hrun

theorem safefree_eq_ok (hrun : safefree q h = .ok ((), h')) :
    h'.mem.blocks = h.mem.blocks.filter (fun b => b.1 ≠ q) ∧ h'.mem.bytes = h.mem.bytes ∧
      h'.svs = h.svs ∧ h'.callbacks = h.callbacks := by
  unfold safefree Mem.free at hrun
  split at hrun
  · rename_i m hfree
    split at hfree
    · cases hfree
      cases hrun
      exact ⟨rfl, rfl, rfl, rfl⟩
    · cases hfree
  · cases hrun

theorem safefree_of_mem {m : Mem} (hq : q ∈ m.blocks.map Prod.fst) :
    ∃ h', safefree q { h with mem := m } = .ok ((), h') ∧ h'.mem.bytes = m.bytes := by
  unfold safefree Mem.free
  rw [if_pos hq]
  exact ⟨_, rfl, rfl⟩

theorem OnlyWrites_refl (p n : ℕ) (h : Heap) : OnlyWrites p n h h :=
  ⟨fun _ _ _ ha => ha, fun _ _ _ => rfl, rfl, rfl⟩

/-- Moving from a new block writes only where it moves to. -/
theorem set_pin_onlyWrites {type : TypeObj} (hrun : set_pin type p sv h = .ok ((), h'))
    (hnew : sv.SvOK = true → ∀ q h₁, sv2ptr type sv 0 h = .ok (q, h₁) → ∃ n, NewBlock h h₁ q n) :
    OnlyWrites p type.sizeof h h' := by
  unfold set_pin at hrun
  by_cases hok : sv.SvOK = true
  · rw [if_pos hok] at hrun
    obtain ⟨q, h₁, hblock, hrun⟩ := Exec.bind_eq_ok.mp hrun
    obtain ⟨bs, h₂, hload, hrun⟩ := Exec.bind_eq_ok.mp hrun
    obtain ⟨u, h₃, hmove, hfree⟩ := Exec.bind_eq_ok.mp hrun
    obtain ⟨n, hnew⟩ := hnew hok q h₁ (Exec.mapError_eq_ok.mp hblock)
    obtain ⟨hlen, rfl⟩ := loadAt_eq_ok hload
    obtain ⟨-, rfl⟩ := store_eq_ok.mp hmove
    obtain ⟨hblocks, hbytes, hsvs, hcallbacks⟩ := safefree_eq_ok hfree
    -- a live byte lies below the new block, and so does the start of its own block
    have hbelow : ∀ x, h.mem.InBlock x 1 → x < q := by
      intro x hx
      have := hx.le_brk
      rw [hnew.start]
      omega
    refine ⟨fun a len hpos ha => ?_, fun x hx hout => ?_, hsvs.trans hnew.svs,
      hcallbacks.trans hnew.callbacks⟩
    · have haq := hbelow a (ha.mono le_rfl (by omega))
      obtain ⟨b, hb, hlo, hhi⟩ := ha
      refine ⟨b, ?_, hlo, hhi⟩
      have hne : b.1 ≠ q := (hlo.trans_lt haq).ne
      rw [hblocks]
      simp only [Mem.blocks_poke, hnew.blocks]
      exact List.mem_filter.mpr ⟨List.mem_cons_of_mem _ hb, by simpa using hne⟩
    · rw [hbytes]
      show (h₂.mem.poke p bs).bytes x = _
      rw [Mem.bytes_poke_of_disjoint (by rw [hlen]; exact hout)]
      exact hnew.bytes x (hbelow x hx)
  · rw [if_neg hok] at hrun
    cases hrun
    exact OnlyWrites_refl _ _ _

/-- An assignment stops where the marshalling does. -/
theorem set_pin_error {type : TypeObj} {e : Halt} (hok : sv.SvOK = true)
    (herr : sv2ptr type sv 0 h = .error e) :
    set_pin type p sv h = .error (ofMagical type sv e) := by
  rw [set_pin, if_pos hok]
  exact Exec.bind_of_error (Exec.mapError_eq_error.mpr ⟨e, herr, rfl⟩)

/-- The start of a new block is moved to the C variable. -/
theorem set_pin_moves {type : TypeObj} {n : ℕ} {h₁ : Heap} (hok : sv.SvOK = true)
    (hin : h.mem.InBlock p type.sizeof) (hrun : sv2ptr type sv 0 h = .ok (q, h₁))
    (hnew : NewBlock h h₁ q n) (hn : type.sizeof ≤ n) :
    ∃ h', set_pin type p sv h = .ok ((), h') ∧
      h'.mem.peek p type.sizeof = h₁.mem.peek q type.sizeof := by
  unfold set_pin
  rw [if_pos hok]
  have hq : h₁.mem.InBlock q type.sizeof := by
    refine ⟨(q, n), ?_, le_rfl, Nat.add_le_add_left hn q⟩
    rw [hnew.blocks]
    exact List.mem_cons_self
  have hp : h₁.mem.InBlock p type.sizeof := by
    obtain ⟨b, hb, hlo, hhi⟩ := hin
    refine ⟨b, ?_, hlo, hhi⟩
    rw [hnew.blocks]
    exact List.mem_cons_of_mem _ hb
  have hload := loadAt_of_inBlock hq
  generalize hbs : h₁.mem.peek q type.sizeof = bs at hload
  have hlen : bs.length = type.sizeof := by rw [← hbs, Mem.length_peek]
  have hmove : store p bs h₁ = .ok ((), { h₁ with mem := h₁.mem.poke p bs }) :=
    store_eq_ok.mpr ⟨Or.inr (hlen ▸ hp), rfl⟩
  have hmem : q ∈ (h₁.mem.poke p bs).blocks.map Prod.fst := by simp [hnew.blocks]
  obtain ⟨h', hfree, hbytes⟩ := safefree_of_mem (h := h₁) hmem
  refine ⟨h', ?_, ?_⟩
  · exact (Exec.bind_of_ok (Exec.mapError_eq_ok.mpr hrun)).trans ((Exec.bind_of_ok hload).trans
      ((Exec.bind_of_ok hmove).trans hfree))
  · rw [← hlen, Mem.peek_congr fun x _ _ => congrFun hbytes x, Mem.peek_poke_same]

/-- What is stored in a zeroed block is read back with zeros after it. -/
theorem peek_poke_zeroed {m : Mem} {n i : ℕ} {bs : List UInt8}
    (hzero : m.peek q n = List.replicate n 0) (hi : i ≤ n) :
    (m.poke q bs).peek q i = (bs ++ List.replicate n 0).take i := by
  apply List.ext_getElem?
  intro j
  by_cases hj : j < i
  · have hbyte : m.bytes (q + j) = 0 := by
      have hget := Mem.getElem?_peek m q n j (by omega)
      rw [hzero, List.getElem?_replicate_of_lt (by omega)] at hget
      exact (Option.some.inj hget).symm
    rw [Mem.getElem?_peek _ _ _ _ hj, List.getElem?_take_of_lt hj]
    by_cases hb : j < bs.length
    · simp [Mem.poke, Mem.overlay, List.getElem?_append_left hb, List.getElem?_eq_getElem hb]
    · have hb' : bs.length ≤ j := not_lt.mp hb
      rw [List.getElem?_append_right hb', List.getElem?_replicate_of_lt (by omega),
        Mem.bytes_poke_of_disjoint (Or.inr (Nat.add_le_add_left hb' q)), hbyte]
  · have hj' := not_lt.mp hj
    rw [List.getElem?_eq_none (by simpa using hj'), List.getElem?_eq_none]
    exact (List.length_take_le _ _).trans hj'

/-- **An assigned value arrives** when it is marshalled to a block with room for the type,
unless there is no memory for the block. -/
theorem set_pin_filled {type : TypeObj} {count size n : ℕ} {bs : List UInt8}
    (hok : sv.SvOK = true) (hin : h.mem.InBlock p type.sizeof)
    (hbytes : atLeastOne count * size = n) (hbs : bs.length ≤ n) (hn : type.sizeof ≤ n)
    (hblock : sv2ptr type sv 0 = (do
      let ret ← orNew 0 (Newxz count size)
      store ret bs
      pure ret)) :
    (h.mem.Exhausted n ∧ set_pin type p sv h = .error .outOfMemory) ∨
      ∃ h', set_pin type p sv h = .ok ((), h') ∧
        h'.mem.peek p type.sizeof = (bs ++ List.replicate n 0).take type.sizeof := by
  subst hbytes
  cases hcalloc : h.mem.calloc (atLeastOne count * size) with
  | none =>
    refine Or.inl ⟨Mem.calloc_eq_none_iff.mp hcalloc, ?_⟩
    have hnew : Newxz count size h = .error .outOfMemory := by rw [Newxz, hcalloc]
    exact set_pin_error hok (hblock ▸ Exec.bind_of_error hnew)
  | some r =>
    obtain ⟨q, m⟩ := r
    have halloc : Newxz count size h = .ok (q, { h with mem := m }) :=
      Newxz_eq_ok.mpr ⟨m, hcalloc, rfl⟩
    obtain ⟨-, -, hin', -, -, hzero⟩ := Mem.calloc_cases hcalloc
    have hstore : store q bs { h with mem := m } = .ok ((), { h with mem := m.poke q bs }) :=
      store_eq_ok.mpr ⟨Or.inr (hin'.mono le_rfl (by omega)), rfl⟩
    have hq : sv2ptr type sv 0 h = .ok (q, { h with mem := m.poke q bs }) := by
      rw [hblock]
      exact (Exec.bind_of_ok halloc).trans (Exec.bind_of_ok hstore)
    obtain ⟨h', hrun, hpeek⟩ :=
      set_pin_moves hok hin hq ((newBlock_Newxz halloc).store le_rfl hstore) hn
    exact Or.inr ⟨h', hrun, hpeek.trans (peek_poke_zeroed hzero hn)⟩

/-- **The frame of an assignment**: whatever is assigned, only the bytes of the C variable
are written. -/
theorem set_pin_frame (hk : Pinnable k) (hs : s.sizeof = k.sizeof)
    (hrun : set_pin (.scalar k s) p sv h = .ok ((), h')) : OnlyWrites p k.sizeof h h' := by
  rw [← hs]
  exact set_pin_onlyWrites hrun fun hok _ _ hblock => newBlock_sv2ptr hk hok hblock

/-! ## Integers -/

/-- `sv2ptr` puts the image of the value in a new block, and the image is the number. -/
structure GivesImage (k : Kind) (s : Slots) (sv : SV) (n : ℤ) : Prop where
  length : (image k sv).length = k.sizeof
  value : cValue k (image k sv) = n
  block : sv2ptr (.scalar k s) sv 0 = (do
    let ret ← orNew 0 (Newxz 1 k.sizeof)
    store ret (image k sv)
    pure ret)

theorem image_carries (hk : Pinnable k) {n : ℤ} (hc : Carries k sv n) (hn : InRangeOf k n) :
    GivesImage k s sv n := by
  obtain ⟨s', rfl, hiv, htrue⟩ := hc
  have hscalar : sv2ptr (.scalar k s) (.val s') 0 = sv2ptrScalar k s (.val s') 0 :=
    sv2ptr_scalar rfl 0
  rcases pinnable_reading hk with rfl | ⟨c, new, hread, hbytes, -, -⟩
  · have himage : image .Bool (.val s') = boolByte (decide (n ≠ 0)) := by
      rw [← htrue rfl]
      rfl
    refine ⟨rfl, ?_, hscalar⟩
    rw [himage]
    rcases hn with rfl | rfl <;> rfl
  · obtain ⟨hsize, read, hwrap, hbranch⟩ := sv2ptrScalar_number hread
    have himage : image k (.val s') = c.encode n := by
      simp only [image, hread, svSlot_of_iv hiv]
    have hencode : c.encode (read (.val s')) = c.encode n := by
      rw [← svSlot_of_iv hiv]
      exact CIntType.encode_congr (hwrap _)
    simp only [InRangeOf, hread] at hn
    refine ⟨by rw [himage, CIntType.length_encode, hsize], ?_, ?_⟩
    · simp only [cValue, hread]
      rw [himage, CIntType.decode_encode hbytes rfl, CIntType.wrap_of_inRange hn]
    · rw [hscalar, hbranch, himage]
      simp only [sv2ptrInt, SV.SvOK, if_true, SvIOK_of_iv hiv, hencode, hsize]

theorem image_truth (hok : sv.SvOK = true) (hes : sv.elems = none) :
    GivesImage .Bool s sv (if SvTRUE sv then 1 else 0) where
  length := rfl
  value := by
    show cValue .Bool (boolByte (SvTRUE sv)) = _
    cases SvTRUE sv <;> rfl
  block := by
    rw [sv2ptr_scalar hok]
    simp only [sv2ptrScalar, sv2ptrBool, hes]
    rfl

/-- **An assigned integer arrives**, unless there is no memory for the new block. -/
theorem set_pin_image (hs : s.sizeof = k.sizeof) (hin : h.mem.InBlock p k.sizeof)
    (hok : sv.SvOK = true) {n : ℤ}
    (himage : GivesImage k s sv n) :
    (h.mem.Exhausted k.sizeof ∧ set_pin (.scalar k s) p sv h = .error .outOfMemory) ∨
      ∃ h', set_pin (.scalar k s) p sv h = .ok ((), h') ∧ current k p h' = n := by
  obtain ⟨hlen, hvalue, hblock⟩ := himage
  have hsize : (TypeObj.scalar k s).sizeof = k.sizeof := hs
  rcases set_pin_filled hok (hsize ▸ hin) (bytes_one _) hlen.le hsize.le hblock with
    hfull | ⟨h', hrun, hpeek⟩
  · exact Or.inl hfull
  · refine Or.inr ⟨h', hrun, ?_⟩
    rw [hsize, ← hlen, List.take_left] at hpeek
    rw [current, ← hlen, hpeek, hvalue]

/-! ## Reads -/

/-- **A read returns the C variable**, and leaves the heap alone. -/
theorem get_pin_current (hk : Pinnable k) (hin : h.mem.InBlock p k.sizeof) :
    ∃ v, get_pin (.scalar k s) p h = .ok (v, h) ∧ Carries k v (current k p h) := by
  have hne : p ≠ 0 := hin.pos.ne'
  have hrun : get_pin (.scalar k s) p = ptr2svScalar k s p := by
    rw [get_pin, ptr2sv, if_neg hne]
  rw [hrun]
  have hload := loadAt_of_inBlock hin
  rcases pinnable_reading hk with rfl | ⟨c, new, hread, -, hscalar, hiv⟩
  · refine ⟨_, Exec.bind_of_ok hload, .boolSV (h.mem.peek p 1 ≠ [0]), rfl, ?_⟩
    show (Scalar.boolSV (h.mem.peek p 1 ≠ [0])).iv = some (if h.mem.peek p 1 = [0] then 0 else 1) ∧
      (_ → SvTRUE (.val (.boolSV (h.mem.peek p 1 ≠ [0]))) =
        decide ((if h.mem.peek p 1 = [0] then 0 else 1) ≠ (0 : ℤ)))
    generalize h.mem.peek p 1 = bs
    by_cases hz : bs = [0]
    · subst hz
      decide
    · simp only [hz, ne_eq, not_false_eq_true, decide_true, if_false]
      decide
  · obtain ⟨hsize, -⟩ := sv2ptrScalar_number hread
    rw [← hsize] at hload
    rw [hscalar]
    refine ⟨_, Exec.bind_of_ok hload, new (c.decode (h.mem.peek p c.size)), rfl, ?_, ?_⟩
    · have hrange : c.InRange (c.decode (h.mem.peek p c.size)) := CIntType.wrap_inRange _ _
      rw [hiv _ hrange]
      simp only [current, cValue, hread, hsize]
    · rintro rfl
      cases hread

end Scalar

/-! ## Operations -/

/-- The magic, where there is any, names the C variable, and the C variable is there. -/
structure Bound (k : Kind) (s : Slots) (p : ℕ) (st : PinState) : Prop where
  inBlock : st.heap.mem.InBlock p k.sizeof
  named : ∀ q ∈ st.pin, q = (.scalar k s, p)

section Operations

variable {k : Kind} {s : Slots} {p : ℕ} {st st' : PinState}

theorem Bound.pin_cases (h : Bound k s p st) : st.pin = none ∨ st.pin = some (.scalar k s, p) := by
  cases hpin : st.pin with
  | none => exact Or.inl rfl
  | some q => exact Or.inr (congrArg some (h.named q hpin))

/-- An assignment of something that is no integer, to a variable that is no truth value: the
message gives the type of the scalar with its magic. -/
theorem set_pin_other (hk : Pinnable k) (hbool : k ≠ .Bool) {sv : SV} (hok : sv.SvOK = true)
    (hiok : sv.SvIOK = false) (hes : sv.elems = none) (h : Heap) :
    set_pin (.scalar k s) p sv h = .error (.croak (mismatchFor s SVt_PVMG)) := by
  obtain ⟨c, new, hread, -⟩ := (pinnable_reading hk).resolve_left hbool
  obtain ⟨-, read, -, hscalar⟩ := sv2ptrScalar_number hread
  have hcroak : sv2ptr (.scalar k s) sv 0 h = .error (.croak (dataTypeMismatch s sv)) := by
    rw [sv2ptr_scalar hok, hscalar]
    simp only [sv2ptrInt, hok, hiok, hes, if_true, Bool.false_eq_true, if_false]
    rfl
  rw [set_pin_error hok hcroak]
  simp only [ofMagical, pointeeOf, hes, if_true]

theorem SvOK_sv_setsv (sv : SV) : (sv_setsv sv).SvOK = sv.SvOK := by
  cases sv <;> rfl

theorem sv_setsv_of_SvOK {sv : SV} (h : sv.SvOK = true) : sv_setsv sv = sv := by
  cases sv with
  | undef ro => cases h
  | _ => rfl

theorem sets_of_image (hk : Pinnable k) (hs : s.sizeof = k.sizeof) (h : Bound k s p st)
    (hpin : st.pin = some (.scalar k s, p)) {sv : SV} (hok : sv.SvOK = true) {n : ℤ}
    (himage : GivesImage k s sv n) : Sets k p st sv n (st.assign sv) := by
  simp only [PinState.assign, hpin, sv_setsv_of_SvOK hok]
  rcases set_pin_image hs h.inBlock hok himage with ⟨hfull, hrun⟩ | ⟨h', hrun, hcur⟩
  · exact Or.inl ⟨hfull, by rw [hrun]⟩
  · exact Or.inr ⟨h', by rw [hrun, hpin], hcur, set_pin_frame hk hs hrun⟩

theorem setsPinned (hk : Pinnable k) (hs : s.sizeof = k.sizeof) (h : Bound k s p st)
    (hpin : st.pin = some (.scalar k s, p)) (sv : SV) : SetsPinned k p st sv (st.assign sv) where
  integer n hc hn := by
    have hok : sv.SvOK = true := by
      obtain ⟨s', rfl, -⟩ := hc
      rfl
    exact sets_of_image hk hs h hpin hok (image_carries hk hc hn)
  truth hbool hok hes := by
    subst hbool
    exact sets_of_image hk hs h hpin hok (image_truth hok hes)
  undef hok := by
    have hrun : set_pin (.scalar k s) p (sv_setsv sv) st.heap = .ok ((), st.heap) := by
      rw [set_pin, if_neg (by rw [SvOK_sv_setsv, hok]; decide)]
      rfl
    simp only [PinState.assign, hpin, hrun]
  other hbool hok hiok hes := by
    have hrun := set_pin_other (s := s) (p := p) hk hbool hok hiok hes st.heap
    refine ⟨mismatchFor s SVt_PVMG, { st with value := sv_setsv sv }, ?_⟩
    simp only [PinState.assign, hpin, sv_setsv_of_SvOK hok, hrun]
  raised m st' hrun := by
    simp only [PinState.assign, hpin] at hrun
    split at hrun <;> cases hrun
    rfl

/-- **One operation** does what it should. -/
theorem step_behaves (hk : Pinnable k) (hs : s.sizeof = k.sizeof) (h : Bound k s p st)
    (op : PinOp) : Behaves k p st op (st.step op) := by
  cases op with
  | assign sv =>
    rcases h.pin_cases with hpin | hpin <;> simp only [Behaves, hpin, PinState.step]
    · simp only [PinState.assign, hpin]
    · exact setsPinned hk hs h hpin sv
  | read =>
    rcases h.pin_cases with hpin | hpin <;> simp only [Behaves, hpin, PinState.step, PinState.read]
    obtain ⟨v, hrun, hc⟩ := get_pin_current (s := s) hk h.inBlock
    exact ⟨v, by rw [hrun], hc⟩
  | unpin => exact ⟨_, rfl⟩
  | code heap => rfl

/-- An assignment keeps the magic and the C variable. -/
theorem bound_assign (hk : Pinnable k) (hs : s.sizeof = k.sizeof) (h : Bound k s p st) {sv : SV}
    {effect : Effect} (hrun : st.assign sv = .ok (effect, st')) :
    Bound k s p st' ∧ st'.pin = st.pin := by
  rcases h.pin_cases with hpin | hpin
  · simp only [PinState.assign, hpin] at hrun
    cases hrun
    exact ⟨⟨h.inBlock, fun q hq => by cases hq⟩, hpin.symm⟩
  · simp only [PinState.assign, hpin] at hrun
    split at hrun
    · rename_i u heap hset
      cases hrun
      have hpos : 0 < k.sizeof := by
        rcases hk with rfl | rfl | rfl | rfl | rfl | rfl | rfl <;> decide
      exact ⟨⟨(set_pin_frame hk hs hset).live p k.sizeof hpos h.inBlock, hpin ▸ h.named⟩, hpin.symm⟩
    · cases hrun
      exact ⟨⟨h.inBlock, hpin ▸ h.named⟩, hpin.symm⟩
    · cases hrun

/-- **One operation keeps the binding**, unless it is `unpin`. -/
theorem bound_step (hk : Pinnable k) (hs : s.sizeof = k.sizeof) (h : Bound k s p st) {op : PinOp}
    (hstep : PinStep k p st op st') :
    Bound k s p st' ∧ (st'.pin.isSome = true ↔ st.pin.isSome = true ∧ op ≠ .unpin) := by
  obtain ⟨hcode, effect, hrun⟩ := hstep
  have hbehaves := step_behaves hk hs h op
  cases op with
  | assign sv =>
    obtain ⟨hbound, hpin⟩ := bound_assign hk hs h hrun
    exact ⟨hbound, by simp [hpin]⟩
  | read =>
    rcases h.pin_cases with hpin | hpin <;> simp only [Behaves, hpin] at hbehaves
    · cases hrun.symm.trans hbehaves
      exact ⟨h, by simp⟩
    · obtain ⟨v, hread, -⟩ := hbehaves
      cases hrun.symm.trans hread
      exact ⟨⟨h.inBlock, hpin ▸ h.named⟩, by simp [hpin]⟩
  | unpin =>
    cases hrun
    exact ⟨⟨h.inBlock, fun q hq => by cases hq⟩, by simp⟩
  | code heap =>
    cases hrun
    exact ⟨⟨hcode heap rfl, h.named⟩, by simp⟩

/-- **Every state of a run** is bound, and the variable is pinned until it is unpinned. -/
theorem bound_run (hk : Pinnable k) (hs : s.sizeof = k.sizeof) {run : List (PinOp × PinState)}
    (h : Bound k s p st) (hrun : IsRun (PinStep k p) st run) :
    Bound k s p (finalState st run) ∧ ((finalState st run).pin.isSome = true ↔
      st.pin.isSome = true ∧ ∀ q ∈ run, q.1 ≠ .unpin) := by
  induction run generalizing st with
  | nil => exact ⟨h, by simp [finalState]⟩
  | cons q run ih =>
    obtain ⟨op, st₁⟩ := q
    obtain ⟨hstep, hrest⟩ := hrun
    obtain ⟨hbound, hpin⟩ := bound_step hk hs h hstep
    obtain ⟨hfinal, hpinned⟩ := ih hbound hrest
    refine ⟨hfinal, ?_⟩
    rw [List.forall_mem_cons, ← and_assoc, ← hpin]
    exact hpinned

end Operations

/-- **A pinned variable**: after any sequence of assignments, reads, C code and `unpin`, the
variable is pinned unless it was unpinned, and the next operation behaves accordingly. -/
theorem pinned_behaves {k : Kind} (hk : Pinnable k) {s : Slots} (hs : s.sizeof = k.sizeof)
    {heap : Heap} {p : ℕ} (hin : heap.mem.InBlock p k.sizeof) (value : SV)
    {run : List (PinOp × PinState)}
    (hrun : IsRun (PinStep k p) (.pinned heap value (.scalar k s) p) run) :
    ((finalState (.pinned heap value (.scalar k s) p) run).pin.isSome = true ↔
        ∀ q ∈ run, q.1 ≠ .unpin) ∧
      ∀ op, Behaves k p (finalState (.pinned heap value (.scalar k s) p) run) op
        ((finalState (.pinned heap value (.scalar k s) p) run).step op) := by
  have h : Bound k s p (.pinned heap value (.scalar k s) p) :=
    ⟨hin, fun q hq => (Option.some.inj hq).symm⟩
  obtain ⟨hbound, hpin⟩ := bound_run hk hs h hrun
  exact ⟨hpin.trans (by simp [PinState.pinned]), step_behaves hk hs hbound⟩

/-- `bool flag;` -/
def flagVariable : Heap where
  mem := ⟨fun _ => 0, [(4096, 1)], 4097, by decide, by decide, by decide, by decide⟩
  svs := []
  callbacks := []

def flagPinned (value : SV) : PinState := .pinned flagVariable value (scalarType .Bool) 4096

/-- `$flag`, then `unpin($flag)`. -/
def readAndUnpin : List (PinOp × PinState) :=
  [(.read, flagPinned (.val .no)), (.unpin, ⟨flagVariable, .val .no, none⟩)]

/-- `pin( my $flag, $lib, 'flag', Bool )` and the run above. -/
theorem pinned_behaves_flag :
    ((finalState (flagPinned (.undef false)) readAndUnpin).pin.isSome = true ↔
        ∀ q ∈ readAndUnpin, q.1 ≠ .unpin) ∧
      ∀ op, Behaves .Bool 4096 (finalState (flagPinned (.undef false)) readAndUnpin) op
        ((finalState (flagPinned (.undef false)) readAndUnpin).step op) := by
  have hrun : IsRun (PinStep .Bool 4096) (flagPinned (.undef false)) readAndUnpin :=
    ⟨⟨fun _ h => (by cases h), _, rfl⟩, ⟨fun _ h => (by cases h), _, rfl⟩, trivial⟩
  exact pinned_behaves (by decide) rfl (by decide) _ hrun

end Affix.Analysis
