import Affix.Analysis.Progress
import Affix.Analysis.RecordDecoding

/-!
# Copies of scalars, and what reads them

The copy of a number or of an array of numbers is a block of just that size, or of one
number if there are none; the copy of a string or of character codes is longer by a
zero at least. A load from an address has a result when the bytes are in a block, and
`strlen` when a zero is.

SOURCE: marshal.cxx:32-327, marshal.cxx:533-573
-/

set_option autoImplicit false

namespace Affix.Analysis

open Affix.Foundation Affix.Model Affix.Interface

section Copies

variable {k : Kind} {s : Slots} {v : SV} {h h' hh : Heap} {q n count size : ℕ}

/-! ## The blocks -/

/-- The run began with a block at the old break. -/
def AtBreak (h h' : Heap) (q n : ℕ) : Prop :=
  ∃ m, h.mem.malloc n = some (q, m) ∧ m.Grows h'.mem fun x => x < q

theorem AtBreak.start (hb : AtBreak h h' q n) : q = h.mem.brk := by
  obtain ⟨m, hm, -⟩ := hb
  exact (Mem.malloc_eq_some hm).1

theorem AtBreak.ne_zero (hb : AtBreak h h' q n) : q ≠ 0 := hb.start ▸ h.mem.brk_pos.ne'

theorem AtBreak.lt_brk (hb : AtBreak h h' q n) : q + n < h'.mem.brk := by
  obtain ⟨m, hm, hg⟩ := hb
  obtain ⟨rfl, hbrk, -⟩ := Mem.malloc_eq_some hm
  have hroom : m.brk = h.mem.brk + (n + 8) := hbrk
  have := hg.brk_le
  omega

/-- A later heap, in which the new blocks are all that is live between the two breaks. -/
structure Later (h h' hh : Heap) : Prop where
  mem : h'.mem.Shows h.mem.brk h'.mem.brk hh.mem
  svs : ∀ p, h.mem.brk ≤ p → p < h'.mem.brk → hh.svs.lookup p = h'.svs.lookup p

theorem AtBreak.inBlock_iff (hb : AtBreak h h' q n) (hl : Later h h' hh) {i len : ℕ}
    (hlen : 0 < len) (hi : i ≤ n) : hh.mem.InBlock (q + i) len ↔ i + len ≤ n := by
  obtain ⟨m, hm, hg⟩ := hb
  exact hl.mem.inBlock_iff hm hg hlen hi hg.brk_le

/-- The zeroed block a branch makes, and what it does with it. -/
theorem orNew_cases {α : Type} {r : α} {work : ℕ → Eff α}
    (hrun : (orNew 0 (Newxz count size) >>= work) h = .ok (r, h')) :
    ∃ p m, h.mem.malloc (atLeastOne count * size) = some (p, m) ∧
      work p { h with mem := m.poke p (List.replicate (atLeastOne count * size) 0) } =
        .ok (r, h') := by
  obtain ⟨p, h₁, hnew, hrest⟩ := Exec.bind_eq_ok.mp hrun
  obtain ⟨m, hm, rfl⟩ := Newxz_cases hnew
  exact ⟨p, m, hm, hrest⟩

theorem atBreak_of_progress {m : Mem} (hm : h.mem.malloc n = some (q, m))
    (hp : Progress q { h with mem := m.poke q (List.replicate n 0) } h') : AtBreak h h' q n := by
  obtain ⟨rfl, -⟩ := Mem.malloc_eq_some hm
  refine ⟨m, hm, (Mem.grows_poke m _ _).trans hp.mem fun x _ hx _ => hx⟩

/-- A branch that fills a new block. -/
theorem atBreak_fill {fill : ℕ → Eff Unit}
    (hfill : ∀ p h₁ h₂, p ≠ 0 → fill p h₁ = .ok ((), h₂) → Progress p h₁ h₂)
    (hrun : (do
      let ret ← orNew 0 (Newxz count size)
      fill ret
      pure ret) h = .ok (q, h')) : AtBreak h h' q (atLeastOne count * size) := by
  obtain ⟨p, m, hm, hrest⟩ := orNew_cases hrun
  obtain ⟨u, h₂, hwrite, hpure⟩ := Exec.bind_eq_ok.mp hrest
  cases hpure
  have hne : q ≠ 0 := (Mem.malloc_eq_some hm).1 ▸ h.mem.brk_pos.ne'
  exact atBreak_of_progress hm (hfill q _ _ hne hwrite)

/-- The types of numbers and truth values. -/
def Numeric (k : Kind) : Prop :=
  k ≠ .Void ∧ ¬ Character k ∧ k ≠ .WChar ∧ k ≠ .SV

theorem pointees_of_elems {es : List SV} (h : v.elems = some es) : pointees v = es := by
  rw [pointees, h, Option.getD_some]

theorem pointees_of_single (h : v.elems = none) : pointees v = [v] := by
  rw [pointees, h, Option.getD_none]

theorem copied_ints {c : CIntType} {read : SV → ℤ}
    (hrun : sv2ptrInt c read s v 0 h = .ok (q, h')) :
    (q = 0 ∧ v.SvOK = false) ∨ AtBreak h h' q (atLeastOne (pointees v).length * c.size) := by
  unfold sv2ptrInt at hrun
  cases hok : v.SvOK with
  | false =>
    rw [hok] at hrun
    cases hrun
    exact Or.inl ⟨rfl, rfl⟩
  | true =>
    rw [hok, if_pos rfl] at hrun
    right
    cases hes : v.elems with
    | some es =>
      have hiok : v.SvIOK = false := by cases v <;> first | rfl | cases hes
      rw [hiok, if_neg Bool.false_ne_true, hes] at hrun
      rw [pointees_of_elems hes]
      exact atBreak_fill (fun _ _ _ => progress_storeEach) hrun
    | none =>
      rw [pointees_of_single hes, List.length_singleton]
      split at hrun
      · exact atBreak_fill (fun _ _ _ _ => progress_store) hrun
      · rw [hes] at hrun
        cases hrun

theorem copied_floats {size : ℕ} {image : ℕ → ℕ}
    (hrun : sv2ptrFloat size image s v 0 h = .ok (q, h')) :
    (q = 0 ∧ v.SvOK = false) ∨ AtBreak h h' q (atLeastOne (pointees v).length * size) := by
  unfold sv2ptrFloat at hrun
  cases hok : v.SvOK with
  | false =>
    rw [hok] at hrun
    cases hrun
    exact Or.inl ⟨rfl, rfl⟩
  | true =>
    rw [hok, if_pos rfl] at hrun
    right
    cases hes : v.elems with
    | some es =>
      have hnum : (v.SvNOK || v.SvIOK) = false := by cases v <;> first | rfl | cases hes
      rw [hnum, if_neg Bool.false_ne_true, hes] at hrun
      rw [pointees_of_elems hes]
      exact atBreak_fill (fun _ _ _ => progress_storeEach) hrun
    | none =>
      rw [pointees_of_single hes, List.length_singleton]
      split at hrun
      · exact atBreak_fill (fun _ _ _ _ => progress_store) hrun
      · rw [hes] at hrun
        cases hrun

theorem copied_bools (hrun : sv2ptrBool v 0 h = .ok (q, h')) :
    AtBreak h h' q (atLeastOne (pointees v).length * 1) := by
  unfold sv2ptrBool at hrun
  cases hes : v.elems with
  | some es =>
    rw [hes] at hrun
    rw [pointees_of_elems hes]
    exact atBreak_fill (fun _ _ _ => progress_storeEach) hrun
  | none =>
    rw [hes] at hrun
    rw [pointees_of_single hes]
    exact atBreak_fill (fun _ _ _ _ => progress_store) hrun

/-- **The copy of numbers** has as many as there are, and one at least. -/
theorem copied_numbers (hk : Numeric k) (hrun : sv2ptrScalar k s v 0 h = .ok (q, h')) :
    (q = 0 ∧ k ≠ .Bool ∧ v.SvOK = false) ∨
      AtBreak h h' q (atLeastOne (pointees v).length * k.sizeof) := by
  have hfloat := floatBranch (k := k)
  have hinteger := fun c => integerBranch (k := k) (c := c)
  obtain ⟨hvoid, hchar, hwchar, hsv⟩ := hk
  cases k with
  | Void => exact absurd rfl hvoid
  | Char | SChar | UChar => exact absurd (by decide) hchar
  | WChar => exact absurd rfl hwchar
  | SV => exact absurd rfl hsv
  | Bool => exact Or.inr (copied_bools hrun)
  | Float =>
    have hbranch : sv2ptrFloat 4 (binary64.convert binary32) s v 0 h = .ok (q, h') := hrun
    exact (copied_floats hbranch).imp_left fun hnull => ⟨hnull.1, Kind.noConfusion, hnull.2⟩
  | Double =>
    have hbranch : sv2ptrFloat 8 id s v 0 h = .ok (q, h') := hrun
    exact (copied_floats hbranch).imp_left fun hnull => ⟨hnull.1, Kind.noConfusion, hnull.2⟩
  | _ =>
    obtain ⟨read, -, hbranch⟩ := hinteger _ rfl ⟨by decide, by decide⟩
    rw [hbranch] at hrun
    exact (copied_ints hrun).imp_left fun hnull => ⟨hnull.1, Kind.noConfusion, hnull.2⟩

/-! ## Strings -/

/-- What is stored after one another reaches as far as it is long. -/
theorem bytes_storeEach {stride a x : ℕ} {image : SV → List UInt8} {es : List SV}
    (himage : ∀ e, (image e).length = stride) (hx : a + es.length * stride ≤ x)
    (hrun : storeEach stride image a es h = .ok ((), h')) : h'.mem.bytes x = h.mem.bytes x := by
  induction es generalizing a h with
  | nil =>
    cases hrun
    rfl
  | cons e es ih =>
    obtain ⟨u, h₁, hone, hrest⟩ := Exec.bind_eq_ok.mp hrun
    obtain ⟨-, rfl⟩ := store_eq_ok.mp hone
    rw [List.length_cons, Nat.succ_mul] at hx
    rw [ih (by omega) hrest]
    exact Mem.bytes_poke_of_disjoint (Or.inr (by rw [himage]; omega))

/-- A zero is stored somewhere in a block. -/
def EndsWithin (m : Mem) (q n : ℕ) : Prop := ∃ i < n, m.bytes (q + i) = 0

theorem zero_of_replicate {m : Mem} {i : ℕ} (hi : i < n) :
    (m.poke q (List.replicate n 0)).bytes (q + i) = 0 := by
  have hget := Mem.getElem?_peek (m.poke q (List.replicate n 0)) q n i hi
  rw [Mem.peek_poke_replicate, List.getElem?_replicate_of_lt hi] at hget
  exact (Option.some.inj hget).symm

/-- What is copied in a type of characters has its terminator, for the codes are given more
bytes than there are of them. -/
theorem copied_chars {c : CIntType} {read : SV → ℤ} {count : ℕ → ℕ} {wide : CIntType}
    (hone : ∀ e, (c.encode (read e)).length = 1)
    (hroom : ∀ n, n < atLeastOne (count n) * wide.size)
    (hrun : sv2ptrChar c read count wide v 0 h = .ok (q, h')) :
    (q = 0 ∧ v.SvOK = false) ∨ ∃ n, AtBreak h h' q n ∧ EndsWithin h'.mem q n := by
  unfold sv2ptrChar at hrun
  cases hok : v.SvOK with
  | false =>
    rw [hok] at hrun
    cases hrun
    exact Or.inl ⟨rfl, rfl⟩
  | true =>
    rw [hok, if_pos rfl] at hrun
    right
    cases hes : v.elems with
    | none =>
      rw [hes] at hrun
      have hlast : (SvPV v).bytes.length < atLeastOne ((SvPV v).bytes.length + 1) * 1 := by
        rw [bytes_of_string]
        exact Nat.lt_succ_self _
      refine ⟨_, atBreak_fill (fun _ _ _ _ => progress_store) hrun, (SvPV v).bytes.length,
        hlast, ?_⟩
      obtain ⟨p, m, -, hrest⟩ := orNew_cases hrun
      obtain ⟨u, h₂, hwrite, hpure⟩ := Exec.bind_eq_ok.mp hrest
      cases hpure
      obtain ⟨-, rfl⟩ := store_eq_ok.mp hwrite
      refine (Mem.bytes_poke_of_disjoint (Or.inr le_rfl)).trans ?_
      exact zero_of_replicate hlast
    | some es =>
      rw [hes] at hrun
      refine ⟨_, atBreak_fill (fun _ _ _ => progress_storeEach) hrun, es.length, hroom _, ?_⟩
      obtain ⟨p, m, -, hrest⟩ := orNew_cases hrun
      obtain ⟨u, h₂, hwrite, hpure⟩ := Exec.bind_eq_ok.mp hrest
      cases hpure
      rw [bytes_storeEach hone (by rw [Nat.mul_one]) hwrite]
      exact zero_of_replicate (hroom _)

/-- **The copy of characters** is terminated. -/
theorem copied_characters (hk : Character k) (hrun : sv2ptrScalar k s v 0 h = .ok (q, h')) :
    (q = 0 ∧ v.SvOK = false) ∨ ∃ n, AtBreak h h' q n ∧ EndsWithin h'.mem q n := by
  have hfour : ∀ n, n < atLeastOne n * 4 := by
    intro n
    have hle := le_atLeastOne n
    have hpos := atLeastOne_pos n
    omega
  rcases hk with rfl | rfl | rfl
  · have hbranch : sv2ptrCharSChar v 0 h = .ok (q, h') := hrun
    exact copied_chars (fun _ => CIntType.length_encode _ _) hfour hbranch
  · have hbranch : sv2ptrCharSChar v 0 h = .ok (q, h') := hrun
    exact copied_chars (fun _ => CIntType.length_encode _ _) hfour hbranch
  · have hbranch : sv2ptrUChar v 0 h = .ok (q, h') := hrun
    exact copied_chars (fun _ => CIntType.length_encode _ _)
      (fun n => (Nat.lt_succ_self n).trans (hfour (n + 1))) hbranch

/-! ## Reading -/

/-- A load of bytes in no block has no result. -/
theorem loadAt_outside {a len : ℕ} (hlen : len ≠ 0) (hout : ¬ hh.mem.InBlock a len) :
    loadAt a len hh = .error .fault := by
  unfold loadAt load Mem.read
  rw [if_neg (by simp [hlen, hout])]
  rfl

theorem load_outside {a len : ℕ} (hlen : len ≠ 0) (hout : ¬ hh.mem.InBlock a len) :
    load hh.mem a len = .error .fault := by
  unfold load Mem.read
  rw [if_neg (by simp [hlen, hout])]

/-- A number is one load. -/
theorem number_load (hk : Numeric k) (a : ℕ) :
    k.sizeof ≠ 0 ∧ ∃ f : List UInt8 → SV, ptr2svScalar k s a = (do
      let bs ← loadAt a k.sizeof
      pure (f bs)) := by
  obtain ⟨hvoid, hchar, hwchar, hsv⟩ := hk
  cases k with
  | Void => exact absurd rfl hvoid
  | Char | SChar | UChar => exact absurd (by decide) hchar
  | WChar => exact absurd rfl hwchar
  | SV => exact absurd rfl hsv
  | Bool => exact ⟨by decide, fun bs => .val (.boolSV (bs ≠ [0])), rfl⟩
  | Float => exact ⟨by decide, fun bs => .val (.newSVnv (_)), rfl⟩
  | Double => exact ⟨by decide, fun bs => .val (.newSVnv (_)), rfl⟩
  | UShort => exact ⟨by decide, fun bs => .val (.newSVuv (_)), rfl⟩
  | _ => exact ⟨by decide, fun bs => .val (.newSViv (_)), rfl⟩

theorem number_within (hk : Numeric k) {a : ℕ} (hin : hh.mem.InBlock a k.sizeof) :
    ∃ r, ptr2svScalar k s a hh = .ok (r, hh) := by
  obtain ⟨-, f, hrun⟩ := number_load (s := s) hk a
  rw [hrun]
  exact ⟨_, Exec.bind_of_ok (loadAt_of_inBlock hin)⟩

theorem number_outside (hk : Numeric k) {a : ℕ} (hout : ¬ hh.mem.InBlock a k.sizeof) :
    ptr2svScalar k s a hh = .error .fault := by
  obtain ⟨hpos, f, hrun⟩ := number_load (s := s) hk a
  rw [hrun]
  exact Exec.bind_of_error (loadAt_outside hpos hout)

/-- `strlen` stops where there is a zero. -/
theorem cstring_within {m : Mem} {i : ℕ} (hzero : m.bytes (q + i) = 0) {fuel : ℕ}
    (hin : m.InBlock q (i + 1)) (hfuel : i < fuel) : ∃ bs, cstring m fuel q = .ok bs := by
  induction i generalizing q fuel with
  | zero =>
    obtain ⟨fuel, rfl⟩ := Nat.exists_eq_succ_of_ne_zero (by omega : fuel ≠ 0)
    have hload : load m q 1 = .ok [0] := by
      rw [load, Mem.read_eq_peek hin]
      exact congrArg (fun b => Except.ok [b]) hzero
    exact ⟨[], by rw [cstring, hload]; rfl⟩
  | succ i ih =>
    obtain ⟨fuel, rfl⟩ := Nat.exists_eq_succ_of_ne_zero (by omega : fuel ≠ 0)
    have hload : load m q 1 = .ok (m.peek q 1) := by
      rw [load, Mem.read_eq_peek (hin.mono le_rfl (by omega))]
    rw [cstring, hload]
    by_cases hnul : m.peek q 1 = [0]
    · exact ⟨[], by simp only [hnul, if_true]⟩
    · have hnext : m.bytes (q + 1 + i) = 0 := by
        rw [Nat.add_assoc, Nat.add_comm 1 i]
        exact hzero
      have hless : i < fuel := by omega
      obtain ⟨bs, hbs⟩ := ih hnext (hin.mono (by omega) (by omega)) hless
      simp only [hnul, if_false, hbs]
      exact ⟨_, rfl⟩

theorem chars_within {i : ℕ} (hzero : hh.mem.bytes (q + i) = 0)
    (hin : hh.mem.InBlock q (i + 1)) : ∃ r, ptr2svChars q hh = .ok (r, hh) := by
  have hbrk := hin.le_brk
  have hpos := hin.pos
  have hfuel : i < hh.mem.brk := by omega
  obtain ⟨bs, hbs⟩ := cstring_within hzero hin hfuel
  refine ⟨.val (.ofStr (.ofGuess bs)), (Exec.bind_of_ok (Exec.get_apply hh)).trans ?_⟩
  rw [hbs]
  exact Exec.bind_of_ok (Exec.lift_ok_apply bs hh)

theorem chars_outside (hout : ¬ hh.mem.InBlock q 1) : ptr2svChars q hh = .error .fault := by
  have hstring : cstring hh.mem hh.mem.brk q = .error .fault := by
    obtain ⟨fuel, hfuel⟩ := Nat.exists_eq_succ_of_ne_zero hh.mem.brk_pos.ne'
    rw [hfuel, cstring, load_outside one_ne_zero hout]
  refine (Exec.bind_of_ok (Exec.get_apply hh)).trans ?_
  rw [hstring]
  exact Exec.bind_of_error (Exec.lift_error_apply _ hh)

end Copies

end Affix.Analysis
