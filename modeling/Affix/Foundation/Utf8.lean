import Mathlib.Algebra.Group.Nat.Defs
import Mathlib.Tactic.Common
import Mathlib.Tactic.Ring

/-!
# Extended UTF-8

The multi-byte encoding Perl uses for its flagged strings: UTF-8 carried on to
the thirteen-byte form, so that every code point below `2 ^ 63` has one shortest
encoding, surrogates and non-characters included. The decoder below is one pass
with the pending sequence as its state; a byte string is well formed when the
pass ends between characters.
-/

set_option autoImplicit false

namespace Affix.Foundation

/-- What a first byte announces: how many continuation bytes follow, the bits it
carries itself, and the least code point its length may encode. -/
def utf8Start (b : UInt8) : Option (ℕ × ℕ × ℕ) :=
  let n := b.toNat
  if n < 0x80 then some (0, n, 0)
  else if n < 0xC0 then none
  else if n < 0xE0 then some (1, n - 0xC0, 0x80)
  else if n < 0xF0 then some (2, n - 0xE0, 0x800)
  else if n < 0xF8 then some (3, n - 0xF0, 0x10000)
  else if n < 0xFC then some (4, n - 0xF8, 0x200000)
  else if n < 0xFE then some (5, n - 0xFC, 0x4000000)
  else if n = 0xFE then some (6, 0, 0x80000000)
  else some (12, 0, 0x1000000000)

def utf8Continuation (b : UInt8) : Option ℕ :=
  if 0x80 ≤ b.toNat ∧ b.toNat < 0xC0 then some (b.toNat - 0x80) else none

/-- The decoding pass. `owed` continuation bytes are outstanding for the character
whose bits so far are `acc` and whose code point must reach `least`. -/
def utf8Decode : List UInt8 → (owed acc least : ℕ) → Option (List ℕ)
  | [], 0, _, _ => some []
  | [], _ + 1, _, _ => none
  | b :: bs, 0, _, _ =>
    match utf8Start b with
    | none => none
    | some (0, c, _) => (utf8Decode bs 0 0 0).map (c :: ·)
    | some (n + 1, c, l) => utf8Decode bs (n + 1) c l
  | b :: bs, owed + 1, acc, least =>
    match utf8Continuation b with
    | none => none
    | some d =>
      let acc' := acc * 64 + d
      match owed with
      | 0 =>
        if least ≤ acc' ∧ acc' < 2 ^ 63 then (utf8Decode bs 0 0 0).map (acc' :: ·) else none
      | _ => utf8Decode bs owed acc' least

/-- The code points of a byte string, when it is well formed. -/
def utf8Chars (bs : List UInt8) : Option (List ℕ) := utf8Decode bs 0 0 0

def isUtf8String (bs : List UInt8) : Bool := (utf8Chars bs).isSome

def isASCII (b : UInt8) : Bool := b.toNat < 0x80

theorem utf8Start_ascii {b : UInt8} (h : isASCII b = true) :
    utf8Start b = some (0, b.toNat, 0) := by
  have hb : b.toNat < 0x80 := by simpa [isASCII] using h
  simp [utf8Start, hb]

/-- A seven-bit string decodes to its own bytes. -/
theorem utf8Chars_ascii {bs : List UInt8} (h : ∀ b ∈ bs, isASCII b = true) :
    utf8Chars bs = some (bs.map UInt8.toNat) := by
  unfold utf8Chars
  induction bs with
  | nil => rfl
  | cons b bs ih =>
    have hb := utf8Start_ascii (h b (List.mem_cons_self ..))
    have hbs := ih fun c hc => h c (List.mem_cons_of_mem _ hc)
    simp [utf8Decode, hb, hbs]

theorem isUtf8String_ascii {bs : List UInt8} (h : ∀ b ∈ bs, isASCII b = true) :
    isUtf8String bs = true := by
  simp [isUtf8String, utf8Chars_ascii h]

/-- A lone byte above the seven-bit range is never well formed. -/
theorem isUtf8String_singleton (b : UInt8) : isUtf8String [b] = isASCII b := by
  by_cases h : isASCII b = true
  · rw [h, isUtf8String_ascii (by simpa using h)]
  · have hb : ¬ b.toNat < 0x80 := by simpa [isASCII] using h
    have hstart : ∀ c l, utf8Start b ≠ some (0, c, l) := by
      intro c l
      unfold utf8Start
      simp only [hb, if_false]
      split_ifs <;> simp
    have hnone : utf8Chars [b] = none := by
      unfold utf8Chars
      rw [utf8Decode]
      split
      · rfl
      · exact absurd ‹_› (hstart _ _)
      · rfl
    simp [isUtf8String, hnone, h]

/-! ## What decoding keeps -/

/-- A byte that stands for itself is below the multi-byte range. -/
theorem isASCII_of_utf8Start {b : UInt8} {c l : ℕ} (h : utf8Start b = some (0, c, l)) :
    isASCII b = true ∧ c = b.toNat := by
  by_cases hb : b.toNat < 0x80
  · rw [utf8Start_ascii (by simpa [isASCII] using hb)] at h
    cases h
    exact ⟨by simpa [isASCII] using hb, rfl⟩
  · unfold utf8Start at h
    simp only [hb, if_false] at h
    split_ifs at h <;> cases h

theorem isASCII_of_utf8Start_succ {b : UInt8} {n c l : ℕ}
    (h : utf8Start b = some (n + 1, c, l)) : isASCII b = false := by
  by_contra hb
  rw [utf8Start_ascii (by simpa using hb)] at h
  cases h

theorem isASCII_of_utf8Continuation {b : UInt8} {d : ℕ} (h : utf8Continuation b = some d) :
    isASCII b = false := by
  unfold utf8Continuation at h
  split at h
  · rename_i hb
    simpa [isASCII] using hb.1
  · cases h

/-- **Inversion of one turn of the pass**: a character of one byte, the first byte of a
longer one, the last byte of one, or a byte in between. -/
theorem utf8Decode_cons {b : UInt8} {bs : List UInt8} {owed acc least : ℕ} {cs : List ℕ}
    (h : utf8Decode (b :: bs) owed acc least = some cs) :
    (isASCII b = true ∧ owed = 0 ∧
      ∃ ds, utf8Decode bs 0 0 0 = some ds ∧ cs = b.toNat :: ds) ∨
    (isASCII b = false ∧ ∃ n acc' least', utf8Decode bs (n + 1) acc' least' = some cs) ∨
    (isASCII b = false ∧ 0 < owed ∧ ∃ c ds, utf8Decode bs 0 0 0 = some ds ∧ cs = c :: ds) := by
  cases owed with
  | zero =>
    cases hstart : utf8Start b with
    | none => simp only [utf8Decode, hstart, reduceCtorEq] at h
    | some r =>
      obtain ⟨n, c, l⟩ := r
      cases n with
      | zero =>
        simp only [utf8Decode, hstart, Option.map_eq_some_iff] at h
        obtain ⟨ds, hds, rfl⟩ := h
        obtain ⟨hb, rfl⟩ := isASCII_of_utf8Start hstart
        exact Or.inl ⟨hb, rfl, ds, hds, rfl⟩
      | succ n =>
        simp only [utf8Decode, hstart] at h
        exact Or.inr (Or.inl ⟨isASCII_of_utf8Start_succ hstart, n, c, l, h⟩)
  | succ owed =>
    cases hcont : utf8Continuation b with
    | none => simp only [utf8Decode, hcont, reduceCtorEq] at h
    | some d =>
      have hb := isASCII_of_utf8Continuation hcont
      simp only [utf8Decode, hcont] at h
      cases owed with
      | zero =>
        simp only [Option.ite_none_right_eq_some, Option.map_eq_some_iff] at h
        obtain ⟨-, ds, hds, rfl⟩ := h
        exact Or.inr (Or.inr ⟨hb, Nat.one_pos, _, ds, hds, rfl⟩)
      | succ owed => exact Or.inr (Or.inl ⟨hb, owed, _, _, h⟩)

/-- Every character took a byte. -/
theorem length_utf8Decode {bs : List UInt8} :
    ∀ {owed acc least : ℕ} {cs : List ℕ}, utf8Decode bs owed acc least = some cs →
      cs.length ≤ bs.length := by
  induction bs with
  | nil =>
    intro owed acc least cs h
    cases owed <;> cases h
    exact Nat.le_refl _
  | cons b bs ih =>
    intro owed acc least cs h
    rcases utf8Decode_cons h with ⟨-, -, ds, hds, rfl⟩ | ⟨-, n, c, l, hrest⟩ |
      ⟨-, -, c, ds, hds, rfl⟩
    · exact Nat.succ_le_succ (ih hds)
    · exact Nat.le_trans (ih hrest) (Nat.le_succ _)
    · exact Nat.succ_le_succ (ih hds)

/-- **A string with a multi-byte character is shorter than its bytes.** -/
theorem length_utf8Chars_lt {bs : List UInt8} :
    ∀ {cs : List ℕ}, utf8Chars bs = some cs → (∃ b ∈ bs, isASCII b = false) →
      cs.length < bs.length := by
  induction bs with
  | nil =>
    rintro cs - ⟨b, hb, -⟩
    cases hb
  | cons b bs ih =>
    rintro cs h ⟨x, hx, hwide⟩
    rcases utf8Decode_cons h with ⟨hb, -, ds, hds, rfl⟩ | ⟨-, n, c, l, hrest⟩ | ⟨-, hpos, -⟩
    · rcases List.mem_cons.mp hx with rfl | hx
      · rw [hb] at hwide
        cases hwide
      · exact Nat.succ_lt_succ (ih hds ⟨x, hx, hwide⟩)
    · exact Nat.lt_succ_of_le (length_utf8Decode hrest)
    · cases hpos

/-- A zero byte is a zero character. -/
theorem zero_mem_utf8Decode {bs : List UInt8} :
    ∀ {owed acc least : ℕ} {cs : List ℕ}, utf8Decode bs owed acc least = some cs →
      0 ∈ bs → 0 ∈ cs := by
  induction bs with
  | nil =>
    intro owed acc least cs _ hz
    cases hz
  | cons b bs ih =>
    intro owed acc least cs h hz
    have hascii : isASCII (0 : UInt8) = true := by decide
    have htail : isASCII b = false → 0 ∈ bs := fun hb =>
      (List.mem_cons.mp hz).resolve_left (by rintro rfl; rw [hascii] at hb; cases hb)
    rcases utf8Decode_cons h with ⟨hb, -, ds, hds, rfl⟩ | ⟨hb, n, c, l, hrest⟩ |
      ⟨hb, -, c, ds, hds, rfl⟩
    · rcases List.mem_cons.mp hz with rfl | hz
      · exact List.mem_cons_self
      · exact List.mem_cons_of_mem _ (ih hds hz)
    · exact ih hrest (htail hb)
    · exact List.mem_cons_of_mem _ (ih hds (htail hb))

/-! ## Encoding -/

/-- The last `n` continuation bytes of a code point. -/
def utf8Tail : (n c : ℕ) → List UInt8
  | 0, _ => []
  | n + 1, c => UInt8.ofNat (0x80 + c / 64 ^ n % 64) :: utf8Tail n c

/-- The shortest encoding of a code point, `uvchr_to_utf8`. -/
def utf8Encode (c : ℕ) : List UInt8 :=
  if c < 0x80 then [UInt8.ofNat c]
  else if c < 0x800 then UInt8.ofNat (0xC0 + c / 64) :: utf8Tail 1 c
  else if c < 0x10000 then UInt8.ofNat (0xE0 + c / 64 ^ 2) :: utf8Tail 2 c
  else if c < 0x200000 then UInt8.ofNat (0xF0 + c / 64 ^ 3) :: utf8Tail 3 c
  else if c < 0x4000000 then UInt8.ofNat (0xF8 + c / 64 ^ 4) :: utf8Tail 4 c
  else if c < 0x80000000 then UInt8.ofNat (0xFC + c / 64 ^ 5) :: utf8Tail 5 c
  else if c < 0x1000000000 then 0xFE :: utf8Tail 6 c
  else 0xFF :: utf8Tail 12 c

theorem length_utf8Tail (n c : ℕ) : (utf8Tail n c).length = n := by
  induction n with
  | zero => rfl
  | succ n ih => rw [utf8Tail, List.length_cons, ih]

theorem utf8Continuation_ofNat (d : ℕ) (hd : d < 64) :
    utf8Continuation (UInt8.ofNat (0x80 + d)) = some d := by
  have hbyte : (UInt8.ofNat (0x80 + d)).toNat = 0x80 + d := by
    rw [UInt8.toNat_ofNat']
    omega
  rw [utf8Continuation, hbyte, if_pos (by omega), Nat.add_sub_cancel_left]

/-- The continuation bytes bring the bits they were made of, and end the character. -/
theorem utf8Decode_tail (n c : ℕ) (bs : List UInt8) (acc least : ℕ) :
    utf8Decode (utf8Tail (n + 1) c ++ bs) (n + 1) acc least =
      if least ≤ acc * 64 ^ (n + 1) + c % 64 ^ (n + 1) ∧
          acc * 64 ^ (n + 1) + c % 64 ^ (n + 1) < 2 ^ 63 then
        (utf8Decode bs 0 0 0).map ((acc * 64 ^ (n + 1) + c % 64 ^ (n + 1)) :: ·)
      else none := by
  induction n generalizing acc with
  | zero =>
    have hd : c / 64 ^ 0 % 64 < 64 := Nat.mod_lt _ (by decide)
    rw [utf8Tail, List.cons_append, utf8Decode, utf8Continuation_ofNat _ hd]
    simp only [utf8Tail, List.nil_append, pow_zero, Nat.div_one, Nat.zero_add, pow_one]
  | succ n ih =>
    have hd : c / 64 ^ (n + 1) % 64 < 64 := Nat.mod_lt _ (by decide)
    have hbits : (acc * 64 + c / 64 ^ (n + 1) % 64) * 64 ^ (n + 1) + c % 64 ^ (n + 1) =
        acc * 64 ^ (n + 1 + 1) + c % 64 ^ (n + 1 + 1) := by
      rw [Nat.mod_pow_succ (x := c) (b := 64) (k := n + 1), pow_succ 64 (n + 1)]
      ring
    rw [utf8Tail, List.cons_append, utf8Decode, utf8Continuation_ofNat _ hd]
    rw [← hbits]
    exact ih (acc * 64 + c / 64 ^ (n + 1) % 64)

/-- A first byte and the continuation bytes it announces are one character. -/
theorem utf8Decode_start {b : UInt8} {n c l : ℕ} (bs : List UInt8)
    (hstart : utf8Start b = some (n + 1, c / 64 ^ (n + 1), l)) (hl : l ≤ c) (hc : c < 2 ^ 63) :
    utf8Decode (b :: utf8Tail (n + 1) c ++ bs) 0 0 0 = (utf8Decode bs 0 0 0).map (c :: ·) := by
  have hbits : c / 64 ^ (n + 1) * 64 ^ (n + 1) + c % 64 ^ (n + 1) = c := Nat.div_add_mod' _ _
  rw [List.cons_append, utf8Decode, hstart]
  dsimp only
  rw [utf8Decode_tail, hbits, if_pos ⟨hl, hc⟩]

theorem toNat_ofNat_of_lt {n : ℕ} (h : n < 256) : (UInt8.ofNat n).toNat = n := by
  rw [UInt8.toNat_ofNat']
  exact Nat.mod_eq_of_lt h

/-- **A code point is read back from its encoding.** -/
theorem utf8Decode_encode {c : ℕ} (hc : c < 2 ^ 63) (bs : List UInt8) :
    utf8Decode (utf8Encode c ++ bs) 0 0 0 = (utf8Decode bs 0 0 0).map (c :: ·) := by
  have hnone : ∀ n, c < 64 ^ n → c / 64 ^ n = 0 := fun n => Nat.div_eq_of_lt
  unfold utf8Encode
  split_ifs with h1 h2 h3 h4 h5 h6 h7
  · have hbyte := toNat_ofNat_of_lt (show c < 256 by omega)
    rw [List.singleton_append, utf8Decode, utf8Start, hbyte]
    simp only [h1, if_true]
  · have hbyte := toNat_ofNat_of_lt (show 0xC0 + c / 64 < 256 by omega)
    refine utf8Decode_start (n := 0) bs ?_ (show 0x80 ≤ c by omega) hc
    rw [utf8Start, hbyte, if_neg (by omega), if_neg (by omega), if_pos (by omega),
      Nat.add_sub_cancel_left, zero_add, pow_one]
  · have hbyte := toNat_ofNat_of_lt (show 0xE0 + c / 64 ^ 2 < 256 by omega)
    refine utf8Decode_start (n := 1) bs ?_ (show 0x800 ≤ c by omega) hc
    rw [utf8Start, hbyte, if_neg (by omega), if_neg (by omega), if_neg (by omega),
      if_pos (by omega), Nat.add_sub_cancel_left]
  · have hbyte := toNat_ofNat_of_lt (show 0xF0 + c / 64 ^ 3 < 256 by omega)
    refine utf8Decode_start (n := 2) bs ?_ (show 0x10000 ≤ c by omega) hc
    rw [utf8Start, hbyte, if_neg (by omega), if_neg (by omega), if_neg (by omega),
      if_neg (by omega), if_pos (by omega), Nat.add_sub_cancel_left]
  · have hbyte := toNat_ofNat_of_lt (show 0xF8 + c / 64 ^ 4 < 256 by omega)
    refine utf8Decode_start (n := 3) bs ?_ (show 0x200000 ≤ c by omega) hc
    rw [utf8Start, hbyte, if_neg (by omega), if_neg (by omega), if_neg (by omega),
      if_neg (by omega), if_neg (by omega), if_pos (by omega), Nat.add_sub_cancel_left]
  · have hbyte := toNat_ofNat_of_lt (show 0xFC + c / 64 ^ 5 < 256 by omega)
    refine utf8Decode_start (n := 4) bs ?_ (show 0x4000000 ≤ c by omega) hc
    rw [utf8Start, hbyte, if_neg (by omega), if_neg (by omega), if_neg (by omega),
      if_neg (by omega), if_neg (by omega), if_neg (by omega), if_pos (by omega),
      Nat.add_sub_cancel_left]
  · refine utf8Decode_start (n := 5) bs ?_ (show 0x80000000 ≤ c by omega) hc
    rw [hnone 6 (by omega)]
    decide
  · refine utf8Decode_start (n := 11) bs ?_ (show 0x1000000000 ≤ c by omega) hc
    rw [hnone 12 (by omega)]
    decide

/-- A string is read back from the encodings of its characters. -/
theorem utf8Chars_encode {cs : List ℕ} (hcs : ∀ c ∈ cs, c < 2 ^ 63) :
    utf8Chars (cs.flatMap utf8Encode) = some cs := by
  unfold utf8Chars
  induction cs with
  | nil => rfl
  | cons c cs ih =>
    obtain ⟨hc, hrest⟩ := List.forall_mem_cons.mp hcs
    rw [List.flatMap_cons, utf8Decode_encode hc, ih hrest, Option.map_some]

/-- Only the zero character has a zero byte. -/
theorem zero_notMem_utf8Encode {c : ℕ} (hc : c ≠ 0) (hmax : c < 2 ^ 63) : 0 ∉ utf8Encode c := by
  intro hz
  have hdecode : utf8Decode (utf8Encode c) 0 0 0 = some [c] := by
    have happend := utf8Decode_encode hmax []
    rw [List.append_nil] at happend
    exact happend
  have hmem := zero_mem_utf8Decode hdecode hz
  exact hc (List.mem_singleton.mp hmem).symm

/-! ## Upgrading and downgrading

A string of characters below `256` has a second form, one byte a character. -/

/-- The multi-byte form of a one-byte-a-character string. -/
def upgrade (bs : List UInt8) : List UInt8 := bs.flatMap fun b => utf8Encode b.toNat

theorem utf8Chars_upgrade (bs : List UInt8) :
    utf8Chars (upgrade bs) = some (bs.map UInt8.toNat) := by
  have hbytes : upgrade bs = (bs.map UInt8.toNat).flatMap utf8Encode :=
    (List.flatMap_map _ _ bs).symm
  rw [hbytes]
  apply utf8Chars_encode
  intro c hc
  obtain ⟨b, -, rfl⟩ := List.mem_map.mp hc
  exact b.toNat_lt.trans (by decide)

/-- The one-byte-a-character form of a list of code points, when all are below `256`. -/
def downgrade : List ℕ → Option (List UInt8)
  | [] => some []
  | c :: cs => if c < 256 then (downgrade cs).map (UInt8.ofNat c :: ·) else none

end Affix.Foundation
