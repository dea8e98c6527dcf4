import Affix.Foundation.CInt

/-!
# Little-endian bytes

The memory image of an integer of `n` bytes on a little-endian machine, and the
number a byte string stands for. A store followed by a load of the same width
returns the residue of the stored number, which is the whole content of the
round trip of a C scalar through memory.
-/

set_option autoImplicit false

namespace Affix.Foundation

/-- The `n` low bytes of `v`, least significant first. -/
def encodeLE : (n v : ℕ) → List UInt8
  | 0, _ => []
  | n + 1, v => UInt8.ofNat (v % 256) :: encodeLE n (v / 256)

/-- The number whose bytes, least significant first, are `bs`. -/
def decodeLE : List UInt8 → ℕ
  | [] => 0
  | b :: bs => b.toNat + 256 * decodeLE bs

@[simp] theorem length_encodeLE (n v : ℕ) : (encodeLE n v).length = n := by
  induction n generalizing v with
  | zero => rfl
  | succ n ih => simp [encodeLE, ih]

/-- Loading what was stored gives the stored number up to the width of the store. -/
theorem decodeLE_encodeLE (n v : ℕ) : decodeLE (encodeLE n v) = v % 256 ^ n := by
  induction n generalizing v with
  | zero => simp [encodeLE, decodeLE, Nat.mod_one]
  | succ n ih =>
    have hb : (UInt8.ofNat (v % 256)).toNat = v % 256 := by
      simp [UInt8.toNat_ofNat']
    rw [encodeLE, decodeLE, ih, hb, pow_succ', Nat.mod_mul]

theorem decodeLE_encodeLE_of_lt {n v : ℕ} (h : v < 256 ^ n) :
    decodeLE (encodeLE n v) = v := by
  rw [decodeLE_encodeLE, Nat.mod_eq_of_lt h]

namespace CIntType

def size (t : CIntType) : ℕ := t.bits / 8

/-- The memory image of the conversion of `x` to the type. -/
def encode (t : CIntType) (x : ℤ) : List UInt8 := encodeLE t.size (x % t.card).toNat

/-- The value of the type a memory image stands for. -/
def decode (t : CIntType) (bs : List UInt8) : ℤ := t.wrap (decodeLE bs)

@[simp] theorem length_encode (t : CIntType) (x : ℤ) : (t.encode x).length = t.size :=
  length_encodeLE ..

/-- The image depends on a number only through its conversion. -/
theorem encode_congr {t : CIntType} {x y : ℤ} (h : t.wrap x = t.wrap y) :
    t.encode x = t.encode y := by
  have hmod : x % t.card = y % t.card := by rw [← t.wrap_emod x, h, t.wrap_emod]
  unfold encode
  rw [hmod]

def Bytewise (t : CIntType) : Prop := t.bits = 8 * t.size

instance (t : CIntType) : Decidable t.Bytewise := inferInstanceAs (Decidable (_ = _))

theorem card_eq_pow_size {t : CIntType} (h : t.Bytewise) : t.card = 256 ^ t.size := by
  unfold card
  rw [h, pow_mul]
  norm_num

/-- Reading an image at any type of the same width converts the stored value to the
reading type. -/
theorem decode_encode {t u : CIntType} (ht : t.Bytewise) (hbits : t.bits = u.bits) (x : ℤ) :
    u.decode (t.encode x) = u.wrap x := by
  have hcard : t.card = u.card := by unfold card; rw [hbits]
  have hnonneg := Int.emod_nonneg x t.card_pos.ne'
  have hlt : (x % t.card).toNat < 256 ^ t.size := by
    have := Int.emod_lt_of_pos x t.card_pos
    rw [card_eq_pow_size ht] at this hnonneg ⊢
    zify
    rw [Int.toNat_of_nonneg hnonneg]
    exact this
  unfold decode encode
  rw [decodeLE_encodeLE_of_lt hlt, Int.toNat_of_nonneg hnonneg]
  exact wrap_congr (by rw [hcard, Int.emod_emod_of_dvd _ dvd_rfl])

end CIntType

end Affix.Foundation
