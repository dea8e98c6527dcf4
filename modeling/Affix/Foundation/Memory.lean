import Mathlib.Algebra.Order.Group.Nat
import Mathlib.Tactic.Common

/-!
# A byte-addressed heap of blocks

Memory is a function from addresses to bytes together with the blocks that may
be touched. Blocks come from an allocator that only moves forward, so a new
block is apart from every block there was, and an access outside all blocks has
no result. The frame lemmas say what a write and an allocation leave alone; they
are all a proof about a marshaller needs to know of memory.
-/

set_option autoImplicit false

namespace Affix.Foundation

/-- The first address that is not a user address. -/
def addrLimit : ℕ := 2 ^ 47

/-- Memory: its bytes, the live blocks as a start and a length, and the first address
above every block. Address `0` is in no block. -/
structure Mem where
  bytes : ℕ → UInt8
  blocks : List (ℕ × ℕ)
  brk : ℕ
  brk_pos : 0 < brk
  brk_le : brk ≤ addrLimit
  block_pos : ∀ b ∈ blocks, 0 < b.1
  block_end : ∀ b ∈ blocks, b.1 + b.2 ≤ brk

namespace Mem

def empty (brk : ℕ) (hpos : 0 < brk) (hle : brk ≤ addrLimit) : Mem :=
  ⟨fun _ => 0, [], brk, hpos, hle, by simp, by simp⟩

/-- The `n` bytes from `a` lie in one live block. -/
def InBlock (m : Mem) (a n : ℕ) : Prop := ∃ b ∈ m.blocks, b.1 ≤ a ∧ a + n ≤ b.1 + b.2

instance (m : Mem) (a n : ℕ) : Decidable (m.InBlock a n) :=
  inferInstanceAs (Decidable (∃ b ∈ m.blocks, _))

/-- The bytes from `a`, without regard to blocks. -/
def peek (m : Mem) : (a n : ℕ) → List UInt8
  | _, 0 => []
  | a, n + 1 => m.bytes a :: m.peek (a + 1) n

/-- A load of `n` bytes; it has no result outside the live blocks. -/
def read (m : Mem) (a n : ℕ) : Option (List UInt8) :=
  if n = 0 ∨ m.InBlock a n then some (m.peek a n) else none

/-- The bytes after `bs` is laid over them at `a`. -/
def overlay (f : ℕ → UInt8) (a : ℕ) (bs : List UInt8) (x : ℕ) : UInt8 :=
  if a ≤ x then (bs[x - a]?).getD (f x) else f x

/-- Laying bytes over memory, without regard to blocks. -/
def poke (m : Mem) (a : ℕ) (bs : List UInt8) : Mem := { m with bytes := overlay m.bytes a bs }

/-- A store; it has no result outside the live blocks. -/
def write (m : Mem) (a : ℕ) (bs : List UInt8) : Option Mem :=
  if bs = [] ∨ m.InBlock a bs.length then some (m.poke a bs) else none

/-- The room a request of `n` bytes takes: the allocator keeps a word for itself behind every
block, so empty blocks have addresses of their own and no two blocks touch. -/
def room (n : ℕ) : ℕ := n + 8

/-- Allocation of `n` bytes, contents unchanged; none when memory runs out. -/
def malloc (m : Mem) (n : ℕ) : Option (ℕ × Mem) :=
  if h : m.brk + room n ≤ addrLimit then
    some (m.brk, { m with
      blocks := (m.brk, n) :: m.blocks
      brk := m.brk + room n
      brk_pos := Nat.lt_of_lt_of_le m.brk_pos (Nat.le_add_right _ _)
      brk_le := h
      block_pos := by
        intro b hb
        rcases List.mem_cons.mp hb with rfl | hb
        · exact m.brk_pos
        · exact m.block_pos b hb
      block_end := by
        intro b hb
        rcases List.mem_cons.mp hb with rfl | hb
        · exact Nat.add_le_add_left (Nat.le_add_right _ _) _
        · exact (m.block_end b hb).trans (Nat.le_add_right _ _) })
  else none

/-- Allocation of `n` zeroed bytes. -/
def calloc (m : Mem) (n : ℕ) : Option (ℕ × Mem) :=
  (m.malloc n).map fun (p, m') => (p, m'.poke p (List.replicate n 0))

/-- Release of the block that starts at `a`; none when there is no such block. -/
def free (m : Mem) (a : ℕ) : Option Mem :=
  if a ∈ m.blocks.map Prod.fst then
    some { m with
      blocks := m.blocks.filter fun b => b.1 ≠ a
      block_pos := fun b hb => m.block_pos b (List.mem_filter.mp hb).1
      block_end := fun b hb => m.block_end b (List.mem_filter.mp hb).1 }
  else none

/-! ## Reading -/

@[simp] theorem length_peek (m : Mem) (a n : ℕ) : (m.peek a n).length = n := by
  induction n generalizing a with
  | zero => rfl
  | succ n ih => simp [peek, ih]

theorem getElem?_peek (m : Mem) (a n i : ℕ) (h : i < n) :
    (m.peek a n)[i]? = some (m.bytes (a + i)) := by
  induction n generalizing a i with
  | zero => omega
  | succ n ih =>
    cases i with
    | zero => simp [peek]
    | succ i =>
      have := ih (a + 1) i (by omega)
      simpa [peek, Nat.add_assoc, Nat.add_comm 1 i] using this

theorem peek_congr {m m' : Mem} {a n : ℕ} (h : ∀ x, a ≤ x → x < a + n → m.bytes x = m'.bytes x) :
    m.peek a n = m'.peek a n := by
  induction n generalizing a with
  | zero => rfl
  | succ n ih =>
    rw [peek, peek, h a (le_refl a) (by omega)]
    exact congrArg _ (ih fun x hlo hhi => h x (by omega) (by omega))

theorem peek_append (m : Mem) (a n k : ℕ) : m.peek a (n + k) = m.peek a n ++ m.peek (a + n) k := by
  induction n generalizing a with
  | zero => simp [peek]
  | succ n ih =>
    rw [show n + 1 + k = n + k + 1 by omega, show a + (n + 1) = a + 1 + n by omega, peek, ih, peek]
    rfl

theorem peek_poke_same (m : Mem) (a : ℕ) (bs : List UInt8) :
    (m.poke a bs).peek a bs.length = bs := by
  apply List.ext_getElem?
  intro i
  by_cases hi : i < bs.length
  · rw [getElem?_peek _ _ _ _ hi]
    simp [poke, overlay, List.getElem?_eq_getElem hi]
  · simp [not_lt.mp hi]

theorem peek_poke_replicate (m : Mem) (a n : ℕ) :
    (m.poke a (List.replicate n 0)).peek a n = List.replicate n 0 := by
  have := peek_poke_same m a (List.replicate n 0)
  rwa [List.length_replicate] at this

@[simp] theorem poke_nil (m : Mem) (a : ℕ) : m.poke a [] = m := by
  have hbytes : overlay m.bytes a [] = m.bytes := by
    funext x
    simp [overlay]
  rw [poke, hbytes]

theorem bytes_poke_of_disjoint {m : Mem} {a : ℕ} {bs : List UInt8} {x : ℕ}
    (h : x < a ∨ a + bs.length ≤ x) : (m.poke a bs).bytes x = m.bytes x := by
  unfold poke overlay
  rcases h with h | h
  · simp [not_le.mpr h]
  · have : bs[x - a]? = none := List.getElem?_eq_none (by omega)
    simp [this]

/-! ## Blocks -/

theorem InBlock.pos {m : Mem} {a n : ℕ} (h : m.InBlock a n) : 0 < a := by
  obtain ⟨b, hb, hlo, _⟩ := h
  exact (m.block_pos b hb).trans_le hlo

theorem InBlock.le_brk {m : Mem} {a n : ℕ} (h : m.InBlock a n) : a + n ≤ m.brk := by
  obtain ⟨b, hb, _, hhi⟩ := h
  exact hhi.trans (m.block_end b hb)

theorem InBlock.mono {m : Mem} {a n a' n' : ℕ} (h : m.InBlock a n) (hlo : a ≤ a')
    (hhi : a' + n' ≤ a + n) : m.InBlock a' n' := by
  obtain ⟨b, hb, h1, h2⟩ := h
  exact ⟨b, hb, h1.trans hlo, hhi.trans h2⟩

theorem read_eq_peek {m : Mem} {a n : ℕ} (h : m.InBlock a n) : m.read a n = some (m.peek a n) := by
  simp [read, h]

@[simp] theorem blocks_poke (m : Mem) (a : ℕ) (bs : List UInt8) :
    (m.poke a bs).blocks = m.blocks := rfl

/-! ## Extension

`m.Extends m'` holds when `m'` came from `m` by allocations and by writes at or
above a bound: every old block is still live and every byte below the bound, and
below the old break, is what it was. -/

/-- The allocator moved on from `m` to `m'` and old memory outside `keep` was left alone. -/
structure Extends (m m' : Mem) (keep : ℕ → Prop) : Prop where
  brk_le : m.brk ≤ m'.brk
  blocks : ∀ b ∈ m.blocks, b ∈ m'.blocks
  bytes : ∀ x, x < m.brk → keep x → m'.bytes x = m.bytes x

theorem Extends.refl (m : Mem) (keep : ℕ → Prop) : m.Extends m keep :=
  ⟨le_refl _, fun _ h => h, fun _ _ _ => rfl⟩

theorem Extends.trans {m m' m'' : Mem} {keep keep' : ℕ → Prop} (h : m.Extends m' keep)
    (h' : m'.Extends m'' keep') : m.Extends m'' (fun x => keep x ∧ keep' x) where
  brk_le := h.brk_le.trans h'.brk_le
  blocks b hb := h'.blocks b (h.blocks b hb)
  bytes x hx hk := by
    rw [h'.bytes x (hx.trans_le h.brk_le) hk.2, h.bytes x hx hk.1]

theorem Extends.weaken {m m' : Mem} {keep keep' : ℕ → Prop} (h : m.Extends m' keep)
    (hk : ∀ x, x < m.brk → keep' x → keep x) : m.Extends m' keep' :=
  ⟨h.brk_le, h.blocks, fun x hx hk' => h.bytes x hx (hk x hx hk')⟩

theorem Extends.inBlock {m m' : Mem} {keep : ℕ → Prop} (h : m.Extends m' keep) {a n : ℕ}
    (hin : m.InBlock a n) : m'.InBlock a n := by
  obtain ⟨b, hb, hlo, hhi⟩ := hin
  exact ⟨b, h.blocks b hb, hlo, hhi⟩

theorem Extends.peek {m m' : Mem} {keep : ℕ → Prop} (h : m.Extends m' keep) {a n : ℕ}
    (hin : m.InBlock a n) (hk : ∀ x, a ≤ x → x < a + n → keep x) :
    m'.peek a n = m.peek a n :=
  peek_congr fun x hlo hhi => h.bytes x (by have := hin.le_brk; omega) (hk x hlo hhi)

theorem extends_poke (m : Mem) (a : ℕ) (bs : List UInt8) :
    m.Extends (m.poke a bs) (fun x => x < a ∨ a + bs.length ≤ x) :=
  ⟨le_refl _, fun _ h => h, fun _ _ hk => bytes_poke_of_disjoint hk⟩

/-! ## Allocation -/

/-- There is no room for `n` more bytes. -/
def Exhausted (m : Mem) (n : ℕ) : Prop := addrLimit < m.brk + room n

theorem malloc_eq_none_iff {m : Mem} {n : ℕ} : m.malloc n = none ↔ m.Exhausted n := by
  unfold malloc Exhausted
  split
  · rename_i hroom
    simp only [reduceCtorEq, false_iff]
    exact not_lt.mpr hroom
  · rename_i hroom
    simp only [true_iff]
    exact not_le.mp hroom

theorem calloc_eq_none_iff {m : Mem} {n : ℕ} : m.calloc n = none ↔ m.Exhausted n := by
  rw [calloc, Option.map_eq_none_iff, malloc_eq_none_iff]

/-- What a successful request did: the block starts at the old break, below the limit, and
old memory is as it was. -/
theorem malloc_cases {m m' : Mem} {n p : ℕ} (h : m.malloc n = some (p, m')) :
    p = m.brk ∧ p < addrLimit ∧ m'.InBlock p n ∧ p + n ≤ m'.brk ∧
      m.Extends m' (fun _ => True) := by
  unfold malloc at h
  split at h
  · rename_i hroom
    simp only [Option.some.injEq, Prod.mk.injEq] at h
    obtain ⟨rfl, rfl⟩ := h
    have hone : 1 ≤ room n := Nat.le_add_left 1 (n + 7)
    have hn : n ≤ room n := Nat.le_add_right n 8
    refine ⟨rfl, by omega, ⟨(m.brk, n), List.mem_cons_self .., le_refl _, le_refl _⟩, ?_, ?_⟩
    · exact Nat.add_le_add_left hn _
    · exact ⟨Nat.le_add_right _ _, fun b hb => List.mem_cons_of_mem _ hb, fun _ _ _ => rfl⟩
  · simp at h

/-- What a successful request made of the memory. -/
theorem malloc_eq_some {m m' : Mem} {n p : ℕ} (h : m.malloc n = some (p, m')) :
    p = m.brk ∧ m'.brk = m.brk + room n ∧ m'.blocks = (p, n) :: m.blocks ∧ m'.bytes = m.bytes := by
  unfold malloc at h
  split at h
  · simp only [Option.some.injEq, Prod.mk.injEq] at h
    obtain ⟨rfl, rfl⟩ := h
    exact ⟨rfl, rfl, rfl, rfl⟩
  · simp at h

/-- The block a request made. -/
theorem malloc_block {m m' : Mem} {n p : ℕ} (h : m.malloc n = some (p, m')) :
    (p, n) ∈ m'.blocks := by
  unfold malloc at h
  split at h
  · simp only [Option.some.injEq, Prod.mk.injEq] at h
    obtain ⟨rfl, rfl⟩ := h
    exact List.mem_cons_self
  · simp at h

theorem calloc_block {m m' : Mem} {n p : ℕ} (h : m.calloc n = some (p, m')) :
    (p, n) ∈ m'.blocks := by
  obtain ⟨⟨q, m₁⟩, hm, hq⟩ := Option.map_eq_some_iff.mp h
  cases hq
  have hblock : (p, n) ∈ m₁.blocks := malloc_block hm
  exact hblock

/-- What a successful request for zeroed memory did, besides: the block reads as zero. -/
theorem calloc_cases {m m' : Mem} {n p : ℕ} (h : m.calloc n = some (p, m')) :
    p = m.brk ∧ p < addrLimit ∧ m'.InBlock p n ∧ p + n ≤ m'.brk ∧
      m.Extends m' (fun _ => True) ∧ m'.peek p n = List.replicate n 0 := by
  obtain ⟨⟨q, m₁⟩, hm, hq⟩ := Option.map_eq_some_iff.mp h
  cases hq
  obtain ⟨hp, hlim, hin, hend, hext⟩ := malloc_cases hm
  refine ⟨hp, hlim, hin, hend, ⟨hext.brk_le, hext.blocks, fun x hx _ => ?_⟩,
    peek_poke_replicate _ _ _⟩
  rw [← hext.bytes x hx trivial]
  exact bytes_poke_of_disjoint (Or.inl (hp ▸ hx))

end Mem

end Affix.Foundation
