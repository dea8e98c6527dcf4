import Affix.Foundation.Memory

/-!
# What a run makes of the memory

Code that allocates moves the break on; whatever it makes lies between the old break
and the new one. `Grows` is `Extends` with that said of every block that was not there
before. `Shows` compares one such stretch with a later memory, in which more has been
made and the blocks from before may be missing: nothing else is live in the stretch,
and its bytes are the same. So an access in the stretch has the result in the later
memory that it has in its own, and one past the end of a block has none.
-/

set_option autoImplicit false

namespace Affix.Foundation

namespace Mem

variable {m m' m'' : Mem} {keep keep' : ℕ → Prop}

/-- The memory went on from `m` to `m'`, and new blocks lie above the old break. -/
structure Grows (m m' : Mem) (keep : ℕ → Prop) : Prop extends m.Extends m' keep where
  fresh : ∀ b ∈ m'.blocks, b ∈ m.blocks ∨ m.brk ≤ b.1

theorem Grows.refl (m : Mem) (keep : ℕ → Prop) : m.Grows m keep :=
  ⟨Extends.refl m keep, fun _ hb => Or.inl hb⟩

/-- What the second part keeps of the old memory it keeps in all. -/
theorem Grows.trans (h : m.Grows m' keep) (h' : m'.Grows m'' keep')
    (hkeep : ∀ x < m.brk, keep x → keep' x) : m.Grows m'' keep where
  toExtends := (h.toExtends.trans h'.toExtends).weaken fun x hx hk => ⟨hk, hkeep x hx hk⟩
  fresh b hb := by
    rcases h'.fresh b hb with hb | hb
    · exact h.fresh b hb
    · exact Or.inr (h.brk_le.trans hb)

theorem Grows.weaken (h : m.Grows m' keep) (hkeep : ∀ x < m.brk, keep' x → keep x) :
    m.Grows m' keep' :=
  ⟨h.toExtends.weaken hkeep, h.fresh⟩

theorem grows_poke (m : Mem) (a : ℕ) (bs : List UInt8) : m.Grows (m.poke a bs) (fun x => x < a) :=
  ⟨(extends_poke m a bs).weaken fun _ _ hx => Or.inl hx, fun _ hb => Or.inl hb⟩

theorem grows_malloc {n p : ℕ} (h : m.malloc n = some (p, m')) : m.Grows m' keep := by
  obtain ⟨rfl, hbrk, hblocks, hbytes⟩ := malloc_eq_some h
  refine ⟨⟨hbrk ▸ Nat.le_add_right _ _, fun b hb => ?_, fun x _ _ => congrFun hbytes x⟩,
    fun b hb => ?_⟩
  · rw [hblocks]
    exact List.mem_cons_of_mem _ hb
  · rw [hblocks] at hb
    rcases List.mem_cons.mp hb with rfl | hb
    · exact Or.inr le_rfl
    · exact Or.inl hb

/-! ## The stretch between two breaks -/

/-- The memory without the blocks below an address. -/
def above (m : Mem) (lo : ℕ) : Mem :=
  { m with
    blocks := m.blocks.filter fun b => lo ≤ b.1
    block_pos := fun b hb => m.block_pos b (List.mem_filter.mp hb).1
    block_end := fun b hb => m.block_end b (List.mem_filter.mp hb).1 }

theorem inBlock_above {lo a n : ℕ} :
    (m.above lo).InBlock a n ↔ ∃ b ∈ m.blocks, lo ≤ b.1 ∧ b.1 ≤ a ∧ a + n ≤ b.1 + b.2 := by
  unfold InBlock above
  simp only [List.mem_filter, decide_eq_true_eq, and_assoc]

/-- Between two addresses the later memory has the bytes of `m`, and what `m` has above the
first is all that is live. -/
structure Shows (m : Mem) (lo hi : ℕ) (m' : Mem) : Prop where
  bytes : ∀ x, lo ≤ x → x < hi → m'.bytes x = m.bytes x
  live : ∀ x n, 0 < n → lo ≤ x → x < hi → (m'.InBlock x n ↔ (m.above lo).InBlock x n)
  brk_le : hi ≤ m'.brk

theorem shows_above (m : Mem) (lo : ℕ) : m.Shows lo m.brk (m.above lo) :=
  ⟨fun _ _ _ => rfl, fun _ _ _ _ _ => Iff.rfl, le_rfl⟩

/-- **A part of the stretch**: what was made between two breaks is there later on, if what
came after kept it. -/
theorem Shows.part {m₁ m₂ m₃ : Mem} {lo hi : ℕ} (h : m₃.Shows lo hi m') (h₁₂ : m₁.Grows m₂ keep)
    (h₂₃ : m₂.Grows m₃ keep') (hlo : lo ≤ m₁.brk) (hhi : m₂.brk ≤ hi)
    (hkeep : ∀ x, m₁.brk ≤ x → x < m₂.brk → keep' x) : m₂.Shows m₁.brk m₂.brk m' where
  bytes x hlo' hhi' := by
    rw [h.bytes x (hlo.trans hlo') (hhi'.trans_le hhi), h₂₃.bytes x hhi' (hkeep x hlo' hhi')]
  live x n hn hlo' hhi' := by
    rw [h.live x n hn (hlo.trans hlo') (hhi'.trans_le hhi), inBlock_above, inBlock_above]
    constructor
    · rintro ⟨b, hb, -, hbx, hxb⟩
      have hb₂ : b ∈ m₂.blocks := (h₂₃.fresh b hb).resolve_right (by omega)
      refine ⟨b, hb₂, ?_, hbx, hxb⟩
      rcases h₁₂.fresh b hb₂ with hb₁ | hb₁
      · -- a block from before ends below the stretch
        have := m₁.block_end b hb₁
        omega
      · exact hb₁
    · rintro ⟨b, hb, hb₁, hbx, hxb⟩
      exact ⟨b, h₂₃.blocks b hb, hlo.trans hb₁, hbx, hxb⟩
  brk_le := hhi.trans h.brk_le

/-- What is made later on is made elsewhere. -/
theorem Shows.grows {lo hi : ℕ} (h : m.Shows lo hi m') (hg : m'.Grows m'' fun _ => True) :
    m.Shows lo hi m'' where
  bytes x hlo hhi := by rw [hg.bytes x (hhi.trans_le h.brk_le) trivial, h.bytes x hlo hhi]
  live x n hn hlo hhi := by
    rw [← h.live x n hn hlo hhi]
    refine ⟨fun ⟨b, hb, hbx, hxb⟩ => ⟨b, ?_, hbx, hxb⟩, fun hin => hg.inBlock hin⟩
    refine (hg.fresh b hb).resolve_right fun hbrk => ?_
    have := h.brk_le
    omega
  brk_le := h.brk_le.trans hg.brk_le

/-- **The block a stretch begins with**: an access from it is within it or has no result. -/
theorem Shows.inBlock_iff {m₁ m₂ : Mem} {q n hi : ℕ} (halloc : m.malloc n = some (q, m₁))
    (hg : m₁.Grows m₂ keep) (h : m₂.Shows m.brk hi m') {i k : ℕ} (hk : 0 < k) (hi' : i ≤ n)
    (hhi : m₁.brk ≤ hi) : m'.InBlock (q + i) k ↔ i + k ≤ n := by
  obtain ⟨rfl, hbrk, hblocks, -⟩ := malloc_eq_some halloc
  have hroom : m₁.brk = m.brk + (n + 8) := hbrk
  rw [h.live _ k hk (Nat.le_add_right _ _) (by omega), inBlock_above]
  constructor
  · rintro ⟨b, hb, hlo, hbx, hxb⟩
    rcases hg.fresh b hb with hb | hb
    · rw [hblocks] at hb
      rcases List.mem_cons.mp hb with rfl | hb
      · exact Nat.le_of_add_le_add_left (by rw [← Nat.add_assoc]; exact hxb)
      · have := m.block_end b hb
        omega
    · omega
  · intro hle
    refine ⟨(m.brk, n), hg.blocks _ ?_, le_rfl, Nat.le_add_right _ _, ?_⟩
    · rw [hblocks]
      exact List.mem_cons_self
    · show m.brk + i + k ≤ m.brk + n
      omega

/-! ## A place with an end

Behind the end of a new block comes the word of the allocator, and what is made later lies
farther on. So code that goes on from the block without a gap stays in it, or faults. -/

/-- An access that starts in the place or at its end stays in the place. -/
structure Sealed (m : Mem) (a room : ℕ) : Prop where
  within : ∀ i n, i ≤ room → 0 < n → m.InBlock (a + i) n → i + n ≤ room
  below : a + room < m.brk

theorem sealed_malloc {n p : ℕ} (h : m.malloc n = some (p, m')) : m'.Sealed p n := by
  obtain ⟨rfl, hbrk, hblocks, -⟩ := malloc_eq_some h
  have hroom : m'.brk = m.brk + (n + 8) := hbrk
  refine ⟨fun i k _ hk hin => ?_, by omega⟩
  obtain ⟨b, hb, hlo, hhi⟩ := hin
  rw [hblocks] at hb
  rcases List.mem_cons.mp hb with rfl | hb
  · dsimp only at hhi
    omega
  · -- a block from before ends below the new one
    have := m.block_end b hb
    omega

theorem Sealed.grows {a room : ℕ} (hs : m.Sealed a room) (hg : m.Grows m' keep) :
    m'.Sealed a room where
  within i n hi hn hin := by
    obtain ⟨b, hb, hlo, hhi⟩ := hin
    have hbelow := hs.below
    have hb : b ∈ m.blocks := (hg.fresh b hb).resolve_right (by omega)
    exact hs.within i n hi hn ⟨b, hb, hlo, hhi⟩
  below := hs.below.trans_le hg.brk_le

theorem Sealed.part {a room i : ℕ} (hs : m.Sealed a room) (hi : i ≤ room) :
    m.Sealed (a + i) (room - i) where
  within j n hj hn hin := by
    rw [Nat.add_assoc] at hin
    have := hs.within (i + j) n (by omega) hn hin
    omega
  below := by
    have := hs.below
    omega

end Mem

end Affix.Foundation
