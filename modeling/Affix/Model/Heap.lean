import Affix.Foundation.Bytes
import Affix.Foundation.Exec
import Affix.Foundation.Memory
import Affix.Model.Perl

/-!
# The heap that marshalling works on

C memory, the Perl values whose address was handed to C, and the callbacks that
were made. `Eff` is the monad of the C++ code over it. The primitives are the
handful of Perl API calls the marshaller makes: a zeroed allocation, a copy into
memory, a copy out of it. Perl's allocator never asks the C library for nothing: it
takes no items for one, and so no bytes for one.
-/

set_option autoImplicit false

namespace Affix.Model

open Affix.Foundation

/-- The user data of a callback. SOURCE: Affix.h:400-409 -/
structure Callback where
  signature : List Flag
  argtypes : Option (List TypeObj)
  restype : TypeObj
  cv : SV

/-- C memory, the values at their addresses in it, and the callbacks at theirs. -/
structure Heap where
  mem : Mem
  svs : List (ℕ × SV)
  callbacks : List (ℕ × Callback)

def Heap.empty : Heap := ⟨.empty 4096 (by decide) (by decide), [], []⟩

abbrev Eff := Exec Heap Halt

def croak {α : Type} (message : Text) : Eff α := Exec.fail (.croak message)

def atLeastOne (n : ℕ) : ℕ := if n = 0 then 1 else n

/-- `Newxz(ptr, count, type)`, by the size of the type, which has one. -/
def Newxz (count size : ℕ) : Eff ℕ := fun h =>
  match h.mem.calloc (atLeastOne count * size) with
  | some (p, m) => .ok (p, { h with mem := m })
  | none => .error .outOfMemory

/-- `safecalloc`, which dies of a size that is zero and of a product that wraps. -/
def safecalloc (count size : ℕ) : Eff ℕ :=
  if size = 0 ∨ 2 ^ 64 ≤ count * size then croak (text "panic: memory wrap")
  else Newxz count size

def safemalloc (n : ℕ) : Eff ℕ := fun h =>
  match h.mem.malloc (atLeastOne n) with
  | some (p, m) => .ok (p, { h with mem := m })
  | none => .error .outOfMemory

/-- `Copy` or `Move`. -/
def store (a : ℕ) (bs : List UInt8) : Eff Unit := fun h =>
  match h.mem.write a bs with
  | some m => .ok ((), { h with mem := m })
  | none => .error .fault

def load (m : Mem) (a n : ℕ) : Except Halt (List UInt8) :=
  match m.read a n with
  | some bs => .ok bs
  | none => .error .fault

/-- `if (ret == NULL)` it is new. -/
def orNew (ret : ℕ) (new : Eff ℕ) : Eff ℕ := if ret = 0 then new else pure ret

def pointerBytes (p : ℕ) : List UInt8 := encodeLE SIZEOF_INTPTR_T p

def loadPointer (m : Mem) (a : ℕ) : Except Halt ℕ := (load m a SIZEOF_INTPTR_T).map decodeLE

/-- `strlen` and the bytes before the terminator, looking at no more than `fuel` bytes. -/
def cstring (m : Mem) : (fuel a : ℕ) → Except Halt (List UInt8)
  | 0, _ => .error .fault
  | fuel + 1, a =>
    match load m a 1 with
    | .error e => .error e
    | .ok bs => if bs = [0] then .ok [] else (cstring m fuel (a + 1)).map (bs ++ ·)

/-- `wcslen` and the wide characters before the terminator. -/
def wcstring (m : Mem) : (fuel a : ℕ) → Except Halt (List ℕ)
  | 0, _ => .error .fault
  | fuel + 1, a =>
    match load m a 4 with
    | .error e => .error e
    | .ok bs =>
      if decodeLE bs = 0 then .ok [] else (wcstring m fuel (a + 4)).map (decodeLE bs :: ·)

/-- Stores an image of each value, one after another with the given stride. -/
def storeEach (stride : ℕ) (image : SV → List UInt8) : ℕ → List SV → Eff Unit
  | _, [] => pure ()
  | a, e :: es => do
    store a (image e)
    storeEach stride image (a + stride) es

/-- The address a reference to an integer holds: `INT2PTR(SvIV(SvRV(sv)))`. The body of
any other reference has no integer of its own. -/
def addressOf : SV → Except Halt ℕ
  | .sref _ t => .ok (culong.wrap (SvIV t)).toNat
  | .aref .. | .href .. | .code .. | .type _ => .ok 0
  | .undef _ | .val _ | .pinned .. => .error .fault

/-- The address slot of a pointer object. SOURCE: Affix.h:271, Affix.h:292 -/
def pointerAddr (elems : List SV) : Except Halt SV :=
  match elems with
  | ptr :: _ => .ok ptr
  | [] => .error .fault

/-- A pointer object in array form: a reference to an array, derived from
`Affix::Pointer`. SOURCE: marshal.cxx:13-14, marshal.cxx:356-357 -/
def asPointerObject (data : SV) : Option (List SV) :=
  if data.derivedFrom "Affix::Pointer" then data.elems else none

/-! ## What the primitives do -/

theorem atLeastOne_pos (n : ℕ) : 0 < atLeastOne n := by
  unfold atLeastOne
  split <;> omega

theorem le_atLeastOne (n : ℕ) : n ≤ atLeastOne n := by
  unfold atLeastOne
  split <;> omega

theorem atLeastOne_of_pos {n : ℕ} (hn : 0 < n) : atLeastOne n = n := if_neg hn.ne'

/-- There is room for all the items. -/
theorem le_bytes (count size : ℕ) : count * size ≤ atLeastOne count * size :=
  Nat.mul_le_mul_right size (le_atLeastOne count)

theorem bytes_one (size : ℕ) : atLeastOne 1 * size = size := Nat.one_mul size

/-- The bytes of a string and its terminator. -/
theorem bytes_of_string (n : ℕ) : atLeastOne (n + 1) * 1 = n + 1 := by
  rw [atLeastOne_of_pos (Nat.succ_pos n), Nat.mul_one]

theorem Newxz_eq_ok {count size p : ℕ} {h h' : Heap} :
    Newxz count size h = .ok (p, h') ↔
      ∃ m, h.mem.calloc (atLeastOne count * size) = some (p, m) ∧ h' = { h with mem := m } := by
  apply Exec.carry_eq_ok (P := fun q m => h.mem.calloc (atLeastOne count * size) = some (q, m))
  · intro q m hq
    rw [Newxz, hq]
  · intro hnone
    have hnone' : h.mem.calloc (atLeastOne count * size) = none :=
      Option.eq_none_iff_forall_ne_some.mpr fun r => hnone r.1 r.2
    exact ⟨.outOfMemory, by rw [Newxz, hnone']⟩

theorem safemalloc_eq_ok {n p : ℕ} {h h' : Heap} :
    safemalloc n h = .ok (p, h') ↔
      ∃ m, h.mem.malloc (atLeastOne n) = some (p, m) ∧ h' = { h with mem := m } := by
  apply Exec.carry_eq_ok (P := fun q m => h.mem.malloc (atLeastOne n) = some (q, m))
  · intro q m hq
    rw [safemalloc, hq]
  · intro hnone
    have hnone' : h.mem.malloc (atLeastOne n) = none :=
      Option.eq_none_iff_forall_ne_some.mpr fun r => hnone r.1 r.2
    exact ⟨.outOfMemory, by rw [safemalloc, hnone']⟩

theorem store_eq_ok {a : ℕ} {bs : List UInt8} {h h' : Heap} :
    store a bs h = .ok ((), h') ↔
      (bs = [] ∨ h.mem.InBlock a bs.length) ∧ h' = { h with mem := h.mem.poke a bs } := by
  unfold store Mem.write
  by_cases hin : bs = [] ∨ h.mem.InBlock a bs.length
  · simp only [hin, if_true, Except.ok.injEq, Prod.mk.injEq, true_and]
    exact eq_comm
  · simp only [hin, if_false, reduceCtorEq, false_and]

end Affix.Model
