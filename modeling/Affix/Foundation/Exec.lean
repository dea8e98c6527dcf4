import Mathlib.Data.Nat.Notation
import Mathlib.Tactic.Common

/-!
# Computations with a state and a way out

The monad of imperative code that may stop: a function from a state to a result
with a new state, or to the reason it stopped. A state in which the code stopped
is not observable. `bind_eq_ok` is the inversion rule every proof about such code
goes by: a sequence that returned is a first part that returned and a second that
returned from there.
-/

set_option autoImplicit false

namespace Affix.Foundation

/-- A computation over states `σ` that returns an `α` or stops with an `ε`. -/
def Exec (σ ε α : Type) : Type := σ → Except ε (α × σ)

namespace Exec

variable {σ ε α β : Type}

instance : Monad (Exec σ ε) where
  pure a := fun s => .ok (a, s)
  bind x f := fun s =>
    match x s with
    | .ok (a, s') => f a s'
    | .error e => .error e

def fail (e : ε) : Exec σ ε α := fun _ => .error e

def get : Exec σ ε σ := fun s => .ok (s, s)

def set (s : σ) : Exec σ ε Unit := fun _ => .ok ((), s)

def lift (x : Except ε α) : Exec σ ε α := fun s => x.map (·, s)

/-- The same computation, which tells otherwise why it stopped. -/
def mapError (g : ε → ε) (x : Exec σ ε α) : Exec σ ε α := fun s => (x s).mapError g

@[simp] theorem pure_apply (a : α) (s : σ) : (pure a : Exec σ ε α) s = .ok (a, s) := rfl

@[simp] theorem fail_apply (e : ε) (s : σ) : (fail e : Exec σ ε α) s = .error e := rfl

@[simp] theorem get_apply (s : σ) : (get : Exec σ ε σ) s = .ok (s, s) := rfl

@[simp] theorem lift_ok_apply (a : α) (s : σ) :
    (lift (.ok a) : Exec σ ε α) s = .ok (a, s) := rfl

@[simp] theorem lift_error_apply (e : ε) (s : σ) :
    (lift (.error e) : Exec σ ε α) s = .error e := rfl

/-- A sequence whose first part returns goes on from there. -/
theorem bind_of_ok {x : Exec σ ε α} {f : α → Exec σ ε β} {s s' : σ} {a : α}
    (h : x s = .ok (a, s')) : (x >>= f) s = f a s' := by
  show (match x s with
    | .ok (a, s') => f a s'
    | .error e => .error e) = f a s'
  rw [h]

/-- A sequence whose first part stops stops. -/
theorem bind_of_error {x : Exec σ ε α} {f : α → Exec σ ε β} {s : σ} {e : ε}
    (h : x s = .error e) : (x >>= f) s = .error e := by
  show (match x s with
    | .ok (a, s') => f a s'
    | .error e => .error e) = .error e
  rw [h]

/-- **Inversion of a sequence**: it returned exactly when both parts did. -/
theorem bind_eq_ok {x : Exec σ ε α} {f : α → Exec σ ε β} {s s'' : σ} {b : β} :
    (x >>= f) s = .ok (b, s'') ↔ ∃ a s', x s = .ok (a, s') ∧ f a s' = .ok (b, s'') := by
  cases h : x s with
  | error e => simp [bind_of_error h]
  | ok r =>
    obtain ⟨a, s'⟩ := r
    rw [bind_of_ok h]
    simp

/-- It stopped exactly when one of the parts did. -/
theorem bind_eq_error {x : Exec σ ε α} {f : α → Exec σ ε β} {s : σ} {e : ε} :
    (x >>= f) s = .error e ↔
      x s = .error e ∨ ∃ a s', x s = .ok (a, s') ∧ f a s' = .error e := by
  cases h : x s with
  | error e' => simp [bind_of_error h]
  | ok r =>
    obtain ⟨a, s'⟩ := r
    rw [bind_of_ok h]
    simp

theorem bind_assoc {γ : Type} (x : Exec σ ε α) (f : α → Exec σ ε β) (g : β → Exec σ ε γ) :
    (x >>= f) >>= g = x >>= fun a => f a >>= g := by
  funext s
  cases h : x s with
  | error e => rw [bind_of_error h, bind_of_error (bind_of_error h)]
  | ok r =>
    rw [bind_of_ok h]
    cases hf : f r.1 r.2 with
    | error e => rw [bind_of_error hf, bind_of_error ((bind_of_ok h).trans hf)]
    | ok r' => rw [bind_of_ok hf, bind_of_ok ((bind_of_ok h).trans hf)]

theorem map_eq_ok {x : Exec σ ε α} {f : α → β} {s s' : σ} {b : β} :
    (f <$> x) s = .ok (b, s') ↔ ∃ a, x s = .ok (a, s') ∧ f a = b := by
  have hmap : f <$> x = x >>= fun a => pure (f a) := rfl
  rw [hmap, bind_eq_ok]
  constructor
  · rintro ⟨a, s₁, ha, hb⟩
    cases hb
    exact ⟨a, ha, rfl⟩
  · rintro ⟨a, ha, rfl⟩
    exact ⟨a, s', ha, rfl⟩

theorem lift_eq_ok {x : Except ε α} {s s' : σ} {a : α} :
    (lift x : Exec σ ε α) s = .ok (a, s') ↔ x = .ok a ∧ s = s' := by
  cases x <;> simp

theorem mapError_eq_ok {g : ε → ε} {x : Exec σ ε α} {s : σ} {r : α × σ} :
    x.mapError g s = .ok r ↔ x s = .ok r := by
  unfold mapError
  cases x s <;> simp [Except.mapError]

theorem mapError_eq_error {g : ε → ε} {x : Exec σ ε α} {s : σ} {e : ε} :
    x.mapError g s = .error e ↔ ∃ e', x s = .error e' ∧ g e' = e := by
  unfold mapError
  cases x s <;> simp [Except.mapError]

/-! ## Results carried over to another state

Code over a part of the state returns when the code on the part does, and leaves the whole
with that part replaced. -/

theorem carry_eq_ok {τ : Type} {P : α → τ → Prop} {y : Except ε (α × σ)} {g : τ → σ}
    (hok : ∀ a t, P a t → y = .ok (a, g t)) (herr : (∀ a t, ¬ P a t) → ∃ e, y = .error e)
    {a : α} {s : σ} : y = .ok (a, s) ↔ ∃ t, P a t ∧ s = g t := by
  constructor
  · intro h
    by_cases hpart : ∃ b t, P b t
    · obtain ⟨b, t, hb⟩ := hpart
      cases (hok b t hb).symm.trans h
      exact ⟨t, hb, rfl⟩
    · obtain ⟨e, he⟩ := herr fun b t hb => hpart ⟨b, t, hb⟩
      cases he.symm.trans h
  · rintro ⟨t, hb, rfl⟩
    exact hok a t hb

/-! ## What a computation ends with -/

/-- The computation returns and what it returns meets a condition, or it stops for a reason
that is allowed. -/
def Ends (allowed : ε → Prop) (x : Exec σ ε α) (s : σ) (post : α → σ → Prop) : Prop :=
  match x s with
  | .ok (a, s') => post a s'
  | .error e => allowed e

theorem ends_of_ok {allowed : ε → Prop} {x : Exec σ ε α} {s t : σ} {a : α}
    {post : α → σ → Prop} (h : x s = .ok (a, t)) (hpost : post a t) : Ends allowed x s post := by
  unfold Ends
  rw [h]
  exact hpost

theorem Ends.of_ok {allowed : ε → Prop} {x : Exec σ ε α} {s t : σ} {a : α} {post : α → σ → Prop}
    (hx : Ends allowed x s post) (h : x s = .ok (a, t)) : post a t := by
  unfold Ends at hx
  rw [h] at hx
  exact hx

/-- **The rule of consequence.** -/
theorem Ends.mono {allowed : ε → Prop} {x : Exec σ ε α} {s : σ} {post post' : α → σ → Prop}
    (hx : Ends allowed x s post) (h : ∀ a s', post a s' → post' a s') :
    Ends allowed x s post' := by
  unfold Ends at hx ⊢
  cases hr : x s with
  | error e =>
    rw [hr] at hx
    exact hx
  | ok r =>
    rw [hr] at hx
    exact h _ _ hx

/-- **The rule of sequence.** -/
theorem Ends.bind {allowed : ε → Prop} {x : Exec σ ε α} {f : α → Exec σ ε β} {s : σ}
    {post : α → σ → Prop} {post' : β → σ → Prop} (hx : Ends allowed x s post)
    (hf : ∀ a s', post a s' → Ends allowed (f a) s' post') : Ends allowed (x >>= f) s post' := by
  unfold Ends at hx ⊢
  cases h : x s with
  | error e =>
    rw [bind_of_error h]
    rw [h] at hx
    exact hx
  | ok r =>
    obtain ⟨a, s'⟩ := r
    rw [bind_of_ok h]
    rw [h] at hx
    exact hf a s' hx

/-- The rule of sequence, where the first part is known to return. -/
theorem Ends.bind_of_ok {allowed : ε → Prop} {x : Exec σ ε α} {f : α → Exec σ ε β} {s s' : σ}
    {a : α} {post : β → σ → Prop} (hx : x s = .ok (a, s')) (hf : Ends allowed (f a) s' post) :
    Ends allowed (x >>= f) s post := by
  unfold Ends at hf ⊢
  rw [Exec.bind_of_ok hx]
  exact hf

/-- A computation that stops for no allowed reason returns. -/
theorem Ends.exists_ok {allowed : ε → Prop} {x : Exec σ ε α} {s : σ} {post : α → σ → Prop}
    (h : Ends allowed x s post) (hx : ∀ e, allowed e → x s ≠ .error e) :
    ∃ a s', x s = .ok (a, s') ∧ post a s' := by
  unfold Ends at h
  cases hr : x s with
  | error e =>
    rw [hr] at h
    exact absurd hr (hx e h)
  | ok r =>
    obtain ⟨a, s'⟩ := r
    rw [hr] at h
    exact ⟨a, s', rfl, h⟩

/-! ## Stopping at once

A computation that could have failed otherwise before it stops is no mere stop. So what equals
`fail` has done nothing that can fail. -/

/-- The computation stops for no such reason. -/
def Never (p : ε → Prop) (x : Exec σ ε α) : Prop := ∀ s, Ends (¬ p ·) x s fun _ _ => True

/-- Where the computation stops for such a reason, to stop is all it does. -/
def AtOnce (p : ε → Prop) (x : Exec σ ε α) : Prop := ∀ s e, p e → x s = .error e → x = fail e

section AtOnce

variable {p : ε → Prop} {x : Exec σ ε α} {f : α → Exec σ ε β}

theorem never_of_error (h : ∀ s e, x s = .error e → ¬ p e) : Never p x := by
  intro s
  unfold Ends
  cases hr : x s with
  | error e => exact h s e hr
  | ok r => trivial

theorem never_pure (a : α) : Never p (pure a : Exec σ ε α) :=
  never_of_error fun _ _ herr => by cases herr

theorem Never.bind (hx : Never p x) (hf : ∀ a, Never p (f a)) : Never p (x >>= f) :=
  fun s => (hx s).bind fun a s' _ => hf a s'

theorem Never.not (hx : Never p x) {s : σ} {e : ε} (herr : x s = .error e) : ¬ p e := by
  have hends := hx s
  unfold Ends at hends
  rwa [herr] at hends

theorem Never.atOnce (hx : Never p x) : AtOnce p x := fun _ _ he herr => absurd he (hx.not herr)

theorem atOnce_fail (e : ε) : AtOnce p (fail e : Exec σ ε α) := by
  intro s e' _ herr
  rw [Except.error.inj herr]

theorem AtOnce.bind (hx : AtOnce p x) (hf : ∀ a, Never p (f a)) : AtOnce p (x >>= f) := by
  intro s e he herr
  rcases bind_eq_error.mp herr with hstop | ⟨a, s', -, hstop⟩
  · rw [hx s e he hstop]
    rfl
  · exact absurd he ((hf a).not hstop)

theorem atOnce_lift (y : Except ε α) : AtOnce p (lift y : Exec σ ε α) := by
  cases y with
  | error e => exact atOnce_fail e
  | ok a => exact (never_pure a).atOnce

/-- What is computed without the state comes before anything else. -/
theorem atOnce_lift_bind (y : Except ε α) (hf : ∀ a, y = .ok a → AtOnce p (f a)) :
    AtOnce p (lift y >>= f) := by
  cases y with
  | error e => exact atOnce_fail e
  | ok a => exact hf a rfl

theorem AtOnce.mapError {g : ε → ε} (hg : ∀ e, p (g e) → p e) (hx : AtOnce p x) :
    AtOnce p (x.mapError g) := by
  intro s e he herr
  obtain ⟨e', hstop, rfl⟩ := mapError_eq_error.mp herr
  rw [hx s e' (hg e' he) hstop]
  rfl

end AtOnce

end Exec

end Affix.Foundation
