import Mathlib

/-!
# Lib.Ensures

Computations that may throw, on a state that outlives the error.

* `Ensures x P`           — whatever `x` returns satisfies `P`.
* `Ensures.bind`          — the rule of sequencing.
* `Ensures.bind_congr`    — continuations that agree on what `x` can return are interchangeable.
* `Keeps I x`             — `x` leaves the state in `I`, also when it throws.
* `Agree R x y`           — `x` and `y` do the same, with results that are related.
-/

namespace Lib

universe u

variable {ε τ α β : Type u}

def Ensures (x : ExceptT ε (StateM τ) α) (P : α → Prop) : Prop :=
  ∀ t a t', x t = (.ok a, t') → P a

namespace Ensures

variable {x : ExceptT ε (StateM τ) α} {f g : α → ExceptT ε (StateM τ) β} {P : α → Prop} {Q : β → Prop}

theorem pure {a : α} (h : P a) : Ensures (Pure.pure a : ExceptT ε (StateM τ) α) P := by
  intro t b t' hb
  cases hb
  exact h

theorem throw (e : ε) : Ensures (throw e : ExceptT ε (StateM τ) α) P := by
  intro t b t' hb
  cases hb

theorem top (x : ExceptT ε (StateM τ) α) : Ensures x fun _ => True := fun _ _ _ _ => trivial

theorem mono {P' : α → Prop} (h : Ensures x P) (hP : ∀ a, P a → P' a) : Ensures x P' :=
  fun t a t' ha => hP a (h t a t' ha)

/-- What a sequence does from a state: the rest runs only when the first part returns. -/
theorem bind_apply (x : ExceptT ε (StateM τ) α) (f : α → ExceptT ε (StateM τ) β) (t : τ) :
    (x >>= f) t = match x t with
      | (.ok a, t') => f a t'
      | (.error e, t') => (.error e, t') := by
  change (match x t with | (r, t') => ExceptT.bindCont f r t') = _
  rcases x t with ⟨r, t'⟩
  cases r <;> rfl

theorem bind (hx : Ensures x P) (hf : ∀ a, P a → Ensures (f a) Q) : Ensures (x >>= f) Q := by
  intro t b t' hb
  rw [bind_apply] at hb
  rcases hxt : x t with ⟨r, t₁⟩
  rw [hxt] at hb
  cases r with
  | error e => cases hb
  | ok a => exact hf a (hx t a t₁ hxt) t₁ b t' hb

theorem bind_congr (hx : Ensures x P) (hfg : ∀ a, P a → f a = g a) : x >>= f = x >>= g := by
  funext t
  rw [bind_apply, bind_apply]
  rcases hxt : x t with ⟨r, t₁⟩
  cases r with
  | error e => rfl
  | ok a =>
    change f a t₁ = g a t₁
    rw [hfg a (hx t a t₁ hxt)]

end Ensures

def Keeps (I : τ → Prop) (x : ExceptT ε (StateM τ) α) : Prop := ∀ t, I t → I (x t).2

namespace Keeps

variable {I : τ → Prop} {x : ExceptT ε (StateM τ) α} {f : α → ExceptT ε (StateM τ) β}

theorem pure (a : α) : Keeps I (Pure.pure a : ExceptT ε (StateM τ) α) := fun _ h => h

theorem throw (e : ε) : Keeps I (throw e : ExceptT ε (StateM τ) α) := fun _ h => h

theorem bind (hx : Keeps I x) (hf : ∀ a, Keeps I (f a)) : Keeps I (x >>= f) := by
  intro t ht
  have hx' := hx t ht
  rw [Ensures.bind_apply]
  rcases hxt : x t with ⟨r, t₁⟩
  rw [hxt] at hx'
  cases r with
  | error e => exact hx'
  | ok a => exact hf a t₁ hx'

end Keeps

/-- From every state both return, with related results, or both throw the same; and both leave the same state. -/
def Agree (R : α → β → Prop) (x : ExceptT ε (StateM τ) α) (y : ExceptT ε (StateM τ) β) : Prop :=
  ∀ t, match x t, y t with
    | (.ok a, t₁), (.ok b, t₂) => R a b ∧ t₁ = t₂
    | (.error e, t₁), (.error e', t₂) => e = e' ∧ t₁ = t₂
    | _, _ => False

namespace Agree

variable {γ δ : Type u} {R : α → β → Prop} {S : γ → δ → Prop}

theorem pure {a : α} {b : β} (h : R a b) :
    Agree R (Pure.pure a : ExceptT ε (StateM τ) α) (Pure.pure b) := fun _ => ⟨h, rfl⟩

theorem throw (e : ε) : Agree R (throw e : ExceptT ε (StateM τ) α) (throw e) := fun _ => ⟨rfl, rfl⟩

theorem refl (x : ExceptT ε (StateM τ) α) : Agree Eq x x := by
  intro t
  rcases x t with ⟨r, t'⟩
  cases r with
  | ok a => exact ⟨rfl, rfl⟩
  | error e => exact ⟨rfl, rfl⟩

theorem bind {x : ExceptT ε (StateM τ) α} {y : ExceptT ε (StateM τ) β} {f : α → ExceptT ε (StateM τ) γ}
    {g : β → ExceptT ε (StateM τ) δ} (h : Agree R x y) (hfg : ∀ a b, R a b → Agree S (f a) (g b)) :
    Agree S (x >>= f) (y >>= g) := by
  intro t
  have ht := h t
  rw [Ensures.bind_apply, Ensures.bind_apply]
  rcases hx : x t with ⟨r, t₁⟩
  rcases hy : y t with ⟨r', t₂⟩
  rw [hx, hy] at ht
  cases r with
  | ok a =>
    cases r' with
    | ok b =>
      obtain ⟨hab, rfl⟩ := ht
      exact hfg a b hab t₁
    | error e => exact ht.elim
  | error e =>
    cases r' with
    | ok b => exact ht.elim
    | error e' => exact ht

end Agree

end Lib
