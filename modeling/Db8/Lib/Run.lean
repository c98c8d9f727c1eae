import Mathlib

/-!
# Lib.Run

Runs of a deterministic step function over a list of actions, and the rule that carries an
invariant along a run whose steps meet a side condition.

* `run step s as`      — the state after the actions `as` from `s`.
* `Along step C s as`  — every step of that run meets the condition `C`.
* `Along.invariant`    — what one step preserves under `C` holds after the run.
-/

namespace Lib

variable {σ α : Type*} {step : σ → α → σ}

def run (step : σ → α → σ) : σ → List α → σ
  | s, [] => s
  | s, a :: as => run step (step s a) as

@[simp] theorem run_nil (s : σ) : run step s [] = s := rfl
@[simp] theorem run_cons (s : σ) (a : α) (as : List α) : run step s (a :: as) = run step (step s a) as := rfl

theorem run_append (s : σ) (as bs : List α) : run step s (as ++ bs) = run step (run step s as) bs := by
  induction as generalizing s with
  | nil => rfl
  | cons a as ih => exact ih (step s a)

def Along (step : σ → α → σ) (C : σ → α → Prop) : σ → List α → Prop
  | _, [] => True
  | s, a :: as => C s a ∧ Along step C (step s a) as

namespace Along

variable {C D : σ → α → Prop}

instance decidable [∀ s a, Decidable (C s a)] : (s : σ) → (as : List α) → Decidable (Along step C s as)
  | _, [] => .isTrue trivial
  | s, a :: as =>
    have := decidable (step s a) as
    inferInstanceAs (Decidable (C s a ∧ Along step C (step s a) as))

@[simp] theorem nil (s : σ) : Along step C s [] := trivial

@[simp] theorem cons_iff {s : σ} {a : α} {as : List α} :
    Along step C s (a :: as) ↔ C s a ∧ Along step C (step s a) as := Iff.rfl

theorem of_forall (h : ∀ s a, C s a) (s : σ) (as : List α) : Along step C s as := by
  induction as generalizing s with
  | nil => trivial
  | cons a as ih => exact ⟨h s a, ih (step s a)⟩

/-- A run that meets the condition does so up to every state it passes through. -/
theorem of_append {s : σ} {as bs : List α} (h : Along step C s (as ++ bs)) : Along step C s as := by
  induction as generalizing s with
  | nil => trivial
  | cons a as ih => exact ⟨h.1, ih h.2⟩

theorem rest {s : σ} {as bs : List α} (h : Along step C s (as ++ bs)) : Along step C (run step s as) bs := by
  induction as generalizing s with
  | nil => exact h
  | cons a as ih => exact ih h.2

/-- The last step of a run meets the condition in the state before it. -/
theorem last {s : σ} {as : List α} {a : α} (h : Along step C s (as ++ [a])) : C (run step s as) a := by
  induction as generalizing s with
  | nil => exact h.1
  | cons b as ih => exact ih h.2

/-- A run meets the condition when each of its steps does in the state before it. -/
theorem of_forall_step {s : σ} {as : List α} (h : ∀ bs a, bs ++ [a] <+: as → C (run step s bs) a) :
    Along step C s as := by
  induction as generalizing s with
  | nil => trivial
  | cons a as ih =>
    refine ⟨h [] a ⟨as, rfl⟩, ih fun bs b hbs => h (a :: bs) b ?_⟩
    exact List.cons_prefix_cons.mpr ⟨rfl, hbs⟩

theorem of_isPrefix {s : σ} {as bs : List α} (hp : as <+: bs) (h : Along step C s bs) :
    Along step C s as := by
  obtain ⟨cs, rfl⟩ := hp
  exact h.of_append

/-- The invariant rule for runs. -/
theorem invariant (Inv : σ → Prop) (hstep : ∀ s a, Inv s → C s a → Inv (step s a)) {s : σ} {as : List α}
    (hs : Inv s) (h : Along step C s as) : Inv (run step s as) := by
  induction as generalizing s with
  | nil => exact hs
  | cons a as ih => exact ih (hstep s a hs h.1) h.2

/-- Two conditions that agree where an invariant holds agree on a run, when steps under the first keep it. -/
theorem congr_of_invariant (Inv : σ → Prop) (hiff : ∀ s a, Inv s → (C s a ↔ D s a))
    (hstep : ∀ s a, Inv s → C s a → Inv (step s a)) {s : σ} {as : List α} (hs : Inv s) :
    Along step C s as ↔ Along step D s as := by
  induction as generalizing s with
  | nil => exact Iff.rfl
  | cons a as ih =>
    constructor
    · intro h
      exact ⟨(hiff s a hs).mp h.1, (ih (hstep s a hs h.1)).mp h.2⟩
    · intro h
      have hc := (hiff s a hs).mpr h.1
      exact ⟨hc, (ih (hstep s a hs hc)).mpr h.2⟩

end Along

end Lib
