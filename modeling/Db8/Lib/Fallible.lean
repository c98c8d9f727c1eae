import Mathlib

/-!
# Lib.Fallible

Rules for computations that may throw.

* `bind_eq_ok`   — a sequence returns exactly when both of its parts do.
* `forM_eq_ok`   — a loop of checks returns exactly when each of them does.
* `exists_foldlM` — a loop returns when each of its steps does.
* `foldlM_inv`   — a loop that returns keeps what each of its steps keeps.
* `foldlM_fixed` — a loop whose steps change nothing.
* `exists_foldlM_update` — a loop over entries, each of which is written once.
* `Returns`      — a computation that does not throw, through sequences and loops.
* `mapM_flatMap` — a loop within a loop is one loop.
-/

namespace Lib

universe u v

variable {ε : Type u} {α β σ : Type v}

theorem bind_eq_ok {x : Except ε α} {f : α → Except ε β} {b : β} :
    x >>= f = .ok b ↔ ∃ a, x = .ok a ∧ f a = .ok b := by
  cases x with
  | error e => simp [bind, Except.bind]
  | ok a => simp [bind, Except.bind]

@[simp] theorem pure_eq_ok {a b : α} : (pure a : Except ε α) = .ok b ↔ a = b := by
  simp [pure, Except.pure]

@[simp] theorem ok_bind (a : α) (f : α → Except ε β) : (Except.ok a >>= f) = f a := rfl

@[simp] theorem error_bind (e : ε) (f : α → Except ε β) : (Except.error e >>= f) = .error e := rfl

theorem forM_eq_ok {xs : List α} {f : α → Except ε PUnit} :
    xs.forM f = .ok ⟨⟩ ↔ ∀ x ∈ xs, f x = .ok ⟨⟩ := by
  induction xs with
  | nil => exact ⟨fun _ => List.forall_mem_nil _, fun _ => rfl⟩
  | cons x xs ih =>
    have hcons : (x :: xs).forM f = f x >>= fun _ => xs.forM f := rfl
    rw [hcons, bind_eq_ok, List.forall_mem_cons, ← ih]
    constructor
    · intro h
      obtain ⟨⟨⟩, hx, hxs⟩ := h
      exact ⟨hx, hxs⟩
    · intro h
      exact ⟨⟨⟩, h.1, h.2⟩

theorem exists_foldlM {step : σ → α → Except ε σ} {as : List α} (h : ∀ s, ∀ a ∈ as, ∃ s', step s a = .ok s') (s : σ) :
    ∃ s', as.foldlM step s = .ok s' := by
  induction as generalizing s with
  | nil => exact ⟨s, rfl⟩
  | cons a as ih =>
    obtain ⟨t, ht⟩ := h s a List.mem_cons_self
    obtain ⟨s', hs'⟩ := ih (fun u b hb => h u b (List.mem_cons_of_mem a hb)) t
    exact ⟨s', by rw [List.foldlM_cons, ht, ok_bind, hs']⟩

theorem foldlM_inv (Inv : σ → Prop) {step : σ → α → Except ε σ}
    (hstep : ∀ s a s', step s a = .ok s' → Inv s → Inv s') {as : List α} {s s' : σ}
    (h : as.foldlM step s = .ok s') (hs : Inv s) : Inv s' := by
  induction as generalizing s with
  | nil =>
    obtain rfl := pure_eq_ok.mp h
    exact hs
  | cons a as ih =>
    rw [List.foldlM_cons] at h
    obtain ⟨t, ht, h⟩ := bind_eq_ok.mp h
    exact ih h (hstep s a t ht hs)

/-- A loop whose steps all leave the state as it is does so too, with or without an error. -/
theorem foldlM_fixed {step : σ → α → Except σ σ} {s : σ} {as : List α}
    (h : ∀ a ∈ as, step s a = .ok s ∨ step s a = .error s) : as.foldlM step s = .ok s ∨ as.foldlM step s = .error s := by
  induction as with
  | nil => exact .inl rfl
  | cons a as ih =>
    rw [List.foldlM_cons]
    cases h a List.mem_cons_self with
    | inl hok =>
      rw [hok]
      exact ih fun b hb => h b (List.mem_cons_of_mem a hb)
    | inr herror =>
      rw [herror]
      exact .inr rfl

theorem exists_foldlM_update {ι κ : Type*} {α : Type v} [DecidableEq κ] {l : List ι} {key : ι → κ}
    (hnodup : (l.map key).Nodup) {f : ι → α → Except ε α} {P : ι → α → Prop} {y : κ → α}
    (h : ∀ i ∈ l, ∃ a, f i (y (key i)) = .ok a ∧ P i a) :
    ∃ y', l.foldlM (fun y i => (f i (y (key i))).map (Function.update y (key i))) y = .ok y' ∧
      (∀ i ∈ l, P i (y' (key i))) ∧ ∀ k ∉ l.map key, y' k = y k := by
  induction l generalizing y with
  | nil => exact ⟨y, rfl, by simp, fun _ _ => rfl⟩
  | cons i l ih =>
    obtain ⟨hkey, hnodup⟩ := List.nodup_cons.mp hnodup
    obtain ⟨a, ha, hP⟩ := h i List.mem_cons_self
    have hother : ∀ j ∈ l, Function.update y (key i) a (key j) = y (key j) := by
      intro j hj
      refine Function.update_of_ne (fun he => hkey ?_) _ _
      exact he ▸ List.mem_map_of_mem hj
    obtain ⟨y', hfold, hall, hrest⟩ := @ih hnodup (Function.update y (key i) a) fun j hj => by
      rw [hother j hj]
      exact h j (List.mem_cons_of_mem i hj)
    refine ⟨y', ?_, ?_, ?_⟩
    · rw [List.foldlM_cons, ha]
      exact hfold
    · refine List.forall_mem_cons.mpr ⟨?_, hall⟩
      rw [hrest _ hkey, Function.update_self]
      exact hP
    · intro k hk
      rw [List.map_cons, List.mem_cons, not_or] at hk
      rw [hrest k hk.2, Function.update_of_ne hk.1]

/-- The computation does not throw. -/
def Returns (x : Except ε α) : Prop := ∃ a, x = .ok a

@[simp] theorem returns_ok (a : α) : Returns (.ok a : Except ε α) := ⟨a, rfl⟩

@[simp] theorem not_returns_error (e : ε) : ¬Returns (.error e : Except ε α) := fun ⟨_, h⟩ => by cases h

theorem returns_map {x : Except ε α} {f : α → β} : Returns (x.map f) ↔ Returns x := by
  cases x with
  | error e => exact iff_of_false (not_returns_error e) (not_returns_error e)
  | ok a => exact iff_of_true (returns_ok (f a)) (returns_ok a)

/-- A sequence whose second part returns or throws whatever the first one returns. -/
theorem returns_bind {x : Except ε α} {f : α → Except ε β} {P Q : Prop} (hx : Returns x ↔ P)
    (h : ∀ a, x = .ok a → (Returns (f a) ↔ Q)) : Returns (x >>= f) ↔ P ∧ Q := by
  rw [← hx]
  cases x with
  | error e => exact iff_of_false (not_returns_error e) fun hx => not_returns_error e hx.1
  | ok a => rw [ok_bind, h a rfl, and_iff_right (returns_ok a)]

theorem Returns.bind {x : Except ε α} {f : α → Except ε β} (hx : Returns x) (hf : ∀ a, Returns (f a)) : Returns (x >>= f) := by
  obtain ⟨a, rfl⟩ := hx
  exact hf a

theorem map_eq_ok {x : Except ε α} {f : α → β} {b : β} (h : x.map f = .ok b) : ∃ a, x = .ok a ∧ f a = b := by
  cases x with
  | error e => cases h
  | ok a => exact ⟨a, rfl, Except.ok.inj h⟩

theorem mapM_eq_ok {xs : List α} {f : α → Except ε β} {ys : List β} :
    xs.mapM f = .ok ys ↔ List.Forall₂ (fun x y => f x = .ok y) xs ys := by
  induction xs generalizing ys with
  | nil =>
    rw [List.mapM_nil, pure_eq_ok, List.forall₂_nil_left_iff]
    exact eq_comm
  | cons x xs ih =>
    rw [List.mapM_cons, bind_eq_ok, List.forall₂_cons_left_iff]
    refine exists_congr fun y => ?_
    rw [bind_eq_ok]
    constructor
    · intro h
      obtain ⟨hy, ys', hys, hcons⟩ := h
      exact ⟨ys', hy, ih.mp hys, (pure_eq_ok.mp hcons).symm⟩
    · intro h
      obtain ⟨ys', hy, hys, rfl⟩ := h
      exact ⟨hy, ys', ih.mpr hys, rfl⟩

theorem returns_mapM {xs : List α} {f : α → Except ε β} : Returns (xs.mapM f) ↔ ∀ x ∈ xs, Returns (f x) := by
  induction xs with
  | nil => exact iff_of_true (returns_ok _) (List.forall_mem_nil _)
  | cons x xs ih =>
    rw [List.mapM_cons, List.forall_mem_cons]
    refine returns_bind Iff.rfl fun y _ => ?_
    exact (returns_bind ih fun ys _ => iff_of_true (returns_ok (y :: ys)) trivial).trans (and_iff_left trivial)

theorem mapM_map {γ : Type v} {xs : List α} {f : α → Except ε β} {g : β → γ} :
    xs.mapM (fun x => (f x).map g) = (xs.mapM f).map (List.map g) := by
  induction xs with
  | nil => rfl
  | cons x xs ih =>
    rw [List.mapM_cons, List.mapM_cons, ih]
    cases f x with
    | error e => rfl
    | ok y => cases xs.mapM f <;> rfl

theorem mapM_flatMap {γ : Type v} {xs : List α} {f : α → List β} {g : β → Except ε γ} :
    (xs.flatMap f).mapM g = (xs.mapM fun x => (f x).mapM g).map List.flatten := by
  induction xs with
  | nil => rfl
  | cons x xs ih =>
    rw [List.flatMap_cons, List.mapM_append, ih, List.mapM_cons]
    cases (f x).mapM g with
    | error e => rfl
    | ok ys => cases xs.mapM fun x => (f x).mapM g <;> rfl

theorem mem_of_mapM {xs : List α} {f : α → Except ε β} {ys : List β} (h : xs.mapM f = .ok ys) {y : β} :
    y ∈ ys ↔ ∃ x ∈ xs, f x = .ok y := by
  have hall := mapM_eq_ok.mp h
  clear h
  induction hall with
  | nil => simp
  | cons hx _ ih => simp [ih, hx, eq_comm]

end Lib
