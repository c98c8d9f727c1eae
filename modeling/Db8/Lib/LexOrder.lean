import Mathlib

/-!
# Lib.LexOrder

Comparison of lists element by element, a proper prefix first, as an `Ordering`.

* `lexBy c`             — the comparison for an arbitrary element comparison `c`.
* `lexCompare`          — the instance at the comparison `cmp` of a linear order.
* `lexCompare_compares` — `lexCompare` decides the lexicographic order of lists.
-/

namespace Lib

variable {α : Type*}

/-- Element by element, the first difference decides; a proper prefix is the smaller list. -/
def lexBy (c : α → α → Ordering) : List α → List α → Ordering
  | [], [] => .eq
  | [], _ :: _ => .lt
  | _ :: _, [] => .gt
  | a :: as, b :: bs => (c a b).then (lexBy c as bs)

section LexBy

variable {c : α → α → Ordering}

@[simp] theorem lexBy_nil_nil : lexBy c [] [] = .eq := rfl
@[simp] theorem lexBy_nil_cons (b : α) (bs : List α) : lexBy c [] (b :: bs) = .lt := rfl
@[simp] theorem lexBy_cons_nil (a : α) (as : List α) : lexBy c (a :: as) [] = .gt := rfl
@[simp] theorem lexBy_cons_cons (a b : α) (as bs : List α) :
    lexBy c (a :: as) (b :: bs) = (c a b).then (lexBy c as bs) := rfl

/-- Two lists compare equal exactly when they agree, if that is so of their elements. -/
theorem lexBy_eq_iff {as : List α} (h : ∀ a ∈ as, ∀ b, c a b = .eq ↔ a = b) :
    ∀ bs, lexBy c as bs = .eq ↔ as = bs := by
  induction as with
  | nil => intro bs; cases bs <;> simp
  | cons a as ih =>
    intro bs
    cases bs with
    | nil => simp
    | cons b bs =>
      have hhead := h a (by simp) b
      have htail := ih (fun x hx => h x (by simp [hx])) bs
      simp only [lexBy_cons_cons, Ordering.then_eq_eq, hhead, htail, List.cons.injEq]

end LexBy

section LinearOrder

variable [LinearOrder α]

/-- The comparison of lists over a linear order. -/
def lexCompare (s t : List α) : Ordering := lexBy cmp s t

@[simp] theorem lexCompare_nil_nil : lexCompare ([] : List α) [] = .eq := rfl
@[simp] theorem lexCompare_nil_cons (b : α) (t : List α) : lexCompare [] (b :: t) = .lt := rfl
@[simp] theorem lexCompare_cons_nil (a : α) (s : List α) : lexCompare (a :: s) [] = .gt := rfl
@[simp] theorem lexCompare_cons_cons (a b : α) (s t : List α) :
    lexCompare (a :: s) (b :: t) = (cmp a b).then (lexCompare s t) := rfl

@[simp] theorem lexCompare_append_left (u s t : List α) :
    lexCompare (u ++ s) (u ++ t) = lexCompare s t := by
  induction u with
  | nil => rfl
  | cons a u ih => simp [ih]

theorem lexCompare_compares : ∀ s t : List α, (lexCompare s t).Compares s t
  | [], [] => rfl
  | [], b :: t => List.nil_lt_cons b t
  | a :: s, [] => List.nil_lt_cons a s
  | a :: s, b :: t => by
    have ih := lexCompare_compares s t
    rw [lexCompare_cons_cons]
    rcases lt_trichotomy a b with hab | hab | hab
    · rw [hab.cmp_eq_lt]
      exact List.cons_lt_cons_iff.mpr (.inl hab)
    · subst hab
      rw [cmp_self_eq_eq, Ordering.then]
      cases h : lexCompare s t with
      | lt => rw [h] at ih; exact List.cons_lt_cons_iff.mpr (.inr ⟨rfl, ih⟩)
      | eq => rw [h] at ih; exact congrArg (a :: ·) ih
      | gt => rw [h] at ih; exact List.cons_lt_cons_iff.mpr (.inr ⟨rfl, ih⟩)
    · rw [hab.cmp_eq_gt]
      exact List.cons_lt_cons_iff.mpr (.inl hab)

theorem lexCompare_eq_lt {s t : List α} : lexCompare s t = .lt ↔ s < t :=
  (lexCompare_compares s t).eq_lt

theorem lexCompare_eq_eq {s t : List α} : lexCompare s t = .eq ↔ s = t :=
  (lexCompare_compares s t).eq_eq

theorem lexCompare_eq_gt {s t : List α} : lexCompare s t = .gt ↔ t < s :=
  (lexCompare_compares s t).eq_gt

/-! ## The order of lists -/

@[simp] theorem nil_le (s : List α) : [] ≤ s := not_lt.mp (List.not_lt_nil s)

@[simp] theorem le_nil_iff {s : List α} : s ≤ [] ↔ s = [] :=
  ⟨fun h => le_antisymm h (nil_le s), fun h => h ▸ le_refl _⟩

theorem cons_le_cons_iff {a b : α} {s t : List α} : a :: s ≤ b :: t ↔ a < b ∨ a = b ∧ s ≤ t := by
  rw [← not_lt, ← not_lt, List.cons_lt_cons_iff]
  constructor
  · intro h
    obtain ⟨hba, hst⟩ := not_or.mp h
    rcases (not_lt.mp hba).lt_or_eq with hab | rfl
    exacts [.inl hab, .inr ⟨rfl, fun hts => hst ⟨rfl, hts⟩⟩]
  · rintro (hab | ⟨rfl, hst⟩) (hba | ⟨he, hts⟩)
    exacts [hab.asymm hba, hab.ne' he, hba.false, hst hts]

theorem append_lt_append_iff {u s t : List α} : u ++ s < u ++ t ↔ s < t := by
  rw [← lexCompare_eq_lt, lexCompare_append_left, lexCompare_eq_lt]

theorem append_le_append_iff {u s t : List α} : u ++ s ≤ u ++ t ↔ s ≤ t := by
  rw [← not_lt, append_lt_append_iff, not_lt]

theorem le_of_isPrefix {s t : List α} (h : s <+: t) : s ≤ t := by
  obtain ⟨u, rfl⟩ := h
  induction s with
  | nil => exact nil_le _
  | cons a s ih => exact cons_le_cons_iff.mpr (.inr ⟨rfl, ih⟩)

/-- Two lists that differ before the first one ends stay in order however they go on. -/
theorem append_lt_append_of_not_isPrefix {p q : List α} (hlt : p < q) (hpre : ¬ p <+: q) (s t : List α) :
    p ++ s < q ++ t := by
  induction p generalizing q with
  | nil => exact absurd (List.nil_prefix) hpre
  | cons a p ih =>
    cases q with
    | nil => exact absurd hlt (List.not_lt_nil _)
    | cons b q =>
      rw [List.cons_append, List.cons_append, List.cons_lt_cons_iff]
      rcases List.cons_lt_cons_iff.mp hlt with hab | ⟨rfl, hpq⟩
      · exact .inl hab
      · exact .inr ⟨rfl, ih hpq fun h => hpre (List.cons_prefix_cons.mpr ⟨rfl, h⟩)⟩

/-- What lies between two extensions of `p` is an extension of `p`. -/
theorem between_append_iff {p x y k : List α} :
    p ++ x ≤ k ∧ k < p ++ y ↔ ∃ rest, k = p ++ rest ∧ x ≤ rest ∧ rest < y := by
  constructor
  · intro h
    have hpre : p <+: k := by
      obtain ⟨hle, hlt⟩ := h
      induction p generalizing k with
      | nil => exact List.nil_prefix
      | cons a p ih =>
        cases k with
        | nil => simp at hle
        | cons b k =>
          rw [List.cons_append, cons_le_cons_iff] at hle
          rw [List.cons_append, List.cons_lt_cons_iff] at hlt
          rcases hle with hab | ⟨rfl, hle⟩
          · rcases hlt with hba | ⟨rfl, -⟩
            exacts [absurd hab hba.asymm, absurd hab (lt_irrefl _)]
          · have hlt' := (hlt.resolve_left (lt_irrefl a)).2
            exact List.cons_prefix_cons.mpr ⟨rfl, ih hle hlt'⟩
    obtain ⟨rest, rfl⟩ := hpre
    exact ⟨rest, rfl, append_le_append_iff.mp h.1, append_lt_append_iff.mp h.2⟩
  · rintro ⟨rest, rfl, hle, hlt⟩
    exact ⟨append_le_append_iff.mpr hle, append_lt_append_iff.mpr hlt⟩

end LinearOrder

end Lib
