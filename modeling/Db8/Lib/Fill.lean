import Mathlib

/-!
# Lib.Fill

Items that are written page by page, each page up to the first item that does not fit.

* `fill`          — the items that fit behind what a page has, and those that are left.
* `pages`         — each page begins with a head, which hangs on where the page begins.
* `Room`          — each item fits behind the head of a page that begins with it.
* `pages_flatten` — the pages together are the items.
* `exists_pages`  — with room for each item the pages end; `room_of_pages`: without it they do not.
-/

namespace Lib

namespace Fill

variable {α σ : Type*} (fits : Nat → Bool) (weight : α → Nat) (advance : σ → α → σ) (head : σ → Nat)

/-- The items that fit, one behind the other, and those that are left. -/
def fill : Nat → List α → List α × List α
  | _, [] => ([], [])
  | used, x :: items =>
    if fits (used + weight x) then
      let (taken, left) := fill (used + weight x) items
      (x :: taken, left)
    else ([], x :: items)

/-- The pages, each with the place where it begins; none where they do not end in so many. -/
def pages : Nat → σ → List α → Option (List (σ × List α))
  | 0, _, _ => none
  | fuel + 1, pos, items =>
    let (taken, left) := fill fits weight (head pos) items
    if left.isEmpty then some [(pos, taken)]
    else (pages fuel (taken.foldl advance pos) left).map ((pos, taken) :: ·)

/-- Each item fits on a page that begins with it. -/
def Room : σ → List α → Prop
  | _, [] => True
  | pos, x :: items => fits (head pos + weight x) = true ∧ Room (advance pos x) items

/-- No item makes the head greater. -/
def Shrinks : σ → List α → Prop
  | _, [] => True
  | pos, x :: items => head (advance pos x) ≤ head pos ∧ Shrinks (advance pos x) items

variable {fits weight advance head} {used fuel : Nat} {pos : σ} {items items' : List α}

/-! ## One page -/

/-- Nothing is lost. -/
theorem fill_append : (fill fits weight used items).1 ++ (fill fits weight used items).2 = items := by
  induction items generalizing used with
  | nil => rfl
  | cons x items ih =>
    rw [fill]
    split_ifs with hfits
    · exact congrArg (x :: ·) ih
    · rfl

/-- Two lists, one behind the other: the second one begins where the first one has ended. -/
theorem fill_behind :
    fill fits weight used (items ++ items') =
      if (fill fits weight used items).2.isEmpty then
        (items ++ (fill fits weight (used + (items.map weight).sum) items').1,
          (fill fits weight (used + (items.map weight).sum) items').2)
      else ((fill fits weight used items).1, (fill fits weight used items).2 ++ items') := by
  induction items generalizing used with
  | nil => rfl
  | cons x items ih =>
    rw [List.cons_append, fill, fill]
    by_cases hfits : fits (used + weight x) = true
    · rw [if_pos hfits, if_pos hfits, ih, List.map_cons, List.sum_cons, ← Nat.add_assoc]
      dsimp only
      split_ifs with hnone
      · rfl
      · rfl
    · rw [if_neg hfits, if_neg hfits]
      rfl

theorem fill_map {β : Type*} {weight : β → Nat} (f : α → β) :
    fill fits weight used (items.map f) =
      ((fill fits (fun x => weight (f x)) used items).1.map f, (fill fits (fun x => weight (f x)) used items).2.map f) := by
  induction items generalizing used with
  | nil => rfl
  | cons x items ih =>
    rw [List.map_cons, fill, fill]
    by_cases hfits : fits (used + weight (f x)) = true
    · rw [if_pos hfits, if_pos hfits, ih]
      rfl
    · rw [if_neg hfits, if_neg hfits]
      rfl

/-- A list that fits as a whole. -/
theorem fill_of_nil (h : (fill fits weight used items).2 = []) : (fill fits weight used items).1 = items := by
  have happend := @fill_append α fits weight used items
  rwa [h, List.append_nil] at happend

theorem fits_of_fill (hused : fits used = true) :
    fits (used + ((fill fits weight used items).1.map weight).sum) = true := by
  induction items generalizing used with
  | nil => exact hused
  | cons x items ih =>
    rw [fill]
    split_ifs with hfits
    · rw [List.map_cons, List.sum_cons, ← Nat.add_assoc]
      exact ih hfits
    · exact hused

/-! ## Pages -/

/-- **The pages together are the items.** -/
theorem pages_flatten {ps : List (σ × List α)} (h : pages fits weight advance head fuel pos items = some ps) :
    ps.flatMap Prod.snd = items := by
  induction fuel generalizing pos items ps with
  | zero => cases h
  | succ fuel ih =>
    rw [pages] at h
    have happend := @fill_append α fits weight (head pos) items
    generalize fill fits weight (head pos) items = page at h happend
    obtain ⟨taken, left⟩ := page
    dsimp only at h happend
    split_ifs at h with hleft
    · obtain rfl := Option.some.inj h
      rw [List.isEmpty_iff.mp hleft, List.append_nil] at happend
      rw [List.flatMap_singleton]
      exact happend
    · obtain ⟨ps', hpages, rfl⟩ := Option.map_eq_some_iff.mp h
      rw [List.flatMap_cons, ih hpages]
      exact happend

theorem room_append : Room fits weight advance head pos (items ++ items') ↔
    Room fits weight advance head pos items ∧ Room fits weight advance head (items.foldl advance pos) items' := by
  induction items generalizing pos with
  | nil => exact (and_iff_right trivial).symm
  | cons x items ih =>
    rw [List.cons_append, Room, Room, ih, and_assoc]
    rfl

theorem shrinks_append : Shrinks advance head pos (items ++ items') ↔
    Shrinks advance head pos items ∧ Shrinks advance head (items.foldl advance pos) items' := by
  induction items generalizing pos with
  | nil => exact (and_iff_right trivial).symm
  | cons x items ih =>
    rw [List.cons_append, Shrinks, Shrinks, ih, and_assoc]
    rfl

theorem head_foldl_le (h : Shrinks advance head pos items) : head (items.foldl advance pos) ≤ head pos := by
  induction items generalizing pos with
  | nil => exact le_rfl
  | cons x items ih => exact (ih h.2).trans h.1

/-- **With room for each item every page takes one, and the pages end.** -/
theorem exists_pages (h : Room fits weight advance head pos items) (hfuel : items.length < fuel) :
    ∃ ps, pages fits weight advance head fuel pos items = some ps := by
  induction fuel generalizing pos items with
  | zero => exact absurd hfuel (Nat.not_lt_zero _)
  | succ fuel ih =>
    rw [pages]
    have happend := @fill_append α fits weight (head pos) items
    have hsome : items ≠ [] → (fill fits weight (head pos) items).1 ≠ [] := by
      intro hne
      cases items with
      | nil => exact absurd rfl hne
      | cons x items =>
        rw [fill, if_pos h.1]
        exact List.cons_ne_nil _ _
    generalize fill fits weight (head pos) items = page at happend hsome
    obtain ⟨taken, left⟩ := page
    dsimp only at happend hsome ⊢
    split_ifs with hleft
    · exact ⟨_, rfl⟩
    · have hne : items ≠ [] := by
        rintro rfl
        exact hleft (List.isEmpty_iff.mpr (List.append_eq_nil_iff.mp happend).2)
      have hlen := List.length_pos_of_ne_nil (hsome hne)
      rw [← happend] at h hfuel
      rw [List.length_append] at hfuel
      obtain ⟨ps, hps⟩ := ih (room_append.mp h).2 (show left.length < fuel by omega)
      rw [hps]
      exact ⟨_, rfl⟩

section Wide

variable (hmono : ∀ m n, m ≤ n → fits n = true → fits m = true)

include hmono

/-- What a page takes fits, item by item, on pages of its own. -/
theorem room_of_fill (hshrinks : Shrinks advance head pos items) (hused : head pos ≤ used) :
    Room fits weight advance head pos (fill fits weight used items).1 := by
  induction items generalizing used pos with
  | nil => trivial
  | cons x items ih =>
    rw [fill]
    split_ifs with hfits
    · refine ⟨hmono _ _ (Nat.add_le_add_right hused _) hfits, ih hshrinks.2 ?_⟩
      exact hshrinks.1.trans (hused.trans (Nat.le_add_right _ _))
    · trivial

/-- **Pages that end have room for each item.** -/
theorem room_of_pages (hshrinks : Shrinks advance head pos items) {ps : List (σ × List α)}
    (h : pages fits weight advance head fuel pos items = some ps) : Room fits weight advance head pos items := by
  induction fuel generalizing pos items ps with
  | zero => cases h
  | succ fuel ih =>
    rw [pages] at h
    have happend := @fill_append α fits weight (head pos) items
    have hroom := @room_of_fill α σ fits weight advance head (head pos) pos items hmono hshrinks le_rfl
    generalize fill fits weight (head pos) items = page at h happend hroom
    obtain ⟨taken, left⟩ := page
    dsimp only at h happend hroom
    rw [← happend] at hshrinks ⊢
    split_ifs at h with hleft
    · rw [List.isEmpty_iff.mp hleft, List.append_nil]
      exact hroom
    · obtain ⟨ps', hpages, rfl⟩ := Option.map_eq_some_iff.mp h
      exact room_append.mpr ⟨hroom, ih (shrinks_append.mp hshrinks).2 hpages⟩

end Wide

end Fill

end Lib
