import Db8.Lib.CursorPos

/-!
# Lib.MergeCursor

Two cursors that run over two sets of one order side by side, as one cursor over the union. The set
`A` is what the main cursor `m` runs over, `P` what the pending cursor `i` runs over; the order is
that of the run, `⊤` is its end, and the cursor of the union stands at `min m i`.

* `IsNext S p q`        — `q` is the next element of `S` after `p`, or the end.
* `Aligned A P m i`     — neither cursor has passed anything the other one still needs.
* `Moved.isNext`, `Moved.aligned` — moving the cursors that stand at the minimum moves to the next element.
* `Aligned.put`, `Aligned.erase`, `Aligned.erase_pending` — changes of the sets under the cursors.
* `AlignedBack`, `Aligned.turn_main`, `Aligned.turn_pending` — what it takes to go on in the opposite direction.
-/

namespace Lib

variable {L : Type*} [LinearOrder L]

structure Aligned [OrderTop L] (A P : Set L) (m i : L) : Prop where
  pending_mem : i = ⊤ ∨ i ∈ P
  pending_le : ∀ x ∈ P, min m i ≤ x → i ≤ x
  passed_pending : ∀ x ∈ A, min m i < x → x < m → x ∈ P
  main_mem : i < m → m = ⊤ ∨ m ∈ A

namespace Aligned

variable [OrderTop L] {A A' P P' : Set L} {m i m' i' : L}

/-- From the first elements of both sets on, a run is aligned. -/
theorem ofFirst {p : L} (hm : IsLeast (insert ⊤ {x ∈ A | p ≤ x}) m)
    (hi : IsLeast (insert ⊤ {x ∈ P | p ≤ x}) i) : Aligned A P m i := by
  have hpm : p ≤ m := by
    cases hm.1 with
    | inl he => exact he ▸ le_top
    | inr h => exact h.2
  have hpi : p ≤ i := by
    cases hi.1 with
    | inl he => exact he ▸ le_top
    | inr h => exact h.2
  refine ⟨hi.1.imp id And.left, fun x hx hle => hi.2 (.inr ⟨hx, ?_⟩), fun x hx hlt hxm => ?_, fun _ => hm.1.imp id And.left⟩
  · exact (le_min hpm hpi).trans hle
  · exact absurd (hm.2 (.inr ⟨hx, (le_min hpm hpi).trans hlt.le⟩)) hxm.not_ge

theorem first_min {p : L} (hm : IsLeast (insert ⊤ {x ∈ A | p ≤ x}) m)
    (hi : IsLeast (insert ⊤ {x ∈ P | p ≤ x}) i) :
    IsLeast (insert ⊤ {x ∈ A ∪ P | p ≤ x}) (min m i) := by
  constructor
  · cases le_total m i with
    | inl hle =>
      rw [min_eq_left hle]
      exact hm.1.imp id fun h => ⟨.inl h.1, h.2⟩
    | inr hle =>
      rw [min_eq_right hle]
      exact hi.1.imp id fun h => ⟨.inr h.1, h.2⟩
  · intro x hx
    cases hx with
    | inl he => exact he ▸ le_top
    | inr hx =>
      cases hx.1 with
      | inl hA => exact (min_le_left m i).trans (hm.2 (.inr ⟨hA, hx.2⟩))
      | inr hP => exact (min_le_right m i).trans (hi.2 (.inr ⟨hP, hx.2⟩))

/-! ## Moving on -/

/-- The cursors at the minimum move to their next element. -/
structure Moved (A P : Set L) (m i m' i' : L) : Prop where
  main : m ≤ i → IsNext A m m'
  main_stays : i < m → m' = m
  pending : i ≤ m → IsNext P i i'
  pending_stays : m < i → i' = i

namespace Moved

variable (hmv : Moved A P m i m' i') (h : Aligned A P m i)

include hmv h

theorem main_cases : m' = ⊤ ∨ m' ∈ A ∧ min m i < m' := by
  cases le_or_gt m i with
  | inl hle =>
    rw [min_eq_left hle]
    exact (hmv.main hle).1
  | inr hlt =>
    rw [hmv.main_stays hlt, min_eq_right hlt.le]
    exact (h.main_mem hlt).imp id fun hm => ⟨hm, hlt⟩

theorem pending_cases : i' = ⊤ ∨ i' ∈ P ∧ min m i < i' := by
  cases le_or_gt i m with
  | inl hle =>
    rw [min_eq_right hle]
    exact (hmv.pending hle).1
  | inr hlt =>
    rw [hmv.pending_stays hlt, min_eq_left hlt.le]
    exact h.pending_mem.imp id fun hi => ⟨hi, hlt⟩

theorem min_cases : min m' i' = ⊤ ∨ min m' i' ∈ A ∪ P ∧ min m i < min m' i' := by
  cases le_total m' i' with
  | inl hle =>
    rw [min_eq_left hle]
    exact (hmv.main_cases h).imp id fun hm => ⟨.inl hm.1, hm.2⟩
  | inr hle =>
    rw [min_eq_right hle]
    exact (hmv.pending_cases h).imp id fun hi => ⟨.inr hi.1, hi.2⟩

/-- Past the old minimum the pending cursor has left nothing behind. -/
theorem pending_le {x : L} (hx : x ∈ P) (hlt : min m i < x) : i' ≤ x := by
  cases le_or_gt i m with
  | inl hle =>
    rw [min_eq_right hle] at hlt
    exact (hmv.pending hle).le_of_mem hx hlt
  | inr hmi => exact hmv.pending_stays hmi ▸ h.pending_le x hx hlt.le

/-- Neither has the main cursor, but for what is pending as well. -/
theorem main_le {x : L} (hx : x ∈ A) (hlt : min m i < x) (hP : x ∉ P) : m' ≤ x := by
  cases le_or_gt m i with
  | inl hle =>
    rw [min_eq_left hle] at hlt
    exact (hmv.main hle).le_of_mem hx hlt
  | inr him =>
    rw [hmv.main_stays him]
    exact le_of_not_gt fun hxm => hP (h.passed_pending x hx hlt hxm)

/-- **The union moves.** The cursor of the union moves to the next element of the union. -/
theorem isNext : IsNext (A ∪ P) (min m i) (min m' i') := by
  refine IsNext.intro (hmv.min_cases h) fun x hx hlt => ?_
  by_cases hP : x ∈ P
  · exact (min_le_right m' i').trans (hmv.pending_le h hP hlt)
  · exact (min_le_left m' i').trans (hmv.main_le h (hx.resolve_right hP) hlt hP)

theorem aligned : Aligned A P m' i' := by
  have hmono := (hmv.isNext h).le
  refine ⟨(hmv.pending_cases h).imp id And.left, fun x hx hle => ?_, fun x hx hlt hxm => ?_, fun _ =>
    (hmv.main_cases h).imp id And.left⟩
  · cases hmv.min_cases h with
    | inl htop =>
      rw [htop, top_le_iff] at hle
      exact hle ▸ le_top
    | inr hmin => exact hmv.pending_le h hx (hmin.2.trans_le hle)
  · by_contra hP
    exact hxm.not_ge (hmv.main_le h hx (hmono.trans_lt hlt) hP)

end Moved

/-! ## Changes under the cursors -/

/-- The pending cursor goes back to a new element that lies between the cursors. -/
theorem put {k : L} (h : Aligned A P m i) (hA : A ⊆ A') (hA' : ∀ x ∈ A', x ∈ A ∨ x = k)
    (hP' : ∀ x, x ∈ P' ↔ x ∈ P ∨ x = k) (hback : m ≤ k → k < i → i' = k)
    (hstay : ¬(m ≤ k ∧ k < i) → i' = i) : Aligned A' P' m i' ∧ min m i' = min m i := by
  by_cases hbetween : m ≤ k ∧ k < i
  · -- the main cursor is at the minimum, so that the new element is the first pending one after it
    obtain ⟨hmk, hki⟩ := hbetween
    obtain rfl := hback hmk hki
    have hmi : m ≤ i := hmk.trans hki.le
    refine ⟨⟨.inr ((hP' i').mpr (.inr rfl)), fun x hx hle => ?_, fun x _ hlt hxm => ?_, fun hlt => ?_⟩, ?_⟩
    · rw [min_eq_left hmk] at hle
      cases (hP' x).mp hx with
      | inl hx => exact hki.le.trans (h.pending_le x hx ((min_eq_left hmi).trans_le hle))
      | inr he => exact he.ge
    · rw [min_eq_left hmk] at hlt
      exact absurd hlt hxm.asymm
    · exact absurd hlt hmk.not_gt
    · rw [min_eq_left hmk, min_eq_left hmi]
  · obtain rfl := hstay hbetween
    refine ⟨⟨h.pending_mem.imp id fun hi => (hP' i').mpr (.inl hi), fun x hx hle => ?_, fun x hx hlt hxm => ?_,
      fun hlt => (h.main_mem hlt).imp id fun hm => hA hm⟩, rfl⟩
    · cases (hP' x).mp hx with
      | inl hx => exact h.pending_le x hx hle
      | inr he =>
        subst he
        by_contra hxi
        rw [not_le] at hxi
        refine hbetween ⟨?_, hxi⟩
        exact (min_le_iff.mp hle).resolve_right hxi.not_ge
    · cases hA' x hx with
      | inl hx => exact (hP' x).mpr (.inl (h.passed_pending x hx hlt hxm))
      | inr he => exact (hP' x).mpr (.inr he)

/-- An element neither cursor needs can go. -/
theorem erase {k : L} (h : Aligned A P m i) (hi : i ≠ k) (hm : i < m → m ≠ k) :
    Aligned (A \ {k}) (P \ {k}) m i := by
  refine ⟨h.pending_mem.imp id fun hmem => ⟨hmem, hi⟩, fun x hx => h.pending_le x hx.1,
    fun x hx hlt hxm => ⟨h.passed_pending x hx.1 hlt hxm, hx.2⟩, fun hlt => ?_⟩
  exact (h.main_mem hlt).imp id fun hmem => ⟨hmem, hm hlt⟩

/-- The element under a pending cursor can go once that cursor has moved on, alone. -/
theorem erase_pending (h : Aligned A P m i) (hlt : m < i) (hi' : IsNext P i i') :
    Aligned (A \ {i}) (P \ {i}) m i' ∧ min m i' = min m i := by
  have hmi' : m < i' := hlt.trans_le hi'.le
  refine ⟨⟨?_, fun x hx hle => ?_, fun x _ hlt' hxm => ?_, fun hlt' => absurd hlt' hmi'.asymm⟩, ?_⟩
  · exact hi'.1.imp id fun hmem => ⟨hmem.1, hmem.2.ne'⟩
  · rw [min_eq_left hmi'.le] at hle
    have hix := h.pending_le x hx.1 ((min_eq_left hlt.le).trans_le hle)
    exact hi'.le_of_mem hx.1 (hix.lt_of_ne fun he => hx.2 he.symm)
  · rw [min_eq_left hmi'.le] at hlt'
    exact absurd hlt' hxm.asymm
  · rw [min_eq_left hmi'.le, min_eq_left hlt.le]

end Aligned

/-! ## Turning round -/

/-- `Aligned` for a run in the opposite direction, which stands at `max m i`. -/
structure AlignedBack [OrderBot L] (A P : Set L) (m i : L) : Prop where
  pending_mem : i = ⊥ ∨ i ∈ P
  le_pending : ∀ x ∈ P, x ≤ max m i → x ≤ i
  passed_pending : ∀ x ∈ A, x < max m i → m < x → x ∈ P
  main_mem : m < i → m = ⊥ ∨ m ∈ A

namespace Aligned

variable [BoundedOrder L] {A P : Set L} {m i m' i' : L}

/-- The pending cursor is the current one: the main cursor has to come back behind it, over no element
that only the pending cursor has yet to pass. -/
theorem turn_main (h : Aligned A P m i) (hlt : i < m) (hclear : ∀ x ∈ A, i < x → ¬ x < m)
    (hm' : IsPrev A m m') : AlignedBack A P m' i ∧ max m' i = i := by
  have hle : m' ≤ i := by
    cases hm'.1 with
    | inl he => exact he ▸ bot_le
    | inr hmem => exact le_of_not_gt fun hgt => hclear m' hmem.1 hgt hmem.2
  have hi : i ∈ P := h.pending_mem.resolve_left hlt.ne_top
  refine ⟨⟨.inr hi, fun x _ hx => ?_, fun x hx hxi hmx => ?_, fun _ => hm'.1.imp id And.left⟩, max_eq_right hle⟩
  · rwa [max_eq_right hle] at hx
  · rw [max_eq_right hle] at hxi
    exact absurd (hm'.2 (.inr ⟨hx, hxi.trans hlt⟩)) hmx.not_ge

/-- The main cursor is the current one: the pending cursor comes back behind it. -/
theorem turn_pending (h : Aligned A P m i) (hlt : m < i) (hi' : IsPrev P i i') :
    AlignedBack A P m i' ∧ max m i' = m := by
  have hle : ∀ x ∈ P, m ≤ x → i ≤ x := fun x hx hmx => h.pending_le x hx ((min_eq_left hlt.le).trans_le hmx)
  have hlt' : i' = ⊥ ∨ i' < m := by
    refine hi'.1.imp id fun hmem => lt_of_not_ge fun hge => ?_
    exact (hle i' hmem.1 hge).not_gt hmem.2
  have him : i' ≤ m := by
    cases hlt' with
    | inl he => exact he ▸ bot_le
    | inr hlt => exact hlt.le
  refine ⟨⟨hi'.1.imp id And.left, fun x hx hxm => ?_, fun x _ hxm hmx => ?_, fun hmi => absurd hmi him.not_gt⟩,
    max_eq_left him⟩
  · rw [max_eq_left him] at hxm
    exact hi'.2 (.inr ⟨hx, hxm.trans_lt hlt⟩)
  · rw [max_eq_left him] at hxm
    exact absurd hxm hmx.asymm

theorem turn_eq (h : Aligned A P m i) (he : m = i) (htop : m ≠ ⊤) : AlignedBack A P m i ∧ max m i = m := by
  subst he
  refine ⟨⟨.inr (h.pending_mem.resolve_left htop), fun x _ hx => ?_, fun x _ hxm hmx => ?_, fun hlt =>
    absurd hlt (lt_irrefl m)⟩, max_self m⟩
  · rwa [max_self] at hx
  · rw [max_self] at hxm
    exact absurd hxm hmx.asymm

end Aligned

namespace Toward

variable {κ : Type*} [LinearOrder κ] {fwd : Bool} {A P : Set κ} {m i : CursorPos κ}

theorem aligned_not (h : AlignedBack (keysAt fwd A) (keysAt fwd P) (on fwd m) (on fwd i)) :
    Aligned (keysAt (!fwd) A) (keysAt (!fwd) P) (on (!fwd) m) (on (!fwd) i) := by
  cases fwd <;> exact ⟨h.pending_mem, h.le_pending, h.passed_pending, h.main_mem⟩

theorem min_not {c : CursorPos κ} (h : max (on fwd m) (on fwd i) = on fwd c) :
    min (on (!fwd) m) (on (!fwd) i) = on (!fwd) c := by
  cases fwd <;> exact h

end Toward

end Lib
