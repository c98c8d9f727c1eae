import Mathlib

/-!
# Lib.RefCount

Owners that point to shared objects, and how many point to each.

* `refs`        — how many owners point to an object.
* `refs_update` — the counts after one owner gets another pointer.
* `ne_of_refs`  — an object that is pointed to once has no other owner.
-/

namespace Lib

variable {ι : Type*} [Fintype ι] {ptrs : ι → Option Nat} {c : ι} {i : Nat}

/-- The owners that point to the object. -/
def refs (ptrs : ι → Option Nat) (i : Nat) : Nat := (Finset.univ.filter fun c => ptrs c = some i).card

theorem refs_pos (hc : ptrs c = some i) : 0 < refs ptrs i :=
  Finset.card_pos.mpr ⟨c, by simp [hc]⟩

theorem refs_eq_zero (h : ∀ c, ptrs c ≠ some i) : refs ptrs i = 0 :=
  Finset.card_eq_zero.mpr (Finset.filter_eq_empty_iff.mpr fun c _ => h c)

/-- An object that is pointed to once. -/
theorem ne_of_refs (hone : refs ptrs i = 1) (hc : ptrs c = some i) {d : ι} (hd : d ≠ c) : ptrs d ≠ some i := by
  intro hdi
  obtain ⟨e, he⟩ := Finset.card_eq_one.mp hone
  have hmem : ∀ b, ptrs b = some i → b = e := fun b hb =>
    Finset.mem_singleton.mp (he ▸ Finset.mem_filter.mpr ⟨Finset.mem_univ b, hb⟩)
  exact hd ((hmem d hdi).trans (hmem c hc).symm)

/-- An object that is pointed to more than once. -/
theorem exists_ne_of_refs (hmany : 1 < refs ptrs i) (c : ι) : ∃ d, d ≠ c ∧ ptrs d = some i := by
  obtain ⟨d, hd, hne⟩ := Finset.exists_mem_ne hmany c
  exact ⟨d, hne, (Finset.mem_filter.mp hd).2⟩

variable [DecidableEq ι]

theorem refs_update (ptrs : ι → Option Nat) (c : ι) (p : Option Nat) (i : Nat) :
    refs (Function.update ptrs c p) i + (if ptrs c = some i then 1 else 0) =
      refs ptrs i + if p = some i then 1 else 0 := by
  have hcount : ∀ f : ι → Option Nat, refs f i =
      (if f c = some i then 1 else 0) + ((Finset.univ.erase c).filter fun d => f d = some i).card := by
    intro f
    rw [refs, ← Finset.insert_erase (Finset.mem_univ c), Finset.filter_insert]
    split_ifs
    · rw [Finset.card_insert_of_notMem (by simp), Finset.erase_insert (by simp)]
      omega
    · rw [Finset.erase_insert (by simp)]
      omega
  have hsame : ((Finset.univ.erase c).filter fun d => Function.update ptrs c p d = some i) =
      (Finset.univ.erase c).filter fun d => ptrs d = some i := by
    refine Finset.filter_congr fun d hd => ?_
    rw [Function.update_of_ne (Finset.ne_of_mem_erase hd)]
  rw [hcount (Function.update ptrs c p), hcount ptrs, hsame, Function.update_self]
  omega

/-- An owner with another pointer. -/
theorem refs_update_of_ne {p : Option Nat} (hc : ptrs c ≠ some i) (hp : p ≠ some i) :
    refs (Function.update ptrs c p) i = refs ptrs i := by
  have hupdate := refs_update ptrs c p i
  rwa [if_neg hc, if_neg hp] at hupdate

end Lib
