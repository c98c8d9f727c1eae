import Db8.Core.MojObject

/-!
# Core.MojString

Strings: their order, concatenation and the pieces between separators.
-/

namespace Db8

open Lib

instance : LinearOrder MojString :=
  LinearOrder.lift' MojString.chars fun s t h => by cases s; cases t; exact MojString.mk.injEq _ _ _ _ ▸ h

theorem zero_notMem_append {xs ys : List MojByte} (hx : 0 ∉ xs) (hy : 0 ∉ ys) : 0 ∉ xs ++ ys := by
  intro h
  cases List.mem_append.mp h with
  | inl h => exact hx h
  | inr h => exact hy h

namespace MojString

theorem compare_eq_lt {s t : MojString} : s.compare t = .lt ↔ s < t := lexCompare_eq_lt

theorem compare_eq_gt {s t : MojString} : s.compare t = .gt ↔ t.compare s = .lt := by
  rw [compare, compare, lexCompare_eq_gt, lexCompare_eq_lt]

theorem compare_trans {s t u : MojString} (h : s.compare t = .lt) (h' : t.compare u = .lt) :
    s.compare u = .lt :=
  lexCompare_eq_lt.mpr ((lexCompare_eq_lt.mp h).trans (lexCompare_eq_lt.mp h'))

/-- `MojString::append`. -/
def append (s t : MojString) : MojString := ⟨s.chars ++ t.chars, zero_notMem_append s.nul_free t.nul_free⟩

/-- The pieces between separators, empty ones included. -/
def pieces (sep : MojByte) : List MojByte → List (List MojByte)
  | [] => [[]]
  | c :: cs =>
    if c = sep then [] :: pieces sep cs
    else
      match pieces sep cs with
      | [] => [[c]]
      | p :: ps => (c :: p) :: ps

theorem mem_of_mem_pieces {sep c : MojByte} {cs : List MojByte} :
    ∀ p ∈ pieces sep cs, c ∈ p → c ∈ cs := by
  induction cs with
  | nil => simp [pieces]
  | cons d cs ih =>
    intro p hp hc
    simp only [pieces] at hp
    split_ifs at hp with hd
    · rcases List.mem_cons.mp hp with rfl | hp
      exacts [absurd hc (by simp), .tail d (ih p hp hc)]
    · cases hps : pieces sep cs with
      | nil => simp_all
      | cons q qs =>
        rw [hps] at hp
        rcases List.mem_cons.mp hp with rfl | hp
        · rcases List.mem_cons.mp hc with rfl | hc
          exacts [.head cs, .tail d (ih q (by simp [hps]) hc)]
        · exact .tail d (ih p (by simp [hps, hp]) hc)

/-- `MojString::split`: empty pieces are dropped. -/
def split (s : MojString) (sep : MojByte) : List MojString :=
  ((pieces sep s.chars).pmap MojString.mk fun p hp hz => s.nul_free (mem_of_mem_pieces p hp hz)).filter
    fun piece => !piece.isEmpty

end MojString

end Db8
