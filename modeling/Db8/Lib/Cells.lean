import Mathlib

/-!
# Lib.Cells

Arrays whose first cells are constructed and whose other cells are raw memory, as the list of the
constructed ones, and loops over their cells.

* `construct`, `store`        — a new cell at the end, another value in a cell.
* `constructLoop`             — new cells from values that are read one by one.
* `storeUp`, `storeDown`      — values for cells in a row, from the first or from the last on.
* `overwrite`                 — a list with other values from a position on.
* `constructLoop_eq`, `storeUp_eq`, `storeDown_eq` — a loop whose reads are not spoiled by its writes.
-/

namespace Lib

variable {α : Type*}

/-- A value for the raw cell `k`, of `cap`. -/
def construct (cap k : Nat) (a : α) (l : List α) : Option (List α) :=
  if k = l.length ∧ k < cap then some (l ++ [a]) else none

/-- Another value for the constructed cell `k`. -/
def store (k : Nat) (a : α) (l : List α) : Option (List α) := if k < l.length then some (l.set k a) else none

/-- Construct cells from `k` on. A value is read when the array is as the loop has left it so far. -/
def constructLoop (cap : Nat) (read : List α → Nat → Option α) : Nat → Nat → List α → Option (List α)
  | 0, _, l => some l
  | n + 1, k, l => do
    let a ← read l k
    let l ← construct cap k a l
    constructLoop cap read n (k + 1) l

/-- Store to the cells from `k` on. -/
def storeUp (read : List α → Nat → Option α) : Nat → Nat → List α → Option (List α)
  | 0, _, l => some l
  | n + 1, k, l => do
    let a ← read l k
    let l ← store k a l
    storeUp read n (k + 1) l

/-- Store to the cells from `k` downwards. -/
def storeDown (read : List α → Nat → Option α) : Nat → Nat → List α → Option (List α)
  | 0, _, l => some l
  | n + 1, k, l => do
    let a ← read l k
    let l ← store k a l
    storeDown read n (k - 1) l

def overwrite (l : List α) (k : Nat) (vals : List α) : List α := l.take k ++ vals ++ l.drop (k + vals.length)

variable {read : List α → Nat → Option α} {l vals : List α} {k cap : Nat}

@[simp] theorem overwrite_nil (l : List α) (k : Nat) : overwrite l k [] = l := by
  simp [overwrite]

theorem getElem?_overwrite (h : k + vals.length ≤ l.length) (j : Nat) :
    (overwrite l k vals)[j]? = if k ≤ j ∧ j < k + vals.length then vals[j - k]? else l[j]? := by
  have htake : (l.take k).length = k := by
    rw [List.length_take]
    omega
  unfold overwrite
  split_ifs with hj
  · rw [List.append_assoc, List.getElem?_append_right (by omega), htake, List.getElem?_append_left (by omega)]
  · rcases Nat.lt_or_ge j k with hlt | hge
    · rw [List.append_assoc, List.getElem?_append_left (by omega), List.getElem?_take_of_lt hlt]
    · rw [List.getElem?_append_right (by simp only [List.length_append, htake]; omega), List.getElem?_drop]
      congr 1
      simp only [List.length_append, htake]
      omega

theorem length_overwrite (h : k + vals.length ≤ l.length) : (overwrite l k vals).length = l.length := by
  simp only [overwrite, List.length_append, List.length_take, List.length_drop]
  omega

theorem overwrite_set {a : α} (h : k + (vals ++ [a]).length ≤ l.length) :
    (overwrite l k vals).set (k + vals.length) a = overwrite l k (vals ++ [a]) := by
  simp only [List.length_append, List.length_singleton] at h
  refine List.ext_getElem? fun j => ?_
  rw [List.getElem?_set, getElem?_overwrite (by omega), length_overwrite (by omega),
    getElem?_overwrite (by simp only [List.length_append, List.length_singleton]; omega)]
  simp only [List.length_append, List.length_singleton]
  grind

theorem overwrite_set_down {a : α} (h : k + (a :: vals).length ≤ l.length) :
    (overwrite l (k + 1) vals).set k a = overwrite l k (a :: vals) := by
  simp only [List.length_cons] at h
  refine List.ext_getElem? fun j => ?_
  rw [List.getElem?_set, getElem?_overwrite (by omega), length_overwrite (by omega),
    getElem?_overwrite (by simp only [List.length_cons]; omega)]
  simp only [List.length_cons]
  grind

/-! ## The loops -/

theorem constructLoop_eq (hcap : l.length + vals.length ≤ cap)
    (hread : ∀ j < vals.length, read (l ++ vals.take j) (l.length + j) = vals[j]?) :
    constructLoop cap read vals.length l.length l = some (l ++ vals) := by
  induction vals generalizing l with
  | nil => simp [constructLoop]
  | cons a vals ih =>
    simp only [List.length_cons] at hcap hread
    have hfirst : read l l.length = some a := by simpa using hread 0 (Nat.succ_pos _)
    have hconstruct : construct cap l.length a l = some (l ++ [a]) := if_pos ⟨rfl, by omega⟩
    have hlength : (l ++ [a]).length = l.length + 1 := by simp
    have hrest := ih (l := l ++ [a]) (by omega) fun j hj => by
      simpa [hlength, Nat.add_assoc, Nat.add_comm 1 j] using hread (j + 1) (by omega)
    rw [hlength] at hrest
    simp [constructLoop, hfirst, hconstruct, hrest]

theorem storeUp_append (old : List α) (h : k + (old ++ vals).length ≤ l.length)
    (hread : ∀ j < vals.length, read (overwrite l k (old ++ vals.take j)) (k + old.length + j) = vals[j]?) :
    storeUp read vals.length (k + old.length) (overwrite l k old) = some (overwrite l k (old ++ vals)) := by
  induction vals generalizing old with
  | nil => simp [storeUp]
  | cons a vals ih =>
    simp only [List.length_append, List.length_cons] at h hread
    have hfirst : read (overwrite l k old) (k + old.length) = some a := by simpa using hread 0 (Nat.succ_pos _)
    have hstore : store (k + old.length) a (overwrite l k old) = some (overwrite l k (old ++ [a])) := by
      rw [store, length_overwrite (by omega), if_pos (by omega),
        overwrite_set (by simp only [List.length_append, List.length_singleton]; omega)]
    have hrest := ih (old ++ [a]) (by simp only [List.length_append, List.length_singleton]; omega) fun j hj => by
      simpa [Nat.add_assoc, Nat.add_comm 1 j] using hread (j + 1) (by omega)
    rw [List.length_append, List.length_singleton, List.append_assoc, List.singleton_append] at hrest
    simp [storeUp, hfirst, hstore, Nat.add_assoc, hrest]

theorem storeUp_eq (h : k + vals.length ≤ l.length)
    (hread : ∀ j < vals.length, read (overwrite l k (vals.take j)) (k + j) = vals[j]?) :
    storeUp read vals.length k l = some (overwrite l k vals) := by
  simpa using storeUp_append [] h hread

theorem storeDown_append (old : List α) (h : k + (vals ++ old).length ≤ l.length)
    (hread : ∀ j < vals.length, read (overwrite l (k + j + 1) (vals.drop (j + 1) ++ old)) (k + j) = vals[j]?) :
    storeDown read vals.length (k + vals.length - 1) (overwrite l (k + vals.length) old) =
      some (overwrite l k (vals ++ old)) := by
  induction vals using List.reverseRecOn generalizing old with
  | nil => simp [storeDown]
  | append_singleton vals a ih =>
    simp only [List.length_append, List.length_singleton] at h hread ⊢
    have hlast : read (overwrite l (k + vals.length + 1) old) (k + vals.length) = some a := by
      simpa using hread vals.length (by omega)
    have hstore : store (k + vals.length) a (overwrite l (k + vals.length + 1) old) =
        some (overwrite l (k + vals.length) (a :: old)) := by
      rw [store, length_overwrite (by omega), if_pos (by omega),
        overwrite_set_down (by simp only [List.length_cons]; omega)]
    have hrest := ih (a :: old) (by simp only [List.length_append, List.length_cons]; omega) fun j hj => by
      have hj' := hread j (by omega)
      rw [List.drop_append_of_le_length (by omega), List.getElem?_append_left hj] at hj'
      simpa using hj'
    simp [storeDown, hlast, hstore, hrest, ← Nat.add_assoc]

theorem storeDown_eq (h : k + vals.length ≤ l.length)
    (hread : ∀ j < vals.length, read (overwrite l (k + j + 1) (vals.drop (j + 1))) (k + j) = vals[j]?) :
    storeDown read vals.length (k + vals.length - 1) l = some (overwrite l k vals) := by
  have hloop := storeDown_append [] (by simpa using h) fun j hj => (by simpa using hread j hj)
  simpa using hloop

end Lib
