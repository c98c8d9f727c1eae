import Mathlib

/-!
# Core.MojUtil

`MojQuickSort` on the part of the array it is called for.

* `MojQuickSortPartition` — the pivot goes to the end, smaller elements are exchanged to the front.
* `MojQuickSort`          — both sides of the pivot are sorted in turn.
-/

namespace Db8

namespace MojUtil

variable {α : Type*} (rand : Nat → Nat) (less : α → α → Bool)

/-- `MojSwap(array[i], array[j])`. -/
def swap (xs : List α) (i j : Nat) : List α :=
  match xs[i]?, xs[j]? with
  | some x, some y => (xs.set i y).set j x
  | _, _ => xs

/-- The loop of the partition. In front of the element it looks at are `lower`, which are less than the pivot, and
`upper`; the place `mid` is the first of `upper`, and an exchange with the element moves that one behind the others. -/
def partitionLoop (pivot : α) : List α → List α → List α → List α × List α
  | lower, upper, [] => (lower, upper)
  | lower, upper, x :: rest =>
    if less x pivot then partitionLoop pivot (lower ++ [x]) (upper.rotate 1) rest
    else partitionLoop pivot lower (upper ++ [x]) rest

/-- The elements left of `mid`, the pivot at `mid`, and those right of it; at the end `mid` and the last element are
exchanged. `MojRand` gets `left` as its seed. -/
def MojQuickSortPartition (left : Nat) (xs : List α) : Option (List α × α × List α) :=
  let array := swap xs (rand left % xs.length) (xs.length - 1)
  match array.getLast? with
  | none => none
  | some pivot =>
    let (lower, upper) := partitionLoop less pivot [] [] array.dropLast
    some (lower, pivot, upper.rotate 1)

/-- `MojQuickSortImpl` on the elements from `left` on; each call has fewer of them. -/
def MojQuickSortImpl : Nat → Nat → List α → List α
  | 0, _, xs => xs
  | fuel + 1, left, xs =>
    if xs.length ≤ 1 then xs
    else
      match MojQuickSortPartition rand less left xs with
      | none => xs
      | some (lower, pivot, upper) =>
        MojQuickSortImpl fuel left lower ++ pivot :: MojQuickSortImpl fuel (left + lower.length + 1) upper

def MojQuickSort (xs : List α) : List α := MojQuickSortImpl rand less xs.length 0 xs

end MojUtil

end Db8
