import Db8.Db.MojDbExtractor

/-!
# Db.MojDbPut

What `MojDb::putObj` adds to an object before it is stored.

* `assignIds` — an id for each object in an array that has none.
* `stamp`     — the revision, then those ids.
-/

namespace Db8

namespace MojDb

open MojObject

mutual
/-- `assignIds` on the properties of an object. `ids` are the texts of the ids the sequence gives, and `n` is how
many it has given. -/
def assignIdsProps (ids : Nat → MojString) :
    List (MojString × MojObject) → Nat → List (MojString × MojObject) × Nat
  | [], n => ([], n)
  | (k, a) :: ps, n =>
    let (a, n) := assignIdsVal ids a n
    let (ps, n) := assignIdsProps ids ps n
    ((k, a) :: ps, n)

def assignIdsVal (ids : Nat → MojString) : MojObject → Nat → MojObject × Nat
  | .array vs, n =>
    let (vs, n) := assignIdsVec ids vs n
    (.array vs, n)
  | .object ps, n =>
    let (ps, n) := assignIdsProps ids ps n
    (.object ps, n)
  | a, n => (a, n)

def assignIdsVec (ids : Nat → MojString) : List MojObject → Nat → List MojObject × Nat
  | [], n => ([], n)
  | a :: vs, n =>
    let (a, n) := assignIdsElem ids a n
    let (vs, n) := assignIdsVec ids vs n
    (a :: vs, n)

/-- The id comes before those inside the object. An array in an array is left as it is. -/
def assignIdsElem (ids : Nat → MojString) : MojObject → Nat → MojObject × Nat
  | .object ps, n =>
    if getProp IdKey ps = none then
      let (qs, m) := assignIdsProps ids ps (n + 1)
      (.object (putProp IdKey (.string (ids n)) qs), m)
    else
      let (qs, m) := assignIdsProps ids ps n
      (.object qs, m)
  | a, n => (a, n)
end

/-- `MojDb::assignIds`: a value without properties is left as it is. -/
def assignIds (ids : Nat → MojString) : MojObject → MojObject
  | .object ps => .object (assignIdsProps ids ps 0).1
  | obj => obj

/-- The object as it is stored. -/
def stamp (rev : Int64) (ids : Nat → MojString) (obj : MojObject) : MojObject :=
  assignIds ids (obj.put RevKey (.int rev))

end MojDb

end Db8
