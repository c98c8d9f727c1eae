import Db8.Db.MojDbPut

/-!
# Db.MojDbAssignIds

Which objects `MojDb::assignIds` gives an id.

* `hasIds`           — each object that is an element of an array has an id, at any depth.
* `Completes`        — the second value is the first with ids added to such objects, and no more.
* `hasIds_assignIds` — the ids that are there afterwards: objects in an array in an array get none.
* `assignIds_iff`    — all that is expected of it, and for which objects it does so.
-/

namespace Db8

open Lib

namespace MojDb

open MojObject

def hasId (a : MojObject) : Bool := (a.get IdKey).isSome

mutual
/-- Every object that is an element of an array has an `_id`, whatever the array is an element of. -/
def hasIds : MojObject → Bool
  | .object ps => hasIdsProps ps
  | .array vs => hasIdsVec vs
  | _ => true

def hasIdsProps : List (MojString × MojObject) → Bool
  | [] => true
  | (_, a) :: ps => hasIds a && hasIdsProps ps

def hasIdsVec : List MojObject → Bool
  | [] => true
  | a :: vs => (a.type ≠ .typeObject || hasId a) && hasIds a && hasIdsVec vs
end

mutual
/-- The second value is the first with an `_id` for some objects in arrays that had none; all names,
values, elements and their order are those of the first. -/
inductive Completes : MojObject → MojObject → Prop where
  | same (a : MojObject) : Completes a a
  | object {ps qs : List (MojString × MojObject)} (h : CompletesProps ps qs) :
      Completes (.object ps) (.object qs)
  | array {vs ws : List MojObject} (h : CompletesVec vs ws) : Completes (.array vs) (.array ws)

inductive CompletesProps : List (MojString × MojObject) → List (MojString × MojObject) → Prop where
  | nil : CompletesProps [] []
  | cons {k : MojString} {a b : MojObject} {ps qs : List (MojString × MojObject)} (ha : Completes a b)
      (hps : CompletesProps ps qs) : CompletesProps ((k, a) :: ps) ((k, b) :: qs)

inductive CompletesVec : List MojObject → List MojObject → Prop where
  | nil : CompletesVec [] []
  | cons {a b : MojObject} {vs ws : List MojObject} (ha : CompletesElem a b)
      (hvs : CompletesVec vs ws) : CompletesVec (a :: vs) (b :: ws)

inductive CompletesElem : MojObject → MojObject → Prop where
  | value {a b : MojObject} (h : Completes a b) : CompletesElem a b
  | withId {ps qs : List (MojString × MojObject)} (id : MojString) (hnone : getProp IdKey ps = none)
      (h : CompletesProps ps qs) :
      CompletesElem (.object ps) (.object (putProp IdKey (.string id) qs))
end

mutual
/-- The objects that `assignIds` does not come to have their ids: it goes into objects and into the
arrays of their properties, not into an array that is an element of an array. -/
def idsReached : MojObject → Bool
  | .object ps => idsReachedProps ps
  | .array vs => idsReachedVec vs
  | _ => true

def idsReachedProps : List (MojString × MojObject) → Bool
  | [] => true
  | (_, a) :: ps => idsReached a && idsReachedProps ps

def idsReachedVec : List MojObject → Bool
  | [] => true
  | a :: vs => idsReachedElem a && idsReachedVec vs

def idsReachedElem : MojObject → Bool
  | .object ps => idsReachedProps ps
  | a => hasIds a
end

/-! ## What is added -/

mutual
theorem completes_assignIdsVal (ids : Nat → MojString) (a : MojObject) (n : Nat) :
    Completes a (assignIdsVal ids a n).1 := by
  match a with
  | .object ps => exact .object (completes_assignIdsProps ids ps n)
  | .array vs => exact .array (completes_assignIdsVec ids vs n)
  | .undefined | .null | .string _ | .bool _ | .decimal _ | .int _ =>
    simp only [assignIdsVal]
    exact .same _

theorem completes_assignIdsProps (ids : Nat → MojString) (ps : List (MojString × MojObject)) (n : Nat) :
    CompletesProps ps (assignIdsProps ids ps n).1 := by
  match ps with
  | [] => exact .nil
  | (k, a) :: ps => exact .cons (completes_assignIdsVal ids a n) (completes_assignIdsProps ids ps _)

theorem completes_assignIdsVec (ids : Nat → MojString) (vs : List MojObject) (n : Nat) :
    CompletesVec vs (assignIdsVec ids vs n).1 := by
  match vs with
  | [] => exact .nil
  | a :: vs => exact .cons (completes_assignIdsElem ids a n) (completes_assignIdsVec ids vs _)

theorem completes_assignIdsElem (ids : Nat → MojString) (a : MojObject) (n : Nat) :
    CompletesElem a (assignIdsElem ids a n).1 := by
  match a with
  | .object ps =>
    rw [assignIdsElem]
    split_ifs with hid
    · exact .withId _ hid (completes_assignIdsProps ids ps (n + 1))
    · exact .value (.object (completes_assignIdsProps ids ps n))
  | .array _ | .undefined | .null | .string _ | .bool _ | .decimal _ | .int _ =>
    simp only [assignIdsElem]
    exact .value (.same _)
end

/-! ## Which ids are there -/

/-- The names of the properties stay. -/
theorem getProp_assignIdsProps_eq_none (ids : Nat → MojString) (key : MojString)
    (ps : List (MojString × MojObject)) (n : Nat) :
    getProp key (assignIdsProps ids ps n).1 = none ↔ getProp key ps = none := by
  induction ps generalizing n with
  | nil => rfl
  | cons p ps ih =>
    obtain ⟨k, a⟩ := p
    by_cases hk : k = key
    · simp [assignIdsProps, getProp, hk]
    · simpa [assignIdsProps, getProp, hk] using ih _

/-- A new property with a text is nothing `hasIds` looks at. -/
theorem hasIdsProps_putProp {key text : MojString} {ps : List (MojString × MojObject)}
    (h : getProp key ps = none) : hasIdsProps (putProp key (.string text) ps) = hasIdsProps ps := by
  induction ps with
  | nil => simp [putProp, hasIdsProps, hasIds]
  | cons p ps ih =>
    obtain ⟨k, a⟩ := p
    have hk : k ≠ key := by
      rintro rfl
      simp [getProp] at h
    rw [getProp, if_neg hk] at h
    cases hcmp : key.compare k with
    | lt => simp [putProp, hcmp, hasIdsProps, hasIds]
    | eq => exact absurd (MojString.compare_eq_iff.mp hcmp).symm hk
    | gt => simp [putProp, hcmp, hasIdsProps, ih h]

mutual
theorem hasIds_assignIdsVal (ids : Nat → MojString) (a : MojObject) (n : Nat) :
    hasIds (assignIdsVal ids a n).1 = idsReached a := by
  match a with
  | .object ps => exact hasIds_assignIdsProps ids ps n
  | .array vs => exact hasIds_assignIdsVec ids vs n
  | .undefined | .null | .string _ | .bool _ | .decimal _ | .int _ => simp [assignIdsVal, hasIds, idsReached]

theorem hasIds_assignIdsProps (ids : Nat → MojString) (ps : List (MojString × MojObject)) (n : Nat) :
    hasIdsProps (assignIdsProps ids ps n).1 = idsReachedProps ps := by
  match ps with
  | [] => rfl
  | (k, a) :: ps =>
    simp only [assignIdsProps, hasIdsProps, idsReachedProps, hasIds_assignIdsVal ids a n,
      hasIds_assignIdsProps ids ps]

theorem hasIds_assignIdsVec (ids : Nat → MojString) (vs : List MojObject) (n : Nat) :
    hasIdsVec (assignIdsVec ids vs n).1 = idsReachedVec vs := by
  match vs with
  | [] => rfl
  | a :: vs =>
    simp only [assignIdsVec, hasIdsVec, idsReachedVec, hasIds_assignIdsElem ids a n,
      hasIds_assignIdsVec ids vs]

/-- An object in an array has an id afterwards; any other element is as it was. -/
theorem hasIds_assignIdsElem (ids : Nat → MojString) (a : MojObject) (n : Nat) :
    ((decide ((assignIdsElem ids a n).1.type ≠ .typeObject) || hasId (assignIdsElem ids a n).1) &&
      hasIds (assignIdsElem ids a n).1) = idsReachedElem a := by
  match a with
  | .object ps =>
    rw [assignIdsElem]
    split_ifs with hid
    · have hnone := (getProp_assignIdsProps_eq_none ids IdKey ps (n + 1)).mpr hid
      simp [hasId, MojObject.get, hasIds, hasIdsProps_putProp hnone, hasIds_assignIdsProps, idsReachedElem]
    · have hsome := (getProp_assignIdsProps_eq_none ids IdKey ps n).not.mpr hid
      simp [hasId, MojObject.get, hasIds, hasIds_assignIdsProps, idsReachedElem, Option.isSome_iff_ne_none, hsome]
  | .array vs => simp [assignIdsElem, type, idsReachedElem]
  | .undefined | .null | .string _ | .bool _ | .decimal _ | .int _ =>
    simp [assignIdsElem, hasIds, type, idsReachedElem]
end

/-- Afterwards all ids are there just when the arrays in arrays had theirs. -/
theorem hasIds_assignIds (ids : Nat → MojString) (ps : List (MojString × MojObject)) :
    hasIds (assignIds ids (.object ps)) = idsReached (.object ps) := hasIds_assignIdsProps ids ps 0

/-! ## A second time -/

mutual
/-- No object that `assignIds` comes to lacks an id. -/
def settled : MojObject → Bool
  | .object ps => settledProps ps
  | .array vs => settledVec vs
  | _ => true

def settledProps : List (MojString × MojObject) → Bool
  | [] => true
  | (_, a) :: ps => settled a && settledProps ps

def settledVec : List MojObject → Bool
  | [] => true
  | a :: vs => settledElem a && settledVec vs

def settledElem : MojObject → Bool
  | .object ps => (getProp IdKey ps).isSome && settledProps ps
  | _ => true
end

theorem settledProps_putProp {key text : MojString} {ps : List (MojString × MojObject)}
    (h : settledProps ps = true) : settledProps (putProp key (.string text) ps) = true := by
  induction ps with
  | nil => simp [putProp, settledProps, settled]
  | cons p ps ih =>
    obtain ⟨k, a⟩ := p
    simp only [settledProps, Bool.and_eq_true] at h
    cases hcmp : key.compare k <;> simp [putProp, hcmp, settledProps, settled, h, ih]

mutual
theorem settled_assignIdsVal (ids : Nat → MojString) (a : MojObject) (n : Nat) :
    settled (assignIdsVal ids a n).1 = true := by
  match a with
  | .object ps => exact settled_assignIdsProps ids ps n
  | .array vs => exact settled_assignIdsVec ids vs n
  | .undefined | .null | .string _ | .bool _ | .decimal _ | .int _ => simp [assignIdsVal, settled]

theorem settled_assignIdsProps (ids : Nat → MojString) (ps : List (MojString × MojObject)) (n : Nat) :
    settledProps (assignIdsProps ids ps n).1 = true := by
  match ps with
  | [] => rfl
  | (k, a) :: ps =>
    simp only [assignIdsProps, settledProps, settled_assignIdsVal ids a n, settled_assignIdsProps ids ps,
      Bool.and_true]

theorem settled_assignIdsVec (ids : Nat → MojString) (vs : List MojObject) (n : Nat) :
    settledVec (assignIdsVec ids vs n).1 = true := by
  match vs with
  | [] => rfl
  | a :: vs =>
    simp only [assignIdsVec, settledVec, settled_assignIdsElem ids a n, settled_assignIdsVec ids vs,
      Bool.and_true]

theorem settled_assignIdsElem (ids : Nat → MojString) (a : MojObject) (n : Nat) :
    settledElem (assignIdsElem ids a n).1 = true := by
  match a with
  | .object ps =>
    rw [assignIdsElem]
    split_ifs with hid
    · simp [settledElem, settledProps_putProp, settled_assignIdsProps]
    · have hsome := (getProp_assignIdsProps_eq_none ids IdKey ps n).not.mpr hid
      simp [settledElem, settled_assignIdsProps, Option.isSome_iff_ne_none, hsome]
  | .array vs => simp [assignIdsElem, settledElem]
  | .undefined | .null | .string _ | .bool _ | .decimal _ | .int _ => simp [assignIdsElem, settledElem]
end

mutual
theorem assignIdsVal_of_settled (ids : Nat → MojString) (a : MojObject) (n : Nat) (h : settled a = true) :
    assignIdsVal ids a n = (a, n) := by
  match a with
  | .object ps => rw [assignIdsVal, assignIdsProps_of_settled ids ps n h]
  | .array vs => rw [assignIdsVal, assignIdsVec_of_settled ids vs n h]
  | .undefined | .null | .string _ | .bool _ | .decimal _ | .int _ => simp [assignIdsVal]

theorem assignIdsProps_of_settled (ids : Nat → MojString) (ps : List (MojString × MojObject)) (n : Nat)
    (h : settledProps ps = true) : assignIdsProps ids ps n = (ps, n) := by
  match ps with
  | [] => rfl
  | (k, a) :: ps =>
    simp only [settledProps, Bool.and_eq_true] at h
    simp only [assignIdsProps, assignIdsVal_of_settled ids a n h.1, assignIdsProps_of_settled ids ps n h.2]

theorem assignIdsVec_of_settled (ids : Nat → MojString) (vs : List MojObject) (n : Nat)
    (h : settledVec vs = true) : assignIdsVec ids vs n = (vs, n) := by
  match vs with
  | [] => rfl
  | a :: vs =>
    simp only [settledVec, Bool.and_eq_true] at h
    simp only [assignIdsVec, assignIdsElem_of_settled ids a n h.1, assignIdsVec_of_settled ids vs n h.2]

theorem assignIdsElem_of_settled (ids : Nat → MojString) (a : MojObject) (n : Nat)
    (h : settledElem a = true) : assignIdsElem ids a n = (a, n) := by
  match a with
  | .object ps =>
    simp only [settledElem, Bool.and_eq_true, Option.isSome_iff_ne_none] at h
    simp only [assignIdsElem, if_neg h.1, assignIdsProps_of_settled ids ps n h.2]
  | .array vs => simp [assignIdsElem]
  | .undefined | .null | .string _ | .bool _ | .decimal _ | .int _ => simp [assignIdsElem]
end

/-- Applied again, with whatever ids, it changes nothing. -/
theorem assignIds_idem (ids ids' : Nat → MojString) (obj : MojObject) :
    assignIds ids' (assignIds ids obj) = assignIds ids obj := by
  cases obj with
  | object ps =>
    simp only [assignIds, assignIdsProps_of_settled ids' _ 0 (settled_assignIdsProps ids ps 0)]
  | _ => rfl

/-- What is expected of `assignIds` for one object: each object in an array has an id afterwards,
nothing else is changed, and a second time changes nothing at all. -/
structure Assigns (ids : Nat → MojString) (obj : MojObject) : Prop where
  ids_there : hasIds (assignIds ids obj) = true
  completes : Completes obj (assignIds ids obj)
  idem : ∀ ids', assignIds ids' (assignIds ids obj) = assignIds ids obj

/-- It does so for exactly the objects in which the arrays that are elements of arrays hold no
object in an array without an id. -/
theorem assignIds_iff (ids : Nat → MojString) (ps : List (MojString × MojObject)) :
    Assigns ids (.object ps) ↔ idsReached (.object ps) = true := by
  rw [← hasIds_assignIds ids]
  exact ⟨Assigns.ids_there, fun h => ⟨h, .object (completes_assignIdsProps ids ps 0), fun ids' => assignIds_idem ids ids' _⟩⟩

/-- In `{ "a": [[{}]] }` the inner object gets no id. -/
theorem not_assigns_nested :
    ¬ Assigns (fun _ => ⟨[49], by decide⟩) (.object [(⟨[97], by decide⟩, .array [.array [.object []]])]) := by
  intro h
  have hids := h.ids_there
  rw [hasIds_assignIds] at hids
  exact absurd hids (by decide)

end MojDb

end Db8
