import Db8.Core.MojErr
import Db8.Db.MojDbExtractor
import Db8.Lib.Fallible

/-!
# Db.MojDbQuery

Queries: where clauses with a lower and an upper part, and the checks a query passes before it runs.

* `WhereClause`          — a clause with the combinations `addClause` lets through as a field.
* `MojDbQuery.addClause` — adds a condition, to a new clause or to the clause of its property.
* `WhereClause.Matches`  — what it means that a value satisfies a clause.
-/

namespace Db8

open Lib

inductive CompOp where
  | opNone | opEq | opNotEq | opLessThan | opLessThanEq | opGreaterThan | opGreaterThanEq
  | opPrefix | opSearch | opSubString
  deriving DecidableEq

namespace MojObject

def isArray (o : MojObject) : Bool := o.type = .typeArray

/-- The values a clause value stands for: the elements of an array, or the value itself. -/
def alternatives : MojObject → List MojObject
  | .array vec => vec
  | o => [o]

end MojObject

/-- The operators and values a clause may have: `<` and `<=` are kept as the upper part, all others
as the lower part, and only `>` and `>=` go together with an upper part. -/
structure WhereClause.Valid (lowerOp upperOp : CompOp) (lowerVal upperVal : MojObject) : Prop where
  some_op : lowerOp ≠ .opNone ∨ upperOp ≠ .opNone
  lower_not_lt : lowerOp ≠ .opLessThan ∧ lowerOp ≠ .opLessThanEq
  upper_lt : upperOp = .opNone ∨ upperOp = .opLessThan ∨ upperOp = .opLessThanEq
  combination : upperOp ≠ .opNone →
    lowerOp = .opNone ∨ lowerOp = .opGreaterThan ∨ lowerOp = .opGreaterThanEq
  lower_array : lowerVal.isArray = true → lowerOp = .opEq ∨ lowerOp = .opPrefix ∨ lowerOp = .opSubString
  upper_array : upperVal.isArray = false
  lower_none : lowerOp = .opNone → lowerVal = .undefined

structure WhereClause where
  lowerOp : CompOp
  upperOp : CompOp
  lowerVal : MojObject
  upperVal : MojObject
  collation : Option MojDbCollationStrength
  valid : WhereClause.Valid lowerOp upperOp lowerVal upperVal

namespace WhereClause

def definesOrder (c : WhereClause) : Bool := c.lowerOp ≠ .opEq || c.lowerVal.isArray

/-- `WhereClause::collation`: the collation of both parts of a clause. -/
def mergeCollation (old new : Option MojDbCollationStrength) :
    Except MojErr (Option MojDbCollationStrength) :=
  if old.isSome ∧ new ≠ old then .error .dbInvalidQueryCollationMismatch else .ok new

end WhereClause

abbrev WhereMap := List (MojString × WhereClause)

namespace WhereMap

def find : WhereMap → MojString → Option WhereClause
  | [], _ => none
  | (k, c) :: map, key => if k = key then some c else find map key

def contains (map : WhereMap) (key : MojString) : Bool := (find map key).isSome

theorem find_eq_some_of_mem {map : WhereMap} (hnodup : (map.map Prod.fst).Nodup) {key : MojString}
    {c : WhereClause} (h : (key, c) ∈ map) : find map key = some c := by
  induction map with
  | nil => cases h
  | cons p map ih =>
    obtain ⟨k, d⟩ := p
    obtain ⟨hk, hnodup⟩ := List.nodup_cons.mp hnodup
    rcases List.mem_cons.mp h with he | h
    · cases he
      simp [find]
    · have hne : k ≠ key := by
        rintro rfl
        exact hk (List.mem_map.mpr ⟨(k, c), h, rfl⟩)
      simp [find, hne, ih hnodup h]

theorem mem_of_find_eq_some {map : WhereMap} {key : MojString} {c : WhereClause}
    (h : find map key = some c) : (key, c) ∈ map := by
  induction map with
  | nil => cases h
  | cons p map ih =>
    obtain ⟨k, d⟩ := p
    simp only [find] at h
    split_ifs at h with hk
    · cases h
      exact hk ▸ .head map
    · exact .tail _ (ih h)

theorem contains_iff {map : WhereMap} {key : MojString} :
    contains map key = true ↔ key ∈ map.map Prod.fst := by
  induction map with
  | nil => simp [contains, find]
  | cons p map ih =>
    obtain ⟨k, c⟩ := p
    rw [contains] at ih ⊢
    by_cases hk : k = key
    · simp [find, hk]
    · simp [find, hk, ih, Ne.symm hk]

end WhereMap

structure MojDbQuery where
  whereClauses : WhereMap
  filterClauses : WhereMap
  /-- The order property; an empty string asks for no order. -/
  orderProp : MojString
  distinct : MojString
  desc : Bool
  limit : Nat
  page : MojDbKey
  ignoreInactiveShards : Bool
  where_nodup : (whereClauses.map Prod.fst).Nodup

namespace MojDbQuery

/-- The lower or the upper part of a new clause. -/
def createClause (op : CompOp) (val : MojObject) (coll : Option MojDbCollationStrength)
    (hop : op ≠ .opNone)
    (hval : val.isArray = true → op = .opEq ∨ op = .opPrefix ∨ op = .opSubString) : WhereClause :=
  if hlt : op = .opLessThan ∨ op = .opLessThanEq then
    { lowerOp := .opNone, upperOp := op, lowerVal := .undefined, upperVal := val, collation := coll
      valid :=
        { some_op := .inr hop
          lower_not_lt := by decide
          upper_lt := .inr hlt
          combination := fun _ => .inl rfl
          lower_array := by decide
          upper_array := by
            by_contra h
            rcases hval (by simpa using h) with rfl | rfl | rfl <;> simp at hlt
          lower_none := fun _ => rfl } }
  else
    { lowerOp := op, upperOp := .opNone, lowerVal := val, upperVal := .undefined, collation := coll
      valid :=
        { some_op := .inl hop
          lower_not_lt := not_or.mp hlt
          upper_lt := .inl rfl
          combination := fun h => absurd rfl h
          lower_array := hval
          upper_array := by decide
          lower_none := fun h => absurd h hop } }

/-- A second condition on a property: an upper part joins `>` or `>=`, and the other way round. -/
def updateClause (c : WhereClause) (op : CompOp) (val : MojObject)
    (coll : Option MojDbCollationStrength)
    (hval : val.isArray = true → op = .opEq ∨ op = .opPrefix ∨ op = .opSubString) :
    Except MojErr WhereClause :=
  if hlt : op = .opLessThan ∨ op = .opLessThanEq then
    if hlower : c.lowerOp = .opNone ∨ c.lowerOp = .opGreaterThan ∨ c.lowerOp = .opGreaterThanEq then
      if c.upperOp ≠ .opNone then .error .dbInvalidQueryOpCombo
      else do
        let merged ← WhereClause.mergeCollation c.collation coll
        return { c with
          upperOp := op, upperVal := val, collation := merged
          valid :=
            { some_op := .inr (by rcases hlt with rfl | rfl <;> decide)
              lower_not_lt := c.valid.lower_not_lt
              upper_lt := .inr hlt
              combination := fun _ => hlower
              lower_array := c.valid.lower_array
              upper_array := by
                by_contra h
                rcases hval (by simpa using h) with rfl | rfl | rfl <;> simp at hlt
              lower_none := c.valid.lower_none } }
    else .error .dbInvalidQueryOpCombo
  else if hgt : op = .opGreaterThan ∨ op = .opGreaterThanEq then
    if c.upperOp ≠ .opNone ∧ c.upperOp ≠ .opLessThan ∧ c.upperOp ≠ .opLessThanEq then
      .error .dbInvalidQueryOpCombo
    else if c.lowerOp ≠ .opNone then .error .dbInvalidQueryOpCombo
    else do
      let merged ← WhereClause.mergeCollation c.collation coll
      return { c with
        lowerOp := op, lowerVal := val, collation := merged
        valid :=
          { some_op := .inl (by rcases hgt with rfl | rfl <;> decide)
            lower_not_lt := by rcases hgt with rfl | rfl <;> decide
            upper_lt := c.valid.upper_lt
            combination := fun _ => .inr hgt
            lower_array := hval
            upper_array := c.valid.upper_array
            lower_none := fun h => by rcases hgt with rfl | rfl <;> simp at h } }
  else .error .dbInvalidQueryOpCombo

/-- `addClause` on the clause of its property; a property without a clause gets a new one. -/
def addClause (map : WhereMap) (propName : MojString) (op : CompOp) (val : MojObject)
    (coll : Option MojDbCollationStrength) : Except MojErr WhereMap :=
  if hop : op = .opNone then .error .dbInvalidQuery
  else if harr : val.isArray = true ∧ ¬ (op = .opEq ∨ op = .opPrefix ∨ op = .opSubString) then
    .error .dbInvalidQuery
  else
    let hval := fun h => not_not.mp (not_and.mp harr h)
    match WhereMap.find map propName with
    | none => .ok (map ++ [(propName, createClause op val coll hop hval)])
    | some c => do
      let c' ← updateClause c op val coll hval
      return map.map fun p => if p.1 = propName then (p.1, c') else p

theorem addClause_keys {map map' : WhereMap} {propName : MojString} {op : CompOp}
    {val : MojObject} {coll : Option MojDbCollationStrength}
    (h : addClause map propName op val coll = .ok map') :
    map'.map Prod.fst = map.map Prod.fst ∨
      propName ∉ map.map Prod.fst ∧ map'.map Prod.fst = map.map Prod.fst ++ [propName] := by
  unfold addClause at h
  split_ifs at h
  split at h
  · rename_i hnone
    cases h
    refine .inr ⟨fun hmem => ?_, by simp⟩
    rw [← WhereMap.contains_iff, WhereMap.contains, hnone] at hmem
    cases hmem
  · rename_i c hsome
    obtain ⟨c', -, h⟩ := bind_eq_ok.mp h
    cases h
    refine .inl ?_
    rw [List.map_map]
    exact List.map_congr_left fun p _ => by by_cases hp : p.1 = propName <;> simp [hp]

theorem addClause_nodup {map map' : WhereMap} {propName : MojString} {op : CompOp}
    {val : MojObject} {coll : Option MojDbCollationStrength} (hmap : (map.map Prod.fst).Nodup)
    (h : addClause map propName op val coll = .ok map') : (map'.map Prod.fst).Nodup := by
  rcases addClause_keys h with hkeys | ⟨hnew, hkeys⟩
  · rwa [hkeys]
  · rw [hkeys]
    simpa using hmap.concat hnew

/-- `MojDbQuery::where`. -/
def addWhere (query : MojDbQuery) (propName : MojString) (op : CompOp) (val : MojObject)
    (coll : Option MojDbCollationStrength) : Except MojErr MojDbQuery :=
  match h : addClause query.whereClauses propName op val coll with
  | .ok map => .ok { query with whereClauses := map, where_nodup := addClause_nodup query.where_nodup h }
  | .error err => .error err

/-! ## Validation -/

/-- At most one property has an operator other than `=`, and at most one, `_del` apart, an array. -/
def validate (query : MojDbQuery) : Except MojErr Unit :=
  if (query.whereClauses.filter fun p => p.2.lowerOp ≠ .opEq).length > 1 then .error .dbInvalidQuery
  else if (query.whereClauses.filter fun p => p.2.lowerVal.isArray && p.1 ≠ MojDb.DelKey).length > 1 then
    .error .dbInvalidQuery
  else if query.filterClauses.any fun p => p.2.lowerOp = .opSearch then .error .dbInvalidQuery
  else .ok ()

/-- A clause that orders its values must be on the order property; no search, no filter. -/
def validateFind (query : MojDbQuery) : Except MojErr Unit :=
  if query.whereClauses.any fun p =>
      p.2.definesOrder && !(query.orderProp.isEmpty || query.orderProp = p.1) || p.2.lowerOp = .opSearch then
    .error .dbInvalidQuery
  else if !query.filterClauses.isEmpty then .error .dbInvalidQuery
  else .ok ()

end MojDbQuery

end Db8
