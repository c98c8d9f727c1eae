import Db8.Db.MojDbQuery

/-!
# Db.MojDbIndex

An open index of a kind: its properties, the keys it holds for an object, the queries it answers.

* `MojDbIndex.open_`       — adds the properties of the definition and the built-in ones; what that
  establishes about the property names is carried by the fields of `MojDbIndex`.
* `MojDbIndex.getKeys`     — the keys of an object, with `mem_getKeys`.
* `MojDbIndex.canAnswer`   — the test that decides whether a query runs on the index.
-/

namespace Db8

open Lib

namespace MojDbIndex

def propNames (props : List MojDbExtractor) : List MojString := props.map (·.name)

end MojDbIndex

structure MojDbIndex where
  /-- A number of the index sequence. -/
  id : Int64
  text : MojDbText
  includeDeleted : Bool
  /-- Cleared while an index that was just created waits for its first build. -/
  ready : Bool
  props : List MojDbExtractor
  names_nodup : (MojDbIndex.propNames props).Nodup
  id_mem : MojDb.IdKey ∈ MojDbIndex.propNames props
  del_front : includeDeleted = true → (MojDbIndex.propNames props).head? = some MojDb.DelKey

namespace MojDbIndex

/-! ## Opening -/

def addProp (props : List MojDbExtractor) (extractor : MojDbExtractor) (pushFront : Bool) :
    Except MojErr (List MojDbExtractor) :=
  if extractor.name ∈ propNames props then .error .dbInvalidIndex
  else .ok (if pushFront then extractor :: props else props ++ [extractor])

/-- `{"name": "_id"}` -/
def idProp : MojDbExtractor :=
  .prop
    { name := MojDb.IdKey, collation := none, tokenizer := false, default := .empty
      prop_ne_nil := by decide
      default_coded := MojDbPropExtractor.empty_coded }

/-- `{"name": "_del", "default": false}` -/
def delProp : MojDbExtractor :=
  .prop
    { name := MojDb.DelKey, collation := none, tokenizer := false
      default := .singleton (MojObject.bool false).toBytes
      prop_ne_nil := by decide
      default_coded := fun _ h => ⟨_, SortedSet.mem_singleton.mp h⟩ }

/-- The object id closes the key, unless the definition has it somewhere. -/
def addIdProp (props : List MojDbExtractor) : Except MojErr (List MojDbExtractor) :=
  if MojDb.IdKey ∈ propNames props then .ok props else addProp props idProp false

/-- With deleted objects in the index, the deleted flag opens the key. -/
def addDelProp (includeDeleted : Bool) (props : List MojDbExtractor) :
    Except MojErr (List MojDbExtractor) :=
  if includeDeleted ∧ (propNames props).head? ≠ some MojDb.DelKey then addProp props delProp true
  else .ok props

def addBuiltinProps (includeDeleted : Bool) (props : List MojDbExtractor) :
    Except MojErr (List MojDbExtractor) := do
  let props ← addIdProp props
  addDelProp includeDeleted props

theorem addProp_nodup {props props' : List MojDbExtractor} {extractor : MojDbExtractor}
    {pushFront : Bool} (hprops : (propNames props).Nodup)
    (h : addProp props extractor pushFront = .ok props') : (propNames props').Nodup := by
  unfold addProp at h
  split_ifs at h with hmem hfront
  · cases h
    exact List.nodup_cons.mpr ⟨hmem, hprops⟩
  · cases h
    have hnames : propNames (props ++ [extractor]) = (propNames props).concat extractor.name := by
      simp [propNames]
    rw [hnames]
    exact hprops.concat hmem

theorem addProp_subset {props props' : List MojDbExtractor} {extractor : MojDbExtractor}
    {pushFront : Bool} (h : addProp props extractor pushFront = .ok props') {name : MojString}
    (hname : name ∈ propNames props ∨ name = extractor.name) : name ∈ propNames props' := by
  unfold addProp at h
  split_ifs at h with hmem hfront <;> cases h <;>
    simp only [propNames, List.map_cons, List.map_append, List.mem_cons, List.mem_append] <;>
    simp only [propNames] at hname <;> tauto

/-- The steps of `addBuiltinProps` one by one. -/
theorem addBuiltinProps_cases {includeDeleted : Bool} {props props' : List MojDbExtractor}
    (h : addBuiltinProps includeDeleted props = .ok props') :
    ∃ mid, (mid = props ∧ MojDb.IdKey ∈ propNames props ∨ addProp props idProp false = .ok mid) ∧
      (mid = props' ∧ (includeDeleted = true → (propNames mid).head? = some MojDb.DelKey) ∨
        addProp mid delProp true = .ok props') := by
  obtain ⟨mid, hmid, h⟩ := bind_eq_ok.mp h
  refine ⟨mid, ?_, ?_⟩
  · unfold addIdProp at hmid
    split_ifs at hmid with hid
    exacts [.inl ⟨(Except.ok.inj hmid).symm, hid⟩, .inr hmid]
  · unfold addDelProp at h
    split_ifs at h with hdel
    · exact .inr h
    · refine .inl ⟨Except.ok.inj h, fun hinc => ?_⟩
      by_contra hne
      exact hdel ⟨hinc, hne⟩

theorem addBuiltinProps_nodup {includeDeleted : Bool} {props props' : List MojDbExtractor}
    (hprops : (propNames props).Nodup) (h : addBuiltinProps includeDeleted props = .ok props') :
    (propNames props').Nodup := by
  obtain ⟨mid, hmid, h⟩ := addBuiltinProps_cases h
  have hmidnodup : (propNames mid).Nodup := by
    rcases hmid with ⟨rfl, -⟩ | hmid
    exacts [hprops, addProp_nodup hprops hmid]
  rcases h with ⟨rfl, -⟩ | h
  exacts [hmidnodup, addProp_nodup hmidnodup h]

theorem addBuiltinProps_id {includeDeleted : Bool} {props props' : List MojDbExtractor}
    (h : addBuiltinProps includeDeleted props = .ok props') : MojDb.IdKey ∈ propNames props' := by
  obtain ⟨mid, hmid, h⟩ := addBuiltinProps_cases h
  have hid : MojDb.IdKey ∈ propNames mid := by
    rcases hmid with ⟨rfl, hid⟩ | hmid
    exacts [hid, addProp_subset hmid (.inr rfl)]
  rcases h with ⟨rfl, -⟩ | h
  exacts [hid, addProp_subset h (.inl hid)]

theorem addBuiltinProps_del {includeDeleted : Bool} {props props' : List MojDbExtractor}
    (h : addBuiltinProps includeDeleted props = .ok props') (hinc : includeDeleted = true) :
    (propNames props').head? = some MojDb.DelKey := by
  obtain ⟨mid, -, ⟨rfl, hdel⟩ | h⟩ := addBuiltinProps_cases h
  · exact hdel hinc
  · unfold addProp at h
    split_ifs at h with hmem htrue
    · cases h
      rfl
    · exact absurd rfl htrue

/-- `fromObject` and `open`: the properties of the definition in order, then the built-in ones. -/
def open_ (id : Int64) (text : MojDbText) (includeDeleted created : Bool)
    (propDefs : List MojDbExtractor) : Except MojErr MojDbIndex :=
  match hdefs : propDefs.foldlM (fun props e => addProp props e false) [] with
  | .error err => .error err
  | .ok defs =>
    if defs.isEmpty then .error .dbInvalidIndex
    else
      match h : addBuiltinProps includeDeleted defs with
      | .error err => .error err
      | .ok props =>
        have hnodup : (propNames defs).Nodup :=
          foldlM_inv (fun props => (propNames props).Nodup)
            (fun _ _ _ h hs => addProp_nodup hs h) hdefs List.nodup_nil
        .ok
          { id, text, includeDeleted, props
            ready := !created || propNames props = [MojDb.IdKey] ||
              propNames props = [MojDb.DelKey, MojDb.IdKey]
            names_nodup := addBuiltinProps_nodup hnodup h
            id_mem := addBuiltinProps_id h
            del_front := addBuiltinProps_del h }

variable (index : MojDbIndex)

def isIdIndex : Bool :=
  propNames index.props = [MojDb.IdKey] || propNames index.props = [MojDb.DelKey, MojDb.IdKey]

/-! ## The keys of an object -/

/-- The bytes every key of the index begins with. -/
def idKey : MojDbKey := (MojObject.int index.id).toBytes

/-- `m_idSet` -/
def idSet : KeySet := .singleton index.idKey

def getKeys (obj : MojObject) : KeySet :=
  MojDbKeyBuilder.keys (index.idSet :: index.props.map fun e => e.vals index.text obj)

theorem mem_getKeys {obj : MojObject} {key : MojDbKey} :
    key ∈ index.getKeys obj ↔
      ∃ parts, List.Forall₂ (fun part e => part ∈ MojDbExtractor.vals index.text obj e) parts index.props ∧
        key = index.idKey ++ parts.flatten := by
  rw [getKeys, MojDbKeyBuilder.mem_keys (List.cons_ne_nil _ _)]
  constructor
  · rintro ⟨all, hall, rfl⟩
    obtain ⟨idPart, parts, hid, hparts, rfl⟩ := List.forall₂_cons_right_iff.mp hall
    rw [List.forall₂_map_right_iff] at hparts
    refine ⟨parts, hparts, ?_⟩
    rw [SortedSet.mem_singleton.mp hid, List.flatten_cons]
  · rintro ⟨parts, hparts, rfl⟩
    exact ⟨index.idKey :: parts,
      .cons (SortedSet.mem_singleton.mpr rfl) (List.forall₂_map_right_iff.mpr hparts), rfl⟩

/-- Deleted objects are kept only by an index that asks for them. -/
def includeObj : Option MojObject → Bool
  | none => false
  | some obj =>
    if index.includeDeleted then true
    else
      match obj.get MojDb.DelKey with
      | none => true
      | some del => !del.boolValue

/-! ## The queries an index answers -/

/-- The loop over the properties; `numQueryProps` clauses are still to be found. -/
def canAnswerLoop (query : MojDbQuery) : List MojDbExtractor → Nat → Bool
  | [], _ => false
  | prop :: rest, numQueryProps =>
    let numQueryProps := numQueryProps - 1
    match WhereMap.find query.whereClauses prop.name with
    | none => false
    | some clause =>
      if numQueryProps > 0 ∧ clause.lowerOp ≠ .opEq then false
      else if clause.collation ≠ prop.collation then false
      else if numQueryProps = 0 then
        query.orderProp.isEmpty || WhereMap.contains query.whereClauses query.orderProp ||
          rest.head?.map (·.name) = some query.orderProp
      else canAnswerLoop query rest numQueryProps

def canAnswer (query : MojDbQuery) : Bool :=
  let numQueryProps := query.whereClauses.length
  if !index.ready then false
  else if numQueryProps > index.props.length then false
  else
    let props :=
      if index.includeDeleted ∧ !WhereMap.contains query.whereClauses MojDb.DelKey then index.props.tail
      else index.props
    if numQueryProps = 0 then
      if query.orderProp.isEmpty then index.isIdIndex
      else props.head?.map (·.name) = some query.orderProp
    else canAnswerLoop query props numQueryProps

end MojDbIndex

end Db8
