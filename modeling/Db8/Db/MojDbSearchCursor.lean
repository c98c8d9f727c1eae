import Db8.Core.MojUtil
import Db8.Db.MojDbIsamQueryCount
import Db8.Db.MojDbQueryFilter
import Db8.Db.MojDbQueryObject
import Db8.Db.MojDbQueryPlanAsserts

/-!
# Db.MojDbSearchCursor

A search: the ids of all its ranges, the objects of these ids in order, and the page of them that is asked for.

* `findImpl`                — the storage query, which is asked for everything without an order.
* `loadIds`, `loadObjects`  — the ids that every group of ranges has, and their objects as far as the filter lets them.
* `sort`, `distinct`        — the objects in the order of their keys; of neighbours with the same keys the first.
* `loadWithImmediateReturn` — the objects in the order of the index, up to the end of the page.
* `load`                    — the objects with the bounds of the page and the key of the next one.
-/

namespace Db8

open Lib MojObject
open MojDbIsamQuery (Source)
open MojDbQueryPlan (Assertion)

namespace MojDbQuery

/-- `Page::fromObject`: a text that cannot be decoded leaves the key as it is. -/
def pageFromObject (obj : MojObject) (key : MojDbKey) : MojDbKey :=
  match MojDbIdGenerator.decodeString obj.stringValue.chars with
  | .ok vec => vec
  | .error _ => key

end MojDbQuery

namespace MojDbSearchCursor

/-- `MaxResults` -/
def MaxResults : Nat := 10000

/-- Why a search does not return: an error, an assertion of the plan, or the path of a property without components. -/
inductive Fault where
  | err (e : MojErr)
  | assertion (a : Assertion)
  | noProp
  deriving DecidableEq

/-- The errors of the storage and of the query. -/
def throws {α : Type} (result : Except MojErr α) : Except Fault α := result.mapError .err

def asserts {α : Type} (result : Except Assertion α) : Except Fault α := result.mapError .assertion

/-- What a search runs on. `rand` is `MojRand`. -/
structure Store where
  env : MojDbEnv
  data : MojDbData
  icu : Icu
  excludeKinds : List MojString
  rand : Nat → Nat

end MojDbSearchCursor

open MojDbSearchCursor (Fault Store throws asserts)

/-- A cursor of a search: its storage query with the groups of the ranges, and what it keeps of its query. -/
structure MojDbSearchCursor where
  find : MojDbFind
  groupCount : Nat
  query : MojDbSearchQuery
  collation : Option MojDbCollationStrength

/-- `MojDbObjectItem` with its sort keys. -/
structure MojDbSearchItem where
  obj : MojObject
  sortKeys : KeySet

namespace MojDbSearchItem

def id (item : MojDbSearchItem) : MojObject := (item.obj.get MojDb.IdKey).getD .undefined

/-- `ItemComp` -/
def compare (i1 i2 : MojDbSearchItem) : Ordering := lexCompare i1.sortKeys.elems i2.sortKeys.elems

end MojDbSearchItem

namespace MojDbSearchCursor

/-! ## The storage query -/

/-- The query after `init`: everything is retrieved, to be sorted before the limit is imposed. -/
def planQuery (query : MojDbSearchQuery) : MojDbQuery :=
  { query.toMojDbQuery with limit := MaxResults, orderProp := MojString.empty, page := [] }

/-- The collation of the last index of the kind that begins with the order property. -/
def retrieveCollation (env : MojDbEnv) (query : MojDbSearchQuery) : Option MojDbCollationStrength :=
  if query.orderProp.isEmpty then none
  else
    (env.indexes.filter fun ki => ki.kindId = query.fromType).foldl (fun collation ki =>
      match ki.index.props.head? with
      | some prop => if prop.name = query.orderProp then prop.collation else collation
      | none => collation) none

/-- `MojDbIndex::find` with the plan of the query. -/
def indexFind (ki : MojDbKindIndex) (query : MojDbSearchQuery) (collation : Option MojDbCollationStrength) :
    Except Fault MojDbSearchCursor := do
  let effective ← throws (MojDbQueryPlan.effectiveQuery ki.index (planQuery query))
  let building ← asserts (MojDbQueryPlan.Checked.pushClauses ki.index.text effective.whereClauses 0 ki.index.props
    (MojDbQueryPlan.Checked.initial ki.index))
  let ranges ← asserts (MojDbQueryPlan.Checked.rangesFromBuilders effective building)
  let ranges := if effective.desc then ranges.reverse else ranges
  return ⟨⟨ki, effective, ranges, ⟨⟨ranges, .seek, .beforeFirst, [], 0, []⟩, []⟩⟩, building.groupCount, query, collation⟩

/-- `MojDb::findImpl` with a cursor for searches. -/
def findImpl (env : MojDbEnv) (query : MojDbSearchQuery) : Except Fault MojDbSearchCursor := do
  throws query.validate
  if (env.kinds.kinds.find? fun k => k.1 = query.fromType).isNone then .error (.err .dbKindNotRegistered)
  else
    match env.indexes.find? fun ki => ki.kindId = query.fromType && ki.index.canAnswer (planQuery query) with
    | none => .error (.err .dbNoIndexForQuery)
    | some ki => indexFind ki query (retrieveCollation env query)

variable (store : Store) (c : MojDbSearchCursor)

def source : Source := c.find.source store.env store.data

/-- `MojDbIsamQuery::getId`. The limit is not reached, since no key is counted. -/
def getId (q : MojDbIsamQuery) : Except MojErr (Option (MojObject × Nat)) × MojDbIsamQuery :=
  match q.getKey (c.source store) with
  | (none, q) => (.ok none, q)
  | (some (key, group), q) => ((MojDbIsamQuery.parseId c.find.ki.index.idIndex key).map fun id => some (id, group), q)

/-- Each call passes a key or a range. -/
def calls : Nat := c.find.ranges.length * ((c.source store).keys.size + 1) + 1

def isamStore : MojDbIsamStore where
  idIndex := c.find.ki.index.idIndex
  primary := fun id => do
    let _ ← MojDbIdGenerator.extractShard id
    return (store.data.objs id.toBytes).map MojDbObjectItem
  excludeKinds := store.excludeKinds
  distinct := c.find.query.distinct
  verify := false

/-- The object of the id; only one of the engines can tell. -/
def getById (id : MojObject) : Except MojErr (Option MojObject) :=
  match store.env.engine with
  | .leveldb => .error .notImplemented
  | .sandwich => do
    let item ← MojDbIsamQuery.getById (c.isamStore store) id
    match item with
    | none => return none
    | some item => do
      let obj ← item.toObject
      return some obj

def filtered (obj : MojObject) : Except MojErr Bool :=
  if c.query.filterClauses.isEmpty then .ok true else MojDbQueryFilter.test store.icu c.query.filterClauses obj

/-! ## Objects of all groups -/

/-- `MojSet<MojObject>::put` on the objects in order. -/
def putObject (id : MojObject) : List MojObject → List MojObject
  | [] => [id]
  | other :: ids =>
    match id.compare other with
    | .lt => id :: other :: ids
    | .eq => other :: ids
    | .gt => other :: putObject id ids

abbrev GroupMap := SortedMap Nat (List MojObject)

def putId (groupMap : GroupMap) (id : MojObject) (group : Nat) : GroupMap :=
  groupMap.insert group (putObject id ((groupMap.find group).getD []))

/-- The loop of `loadIds`. -/
def groupLoop : Nat → MojDbIsamQuery → GroupMap → Except MojErr GroupMap
  | 0, _, groupMap => .ok groupMap
  | fuel + 1, q, groupMap =>
    match c.getId store q with
    | (.error err, _) => .error err
    | (.ok none, _) => .ok groupMap
    | (.ok (some (id, group)), q) => groupLoop fuel q (putId groupMap id group)

/-- No matches unless all groups are accounted for; then the intersection of the groups. -/
def intersectGroups (groupCount : Nat) (groupMap : GroupMap) : List MojObject :=
  if (List.range groupCount).all fun i => (groupMap.find i).isSome then
    match groupMap.entries with
    | [] => []
    | (_, ids) :: groups => groups.foldl (fun idsOut group => idsOut.filter fun id => id ∈ group.2) ids
  else []

def loadIds : Except MojErr (List MojObject) := do
  let groupMap ← groupLoop store c (c.calls store) c.find.items.query .empty
  return intersectGroups c.groupCount groupMap

/-- `searchThread_callee`. The threads take the ids in any order; the items are put in the order of the ids. -/
def searchThread_callee (id : MojObject) : Except MojErr (Option MojDbSearchItem) := do
  let obj ← c.getById store id
  match obj with
  | none => return none
  | some obj => do
    let isFound ← c.filtered store obj
    return if isFound then some ⟨obj, .empty⟩ else none

def loadObjects (ids : List MojObject) : Except MojErr (List MojDbSearchItem) := do
  let items ← ids.mapM (c.searchThread_callee store)
  return items.filterMap fun item => item

/-- The property that the objects are sorted by. -/
def orderProp : MojString := if c.query.distinct.isEmpty then c.query.orderProp else c.query.distinct

def sortKeys (obj : MojObject) : Except Fault KeySet :=
  if h : c.orderProp.split MojDbPropExtractor.PropComponentSeparator ≠ [] then
    let extractor : MojDbPropExtractor :=
      { name := c.orderProp, collation := c.collation, tokenizer := false, default := .empty, prop_ne_nil := h
        default_coded := MojDbPropExtractor.empty_coded }
    .ok (extractor.vals c.find.ki.index.text obj)
  else .error .noProp

def withSortKeys (item : MojDbSearchItem) : Except Fault MojDbSearchItem := do
  let keys ← c.sortKeys item.obj
  return { item with sortKeys := keys }

def sort (items : List MojDbSearchItem) : Except Fault (List MojDbSearchItem) := do
  let items ← items.mapM c.withSortKeys
  return MojUtil.MojQuickSort store.rand (fun i1 i2 => decide (i1.compare i2 = .lt)) items

/-- The loop of `distinct` from an item that stays. -/
def distinctFrom (item : MojDbSearchItem) : List MojDbSearchItem → List MojDbSearchItem
  | [] => [item]
  | next :: items => if item.compare next = .eq then distinctFrom item items else item :: distinctFrom next items

def distinct : List MojDbSearchItem → List MojDbSearchItem
  | [] => []
  | item :: items => distinctFrom item items

/-- The objects of `load` without immediate return. -/
def loadSorted : Except Fault (List MojDbSearchItem) := do
  let ids ← throws (c.loadIds store)
  let items ← throws (c.loadObjects store ids)
  let items ← (if c.orderProp.isEmpty then .ok items else c.sort store items)
  let items := if c.query.distinct.isEmpty then items else distinct items
  return if c.query.desc then items.reverse else items

/-! ## Immediate return -/

/-- The path of `load`. -/
def isImmediate (query : MojDbSearchQuery) : Bool :=
  query.immediateReturn && decide (query.limit ≠ MojDbQuery.LimitDefault)

/-- `m_page` after `init`. -/
def initPage : MojDbKey :=
  if c.query.page = [] then [] else MojDbQuery.pageFromObject (MojDbSearchQuery.pageObject c.query.page) []

/-- What `loadWithImmediateReturn` keeps besides its items; the sum for the last one is of 32 bits. -/
structure Immediate where
  items : List MojDbSearchItem
  startPos : Nat
  foundId : Bool

namespace Immediate

/-- The item is pushed; the flag is set when the loop goes on. -/
def push (c : MojDbSearchCursor) (s : Immediate) (id obj : MojObject) : Immediate × Bool :=
  let items := s.items ++ [⟨obj, .empty⟩]
  if c.initPage ≠ [] ∧ s.foundId = false then
    (⟨items, (s.startPos + 1) % 2 ^ 32, decide (MojDbSearchQuery.pageObject c.initPage = id)⟩, true)
  else
    (⟨items, s.startPos, s.foundId⟩, decide (items.length < (s.startPos + c.query.limit + 1) % 2 ^ 32))

end Immediate

/-- The loop of `loadWithImmediateReturn`. -/
def immediateLoop : Nat → MojDbIsamQuery → Immediate → Except MojErr Immediate
  | 0, _, s => .ok s
  | fuel + 1, q, s =>
    match c.getId store q with
    | (.error err, _) => .error err
    | (.ok none, _) => .ok s
    | (.ok (some (id, _)), q) =>
      match c.getById store id with
      | .error err => .error err
      | .ok none => .ok s
      | .ok (some obj) =>
        match c.filtered store obj with
        | .error err => .error err
        | .ok false => immediateLoop fuel q s
        | .ok true =>
          let (s, goesOn) := s.push c id obj
          if goesOn then immediateLoop fuel q s else .ok s

def loadWithImmediateReturn : Except MojErr (List MojDbSearchItem) := do
  let s ← immediateLoop store c (c.calls store) c.find.items.query ⟨[], 0, false⟩
  return s.items

/-! ## Pages -/

/-- The items, the part of them that is returned, and the key of the next page. -/
structure Loaded where
  items : List MojDbSearchItem
  pos : Nat
  limitPos : Nat
  page : MojDbKey

namespace Loaded

/-- What `get` returns call by call. -/
def returned (l : Loaded) : List MojDbSearchItem := (l.items.take l.limitPos).drop l.pos

/-- `count` -/
def count (l : Loaded) : Nat := l.items.length - l.pos

end Loaded

/-- The key of the page that begins at an item. -/
def nextPage (items : List MojDbSearchItem) (limitPos : Nat) (page : MojDbKey) : MojDbKey :=
  match items[limitPos]? with
  | some nextItem => MojDbQuery.pageFromObject nextItem.id page
  | none => page

/-- An id that no item has leaves the position at the end. -/
def setPagePosition (limit : Nat) (page : MojDbKey) (items : List MojDbSearchItem) : Loaded :=
  match items.findIdx? fun item => MojDbSearchQuery.pageObject page = item.id with
  | none => ⟨items, items.length, items.length, page⟩
  | some pos =>
    if limit ≥ items.length - pos then ⟨items, pos, items.length, []⟩
    else ⟨items, pos, pos + limit, nextPage items (pos + limit) page⟩

def firstPage (limit : Nat) (items : List MojDbSearchItem) : Loaded :=
  if limit ≥ items.length then ⟨items, 0, items.length, []⟩ else ⟨items, 0, limit, nextPage items limit []⟩

/-- The items of `load`. -/
def loadItems : Except Fault (List MojDbSearchItem) :=
  if isImmediate c.query then throws (c.loadWithImmediateReturn store) else c.loadSorted store

def load : Except Fault Loaded := do
  let items ← c.loadItems store
  return if c.initPage ≠ [] then setPagePosition c.query.limit c.initPage items else firstPage c.query.limit items

end MojDbSearchCursor

namespace MojDbSearchQuery

open MojDbSearchCursor

variable (store : Store) (query : MojDbSearchQuery)

/-- A search from its query to the page. -/
def search : Except Fault Loaded := do
  let c ← findImpl store.env query
  c.load store

/-- The ids of all items that the search has loaded, as `getIds` lists them. -/
def resultIds : Except Fault (List MojObject) := do
  let c ← findImpl store.env query
  let items ← c.loadItems store
  return items.map MojDbSearchItem.id

end MojDbSearchQuery

end Db8
