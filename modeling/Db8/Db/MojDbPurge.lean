import Db8.Db.MojDbData
import Db8.Db.MojDbIndexForQuery
import Db8.Db.MojDbQuotaEngine

/-!
# Db.MojDbPurge

`MojDb::purge`: the objects that were deleted before a cutoff leave the database for good.

* `findImpl`, `Cursor.get` — a query, and the objects it returns while the indexes change under it.
* `delObj`                 — a deletion, which leaves a tombstone or nothing.
* `delImpl`                — deletes what a query returns, a batch at a time.
* `purgeImpl`              — one batch of tombstones, and the records of the table up to the cutoff.
* `purgeDeleted`           — records the revision of now, looks for the cutoff, and purges batch after batch.
* `purgeShardObjects`      — objects in shards that have been inactive for long become tombstones.
* `purge`                  — both, one after the other.
-/

namespace Db8

open Lib MojObject
open MojDbQuotaEngine (RootKindId)

namespace MojDb

/-- `RevTimestamp:1` -/
def RevTimestampId : MojString := ⟨[82, 101, 118, 84, 105, 109, 101, 115, 116, 97, 109, 112, 58, 49], by decide⟩
/-- `DbState:1` -/
def DbStateId : MojString := ⟨[68, 98, 83, 116, 97, 116, 101, 58, 49], by decide⟩
/-- `_internal/dbstate` -/
def DbStateObjId : MojString := ⟨DbStateObjIdChars, by decide⟩
/-- `rev` -/
def RevNumKey : MojString := ⟨[114, 101, 118], by decide⟩
/-- `timestamp` -/
def TimestampKey : MojString := ⟨[116, 105, 109, 101, 115, 116, 97, 109, 112], by decide⟩
/-- `lastPurgedRev` -/
def LastPurgedRevKey : MojString := ⟨[108, 97, 115, 116, 80, 117, 114, 103, 101, 100, 82, 101, 118], by decide⟩

def AutoBatchSize : Nat := 1000

/-- `MojTime::UnitsPerDay`. -/
def UnitsPerDay : Int64 := 86400000000

theorem syncKey_split_ne_nil : KindContext.ObjectSyncKey.split MojDbPropExtractor.PropComponentSeparator ≠ [] := by decide

theorem falseDefault_coded : ∀ part ∈ (.singleton (MojObject.bool false).toBytes : KeySet), ∃ o : MojObject, part = o.toBytes :=
  fun _ h => ⟨_, SortedSet.mem_singleton.mp h⟩

/-- `{"name": "_sync", "default": false}` -/
def syncProp : MojDbExtractor :=
  .prop
    { name := KindContext.ObjectSyncKey, collation := none, tokenizer := false
      default := .singleton (MojObject.bool false).toBytes
      prop_ne_nil := syncKey_split_ne_nil
      default_coded := falseDefault_coded }

/-- A property without collation, tokenizer or default. -/
def plainProp (name : MojString) (hname : name.split MojDbPropExtractor.PropComponentSeparator ≠ []) : MojDbExtractor :=
  .prop
    { name, collation := none, tokenizer := false, default := .empty
      prop_ne_nil := hname
      default_coded := MojDbPropExtractor.empty_coded }

end MojDb

namespace MojDbQuery

def LimitDefault : Nat := 4294967295

/-- A query that asks for nothing yet. -/
def all : MojDbQuery where
  whereClauses := []
  filterClauses := []
  orderProp := MojString.empty
  distinct := MojString.empty
  desc := false
  limit := LimitDefault
  page := []
  ignoreInactiveShards := true
  where_nodup := List.nodup_nil

end MojDbQuery

/-! ## Queries on the data -/

/-- A cursor: the index its query runs on, the query as the plan has it, and what it has returned. -/
structure MojDbFind where
  ki : MojDbKindIndex
  query : MojDbQuery
  ranges : List MojDbKeyRange
  items : MojDbIsamItems

namespace MojDbFind

variable (env : MojDbEnv) (d : MojDbData) (c : MojDbFind)

/-- The keys of an index in all parts of the storage. -/
def keys (ki : MojDbKindIndex) : KeySet :=
  .ofList ((env.shards.flatMap fun shard => (d.contents ki.index.id shard).elems).filter (· ≠ []))

theorem ne_nil_of_mem_keys {env : MojDbEnv} {d : MojDbData} {ki : MojDbKindIndex} :
    ∀ key ∈ keys env d ki, key ≠ [] := by
  intro key hkey
  have hmem := SortedSet.mem_ofList.mp hkey
  simpa using (List.mem_filter.mp hmem).2

/-- An id whose shard cannot be told is of no inactive shard. -/
def excluded : Except MojErr Bool → Bool
  | .ok excluded => excluded
  | .error _ => false

def inactive (key : MojDbKey) : Bool :=
  excluded (do MojDbIsamQuery.checkShard env.shardEngine (← MojDbIsamQuery.parseId c.ki.index.idIndex key))

def source : MojDbIsamQuery.Source where
  engine := env.engine
  keys := keys env d c.ki
  ranges := c.ranges
  desc := c.query.desc
  limit := c.query.limit
  ignoreInactiveShards := c.query.ignoreInactiveShards
  checkShard := c.inactive env
  keys_ne_nil := ne_nil_of_mem_keys

/-- `MojDbCursor::get`. -/
def get : Except MojErr (Option (MojObject × MojObject) × MojDbIsamItems) :=
  c.items.getItem (c.source env d) d.objs c.ki.index.idIndex

end MojDbFind

namespace MojDb

variable (env : MojDbEnv)

/-- `MojDb::findImpl`: the query runs on the first index of its kind that can answer it. -/
def findImpl (from_ : MojString) (query : MojDbQuery) : Except MojErr MojDbFind := do
  query.validate
  if (env.kinds.kinds.find? fun k => k.1 = from_).isNone then .error .dbKindNotRegistered
  else
    match env.indexes.find? fun ki => ki.kindId = from_ && ki.index.canAnswer query with
    | none => .error .dbNoIndexForQuery
    | some ki => do
      let effective ← MojDbQueryPlan.effectiveQuery ki.index query
      let ranges ← MojDbQueryPlan.init ki.index query
      return ⟨ki, effective, ranges, ⟨⟨ranges, .seek, .beforeFirst, [], 0, []⟩, []⟩⟩

/-! ## Deletions -/

/-- Nothing is stored when an object is purged. -/
def purgeStep : RevKinds.Step := ⟨.del true, 0, fun _ => MojString.empty⟩

/-- What a deletion is done with: the setting of the database, the flag to purge, the `fixmode` of its request, and the ids
for objects in arrays. -/
structure DelMode where
  enablePurge : Bool
  flagPurge : Bool
  fixmode : Bool
  ids : Nat → MojString

/-- A database that is never purged deletes its objects for good. -/
def DelMode.purges (mode : DelMode) : Bool := !mode.enablePurge || mode.flagPurge

variable (mode : DelMode)

/-- `MojDb::delObj`: the object is gone, and its id is what is returned of it; or it is put with the deleted flag and a
revision of the sequence, and returned as it is stored. -/
def delObj (d : MojDbData) (id : MojObject) : Except MojErr (MojDbData × MojObject) := do
  let _ ← MojDbIdGenerator.extractShard id
  if mode.purges then do
    let d ← d.request env id purgeStep true
    return (d, .object [(IdKey, id)])
  else do
    let d ← { d with nextId := d.nextId + 1 }.request env id ⟨.del false, d.nextId, mode.ids⟩ mode.fixmode
    return (d, (d.objs id.toBytes).getD .undefined)

/-- The loop of `delImpl` over one batch. The iterator reads the indexes as the deletions leave them. -/
def delItems : Nat → MojDbData → MojDbFind → Nat → Except MojErr (MojDbData × Nat)
  | 0, d, _, count => .ok (d, count)
  | fuel + 1, d, c, count => do
    let (item, items) ← c.get env d
    match item with
    | none => .ok (d, count)
    | some (id, obj) => do
      let (d, deleted) ← delObj env mode d id
      delItems fuel d { c with items } (if deleted ≠ obj then count + 1 else count)

/-- One batch: each round of its loop passes a key. -/
def delBatch (d : MojDbData) (from_ : MojString) (query : MojDbQuery) : Except MojErr (MojDbData × Nat) := do
  let c ← findImpl env from_ query
  delItems env mode ((c.source env d).keys.size + 1) d c 0

/-- The loop of `delImpl` over the batches; a batch is committed before the next one. -/
def delBatches : Nat → MojDbData → MojString → MojDbQuery → Nat → Nat → Except MojErr (MojDbData × Nat)
  | 0, d, _, _, _, countOut => .ok (d, countOut)
  | fuel + 1, d, from_, query, queryLimit, countOut =>
    if queryLimit = 0 then .ok (d, countOut)
    else do
      let (d, count) ← delBatch env mode d from_ query
      if count = 0 then .ok (d, countOut)
      else
        let queryLimit := queryLimit - query.limit
        delBatches fuel d from_ { query with limit := min queryLimit AutoBatchSize } queryLimit (countOut + count)

/-- `MojDb::delImpl` on a query. -/
def delImpl (d : MojDbData) (from_ : MojString) (query : MojDbQuery) : Except MojErr (MojDbData × Nat) :=
  delBatches env mode (query.limit + 1) d from_
    (if query.limit = MojDbQuery.LimitDefault then { query with limit := AutoBatchSize } else query) query.limit 0

/-! ## Purge -/

/-- A purge deletes for good, and bad keys do not stop it. -/
def purgeMode : DelMode := ⟨true, true, true, fun _ => MojString.empty⟩

theorem purges_purgeMode : purgeMode.purges = true := rfl

/-- What a purge finds outside: its settings, the time, first for the shards, the kinds that are built in, the id of the
record it puts and the ids for objects in arrays. -/
structure PurgeArgs where
  enablePurge : Bool
  purgeWindow : Int64
  numDays : Int64
  shardTime : Int64
  time : Int64
  builtin : MojString → Bool
  putId : MojString
  ids : Nat → MojString

def getRequired (obj : MojObject) (key : MojString) : Except MojErr MojObject :=
  match obj.get key with
  | none => .error .requiredPropNotFound
  | some val => .ok val

/-- The tombstones up to a revision, with or without `_sync`. -/
def tombstones (sync : Bool) (val : MojObject) : Except MojErr MojDbQuery := do
  let query ← MojDbQuery.all.addWhere DelKey .opEq (.bool true) none
  let query ← query.addWhere KindContext.ObjectSyncKey .opEq (.bool sync) none
  query.addWhere RevKey .opLessThanEq val none

/-- The records of the table up to a time. -/
def recordsTo (timestamp : MojObject) : Except MojErr MojDbQuery :=
  MojDbQuery.all.addWhere TimestampKey .opLessThanEq timestamp none

/-- A number of the sequence for a revision. -/
def stepOf (d : MojDbData) (args : PurgeArgs) (request : RevKinds.Request) : MojDbData × RevKinds.Step :=
  ({ d with nextId := d.nextId + 1 }, ⟨request, d.nextId, args.ids⟩)

/-- `MojDb::updateState`. -/
def updateState (d : MojDbData) (args : PurgeArgs) (key : MojString) (val : MojObject) : Except MojErr MojDbData :=
  let obj := ((MojObject.undefined.put IdKey (.string DbStateObjId)).put KindKey (.string DbStateId)).put key val
  let (d, step) := stepOf d args (.put ⟨true, false, false⟩ obj)
  d.request env (.string DbStateObjId) step true

/-- `MojDb::purgeImpl`: the tombstones of the two passes together are one batch. -/
def purgeImpl (d : MojDbData) (args : PurgeArgs) (obj : MojObject) : Except MojErr (MojDbData × Nat) := do
  let val ← getRequired obj RevNumKey
  let timestamp ← getRequired obj TimestampKey
  let objQuery ← tombstones true val
  let (d, backupCount) ← delImpl env purgeMode d RootKindId { objQuery with limit := AutoBatchSize }
  let objQuery2 ← tombstones false val
  let batchRemain := if backupCount ≤ AutoBatchSize then AutoBatchSize - backupCount else 0
  let (d, count) ←
    (if batchRemain > 0 then delImpl env purgeMode d RootKindId { objQuery2 with limit := batchRemain } else .ok (d, 0))
  let countOut := count + backupCount
  let d ← (if countOut > 0 then updateState env d args LastPurgedRevKey val else .ok d)
  let revTimestampQuery ← recordsTo timestamp
  let (d, _) ← delImpl env purgeMode d RevTimestampId revTimestampQuery
  return (d, countOut)

/-- The loop of `MojDb::purge`; `none` where the fuel does not suffice. -/
def purgeLoop (args : PurgeArgs) (obj : MojObject) : Nat → MojDbData → Nat → Except MojErr (Option (MojDbData × Nat))
  | 0, _, _ => .ok none
  | fuel + 1, d, totalCount => do
    let (d, batchCount) ← purgeImpl env d args obj
    let totalCount := totalCount + batchCount
    if batchCount < AutoBatchSize then .ok (some (d, totalCount)) else purgeLoop args obj fuel d totalCount

/-- What `purge` does with the record it has found. -/
def purgeFrom (args : PurgeArgs) (fuel : Nat) (d : MojDbData) : Option MojObject → Except MojErr (Option (MojDbData × Nat))
  | none => .ok (some (d, 0))
  | some obj => purgeLoop env args obj fuel d 0

/-- The record of the revision of now. -/
def revTimeMapping (rev time : Int64) : MojObject :=
  ((MojObject.undefined.put RevNumKey (.int rev)).put TimestampKey (.int time)).put KindKey (.string RevTimestampId)

def windowOf (args : PurgeArgs) : Int64 := if args.numDays ≤ -1 then args.purgeWindow else args.numDays

/-- The time that many days ago. -/
def purgeTime (args : PurgeArgs) : Int64 := args.time - UnitsPerDay * windowOf args

/-- The record is put in the table. -/
def recordNow (d : MojDbData) (args : PurgeArgs) : Except MojErr MojDbData :=
  let rev := d.nextId
  let (d, step) := stepOf { d with nextId := d.nextId + 1 } args (.put ⟨false, false, false⟩ (revTimeMapping rev args.time))
  d.request env (.string args.putId) step false

/-- The last record of the table before that time. -/
def findRecord (d : MojDbData) (args : PurgeArgs) : Except MojErr (Option MojObject) := do
  let query ← MojDbQuery.all.addWhere TimestampKey .opLessThanEq (.int (purgeTime args)) none
  let c ← findImpl env RevTimestampId { query with limit := 1, orderProp := TimestampKey, desc := true }
  let (item, _) ← c.get env d
  return item.map Prod.snd

/-- What `purge` does to objects that are deleted. -/
def purgeDeleted (fuel : Nat) (d : MojDbData) (args : PurgeArgs) : Except MojErr (Option (MojDbData × Nat)) := do
  let d ← recordNow env d args
  let record ← findRecord env d args
  purgeFrom env args fuel d record

/-! ## Shards that have been inactive for long -/

/-- `ShardInfo1:1` -/
def ShardInfoId : MojString := ⟨[83, 104, 97, 114, 100, 73, 110, 102, 111, 49, 58, 49], by decide⟩
/-- `shardId` -/
def ShardIdKey : MojString := ⟨[115, 104, 97, 114, 100, 73, 100], by decide⟩
/-- `active` -/
def ActiveKey : MojString := ⟨[97, 99, 116, 105, 118, 101], by decide⟩

/-- The shard of a record: its `shardId` is read into a `MojInt32`. -/
def recordShard (record : MojObject) : Except MojErr MojDbShardId := do
  let val ← getRequired record ShardIdKey
  let value_id := val.intValue.toInt
  if -2 ^ 31 ≤ value_id ∧ value_id < 2 ^ 31 then .ok (value_id % 2 ^ 32).toNat else .error .valueOutOfRange

/-- The records of shards whose time is that many days ago, and all objects of a kind; inactive shards are not passed over. -/
def recordsQueryOf (args : PurgeArgs) : Except MojErr MojDbQuery := do
  let query ← recordsTo (.int (args.shardTime - UnitsPerDay * windowOf args))
  return { query with ignoreInactiveShards := false }

def kindQuery : MojDbQuery := { MojDbQuery.all with ignoreInactiveShards := false }

/-- The loop of `purgeShardObjects` over the records: the shards that are not active. -/
def oldShards (d : MojDbData) : Nat → MojDbFind → List MojDbShardId → Except MojErr (List MojDbShardId)
  | 0, _, shardIds => .ok shardIds
  | fuel + 1, c, shardIds => do
    let (item, items) ← c.get env d
    match item with
    | none => .ok shardIds
    | some (_, record) => do
      let shardId ← recordShard record
      let active ← getRequired record ActiveKey
      oldShards d fuel { c with items } (if active.boolValue || shardId ∈ shardIds then shardIds else shardIds ++ [shardId])

/-- The loop of `removeShardKindObjects`. Each deletion is a request of its own, so that an error leaves those before it. -/
def removeItems (args : PurgeArgs) (shardId : MojDbShardId) : Nat → MojDbData → MojDbFind → Except MojDbData MojDbData
  | 0, d, _ => .ok d
  | fuel + 1, d, c =>
    match c.get env d with
    | .error _ => .error d
    | .ok (none, _) => .ok d
    | .ok (some (_, record), items) =>
      match (do let id ← getRequired record IdKey; return (id, ← MojDbIdGenerator.extractShard id)) with
      | .error _ => .error d
      | .ok (id, cmpShardId) =>
        if cmpShardId ≠ shardId then removeItems args shardId fuel d { c with items }
        else
          match delObj env ⟨args.enablePurge, false, false, args.ids⟩ d id with
          | .error _ => .error { d with nextId := d.nextId + 1 }
          | .ok (d, _) => removeItems args shardId fuel d { c with items }

def removeShardKindObjects (args : PurgeArgs) (shardId : MojDbShardId) (kindId : MojString) (d : MojDbData) :
    Except MojDbData MojDbData :=
  match findImpl env kindId kindQuery with
  | .error _ => .error d
  | .ok c => removeItems env args shardId ((c.source env d).keys.size + 1) d c

/-- The objects of the kinds that are linked with a shard; built-in kinds are left alone. -/
def removeShardObjects (args : PurgeArgs) (shardIds : List MojDbShardId) (d : MojDbData) : Except MojDbData MojDbData :=
  shardIds.foldlM (fun d shardId =>
    match env.shardEngine.get shardId with
    | none => .ok d
    | some info => info.kindIds.foldlM (fun d kindId =>
        if (env.kinds.kinds.find? fun k => k.1 = kindId).isNone then .error d
        else if args.builtin kindId then .ok d
        else removeShardKindObjects env args shardId kindId d) d) d

/-- `MojDbShardEngine::purgeShardObjects`, which has requests of its own; `purge` does not look at its error. -/
def purgeShardObjects (args : PurgeArgs) (d : MojDbData) : MojDbData :=
  match (do
    let c ← findImpl env ShardInfoId (← recordsQueryOf args)
    oldShards env d ((c.source env d).keys.size + 1) c []) with
  | .error _ => d
  | .ok shardIds =>
    match removeShardObjects env args shardIds d with
    | .error d => d
    | .ok d => d

/-- `MojDb::purge`. -/
def purge (fuel : Nat) (d : MojDbData) (args : PurgeArgs) : Except MojErr (Option (MojDbData × Nat)) :=
  if !args.enablePurge then .ok (some (d, 0)) else purgeDeleted env fuel (purgeShardObjects env args d) args

end MojDb

end Db8
