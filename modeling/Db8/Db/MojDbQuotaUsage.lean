import Db8.Db.MojDbIndexUpdate
import Db8.Db.MojDbPurge

/-!
# Db.MojDbQuotaUsage

What puts, purges and changes of the indexes charge to the kinds, on the way through the kind engine, the indexes and
the databases.

* `updateIndex`, `updateIndexes` — `MojDbIndex::update`, of the indexes of a kind and of those above it.
* `putObj`, `purgeObj`           — an object is written or deleted for good.
* `addIndex`, `dropIndex`        — an index that is added is built when the transaction commits.
* `bytes`                        — what a kind has in the main shard.
-/

namespace Db8

open Lib MojDbQuotaEngine
open MojDbIdGenerator (MainShardId extractShard)
open MojDbIndex (shardOf)

namespace MojDbQuotaUsage

/-- An object with its id, and the bytes it is serialized to. -/
structure StoredObj where
  obj : MojObject
  val : List MojByte
  id : MojObject
  kindId : MojString
  shardId : MojDbShardId
  get_id : obj.get MojDb.IdKey = some id
  get_kind : obj.get MojDb.KindKey = some (.string kindId)
  shard_eq : extractShard id = .ok shardId
  deriving DecidableEq

def StoredObj.idKey (o : StoredObj) : MojDbKey := o.id.toBytes

/-- An index of a kind, under its lower-case name. -/
structure KindIndex where
  name : MojString
  index : MojDbIndex
  content : IndexStore

/-- `_id`, the name of the id index. -/
def IdIndexName : MojString := MojDb.IdKey

/-- The built-in properties alone. -/
def builtinProps : List MojDbExtractor := [MojDbIndex.delProp, MojDbIndex.idProp]

theorem nodup_builtinProps : (MojDbIndex.propNames builtinProps).Nodup := by decide

theorem id_mem_builtinProps : MojDb.IdKey ∈ MojDbIndex.propNames builtinProps := by decide

theorem head_builtinProps (_ : true = true) : (MojDbIndex.propNames builtinProps).head? = some MojDb.DelKey := rfl

/-- `IdIndexJson` with the built-in properties. -/
def idIndex (id : Int64) (text : MojDbText) : MojDbIndex where
  id := id
  text := text
  includeDeleted := true
  ready := true
  props := builtinProps
  names_nodup := nodup_builtinProps
  id_mem := id_mem_builtinProps
  del_front := head_builtinProps

/-- The indexes of a kind stand in the order in which queries try them. -/
structure Store where
  objs : List StoredObj
  indexes : MojString → List KindIndex

/-- A request with its transaction. `fixmode` makes deletions of keys that are not there pass. -/
structure Request where
  store : Store
  txn : MojDbStorageTxn
  fixmode : Bool

/-! ## The kinds whose indexes take an object -/

mutual
/-- `MojDbKind::updateIndexes`: `kindVec` is pushed to on the way up, the own indexes are updated on the way back. -/
def visit : Kind → List MojString × List MojString → List MojString × List MojString
  | .mk id _ supers, (kindVec, order) =>
    let visited := visitSupers supers (kindVec ++ [id], order)
    (visited.1, visited.2 ++ [id])

def visitSupers : List Kind → List MojString × List MojString → List MojString × List MojString
  | [], visited => visited
  | kind :: supers, visited =>
    if kind.id ∈ visited.1 then visitSupers supers visited else visitSupers supers (visit kind visited)
end

/-- A kind and those above it, in the order in which their indexes are updated. -/
def order (kind : Kind) : List MojString := (visit kind ([], [])).2

/-- The kinds that have an object of this kind. -/
def kindsOf (kindMap : KindMap) (kindId : MojString) : List MojString :=
  match lookup Kind.id kindId kindMap.kinds with
  | none => []
  | some kind => order kind

section

variable (engine : MojDbQuotaEngine)

def getKind (kindId : MojString) : Except MojErr Kind :=
  match lookup Kind.id kindId engine.kindMap.kinds with
  | none => .error .dbKindNotRegistered
  | some kind => .ok kind

/-! ## Keys -/

/-- `MojDbSandwichDatabase` counts what is in the main shard. -/
def offsetMain (shardId : MojDbShardId) (offset : Int) (txn : MojDbStorageTxn) : Except MojErr MojDbStorageTxn :=
  if shardId = MainShardId then engine.offsetQuota offset txn else .ok txn

/-- `MojDbSandwichIndex::insert`: the value of a key is empty. -/
def insertKey (shardId : MojDbShardId) (s : KeySet × MojDbStorageTxn) (key : MojDbKey) :
    Except MojErr (KeySet × MojDbStorageTxn) := do
  let txn ← offsetMain engine shardId key.length s.2
  return (s.1.put key, txn)

def insertKeys (shardId : MojDbShardId) (keys : KeySet) (s : KeySet × MojDbStorageTxn) :
    Except MojErr (KeySet × MojDbStorageTxn) :=
  keys.elems.foldlM (insertKey engine shardId) s

/-- `MojDbSandwichIndex::del`. -/
def delKey (forcedel : Bool) (shardId : MojDbShardId) (s : KeySet × MojDbStorageTxn) (key : MojDbKey) :
    Except MojErr (KeySet × MojDbStorageTxn) := do
  let txn ← offsetMain engine shardId (-key.length) s.2
  let content ← MojDbIndex.delKey forcedel s.1 key
  return (content, txn)

def delKeys (forcedel : Bool) (shardId : MojDbShardId) (keys : KeySet) (s : KeySet × MojDbStorageTxn) :
    Except MojErr (KeySet × MojDbStorageTxn) :=
  keys.elems.foldlM (delKey engine forcedel shardId) s

/-- `MojDbIndex::update` with what it charges. -/
def updateIndex (index : MojDbIndex) (newObj oldObj : Option MojObject) (forcedel : Bool)
    (s : IndexStore × MojDbStorageTxn) : Except MojErr (IndexStore × MojDbStorageTxn) :=
  match newObj, oldObj, index.includeObj newObj, index.includeObj oldObj with
  | some new, _, true, false => do
    let shardId ← shardOf new
    let (content, txn) ← insertKeys engine shardId (index.getKeys new) (s.1 shardId, s.2)
    return (Function.update s.1 shardId content, txn)
  | _, some old, false, true => do
    let oldShardId ← shardOf old
    let (content, txn) ← delKeys engine forcedel oldShardId (index.getKeys old) (s.1 oldShardId, s.2)
    return (Function.update s.1 oldShardId content, txn)
  | some new, some old, true, true => do
    let oldShardId ← shardOf old
    let shardId ← shardOf new
    let keysToPut := (index.getKeys new).diff (index.getKeys old)
    let keysToDel := (index.getKeys old).diff (index.getKeys new)
    let (content, txn) ← delKeys engine forcedel oldShardId keysToDel (s.1 oldShardId, s.2)
    let store := Function.update s.1 oldShardId content
    let (content, txn) ← insertKeys engine shardId keysToPut (store shardId, txn)
    return (Function.update store shardId content, txn)
  | _, _, _, _ => .ok s

def updateOwnIndexes (newObj oldObj : Option MojObject) (forcedel : Bool) :
    List KindIndex → MojDbStorageTxn → Except MojErr (List KindIndex × MojDbStorageTxn)
  | [], txn => .ok ([], txn)
  | i :: is, txn => do
    let (content, txn) ← updateIndex engine i.index newObj oldObj forcedel (i.content, txn)
    let (is, txn) ← updateOwnIndexes newObj oldObj forcedel is txn
    return ({ i with content } :: is, txn)

def updateIndexesOf (newObj oldObj : Option MojObject) (forcedel : Bool)
    (s : (MojString → List KindIndex) × MojDbStorageTxn) (kindId : MojString) :
    Except MojErr ((MojString → List KindIndex) × MojDbStorageTxn) := do
  let (is, txn) ← updateOwnIndexes engine newObj oldObj forcedel (s.1 kindId) s.2
  return (Function.update s.1 kindId is, txn)

/-- `MojDbKind::update`. -/
def updateKind (kind : Kind) (newObj oldObj : Option MojObject) (r : Request) : Except MojErr Request := do
  let (indexes, txn) ← (order kind).foldlM (updateIndexesOf engine newObj oldObj r.fixmode)
    (r.store.indexes, engine.curKind kind r.txn)
  return { r with store := { r.store with indexes }, txn }

/-- `MojDbKindEngine::update`: an object whose kind changes is removed from the old kind first. -/
def update (newObj oldObj : Option StoredObj) (r : Request) : Except MojErr Request :=
  match newObj, oldObj with
  | some new, some old => do
    let oldKind ← getKind engine old.kindId
    let newKind ← getKind engine new.kindId
    if old.kindId ≠ new.kindId then
      let r ← updateKind engine oldKind none (some old.obj) r
      updateKind engine newKind (some new.obj) none r
    else updateKind engine newKind (some new.obj) (some old.obj) r
  | some new, none => do
    let newKind ← getKind engine new.kindId
    updateKind engine newKind (some new.obj) none r
  | none, some old => do
    let oldKind ← getKind engine old.kindId
    updateKind engine oldKind none (some old.obj) r
  | none, none => .ok r

/-! ## Objects -/

def delItem (idKey : MojDbKey) (objs : List StoredObj) : List StoredObj := objs.filter fun o => o.idKey ≠ idKey

/-- `MojDbSandwichDatabase::update` and `insert`. -/
def putItem (o : StoredObj) (oldItem : Option StoredObj) (txn : MojDbStorageTxn) : Except MojErr MojDbStorageTxn :=
  match oldItem with
  | some item => do
    let txn ← offsetMain engine o.shardId (-item.val.length) txn
    offsetMain engine o.shardId o.val.length txn
  | none => offsetMain engine o.shardId (o.val.length + o.idKey.length) txn

/-- The end of `MojDb::putObj`, from the update of the kinds on. -/
def putObj (o : StoredObj) (r : Request) : Except MojErr Request := do
  let oldItem := lookup StoredObj.idKey o.idKey r.store.objs
  let r ← update engine (some o) oldItem r
  let txn ← putItem engine o oldItem r.txn
  return { r with store := { r.store with objs := delItem o.idKey r.store.objs ++ [o] }, txn }

/-- `MojDb::delObj` with the purge flag. -/
def purgeObj (idKey : MojDbKey) (r : Request) : Except MojErr Request :=
  match lookup StoredObj.idKey idKey r.store.objs with
  | none => .ok r
  | some item => do
    let r ← update engine none (some item) { r with fixmode := true }
    let txn ← offsetMain engine item.shardId (-idKey.length) r.txn
    -- wherever the object was stored
    let txn ← engine.offsetQuota (-item.val.length) txn
    return { r with store := { r.store with objs := delItem idKey r.store.objs }, txn }

/-! ## Indexes -/

/-- A kind is put with one more index, which gets the place that its properties give it in the order. -/
def addIndex (kindId name : MojString) (index : MojDbIndex) (place : Nat) (r : Request) : Except MojErr Request := do
  let kind ← getKind engine kindId
  if name ∈ (r.store.indexes kindId).map KindIndex.name then .error .dbInvalidIndexName
  else
    let added := ⟨name, { index with ready := index.isIdIndex }, fun _ => .empty⟩
    let is := r.store.indexes kindId
    let indexes := Function.update r.store.indexes kindId (is.take place ++ added :: is.drop place)
    return { r with store := { r.store with indexes }, txn := engine.curKind kind r.txn }

/-- `MojDbSandwichDatabase::delPrefix`. -/
def delPrefix (content : KeySet) (txn : MojDbStorageTxn) : Except MojErr MojDbStorageTxn :=
  content.elems.foldlM (fun txn key => engine.offsetQuota (-key.length) txn) txn

/-- A kind is put without one of its indexes; the id index is always among those it is put with. -/
def dropIndex (kindId name : MojString) (r : Request) : Except MojErr Request := do
  let kind ← getKind engine kindId
  if name = IdIndexName then return { r with txn := engine.curKind kind r.txn }
  else
    let toDrop := (r.store.indexes kindId).filter fun i => i.name = name
    let txn ← toDrop.foldlM (fun txn i => delPrefix engine (i.content MainShardId) txn) (engine.curKind kind r.txn)
    let indexes := Function.update r.store.indexes kindId ((r.store.indexes kindId).filter fun i => i.name ≠ name)
    return { r with store := { r.store with indexes }, txn }

/-! ## Commit -/

/-- The shards besides the main one, and which of them are active. -/
structure Shards where
  others : List MojDbShardId
  active : MojDbShardId → Bool

/-- The shard of an id is searched; that of an id whose shard cannot be told is not looked for. -/
def Shards.searched (shards : Shards) (id : MojObject) : Bool :=
  match extractShard id with
  | .ok shardId => shardId = MainShardId || shards.active shardId
  | .error _ => true

/-- The query of `MojDbIndex::build`, for an index with deleted objects `includeDeleted`. -/
def buildQuery (index : MojDbIndex) : Except MojErr MojDbQuery :=
  if index.includeDeleted then MojDbQuery.all.addWhere MojDb.DelKey .opEq (.array [.bool false, .bool true]) none
  else .ok MojDbQuery.all

/-- The ids in the entries that the query comes to. -/
def foundIds (shards : Shards) (i : KindIndex) (query : MojDbQuery) : Except MojErr (List MojObject) := do
  let ranges ← MojDbQueryPlan.init i.index query
  let keys := (MainShardId :: shards.others).flatMap fun shardId =>
    (i.content shardId).elems.filter fun key => ranges.any fun range => range.contains key
  let ids ← keys.mapM (MojDbIsamQuery.parseId i.index.idIndex)
  return ids.filter shards.searched

/-- What `MojDbIndex::build` finds: the objects that have these ids. An entry whose id no object has is passed over, and
an object comes up once. -/
def found (shards : Shards) (s : Store) (kind : Kind) (index : MojDbIndex) : Except MojErr (List StoredObj) := do
  let query ← buildQuery index
  let answering := (s.indexes kind.id).find? fun i => i.index.canAnswer query
  let ids ← answering.elim (.error .dbNoIndexForQuery) fun i => foundIds shards i query
  return s.objs.filter fun o => ids.any fun id => o.idKey = id.toBytes

/-- `handlePreCommit`. The indexes that are built in this commit are ready only behind it. -/
def build (shards : Shards) (kind : Kind) (s : Store) (i : KindIndex) (txn : MojDbStorageTxn) :
    Except MojErr (KindIndex × MojDbStorageTxn) :=
  if i.index.ready then .ok (i, txn)
  else do
    let objs ← found shards s kind i.index
    let (content, txn) ← objs.foldlM (fun s o => updateIndex engine i.index (some o.obj) none false s)
      (i.content, engine.curKind kind txn)
    return (⟨i.name, { i.index with ready := true }, content⟩, txn)

def buildOwnIndexes (shards : Shards) (kind : Kind) (s : Store) :
    List KindIndex → MojDbStorageTxn → Except MojErr (List KindIndex × MojDbStorageTxn)
  | [], txn => .ok ([], txn)
  | i :: is, txn => do
    let (i, txn) ← build engine shards kind s i txn
    let (is, txn) ← buildOwnIndexes shards kind s is txn
    return (i :: is, txn)

def buildIndexesOf (shards : Shards) (s : Store) (built : (MojString → List KindIndex) × MojDbStorageTxn) (kind : Kind) :
    Except MojErr ((MojString → List KindIndex) × MojDbStorageTxn) := do
  let (is, txn) ← buildOwnIndexes engine shards kind s (built.1 kind.id) built.2
  return (Function.update built.1 kind.id is, txn)

/-- The new indexes are built before the commit, kind by kind. -/
def preCommit (shards : Shards) (r : Request) : Except MojErr Request := do
  let (indexes, txn) ← engine.kindMap.kinds.foldlM (buildIndexesOf engine shards r.store) (r.store.indexes, r.txn)
  return { r with store := { r.store with indexes }, txn }

end

end MojDbQuotaUsage

open MojDbQuotaUsage

/-- What is committed, and the open request. -/
structure MojDbQuotaUsage where
  engine : MojDbQuotaEngine
  store : Store
  req : Option Request

namespace MojDbQuotaUsage

inductive Action where
  | begin
  | put (o : StoredObj)
  | purge (idKey : MojDbKey)
  | addIndex (kindId name : MojString) (index : MojDbIndex) (place : Nat)
  | dropIndex (kindId name : MojString)
  | commit (shards : Shards)
  | abort

/-- A request that fails is aborted. -/
def modify (s : MojDbQuotaUsage) (f : Request → Except MojErr Request) : MojDbQuotaUsage :=
  match s.req with
  | none => s
  | some r =>
    match f r with
    | .ok r => { s with req := some r }
    | .error _ => { s with req := none }

/-- The offsets are added to the usage that is recorded now: there is one request at a time. -/
def record (engine : MojDbQuotaEngine) (txn : MojDbStorageTxn) : MojDbQuotaEngine :=
  engine.commitImpl (usagePuts txn.offsetMap (txn.offsetMap.map fun o => engine.usageDb o.kindId))

def commit (s : MojDbQuotaUsage) (shards : Shards) : MojDbQuotaUsage :=
  match s.req with
  | none => s
  | some r =>
    match preCommit s.engine shards r with
    | .ok r => ⟨(record s.engine r.txn).finish r.txn, r.store, none⟩
    | .error _ => { s with req := none }

def newTxn : MojDbStorageTxn := ⟨false, [], none, [], false⟩

def begin (s : MojDbQuotaUsage) : MojDbQuotaUsage :=
  match s.req with
  | none => { s with req := some ⟨s.store, newTxn, false⟩ }
  | some _ => s

def step (s : MojDbQuotaUsage) : Action → MojDbQuotaUsage
  | .begin => s.begin
  | .put o => s.modify (putObj s.engine o)
  | .purge idKey => s.modify (purgeObj s.engine idKey)
  | .addIndex kindId name index place => s.modify (addIndex s.engine kindId name index place)
  | .dropIndex kindId name => s.modify (dropIndex s.engine kindId name)
  | .commit shards => s.commit shards
  | .abort => { s with req := none }

/-! ## What the usage ought to be -/

def objBytes (kindId : MojString) (objs : List StoredObj) : Int :=
  (objs.map fun o =>
    if o.kindId = kindId ∧ o.shardId = MainShardId then (o.idKey.length + o.val.length : Int) else 0).sum

def keyBytes (content : KeySet) : Int := content.weight fun key => key.length

def indexBytes (is : List KindIndex) : Int := (is.map fun i => keyBytes (i.content MainShardId)).sum

/-- The id keys and values of the objects of a kind and the entries of its indexes, in the main shard. -/
def bytes (s : Store) (kindId : MojString) : Int := objBytes kindId s.objs + indexBytes (s.indexes kindId)

/-! ## Charges -/

/-- What a transaction has charged to a kind. -/
def charge (kindId : MojString) (txn : MojDbStorageTxn) : Int :=
  (txn.offsetMap.map fun o => if o.kindId = kindId then o.offset else 0).sum

/-- The kind that is charged. -/
def Current (c : MojString) (txn : MojDbStorageTxn) : Prop :=
  txn.cur = some c ∧ (lookup Offset.kindId c txn.offsetMap).isSome

/-- The quotas that are put stay, and there is one offset for a kind. -/
structure Follows (t' t : MojDbStorageTxn) : Prop where
  quotaPuts : t'.quotaPuts = t.quotaPuts
  nodup : (t.offsetMap.map Offset.kindId).Nodup → (t'.offsetMap.map Offset.kindId).Nodup

structure Charged (c : MojString) (n : Int) (t t' : MojDbStorageTxn) : Prop where
  current : Current c t'
  charge : ∀ k, charge k t' = charge k t + if k = c then n else 0
  follows : Follows t' t

variable {engine : MojDbQuotaEngine} {c k : MojString} {n m : Int} {t t' t'' : MojDbStorageTxn}

theorem Follows.refl (t : MojDbStorageTxn) : Follows t t := ⟨rfl, id⟩

theorem Follows.trans (h' : Follows t'' t') (h : Follows t' t) : Follows t'' t :=
  ⟨h'.quotaPuts.trans h.quotaPuts, fun hnodup => h'.nodup (h.nodup hnodup)⟩

theorem Charged.refl (h : Current c t) : Charged c 0 t t :=
  ⟨h, fun k => by rw [ite_self, add_zero], .refl t⟩

theorem Charged.trans (h : Charged c n t t') (h' : Charged c m t' t'') : Charged c (n + m) t t'' := by
  refine ⟨h'.current, fun k => ?_, h'.follows.trans h.follows⟩
  rw [h'.charge, h.charge]
  split_ifs
  · omega
  · omega

/-- An offset is replaced. -/
theorem charge_upsert (o : Offset) (t : MojDbStorageTxn) (k : MojString) :
    charge k { t with offsetMap := upsert Offset.kindId o t.offsetMap } =
      charge k t + (if k = o.kindId then o.offset - ((lookup Offset.kindId o.kindId t.offsetMap).map Offset.offset).getD 0
        else 0) := by
  have hsum := @sum_upsert _ _ _ Offset.kindId (fun o => if o.kindId = k then o.offset else 0) o t.offsetMap
  simp only [charge]
  cases hlookup : lookup Offset.kindId o.kindId t.offsetMap with
  | none =>
    rw [hlookup] at hsum
    by_cases hk : k = o.kindId
    · subst hk
      simp only [if_true, Option.map_none, Option.getD_none] at hsum ⊢
      omega
    · simp only [if_neg hk, if_neg (Ne.symm hk), Option.map_none, Option.getD_none] at hsum ⊢
      omega
  | some old =>
    have hold := (mem_of_lookup hlookup).2
    rw [hlookup] at hsum
    by_cases hk : k = o.kindId
    · subst hk
      simp only [hold, if_true, Option.map_some, Option.getD_some] at hsum ⊢
      omega
    · simp only [hold, if_neg hk, if_neg (Ne.symm hk), Option.map_some, Option.getD_some] at hsum ⊢
      omega

/-- From now on the kind is charged. -/
theorem charged_curKind (engine : MojDbQuotaEngine) (kind : Kind) (t : MojDbStorageTxn) (k : MojString) :
    Current kind.id (engine.curKind kind t) ∧ charge k (engine.curKind kind t) = charge k t ∧
      Follows (engine.curKind kind t) t := by
  have hid : ((lookup Offset.kindId kind.id t.offsetMap).getD ⟨kind.id, 0, none⟩).kindId = kind.id := by
    cases hlookup : lookup Offset.kindId kind.id t.offsetMap with
    | none => rfl
    | some o => exact (mem_of_lookup hlookup).2
  refine ⟨⟨rfl, ?_⟩, ?_, ⟨rfl, nodup_upsert _⟩⟩
  · simp only [curKind, lookup_upsert, hid, if_true, Option.isSome_some]
  · have hcharge := charge_upsert
      { (lookup Offset.kindId kind.id t.offsetMap).getD ⟨kind.id, 0, none⟩ with
        quota := (quotaForKind engine.owners kind).or
          ((lookup Offset.kindId kind.id t.offsetMap).getD ⟨kind.id, 0, none⟩).quota } t k
    refine hcharge.trans ?_
    simp only [hid]
    cases lookup Offset.kindId kind.id t.offsetMap with
    | none => simp
    | some o => simp

theorem charged_offsetQuota (hcur : Current c t) (h : engine.offsetQuota n t = .ok t') : Charged c n t t' := by
  obtain ⟨hcur, hsome⟩ := hcur
  obtain ⟨o, ho⟩ := Option.isSome_iff_exists.mp hsome
  have hid := (mem_of_lookup ho).2
  unfold offsetQuota at h
  rw [hcur, Option.bind_some, ho] at h
  obtain ⟨o', ho', h⟩ := bind_eq_ok.mp h
  obtain rfl := pure_eq_ok.mp h
  have hoffset : o' = { o with offset := o.offset + n } := by
    unfold applyOffset at ho'
    dsimp only at ho'
    split at ho'
    · split_ifs at ho'
      exact (Except.ok.inj ho').symm
    · exact (Except.ok.inj ho').symm
  subst hoffset
  refine ⟨⟨rfl, ?_⟩, fun k => ?_, ⟨rfl, nodup_upsert _⟩⟩
  · simp only [lookup_upsert, hid, if_true, Option.isSome_some]
  · have hcharge := charge_upsert { o with offset := o.offset + n } t k
    refine hcharge.trans ?_
    simp only [hid, ho, Option.map_some, Option.getD_some]
    split_ifs
    · omega
    · rfl

theorem charged_offsetMain (hcur : Current c t) {shardId : MojDbShardId} (h : offsetMain engine shardId n t = .ok t') :
    Charged c (if shardId = MainShardId then n else 0) t t' := by
  unfold offsetMain at h
  split_ifs at h ⊢
  · exact charged_offsetQuota hcur h
  · obtain rfl := Except.ok.inj h
    exact .refl hcur

/-! ## Keys in and out -/

theorem insertKeys_spec {shardId : MojDbShardId} {keys : KeySet} {s s' : KeySet × MojDbStorageTxn}
    (hcur : Current c s.2) (h : insertKeys engine shardId keys s = .ok s') :
    s'.1 = MojDbIndex.insertKeys keys s.1 ∧ Charged c (if shardId = MainShardId then keyBytes keys else 0) s.2 s'.2 := by
  have hlist : ∀ (ks : List MojDbKey) (s : KeySet × MojDbStorageTxn), Current c s.2 →
      ks.foldlM (insertKey engine shardId) s = .ok s' →
      s'.1 = s.1.putAll ks ∧
        Charged c (if shardId = MainShardId then (ks.map fun key => (key.length : Int)).sum else 0) s.2 s'.2 := by
    intro ks
    induction ks with
    | nil =>
      intro s hcur h
      obtain rfl := pure_eq_ok.mp h
      rw [List.map_nil, List.sum_nil, ite_self]
      exact ⟨rfl, .refl hcur⟩
    | cons key ks ih =>
      intro s hcur h
      rw [List.foldlM_cons] at h
      obtain ⟨s₁, h₁, h⟩ := bind_eq_ok.mp h
      obtain ⟨txn, htxn, h₁⟩ := bind_eq_ok.mp h₁
      obtain rfl := pure_eq_ok.mp h₁
      have hkey := charged_offsetMain hcur htxn
      obtain ⟨hcontent, hrest⟩ := ih _ hkey.current h
      refine ⟨hcontent, ?_⟩
      have hall := hkey.trans hrest
      split_ifs at hall ⊢
      · rw [List.map_cons, List.sum_cons]
        exact hall
      · exact hall
  exact hlist keys.elems s hcur h

theorem delKeys_spec {forcedel : Bool} {shardId : MojDbShardId} {keys : KeySet} {s s' : KeySet × MojDbStorageTxn}
    (hcur : Current c s.2) (h : delKeys engine forcedel shardId keys s = .ok s') :
    MojDbIndex.delKeys forcedel keys s.1 = .ok s'.1 ∧
      Charged c (if shardId = MainShardId then -keyBytes keys else 0) s.2 s'.2 := by
  have hlist : ∀ (ks : List MojDbKey) (s : KeySet × MojDbStorageTxn), Current c s.2 →
      ks.foldlM (delKey engine forcedel shardId) s = .ok s' →
      ks.foldlM (MojDbIndex.delKey forcedel) s.1 = .ok s'.1 ∧
        Charged c (if shardId = MainShardId then -(ks.map fun key => (key.length : Int)).sum else 0) s.2 s'.2 := by
    intro ks
    induction ks with
    | nil =>
      intro s hcur h
      obtain rfl := pure_eq_ok.mp h
      rw [List.map_nil, List.sum_nil, neg_zero, ite_self]
      exact ⟨rfl, .refl hcur⟩
    | cons key ks ih =>
      intro s hcur h
      rw [List.foldlM_cons] at h
      obtain ⟨s₁, h₁, h⟩ := bind_eq_ok.mp h
      obtain ⟨txn, htxn, h₁⟩ := bind_eq_ok.mp h₁
      obtain ⟨content, hcontent, h₁⟩ := bind_eq_ok.mp h₁
      obtain rfl := pure_eq_ok.mp h₁
      have hkey := charged_offsetMain hcur htxn
      obtain ⟨hdel, hrest⟩ := ih _ hkey.current h
      refine ⟨by rw [List.foldlM_cons, hcontent, ok_bind, hdel], ?_⟩
      have hall := hkey.trans hrest
      split_ifs at hall ⊢
      · rw [List.map_cons, List.sum_cons, neg_add]
        exact hall
      · exact hall
  exact hlist keys.elems s hcur h

/-- Keys that are not there are not missed by a deletion that returns. -/
theorem mem_of_delKeys {forcedel : Bool} {keys content content' : KeySet}
    (h : MojDbIndex.delKeys forcedel keys content = .ok content') (key : MojDbKey) :
    key ∈ content' ↔ key ∈ content ∧ key ∉ keys := by
  have hlist : ∀ (ks : List MojDbKey) (content : KeySet), ks.foldlM (MojDbIndex.delKey forcedel) content = .ok content' →
      (key ∈ content' ↔ key ∈ content ∧ key ∉ ks) := by
    intro ks
    induction ks with
    | nil =>
      intro content h
      obtain rfl := pure_eq_ok.mp h
      simp
    | cons k ks ih =>
      intro content h
      rw [List.foldlM_cons] at h
      obtain ⟨content₁, h₁, h⟩ := bind_eq_ok.mp h
      have hfirst : key ∈ content₁ ↔ key ∈ content ∧ key ≠ k := by
        unfold MojDbIndex.delKey at h₁
        split_ifs at h₁ with hmem hforced
        · obtain rfl := Except.ok.inj h₁
          exact SortedSet.mem_del
        · obtain rfl := Except.ok.inj h₁
          refine ⟨fun hk => ⟨hk, fun he => hmem (he ▸ hk)⟩, fun hk => hk.1⟩
      rw [ih content₁ h, hfirst, List.mem_cons, not_or, and_assoc]
  exact hlist keys.elems content h

/-! ## One index -/

variable {index : MojDbIndex} {newObj oldObj : Option MojObject} {forcedel : Bool}
  {s s' : IndexStore × MojDbStorageTxn}

/-- The ways in which an update returns. -/
theorem updateIndex_cases (h : updateIndex engine index newObj oldObj forcedel s = .ok s') :
    (index.includeObj newObj = false ∧ index.includeObj oldObj = false ∧ s' = s) ∨
    (∃ new shardId content, newObj = some new ∧ index.includeObj newObj = true ∧ index.includeObj oldObj = false ∧
      shardOf new = .ok shardId ∧ insertKeys engine shardId (index.getKeys new) (s.1 shardId, s.2) = .ok (content, s'.2) ∧
      s'.1 = Function.update s.1 shardId content) ∨
    (∃ old shardId content, oldObj = some old ∧ index.includeObj newObj = false ∧ index.includeObj oldObj = true ∧
      shardOf old = .ok shardId ∧
      delKeys engine forcedel shardId (index.getKeys old) (s.1 shardId, s.2) = .ok (content, s'.2) ∧
      s'.1 = Function.update s.1 shardId content) ∨
    ∃ new old shardId oldShardId content content' txn, newObj = some new ∧ oldObj = some old ∧
      index.includeObj newObj = true ∧ index.includeObj oldObj = true ∧ shardOf new = .ok shardId ∧
      shardOf old = .ok oldShardId ∧
      delKeys engine forcedel oldShardId ((index.getKeys old).diff (index.getKeys new)) (s.1 oldShardId, s.2) =
        .ok (content, txn) ∧
      insertKeys engine shardId ((index.getKeys new).diff (index.getKeys old))
        (Function.update s.1 oldShardId content shardId, txn) = .ok (content', s'.2) ∧
      s'.1 = Function.update (Function.update s.1 oldShardId content) shardId content' := by
  cases hnew : index.includeObj newObj with
  | false =>
    cases hold : index.includeObj oldObj with
    | false =>
      refine .inl ⟨rfl, rfl, ?_⟩
      have hsame : updateIndex engine index newObj oldObj forcedel s = .ok s := by
        cases newObj <;> cases oldObj <;> simp [updateIndex, hnew, hold]
      exact (Except.ok.inj (hsame.symm.trans h)).symm
    | true =>
      cases oldObj with
      | none => cases hold
      | some old =>
        have hdel : updateIndex engine index newObj (some old) forcedel s = (do
            let oldShardId ← shardOf old
            let (content, txn) ← delKeys engine forcedel oldShardId (index.getKeys old) (s.1 oldShardId, s.2)
            return (Function.update s.1 oldShardId content, txn)) := by
          cases newObj <;> simp [updateIndex, hnew, hold]
        obtain ⟨shardId, hshard, h⟩ := bind_eq_ok.mp (hdel.symm.trans h)
        obtain ⟨⟨content, txn⟩, hcontent, h⟩ := bind_eq_ok.mp h
        obtain rfl := pure_eq_ok.mp h
        exact .inr (.inr (.inl ⟨old, shardId, content, rfl, rfl, rfl, hshard, hcontent, rfl⟩))
  | true =>
    cases newObj with
    | none => cases hnew
    | some new =>
      cases hold : index.includeObj oldObj with
      | false =>
        have hput : updateIndex engine index (some new) oldObj forcedel s = (do
            let shardId ← shardOf new
            let (content, txn) ← insertKeys engine shardId (index.getKeys new) (s.1 shardId, s.2)
            return (Function.update s.1 shardId content, txn)) := by
          cases oldObj <;> simp [updateIndex, hnew, hold]
        obtain ⟨shardId, hshard, h⟩ := bind_eq_ok.mp (hput.symm.trans h)
        obtain ⟨⟨content, txn⟩, hcontent, h⟩ := bind_eq_ok.mp h
        obtain rfl := pure_eq_ok.mp h
        exact .inr (.inl ⟨new, shardId, content, rfl, rfl, rfl, hshard, hcontent, rfl⟩)
      | true =>
        cases oldObj with
        | none => cases hold
        | some old =>
          simp only [updateIndex, hnew, hold] at h
          obtain ⟨oldShardId, holdShard, h⟩ := bind_eq_ok.mp h
          obtain ⟨shardId, hshard, h⟩ := bind_eq_ok.mp h
          obtain ⟨⟨content, txn⟩, hcontent, h⟩ := bind_eq_ok.mp h
          obtain ⟨⟨content', txn'⟩, hcontent', h⟩ := bind_eq_ok.mp h
          obtain rfl := pure_eq_ok.mp h
          exact .inr (.inr (.inr ⟨new, old, shardId, oldShardId, content, content', txn, rfl, rfl, rfl, rfl, hshard,
            holdShard, hcontent, hcontent', rfl⟩))

/-- What an index takes from an object in the main shard. -/
def mainKeys (index : MojDbIndex) (obj : Option MojObject) : KeySet :=
  match obj with
  | none => .empty
  | some o => if index.includeObj obj ∧ shardOf o = .ok MainShardId then index.getKeys o else .empty

theorem mainKeys_of_not_include {obj : Option MojObject} (h : index.includeObj obj = false) :
    mainKeys index obj = .empty := by
  cases obj with
  | none => rfl
  | some o => rw [mainKeys, h, if_neg fun hand => Bool.false_ne_true hand.1]

theorem mainKeys_of_include {o : MojObject} {shardId : MojDbShardId} (h : index.includeObj (some o) = true)
    (hshard : shardOf o = .ok shardId) :
    mainKeys index (some o) = if shardId = MainShardId then index.getKeys o else .empty := by
  simp only [mainKeys, h, hshard, Except.ok.injEq, true_and]

/-- The keys that only one of the versions has are exchanged. -/
def Swapped (newKeys oldKeys content content' : KeySet) : Prop :=
  ∀ key, key ∈ content' ↔ key ∈ content ∧ (key ∈ oldKeys → key ∈ newKeys) ∨ key ∈ newKeys ∧ key ∉ oldKeys

/-- And the difference is charged. -/
structure Exchanged (c : MojString) (newKeys oldKeys : KeySet) (s s' : IndexStore × MojDbStorageTxn) : Prop where
  content : Swapped newKeys oldKeys (s.1 MainShardId) (s'.1 MainShardId)
  charged : Charged c (keyBytes newKeys - keyBytes oldKeys) s.2 s'.2

theorem mem_insertKeys {keys content : KeySet} {key : MojDbKey} :
    key ∈ MojDbIndex.insertKeys keys content ↔ key ∈ content ∨ key ∈ keys := SortedSet.mem_putAll

theorem keyBytes_diff (newKeys oldKeys : KeySet) :
    -keyBytes (oldKeys.diff newKeys) + keyBytes (newKeys.diff oldKeys) = keyBytes newKeys - keyBytes oldKeys := by
  have hdiff := SortedSet.weight_diff (fun key : MojDbKey => (key.length : Int)) newKeys oldKeys
  simp only [keyBytes]
  omega

theorem keyBytes_empty : keyBytes .empty = 0 := rfl

theorem updateIndex_exchanged (hcur : Current c s.2)
    (hsame : ∀ new old, newObj = some new → oldObj = some old → shardOf new = shardOf old)
    (h : updateIndex engine index newObj oldObj forcedel s = .ok s') :
    Exchanged c (mainKeys index newObj) (mainKeys index oldObj) s s' := by
  have hempty : ∀ key, key ∉ (SortedSet.empty : KeySet) := SortedSet.not_mem_empty
  obtain ⟨hnew, hold, rfl⟩ | ⟨new, shardId, content, rfl, hnew, hold, hshard, hput, hs⟩ |
    ⟨old, shardId, content, rfl, hnew, hold, hshard, hdel, hs⟩ |
    ⟨new, old, shardId, oldShardId, content, content', txn, rfl, rfl, hnew, hold, hshard, holdShard, hdel, hput, hs⟩ :=
    updateIndex_cases h
  · rw [mainKeys_of_not_include hnew, mainKeys_of_not_include hold]
    refine ⟨fun key => ?_, ?_⟩
    · have := hempty key
      tauto
    · rw [sub_self]
      exact .refl hcur
  · obtain ⟨hcontent, hcharged⟩ := insertKeys_spec hcur hput
    dsimp only at hcontent hcharged
    rw [mainKeys_of_not_include hold, mainKeys_of_include hnew hshard]
    refine ⟨fun key => ?_, ?_⟩
    · have := hempty key
      rw [hs, MojDbIndex.mem_update_store, hcontent, mem_insertKeys]
      by_cases hmain : MainShardId = shardId
      · rw [if_pos hmain, if_pos hmain.symm, ← hmain]
        tauto
      · rw [if_neg hmain, if_neg (Ne.symm hmain)]
        tauto
    · rw [keyBytes_empty, sub_zero, apply_ite keyBytes]
      exact hcharged
  · obtain ⟨hcontent, hcharged⟩ := delKeys_spec hcur hdel
    dsimp only at hcontent hcharged
    rw [mainKeys_of_not_include hnew, mainKeys_of_include hold hshard]
    refine ⟨fun key => ?_, ?_⟩
    · have := hempty key
      rw [hs, MojDbIndex.mem_update_store, mem_of_delKeys hcontent]
      by_cases hmain : MainShardId = shardId
      · rw [if_pos hmain, if_pos hmain.symm, ← hmain]
        tauto
      · rw [if_neg hmain, if_neg (Ne.symm hmain)]
        tauto
    · rw [keyBytes_empty, zero_sub, apply_ite keyBytes, apply_ite Neg.neg, keyBytes_empty, neg_zero]
      exact hcharged
  · -- both versions are in one shard
    obtain rfl : shardId = oldShardId := by
      have hshards := hsame new old rfl rfl
      rw [hshard, holdShard] at hshards
      exact Except.ok.inj hshards
    obtain ⟨hcontent, hcharged⟩ := delKeys_spec hcur hdel
    obtain ⟨hcontent', hcharged'⟩ :=
      insertKeys_spec (s := (Function.update s.1 shardId content shardId, txn)) hcharged.current hput
    dsimp only at hcontent hcharged hcontent' hcharged'
    rw [mainKeys_of_include hnew hshard, mainKeys_of_include hold holdShard]
    refine ⟨fun key => ?_, ?_⟩
    · have := hempty key
      rw [hs, MojDbIndex.mem_update_store, MojDbIndex.mem_update_store, hcontent', mem_insertKeys, Function.update_self,
        mem_of_delKeys hcontent, SortedSet.mem_diff, SortedSet.mem_diff]
      by_cases hmain : MainShardId = shardId
      · rw [if_pos hmain, if_pos hmain.symm, if_pos hmain.symm, ← hmain]
        tauto
      · rw [if_neg hmain, if_neg hmain, if_neg (Ne.symm hmain), if_neg (Ne.symm hmain)]
        tauto
    · have hall := hcharged.trans hcharged'
      by_cases hmain : shardId = MainShardId
      · simp only [if_pos hmain] at hall ⊢
        rw [← keyBytes_diff]
        exact hall
      · simp only [if_neg hmain] at hall ⊢
        rw [sub_self]
        exact hall

/-! ## What changes is what is charged -/

structure Booked (b b' : MojString → Int) (t t' : MojDbStorageTxn) : Prop where
  balance : ∀ k, charge k t' + b k = charge k t + b' k
  follows : Follows t' t

variable {b b' b'' : MojString → Int} {kindId : MojString} {i i' : KindIndex} {is is' : List KindIndex}

theorem Booked.trans (h : Booked b b' t t') (h' : Booked b' b'' t' t'') : Booked b b'' t t'' := by
  refine ⟨fun k => ?_, h'.follows.trans h.follows⟩
  have hfirst := h.balance k
  have hsecond := h'.balance k
  omega

/-- An index that counts for the kind that is charged has the old keys and none of the new ones; another one does not
change. -/
def Fits (c kindId : MojString) (newKeys oldKeys content : KeySet) : Prop :=
  kindId = c ∧ (∀ key ∈ oldKeys, key ∈ content) ∧ (∀ key ∈ newKeys, key ∈ content → key ∈ oldKeys) ∨ newKeys = oldKeys

theorem keyBytes_of_swapped {newKeys oldKeys content content' : KeySet} (h : Swapped newKeys oldKeys content content')
    (hfits : Fits c kindId newKeys oldKeys content) :
    keyBytes content' = keyBytes content + (keyBytes newKeys - keyBytes oldKeys) ∧
      (kindId ≠ c → keyBytes newKeys = keyBytes oldKeys) := by
  cases hfits with
  | inr hsame =>
    subst hsame
    have hcontent : content' = content := SortedSet.ext fun key => by
      rw [h key]
      tauto
    rw [hcontent]
    exact ⟨by omega, fun _ => rfl⟩
  | inl hown =>
    obtain ⟨hkind, hold, hnew⟩ := hown
    refine ⟨?_, fun hne => absurd hkind hne⟩
    -- what stays, what goes and what comes
    have hbefore : keyBytes content =
        keyBytes (content.diff (oldKeys.diff newKeys)) + keyBytes (oldKeys.diff newKeys) := by
      refine SortedSet.weight_of_disjoint (fun key => ?_) fun key hkey => (SortedSet.mem_diff.mp hkey).2
      have := hold key
      rw [SortedSet.mem_diff, SortedSet.mem_diff]
      tauto
    have hafter : keyBytes content' =
        keyBytes (content.diff (oldKeys.diff newKeys)) + keyBytes (newKeys.diff oldKeys) := by
      refine SortedSet.weight_of_disjoint (fun key => ?_) fun key hkey hkey' => ?_
      · rw [h key, SortedSet.mem_diff, SortedSet.mem_diff, SortedSet.mem_diff]
        tauto
      · have hkey' := SortedSet.mem_diff.mp hkey'
        exact hkey'.2 (hnew key hkey'.1 (SortedSet.mem_diff.mp hkey).1)
    rw [← keyBytes_diff]
    omega

/-- What an update of the indexes leaves of one of them. -/
structure Updated (newObj oldObj : Option MojObject) (i i' : KindIndex) : Prop where
  name : i'.name = i.name
  index : i'.index = i.index
  content : Swapped (mainKeys i.index newObj) (mainKeys i.index oldObj) (i.content MainShardId) (i'.content MainShardId)

theorem updateOwnIndexes_spec (hcur : Current c t)
    (hsame : ∀ new old, newObj = some new → oldObj = some old → shardOf new = shardOf old)
    (hfits : ∀ i ∈ is, Fits c kindId (mainKeys i.index newObj) (mainKeys i.index oldObj) (i.content MainShardId))
    (h : updateOwnIndexes engine newObj oldObj forcedel is t = .ok (is', t')) :
    List.Forall₂ (Updated newObj oldObj) is is' ∧ Current c t' ∧
      Booked (fun k => if k = kindId then indexBytes is else 0) (fun k => if k = kindId then indexBytes is' else 0) t t' := by
  induction is generalizing t is' with
  | nil =>
    cases h
    exact ⟨.nil, hcur, fun k => rfl, .refl _⟩
  | cons i is ih =>
    obtain ⟨⟨content, t₁⟩, hcontent, h⟩ := bind_eq_ok.mp h
    obtain ⟨⟨is₁, t₂⟩, hrest, h⟩ := bind_eq_ok.mp h
    obtain ⟨rfl, rfl⟩ := Prod.mk.inj (pure_eq_ok.mp h)
    have hexchanged := updateIndex_exchanged (s := (i.content, t)) hcur hsame hcontent
    obtain ⟨hindexes, hcur', hbooked⟩ := ih hexchanged.charged.current (fun i hi => hfits i (List.mem_cons_of_mem _ hi)) hrest
    refine ⟨.cons ⟨rfl, rfl, hexchanged.content⟩ hindexes, hcur', fun k => ?_,
      hbooked.follows.trans hexchanged.charged.follows⟩
    obtain ⟨hbytes, hother⟩ := keyBytes_of_swapped hexchanged.content (hfits i List.mem_cons_self)
    have hbalance := hbooked.balance k
    have hcharge := hexchanged.charged.charge k
    have hcons : ∀ (i : KindIndex) is, indexBytes (i :: is) = keyBytes (i.content MainShardId) + indexBytes is :=
      fun _ _ => rfl
    simp only [hcons]
    dsimp only at hbytes hcharge
    by_cases hk : k = kindId
    · simp only [if_pos hk] at hbalance ⊢
      split_ifs at hcharge with hkc
      · omega
      · have := hother fun he => hkc (hk.trans he)
        omega
    · simp only [if_neg hk] at hbalance ⊢
      split_ifs at hcharge with hkc
      · have := hother fun he => hk (hkc.trans he.symm)
        omega
      · omega

/-! ## A kind and those above it -/

/-- What a walk adds to the order: each kind once, and none that was visited before. -/
def Visited (v v' : List MojString × List MojString) : Prop :=
  ∃ new, v'.2 = v.2 ++ new ∧ v.1 ⊆ v'.1 ∧ new ⊆ v'.1 ∧ new.Nodup ∧ ∀ id ∈ new, id ∉ v.1

theorem Visited.trans {v v' v'' : List MojString × List MojString} (h : Visited v v') (h' : Visited v' v'') :
    Visited v v'' := by
  obtain ⟨new, horder, hvec, hnew, hnodup, hfresh⟩ := h
  obtain ⟨new', horder', hvec', hnew', hnodup', hfresh'⟩ := h'
  refine ⟨new ++ new', ?_, List.Subset.trans hvec hvec', ?_, ?_, fun id hid => ?_⟩
  · rw [horder', horder, List.append_assoc]
  · exact List.append_subset.mpr ⟨List.Subset.trans hnew hvec', hnew'⟩
  · exact List.nodup_append'.mpr ⟨hnodup, hnodup', fun id hid hid' => hfresh' id hid' (hnew hid)⟩
  · cases List.mem_append.mp hid with
    | inl hid => exact hfresh id hid
    | inr hid => exact fun hmem => hfresh' id hid (hvec hmem)

mutual
theorem visited_visit : ∀ (kind : Kind) (v : List MojString × List MojString), kind.id ∉ v.1 →
    Visited v (visit kind v) ∧ kind.id ∈ (visit kind v).2
  | .mk id owner supers, (kindVec, order), hid => by
    obtain ⟨new, horder, hvec, hnew, hnodup, hfresh⟩ := visited_visitSupers supers (kindVec ++ [id], order)
    have hself : id ∈ (visitSupers supers (kindVec ++ [id], order)).1 := hvec (List.mem_append_right _ (List.mem_singleton_self _))
    have hnot : id ∉ new := fun h => hfresh id h (List.mem_append_right _ (List.mem_singleton_self _))
    refine ⟨⟨new ++ [id], ?_, ?_, ?_, ?_, fun j hj => ?_⟩, List.mem_append_right _ (List.mem_singleton_self _)⟩
    · rw [visit, horder, List.append_assoc]
    · exact List.Subset.trans (List.subset_append_left _ _) hvec
    · exact List.append_subset.mpr ⟨hnew, List.cons_subset.mpr ⟨hself, List.nil_subset _⟩⟩
    · exact List.nodup_append'.mpr ⟨hnodup, List.nodup_singleton _, fun j hj hj' => hnot (List.mem_singleton.mp hj' ▸ hj)⟩
    · cases List.mem_append.mp hj with
      | inl hj => exact fun hmem => hfresh j hj (List.mem_append_left _ hmem)
      | inr hj => exact List.mem_singleton.mp hj ▸ hid

theorem visited_visitSupers : ∀ (supers : List Kind) (v : List MojString × List MojString),
    Visited v (visitSupers supers v)
  | [], v => ⟨[], (List.append_nil _).symm, List.Subset.refl _, List.nil_subset _, List.nodup_nil, fun _ h => (List.not_mem_nil h).elim⟩
  | kind :: supers, v => by
    rw [visitSupers]
    split_ifs with hmem
    · exact visited_visitSupers supers v
    · exact (visited_visit kind v hmem).1.trans (visited_visitSupers supers _)
end

theorem nodup_order (kind : Kind) : (order kind).Nodup := by
  obtain ⟨⟨new, horder, -, -, hnodup, -⟩, -⟩ := visited_visit kind ([], []) List.not_mem_nil
  rw [order, horder, List.nil_append]
  exact hnodup

theorem id_mem_order (kind : Kind) : kind.id ∈ order kind := (visited_visit kind ([], []) List.not_mem_nil).2

variable {kind : Kind} {r r' : Request}

/-- The indexes of these kinds are updated, the others are as they were. -/
structure IndexesUpdated (kinds : List MojString) (newObj oldObj : Option MojObject)
    (indexes indexes' : MojString → List KindIndex) : Prop where
  updated : ∀ k ∈ kinds, List.Forall₂ (Updated newObj oldObj) (indexes k) (indexes' k)
  others : ∀ k, k ∉ kinds → indexes' k = indexes k

/-- What changes in the indexes is charged to the kind of the object, if every index the kinds have fits. -/
theorem updateIndexes_spec {kinds : List MojString} (hnodup : kinds.Nodup)
    {indexes indexes' : MojString → List KindIndex} (hcur : Current c t)
    (hsame : ∀ new old, newObj = some new → oldObj = some old → shardOf new = shardOf old)
    (hfits : ∀ k ∈ kinds, ∀ i ∈ indexes k,
      Fits c k (mainKeys i.index newObj) (mainKeys i.index oldObj) (i.content MainShardId))
    (h : kinds.foldlM (updateIndexesOf engine newObj oldObj forcedel) (indexes, t) = .ok (indexes', t')) :
    IndexesUpdated kinds newObj oldObj indexes indexes' ∧ Current c t' ∧
      Booked (fun k => indexBytes (indexes k)) (fun k => indexBytes (indexes' k)) t t' := by
  induction kinds generalizing indexes t with
  | nil =>
    obtain ⟨rfl, rfl⟩ := Prod.mk.inj (pure_eq_ok.mp h)
    exact ⟨⟨fun k hk => (List.not_mem_nil hk).elim, fun k _ => rfl⟩, hcur, fun k => rfl, .refl t⟩
  | cons j kinds ih =>
    obtain ⟨hj, hnodup⟩ := List.nodup_cons.mp hnodup
    rw [List.foldlM_cons] at h
    obtain ⟨⟨indexes₁, t₁⟩, hfirst, h⟩ := bind_eq_ok.mp h
    obtain ⟨⟨is, t₂⟩, hown, hfirst⟩ := bind_eq_ok.mp hfirst
    obtain ⟨rfl, rfl⟩ := Prod.mk.inj (pure_eq_ok.mp hfirst)
    obtain ⟨hupdated, hcur₁, hbooked⟩ := updateOwnIndexes_spec hcur hsame (hfits j List.mem_cons_self) hown
    have hne : ∀ k ∈ kinds, k ≠ j := fun k hk he => hj (he ▸ hk)
    obtain ⟨hrest, hcur', hbooked'⟩ := ih hnodup hcur₁ (fun k hk i hi => by
      rw [Function.update_of_ne (hne k hk)] at hi
      exact hfits k (List.mem_cons_of_mem _ hk) i hi) h
    refine ⟨⟨fun k hk => ?_, fun k hk => ?_⟩, hcur', ?_⟩
    · cases List.mem_cons.mp hk with
      | inl he =>
        subst he
        rw [hrest.others k hj, Function.update_self]
        exact hupdated
      | inr hmem =>
        have := hrest.updated k hmem
        rwa [Function.update_of_ne (hne k hmem)] at this
    · obtain ⟨hkj, hk⟩ := not_or.mp (mt List.mem_cons.mpr hk)
      rw [hrest.others k hk, Function.update_of_ne hkj]
    · refine Booked.trans ⟨fun k => ?_, hbooked.follows⟩ hbooked'
      have hbalance := hbooked.balance k
      by_cases hkj : k = j
      · subst hkj
        simpa using hbalance
      · simpa [hkj, Function.update_of_ne hkj] using hbalance

theorem updateKind_spec
    (hsame : ∀ new old, newObj = some new → oldObj = some old → shardOf new = shardOf old)
    (hfits : ∀ k ∈ order kind, ∀ i ∈ r.store.indexes k,
      Fits kind.id k (mainKeys i.index newObj) (mainKeys i.index oldObj) (i.content MainShardId))
    (h : updateKind engine kind newObj oldObj r = .ok r') :
    r'.store.objs = r.store.objs ∧ r'.fixmode = r.fixmode ∧
      IndexesUpdated (order kind) newObj oldObj r.store.indexes r'.store.indexes ∧ Current kind.id r'.txn ∧
      Booked (fun k => indexBytes (r.store.indexes k)) (fun k => indexBytes (r'.store.indexes k)) r.txn r'.txn := by
  obtain ⟨⟨indexes, txn⟩, hfold, h⟩ := bind_eq_ok.mp h
  obtain rfl := pure_eq_ok.mp h
  have hcur := charged_curKind engine kind r.txn
  obtain ⟨hupdated, hcur', hbooked⟩ := updateIndexes_spec (nodup_order kind) (hcur kind.id).1 hsame hfits hfold
  refine ⟨rfl, rfl, hupdated, hcur', fun k => ?_, hbooked.follows.trans (hcur kind.id).2.2⟩
  have hbalance := hbooked.balance k
  rw [(hcur k).2.1] at hbalance
  exact hbalance

end MojDbQuotaUsage

end Db8
