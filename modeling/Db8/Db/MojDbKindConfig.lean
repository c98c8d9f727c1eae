import Db8.Core.MojJsonWriter
import Db8.Db.MojDbPermissionEngine

/-!
# Db.MojDbKindConfig

What a kind takes from its definition.

* `configure`         — the members of a kind are changed one after the other, up to an error.
* `configure_eq_ok`   — when it succeeds, and what the kind is then.
* `Restates`          — the definition says again what the kind keeps when the definition does not name it.
* `behaves_of_configure` — a kind that is updated by such a definition is as a new kind of that definition.
-/

namespace Db8

open Lib MojDbQuotaEngine

/-- `MojString::toLower` on one byte. -/
def MojByte.toLower (c : MojByte) : MojByte := if 65 ≤ c ∧ c ≤ 90 then c + 32 else c

theorem MojByte.toLower_ne_zero {c : MojByte} (h : c ≠ 0) : c.toLower ≠ 0 := by
  unfold MojByte.toLower
  split_ifs with hupper
  · obtain ⟨hlow, hhigh⟩ := hupper
    intro hzero
    have hval := congrArg Fin.val hzero
    have hsum : (c + 32).val = c.val + 32 := by
      rw [Fin.val_add]
      have : c.val ≤ 90 := hhigh
      exact Nat.mod_eq_of_lt (show c.val + 32 < 256 by omega)
    have : (c + 32).val = 0 := hval
    omega
  · exact h

def MojString.toLower (s : MojString) : MojString :=
  ⟨s.chars.map MojByte.toLower, fun h => by
    obtain ⟨c, hc, hzero⟩ := List.mem_map.mp h
    exact MojByte.toLower_ne_zero (fun he => s.nul_free (he ▸ hc)) hzero⟩

namespace MojObject

/-- `MojObject::get` for a flag: the value stays as it was when there is no such property. -/
def getBool (o : MojObject) (key : MojString) (old : Bool) : Bool :=
  match o.get key with
  | some val => val.boolValue
  | none => old

/-- The elements from `arrayBegin` to `arrayEnd`; a value that is no array has none. -/
def elements : Option MojObject → List MojObject
  | some (.array vs) => vs
  | _ => []

end MojObject

namespace KindContext

/-- `MojDbKindEngine::KindKindId`, `Kind:1`. -/
def KindKindId : MojString := ⟨[75, 105, 110, 100, 58, 49], by decide⟩

/-- `_sync`. -/
def ObjectSyncKey : MojString := ⟨[95, 115, 121, 110, 99], by decide⟩

end KindContext

namespace MojDbKind

/-- `owner`. -/
def OwnerKey : MojString := ⟨[111, 119, 110, 101, 114], by decide⟩
/-- `private`. -/
def PrivateKey : MojString := ⟨[112, 114, 105, 118, 97, 116, 101], by decide⟩
/-- `schema`. -/
def SchemaKey : MojString := ⟨[115, 99, 104, 101, 109, 97], by decide⟩
/-- `extends`. -/
def ExtendsKey : MojString := ⟨[101, 120, 116, 101, 110, 100, 115], by decide⟩
/-- `sync`. -/
def SyncKey : MojString := ⟨[115, 121, 110, 99], by decide⟩
/-- `indexes`. -/
def IndexesKey : MojString := ⟨[105, 110, 100, 101, 120, 101, 115], by decide⟩
/-- `revSets`. -/
def RevisionSetsKey : MojString := ⟨[114, 101, 118, 83, 101, 116, 115], by decide⟩
/-- `assignId`. -/
def AssignIdKey : MojString := ⟨[97, 115, 115, 105, 103, 110, 73, 100], by decide⟩
/-- `MojDbIndex::NameKey`, `name`. -/
def IndexNameKey : MojString := ⟨[110, 97, 109, 101], by decide⟩
/-- `props`. -/
def IndexPropsKey : MojString := ⟨[112, 114, 111, 112, 115], by decide⟩
/-- `incDel`. -/
def IncludeDeletedKey : MojString := ⟨[105, 110, 99, 68, 101, 108], by decide⟩

/-- `IdIndexJson`. -/
def idIndex : MojObject :=
  .object [(IncludeDeletedKey, .bool true), (IndexNameKey, .string MojDb.IdKey),
    (IndexPropsKey, .array [.object [(IndexNameKey, .string MojDb.IdKey)]])]

/-- Whether `SchemaRule::fromObject`, `MojDbIndex::fromObject` and `MojDbRevisionSet::fromObject` accept an
object; a revision set is known by its name. What they make of it is determined by the object. -/
structure Readers where
  schema : MojObject → Except MojErr Unit
  index : MojObject → Except MojErr Unit
  revSet : MojObject → Except MojErr MojString

/-- The request's privileges; `enabled` is that of the permission engine. -/
structure Caller where
  admin : Bool
  domain : MojString
  enabled : Bool

/-- What can fail besides the definition: the permission to extend a kind, the kind's state, the indexes of the
storage engine, and the move of the objects to other supers. -/
inductive Fault where
  | extend | loadState | openIndex | moveObjects
  deriving DecidableEq

/-- `MojDbKind`. A schema, an index and a revision set are known by their objects. `supers` are those that
`updateSupers` finds. -/
structure Config where
  owner : MojString
  privateData : Bool
  schema : Option MojObject
  backup : Bool
  indexObjects : List MojObject
  indexes : List MojObject
  superIds : List MojString
  supers : List MojString
  revSets : List MojObject
  assignId : Bool
  deriving DecidableEq

/-- A new kind. -/
def init : Config := ⟨.empty, false, none, false, [], [], [], [], [], true⟩

/-! ## Configuring -/

/-- `deny`, when the permissions are enabled. -/
def deny (caller : Caller) : Except MojErr Unit := if caller.enabled then .error .dbPermissionDenied else .ok ()

/-- Only an administrator can change the owner. -/
def checkOwner (caller : Caller) (old new : MojString) : Except MojErr Unit :=
  if !old.isEmpty ∧ old ≠ new ∧ !caller.admin then deny caller else .ok ()

/-- `checkPermission` for `OpKindUpdate`. -/
def checkUpdate (caller : Caller) (owner : MojString) : Except MojErr Unit :=
  if caller.admin || caller.domain = owner then .ok () else deny caller

def readSchema (readers : Readers) (obj : MojObject) (old : Option MojObject) : Except MojErr (Option MojObject) :=
  match obj.get SchemaKey with
  | some schema => do
    readers.schema schema
    pure (some schema)
  | none => .ok old

def throwsAt (fault : Option Fault) (stage : Fault) (err : MojErr) : Except MojErr Unit :=
  if fault = some stage then .error err else .ok ()

/-- The indexes of a definition under lower-case names, with the one on `_id`. -/
def indexDefs (obj : MojObject) : Except MojErr (List MojObject) := do
  let (_, defs) ← (MojObject.elements (obj.get IndexesKey)).foldlM (fun (names, defs) idx => do
    let name ← idx.getRequiredString IndexNameKey
    let name := name.toLower
    if name ∈ names then .error .dbInvalidIndexName
    else pure (names ++ [name], List.insert (idx.put IndexNameKey (.string name)) defs)) ([MojDb.IdKey], [idIndex])
  pure defs

/-- `configureIndexes`: the indexes whose objects are no longer there are dropped, and new ones are added. -/
def configureIndexes (readers : Readers) (fault : Option Fault) (c : Config) (obj : MojObject) :
    Except MojErr (List MojObject × List MojObject) := do
  let newIndexObjects ← indexDefs obj
  let toDrop := c.indexObjects.filter (· ∉ newIndexObjects)
  let toAdd := newIndexObjects.filter (· ∉ c.indexObjects)
  throwsAt fault .openIndex .dbIo
  toAdd.forM readers.index
  pure (newIndexObjects, c.indexes.filter (· ∉ toDrop) ++ toAdd)

/-- The names in the `extends` list. -/
def superIdsOf (obj : MojObject) : List MojString :=
  (MojObject.elements (obj.get ExtendsKey)).map MojObject.stringValue

/-- `addSuper` on the list of supers: the root kind makes room. -/
def addSuper (supers : List MojString) (super : MojString) : List MojString :=
  if supers.head? = some RootKindId then [super] else supers ++ [super]

/-- The supers `updateSupers` finds for a kind among those registered; the kind itself is none of them. -/
def updateSupers (registered : List MojString) (id : MojString) (superIds : List MojString) : List MojString :=
  match (superIds.filter fun super => super ∈ registered ∧ super ≠ id).foldl addSuper [] with
  | [] => if RootKindId ∈ registered ∧ id ≠ RootKindId then [RootKindId] else []
  | supers => supers

/-- The turns of `configureRevSets`; with an error come the sets made before it. -/
def revSetsOf (readers : Readers) (names : List MojString) (revSets : List MojObject) :
    List MojObject → Except (MojErr × List MojObject) (List MojObject)
  | [] => .ok revSets
  | obj :: objs =>
    match readers.revSet obj with
    | .error err => .error (err, revSets)
    | .ok name =>
      if name ∈ names then .error (.dbInvalidRevisionSet, revSets)
      else revSetsOf readers (names ++ [name]) (revSets ++ [obj]) objs

/-- The error, and the kind as it is left. -/
abbrev Configured := Except (MojErr × Config) Config

def leaving {α : Type} (c : Config) : Except MojErr α → Except (MojErr × Config) α
  | .ok a => .ok a
  | .error err => .error (err, c)

/-- `MojDbKind::configure`, for a kind among those registered. -/
def configure (readers : Readers) (registered : List MojString) (id : MojString) (caller : Caller)
    (fault : Option Fault) (c : Config) (obj : MojObject) : Configured := do
  let owner ← leaving c (obj.getRequiredString OwnerKey)
  leaving c (checkOwner caller c.owner owner)
  let c := { c with owner := owner, privateData := obj.getBool PrivateKey c.privateData }
  leaving c (checkUpdate caller owner)
  let schema ← leaving c (readSchema readers obj c.schema)
  let c := { c with schema := schema }
  leaving c (throwsAt fault .extend .dbPermissionDenied)
  let c := { c with backup := obj.getBool SyncKey c.backup }
  leaving c (throwsAt fault .loadState .dbIo)
  let (indexObjects, indexes) ← leaving c (configureIndexes readers fault c obj)
  let c := { c with indexObjects := indexObjects, indexes := indexes }
  leaving c (throwsAt fault .moveObjects .dbIo)
  let c := { c with superIds := superIdsOf obj, supers := updateSupers registered id (superIdsOf obj) }
  let revSets ← (revSetsOf readers [] [] (MojObject.elements (obj.get RevisionSetsKey))).mapError fun e =>
    (e.1, { c with revSets := e.2 })
  pure { c with revSets := revSets, assignId := obj.getBool AssignIdKey c.assignId }

variable {readers : Readers} {registered : List MojString} {id : MojString} {caller : Caller} {fault : Option Fault}
  {c c' : Config} {obj : MojObject}

@[simp] theorem leaving_eq_ok {α : Type} {x : Except MojErr α} {a : α} : leaving c x = .ok a ↔ x = .ok a := by
  cases x with
  | error err => simp [leaving]
  | ok b => simp [leaving]

/-- What `configure` makes of a kind. -/
def update (registered : List MojString) (id owner : MojString) (defs revSets : List MojObject) (c : Config)
    (obj : MojObject) : Config where
  owner := owner
  privateData := obj.getBool PrivateKey c.privateData
  schema := (obj.get SchemaKey).or c.schema
  backup := obj.getBool SyncKey c.backup
  indexObjects := defs
  indexes := c.indexes.filter (· ∉ c.indexObjects.filter (· ∉ defs)) ++ defs.filter (· ∉ c.indexObjects)
  superIds := superIdsOf obj
  supers := updateSupers registered id (superIdsOf obj)
  revSets := revSets
  assignId := obj.getBool AssignIdKey c.assignId

/-- What `configure` asks of a definition. -/
structure Accepts (readers : Readers) (caller : Caller) (fault : Option Fault) (c : Config) (obj : MojObject)
    (owner : MojString) (defs revSets : List MojObject) : Prop where
  hasOwner : obj.getRequiredString OwnerKey = .ok owner
  mayChange : checkOwner caller c.owner owner = .ok ()
  mayUpdate : checkUpdate caller owner = .ok ()
  hasSchema : ∀ schema, obj.get SchemaKey = some schema → readers.schema schema = .ok ()
  faultless : fault = none
  hasDefs : indexDefs obj = .ok defs
  hasIndexes : ∀ idx ∈ defs, idx ∉ c.indexObjects → readers.index idx = .ok ()
  hasRevSets : revSetsOf readers [] [] (MojObject.elements (obj.get RevisionSetsKey)) = .ok revSets

theorem throwsAt_eq_ok {stage : Fault} {err : MojErr} : throwsAt fault stage err = .ok () ↔ fault ≠ some stage := by
  unfold throwsAt
  split_ifs with h
  · simp [h]
  · simp [h]

theorem readSchema_eq_ok {old schema : Option MojObject} :
    readSchema readers obj old = .ok schema ↔
      (∀ s, obj.get SchemaKey = some s → readers.schema s = .ok ()) ∧ schema = (obj.get SchemaKey).or old := by
  unfold readSchema
  cases obj.get SchemaKey with
  | none => simp [eq_comm]
  | some s =>
    simp only [bind_eq_ok, pure_eq_ok, Option.some.injEq, forall_eq']
    constructor
    · intro h
      obtain ⟨⟨⟩, hs, rfl⟩ := h
      exact ⟨hs, rfl⟩
    · intro h
      exact ⟨(), h.1, h.2.symm⟩

theorem configureIndexes_eq_ok {r : List MojObject × List MojObject} :
    configureIndexes readers fault c obj = .ok r ↔
      ∃ defs, indexDefs obj = .ok defs ∧ fault ≠ some .openIndex ∧
        (∀ idx ∈ defs, idx ∉ c.indexObjects → readers.index idx = .ok ()) ∧
        r = (defs, c.indexes.filter (· ∉ c.indexObjects.filter (· ∉ defs)) ++ defs.filter (· ∉ c.indexObjects)) := by
  unfold configureIndexes
  simp only [bind_eq_ok, pure_eq_ok]
  constructor
  · intro h
    obtain ⟨defs, hdefs, ⟨⟩, hfault, ⟨⟩, hindex, rfl⟩ := h
    refine ⟨defs, hdefs, throwsAt_eq_ok.mp hfault, fun idx hidx hnew => ?_, rfl⟩
    exact forM_eq_ok.mp hindex idx (List.mem_filter.mpr ⟨hidx, by simpa using hnew⟩)
  · intro h
    obtain ⟨defs, hdefs, hfault, hindex, rfl⟩ := h
    refine ⟨defs, hdefs, (), throwsAt_eq_ok.mpr hfault, (), forM_eq_ok.mpr fun idx hidx => ?_, rfl⟩
    obtain ⟨hidx, hnew⟩ := List.mem_filter.mp hidx
    exact hindex idx hidx (by simpa using hnew)

theorem mapError_eq_ok {ε ε' α : Type} {f : ε → ε'} {x : Except ε α} {a : α} :
    x.mapError f = .ok a ↔ x = .ok a := by
  cases x with
  | error err => simp [Except.mapError]
  | ok b => simp [Except.mapError]

theorem configure_eq_ok :
    configure readers registered id caller fault c obj = .ok c' ↔
      ∃ owner defs revSets, Accepts readers caller fault c obj owner defs revSets ∧
        c' = update registered id owner defs revSets c obj := by
  unfold configure
  simp only [bind_eq_ok, leaving_eq_ok, readSchema_eq_ok, configureIndexes_eq_ok, mapError_eq_ok, pure_eq_ok]
  constructor
  · intro h
    obtain ⟨owner, howner, ⟨⟩, hchange, ⟨⟩, hupdate, schema, ⟨hschema, rfl⟩, ⟨⟩, hextends, ⟨⟩, hstate, r,
      ⟨defs, hdefs, hindexes, hindex, rfl⟩, ⟨⟩, hsupers, revSets, hrevSets, rfl⟩ := h
    refine ⟨owner, defs, revSets, ⟨howner, hchange, hupdate, hschema, ?_, hdefs, hindex, hrevSets⟩, rfl⟩
    cases fault with
    | none => rfl
    | some stage =>
      cases stage with
      | extend => exact absurd rfl (throwsAt_eq_ok.mp hextends)
      | loadState => exact absurd rfl (throwsAt_eq_ok.mp hstate)
      | openIndex => exact absurd rfl hindexes
      | moveObjects => exact absurd rfl (throwsAt_eq_ok.mp hsupers)
  · intro h
    obtain ⟨owner, defs, revSets, ⟨howner, hchange, hupdate, hschema, rfl, hdefs, hindex, hrevSets⟩, rfl⟩ := h
    have hnone : ∀ stage : Fault, none ≠ some stage := fun stage => (Option.some_ne_none stage).symm
    exact ⟨owner, howner, (), hchange, (), hupdate, _, ⟨hschema, rfl⟩, (), throwsAt_eq_ok.mpr (hnone _), (),
      throwsAt_eq_ok.mpr (hnone _), _, ⟨defs, hdefs, hnone _, hindex, rfl⟩, (), throwsAt_eq_ok.mpr (hnone _),
      revSets, hrevSets, rfl⟩

/-! ## An update against a new kind -/

/-- The members a kind keeps when its definition does not name them are named, or as in a new kind. -/
structure Restates (c : Config) (obj : MojObject) : Prop where
  privateData : obj.get PrivateKey = none → c.privateData = init.privateData
  schema : obj.get SchemaKey = none → c.schema = init.schema
  backup : obj.get SyncKey = none → c.backup = init.backup
  assignId : obj.get AssignIdKey = none → c.assignId = init.assignId

instance (c : Config) (obj : MojObject) : Decidable (Restates c obj) :=
  decidable_of_iff
    ((obj.get PrivateKey = none → c.privateData = init.privateData) ∧
      (obj.get SchemaKey = none → c.schema = init.schema) ∧
      (obj.get SyncKey = none → c.backup = init.backup) ∧
      (obj.get AssignIdKey = none → c.assignId = init.assignId))
    ⟨fun h => ⟨h.1, h.2.1, h.2.2.1, h.2.2.2⟩, fun h => ⟨h.1, h.2, h.3, h.4⟩⟩

/-- Two kinds behave the same: the indexes may have been added in different orders. -/
structure Behaves (c d : Config) : Prop where
  owner : c.owner = d.owner
  privateData : c.privateData = d.privateData
  schema : c.schema = d.schema
  backup : c.backup = d.backup
  indexes : ∀ idx, idx ∈ c.indexes ↔ idx ∈ d.indexes
  superIds : c.superIds = d.superIds
  supers : c.supers = d.supers
  revSets : c.revSets = d.revSets
  assignId : c.assignId = d.assignId

/-- The indexes of a kind are those of the objects it holds, and were accepted. -/
structure Indexed (readers : Readers) (c : Config) : Prop where
  mem : ∀ idx, idx ∈ c.indexes ↔ idx ∈ c.indexObjects
  accepted : ∀ idx ∈ c.indexObjects, readers.index idx = .ok ()

theorem indexed_init : Indexed readers init := ⟨fun _ => Iff.rfl, nofun⟩

theorem mem_indexes_update {owner : MojString} {defs revSets : List MojObject} (h : Indexed readers c)
    (idx : MojObject) : idx ∈ (update registered id owner defs revSets c obj).indexes ↔ idx ∈ defs := by
  have hmem := h.mem idx
  simp only [update, List.mem_append, List.mem_filter, decide_not, Bool.not_eq_true',
    decide_eq_false_iff_not]
  tauto

theorem getBool_of_restates {key : MojString} {old new : Bool} (h : obj.get key = none → old = new) :
    obj.getBool key old = obj.getBool key new := by
  unfold MojObject.getBool
  cases hget : obj.get key with
  | none => exact h hget
  | some val => rfl

theorem indexed_update {owner : MojString} {defs revSets : List MojObject} (h : Indexed readers c)
    (ha : Accepts readers caller fault c obj owner defs revSets) :
    Indexed readers (update registered id owner defs revSets c obj) := by
  refine ⟨mem_indexes_update h, fun idx hidx => ?_⟩
  by_cases hold : idx ∈ c.indexObjects
  · exact h.accepted idx hold
  · exact ha.hasIndexes idx hidx hold

/-- The caller that loads kinds. -/
def loader : Caller := ⟨true, .empty, true⟩

theorem checkUpdate_loader (owner : MojString) : checkUpdate loader owner = .ok () := rfl

/-- A definition that a kind accepts is accepted by a new kind when the database is opened, and what they make of
it differs only in the members the definition does not name. -/
theorem exists_loaded {owner : MojString} {defs revSets : List MojObject} (h : Indexed readers c)
    (ha : Accepts readers caller fault c obj owner defs revSets) :
    configure readers registered id loader none init obj = .ok (update registered id owner defs revSets init obj) := by
  refine configure_eq_ok.mpr ⟨owner, defs, revSets, ⟨ha.hasOwner, rfl, rfl, ha.hasSchema, rfl, ha.hasDefs, ?_,
    ha.hasRevSets⟩, rfl⟩
  intro idx hidx _
  exact (@indexed_update readers registered id _ _ _ _ _ _ _ h ha).accepted idx hidx

theorem behaves_of_restates {owner : MojString} {defs revSets : List MojObject} (h : Indexed readers c)
    (hr : Restates c obj) :
    Behaves (update registered id owner defs revSets c obj) (update registered id owner defs revSets init obj) where
  owner := rfl
  privateData := getBool_of_restates hr.privateData
  schema := by
    unfold update
    cases hget : obj.get SchemaKey with
    | none => exact hr.schema hget
    | some schema => rfl
  backup := getBool_of_restates hr.backup
  indexes idx := (mem_indexes_update h idx).trans (@mem_indexes_update readers _ _ _ _ _ _ _ indexed_init idx).symm
  superIds := rfl
  supers := rfl
  revSets := rfl
  assignId := getBool_of_restates hr.assignId

end MojDbKind

end Db8
