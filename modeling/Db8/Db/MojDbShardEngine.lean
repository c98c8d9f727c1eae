import Db8.Db.MojDbIdGenerator
import Db8.Db.MojDbPermissionEngine
import Db8.Lib.Run
import Db8.Lib.SortedMap

/-!
# Db.MojDbShardEngine

The `ShardInfo1:1` objects, and the cache of them that the shard engine reads.

* `ShardInfoObj`      — the properties of such an object, with `convert` from and to a `MojDbShardInfo`.
* `MojDbShardIdCache` — `put` keeps an entry that is there, `update` ignores one that is missing.
* `step`              — a call of the engine, inside a request or as one of its own.
* `Synced`            — the cache has just the stored objects.
* `agrees_of_run`     — it is so in every run where no request that has written an object aborts.
-/

namespace Db8

open Lib

namespace MojDbKindIdList

/-- `','`. -/
def separator : MojString := ⟨[44], by decide⟩

def toString : List MojString → MojString
  | [] => .empty
  | [kindId] => kindId
  | kindId :: kindIds => (kindId.append separator).append (toString kindIds)

/-- `MojString::assign` of a C string. -/
def assign (chars : List MojByte) : MojString :=
  ⟨chars.takeWhile (· ≠ 0), fun h => by simpa using List.mem_takeWhile_imp h⟩

/-- The tokens between separators; an empty one is not a token. -/
def fromString (str : MojString) : List MojString := ((str.chars.splitOn 44).filter (· ≠ [])).map assign

end MojDbKindIdList

structure MojDbShardInfo where
  id : MojDbShardId
  active : Bool
  transient : Bool
  timestamp : Int
  id_base64 : MojString
  deviceId : MojString
  deviceUri : MojString
  mountPath : MojString
  deviceName : MojString
  databasePath : MojString
  parentDeviceId : MojString
  kindIds : List MojString
  deriving DecidableEq

/-- The properties that `convert` writes, all of them at each time: in an object that it is merged into none is as it
was. -/
structure ShardInfoObj where
  shardId : MojDbShardId
  active : Bool
  transient : Bool
  idBase64 : MojString
  deviceId : MojString
  deviceUri : MojString
  mountPath : MojString
  databasePath : MojString
  deviceName : MojString
  timestamp : Int
  parentDeviceId : MojString
  kindIds : MojString
  deriving DecidableEq

namespace MojDbShardEngine

/-- `convertId` of a number. -/
def convertId (id : MojDbShardId) : MojString :=
  ⟨MojDbIdGenerator.base64Encode (bigEndian 256 4 id), MojDbIdGenerator.zero_notMem_base64Encode _⟩

/-- `convert` to an object. -/
def convert (shardInfo : MojDbShardInfo) : ShardInfoObj where
  shardId := shardInfo.id
  active := shardInfo.active
  transient := shardInfo.transient
  idBase64 := shardInfo.id_base64
  deviceId := shardInfo.deviceId
  deviceUri := shardInfo.deviceUri
  mountPath := shardInfo.mountPath
  databasePath := shardInfo.databasePath
  deviceName := shardInfo.deviceName
  timestamp := shardInfo.timestamp
  parentDeviceId := shardInfo.parentDeviceId
  kindIds := MojDbKindIdList.toString shardInfo.kindIds

/-- `convert` from an object. -/
def shardInfoOf (obj : ShardInfoObj) : MojDbShardInfo where
  id := obj.shardId
  id_base64 := obj.idBase64
  active := obj.active
  transient := obj.transient
  deviceId := obj.deviceId
  deviceUri := obj.deviceUri
  mountPath := obj.mountPath
  databasePath := obj.databasePath
  deviceName := obj.deviceName
  timestamp := obj.timestamp
  parentDeviceId := obj.parentDeviceId
  kindIds := MojDbKindIdList.fromString obj.kindIds

end MojDbShardEngine

/-! ## The cache -/

abbrev MojDbShardIdCache := SortedMap MojDbShardId ShardInfoObj

namespace MojDbShardIdCache

def isExist (cache : MojDbShardIdCache) (id : MojDbShardId) : Bool := (cache.find id).isSome

/-- `std::map::insert`. -/
def put (cache : MojDbShardIdCache) (id : MojDbShardId) (obj : ShardInfoObj) : MojDbShardIdCache :=
  if isExist cache id then cache else cache.insert id obj

def update (cache : MojDbShardIdCache) (id : MojDbShardId) (obj : ShardInfoObj) : MojDbShardIdCache :=
  if isExist cache id then cache.insert id obj else cache

def del (cache : MojDbShardIdCache) (id : MojDbShardId) : MojDbShardIdCache := cache.erase id

end MojDbShardIdCache

/-! ## The engine -/

/-- `committed` are the objects that the database has, and `working` is what the open request, if there is one, sees.
Each object is one of its own, also where two are of one shard. -/
structure MojDbShardEngine where
  committed : List ShardInfoObj
  working : Option (List ShardInfoObj)
  cache : MojDbShardIdCache

namespace MojDbShardEngine

def init : MojDbShardEngine := ⟨[], none, .empty⟩

def view (st : MojDbShardEngine) : List ShardInfoObj := st.working.getD st.committed

/-- A request of its own commits at once. -/
def write (st : MojDbShardEngine) (objs : List ShardInfoObj) : MojDbShardEngine :=
  match st.working with
  | some _ => { st with working := some objs }
  | none => { st with committed := objs }

/-- What a call that fails leaves: a request of its own is rolled back. -/
def fail (st : MojDbShardEngine) (objs : List ShardInfoObj) : MojDbShardEngine :=
  match st.working with
  | some _ => { st with working := some objs }
  | none => st

/-- The merge of `obj` into the first objects of its shard, as many as `written` says. -/
def mergeUpTo (obj : ShardInfoObj) : Nat → List ShardInfoObj → List ShardInfoObj
  | 0, objs => objs
  | _ + 1, [] => []
  | written + 1, o :: objs =>
    if o.shardId = obj.shardId then obj :: mergeUpTo obj written objs else o :: mergeUpTo obj (written + 1) objs

def delUpTo (shardId : MojDbShardId) : Nat → List ShardInfoObj → List ShardInfoObj
  | 0, objs => objs
  | _ + 1, [] => []
  | written + 1, o :: objs =>
    if o.shardId = shardId then delUpTo shardId written objs else o :: delUpTo shardId (written + 1) objs

/-- The object that `put` makes. -/
def objToPut (shardInfo : MojDbShardInfo) (now : Int) : ShardInfoObj :=
  let info := { shardInfo with timestamp := now }
  let info := if info.id_base64.isEmpty then { info with id_base64 := convertId info.id } else info
  convert info

/-- `fault` is that the database call fails. -/
def put (st : MojDbShardEngine) (shardInfo : MojDbShardInfo) (now : Int) (fault : Bool) : MojDbShardEngine :=
  let obj := objToPut shardInfo now
  if fault then st
  else
    let st := st.write (st.view ++ [obj])
    { st with cache := MojDbShardIdCache.put st.cache shardInfo.id obj }

def get (st : MojDbShardEngine) (shardId : MojDbShardId) : Option MojDbShardInfo :=
  (st.cache.find shardId).map shardInfoOf

def isIdExist (st : MojDbShardEngine) (shardId : MojDbShardId) : Bool := MojDbShardIdCache.isExist st.cache shardId

/-- `MojDbIsamQuery::checkShard` of a shard that an id names. -/
def checkShard (st : MojDbShardEngine) (shardId : MojDbShardId) : Bool :=
  if shardId ≠ MojDbIdGenerator.MainShardId then
    match st.get shardId with
    | some shardInfo => !shardInfo.active
    | none => false
  else false

/-- A database call that fails has written as many objects as `fault` says. -/
def update (st : MojDbShardEngine) (i_shardInfo : MojDbShardInfo) (now : Int) (fault : Option Nat) :
    MojDbShardEngine :=
  let obj := convert { i_shardInfo with timestamp := now }
  match fault with
  | some written => st.fail (mergeUpTo obj written st.view)
  | none =>
    -- MojErrDbObjectNotFound
    if st.view.all fun o => o.shardId ≠ i_shardInfo.id then st
    else
      let st := st.write (st.view.map fun o => if o.shardId = i_shardInfo.id then obj else o)
      { st with cache := MojDbShardIdCache.update st.cache i_shardInfo.id obj }

def removeShardInfo (st : MojDbShardEngine) (shardId : MojDbShardId) (fault : Option Nat) : MojDbShardEngine :=
  match fault with
  | some written => st.fail (delUpTo shardId written st.view)
  | none =>
    let st := st.write (st.view.filter fun o => o.shardId ≠ shardId)
    { st with cache := MojDbShardIdCache.del st.cache shardId }

def linkShardAndKindId (st : MojDbShardEngine) (shardId : MojDbShardId) (kindId : MojString) (now : Int)
    (fault : Option Nat) : MojDbShardEngine :=
  if kindId.isEmpty then st
  else
    match st.get shardId with
    | none => st
    | some shardInfo =>
      if kindId ∈ shardInfo.kindIds then st
      else st.update { shardInfo with kindIds := shardInfo.kindIds ++ [kindId] } now fault

def unlinkShardAndKindId (st : MojDbShardEngine) (shardId : MojDbShardId) (kindId : MojString) (now : Int)
    (fault : Option Nat) : MojDbShardEngine :=
  if kindId.isEmpty then st
  else
    match st.get shardId with
    | none => st
    | some shardInfo =>
      if kindId ∈ shardInfo.kindIds then
        st.update { shardInfo with kindIds := shardInfo.kindIds.erase kindId } now fault
      else st

/-- `resetShards`: no shard is active at startup. -/
def resetShards (objs : List ShardInfoObj) : List ShardInfoObj :=
  objs.map fun o => { o with active := false, mountPath := .empty }

/-- An id that a `MojInt32` does not take ends the start. -/
def initCache : List ShardInfoObj → MojDbShardIdCache → MojDbShardIdCache × Option MojErr
  | [], cache => (cache, none)
  | o :: objs, cache =>
    if o.shardId < 2 ^ 31 then initCache objs (MojDbShardIdCache.put cache o.shardId o) else (cache, some .valueOutOfRange)

/-- `init` at startup, in one request: when it fails the database is not open. -/
def reopen (st : MojDbShardEngine) : MojDbShardEngine :=
  match initCache (resetShards st.committed) .empty with
  | (cache, none) => ⟨resetShards st.committed, none, cache⟩
  | (cache, some _) => ⟨st.committed, none, cache⟩

inductive Action where
  | put (shardInfo : MojDbShardInfo) (now : Int) (fault : Bool)
  | update (shardInfo : MojDbShardInfo) (now : Int) (fault : Option Nat)
  | removeShardInfo (shardId : MojDbShardId) (fault : Option Nat)
  | link (shardId : MojDbShardId) (kindId : MojString) (now : Int) (fault : Option Nat)
  | unlink (shardId : MojDbShardId) (kindId : MojString) (now : Int) (fault : Option Nat)
  | begin
  /-- The open request commits, or it aborts or its commit fails. -/
  | finish (commits : Bool)
  /-- The database is closed, whatever request is open, and opened. -/
  | reopen

def step (st : MojDbShardEngine) : Action → MojDbShardEngine
  | .put shardInfo now fault => st.put shardInfo now fault
  | .update shardInfo now fault => st.update shardInfo now fault
  | .removeShardInfo shardId fault => st.removeShardInfo shardId fault
  | .link shardId kindId now fault => st.linkShardAndKindId shardId kindId now fault
  | .unlink shardId kindId now fault => st.unlinkShardAndKindId shardId kindId now fault
  | .begin => { st with working := some st.view }
  | .finish commits => { st with committed := if commits then st.view else st.committed, working := none }
  | .reopen => st.reopen

/-! ## What is asked of every state -/

/-- The cache has the shards of the objects, each with the object's properties. -/
def Synced (cache : MojDbShardIdCache) (objs : List ShardInfoObj) : Prop :=
  ∀ id o, cache.find id = some o ↔ o ∈ objs ∧ o.shardId = id

/-- The objects are those of the open request, and the committed ones when there is none. -/
structure Agrees (st : MojDbShardEngine) : Prop where
  synced : Synced st.cache st.view
  at_rest : st.working = none → Synced st.cache st.committed
  get : ∀ id info, st.get id = some info ↔ ∃ o ∈ st.view, o.shardId = id ∧ shardInfoOf o = info
  isIdExist : ∀ id, st.isIdExist id = true ↔ ∃ o ∈ st.view, o.shardId = id
  checkShard : ∀ id, st.checkShard id = true ↔
    id ≠ MojDbIdGenerator.MainShardId ∧ ∃ o ∈ st.view, o.shardId = id ∧ o.active = false

/-- No two objects of a shard differ. -/
def Unique (objs : List ShardInfoObj) : Prop := ∀ o ∈ objs, ∀ o' ∈ objs, o.shardId = o'.shardId → o = o'

structure Inv (st : MojDbShardEngine) : Prop where
  synced : Synced st.cache st.view
  unique : Unique st.committed

variable {cache : MojDbShardIdCache} {objs : List ShardInfoObj} {obj : ShardInfoObj} {st : MojDbShardEngine}

theorem Synced.unique (h : Synced cache objs) : Unique objs := by
  intro o ho o' ho' hid
  have hfind := (h o.shardId o).mpr ⟨ho, rfl⟩
  have hfind' := (h o.shardId o').mpr ⟨ho', hid.symm⟩
  exact Option.some.inj (hfind.symm.trans hfind')

theorem Synced.isExist_iff (h : Synced cache objs) (id : MojDbShardId) :
    MojDbShardIdCache.isExist cache id = true ↔ ∃ o ∈ objs, o.shardId = id := by
  rw [MojDbShardIdCache.isExist, Option.isSome_iff_exists]
  exact exists_congr fun o => h id o

/-! ## The cache next to the objects -/

theorem synced_put (h : Synced cache objs) (hnew : ∀ o ∈ objs, o.shardId = obj.shardId → o = obj) :
    Synced (MojDbShardIdCache.put cache obj.shardId obj) (objs ++ [obj]) := by
  intro id o
  rw [List.mem_append, List.mem_singleton, MojDbShardIdCache.put]
  split_ifs with hexist
  · -- the entry that is there is the object
    obtain ⟨o', ho', hid'⟩ := (h.isExist_iff obj.shardId).mp hexist
    obtain rfl := hnew o' ho' hid'
    rw [h]
    constructor
    · intro ⟨hmem, hid⟩
      exact ⟨.inl hmem, hid⟩
    · intro ⟨hmem, hid⟩
      exact ⟨hmem.elim (fun hold => hold) fun he => he ▸ ho', hid⟩
  · rw [SortedMap.find_insert]
    split_ifs with hid
    · subst hid
      have hnone : ¬∃ o ∈ objs, o.shardId = obj.shardId := fun hsome => hexist ((h.isExist_iff _).mpr hsome)
      rw [Option.some.injEq]
      constructor
      · intro he
        exact ⟨.inr he.symm, by rw [he]⟩
      · intro ⟨hmem, hid⟩
        exact hmem.elim (fun hold => (hnone ⟨o, hold, hid⟩).elim) Eq.symm
    · rw [h]
      constructor
      · intro ⟨hmem, he⟩
        exact ⟨.inl hmem, he⟩
      · intro ⟨hmem, he⟩
        exact ⟨hmem.elim (fun hold => hold) fun ho => (hid (he.symm.trans (by rw [ho]))).elim, he⟩

theorem synced_update (h : Synced cache objs) (hsome : ∃ o ∈ objs, o.shardId = obj.shardId) :
    Synced (MojDbShardIdCache.update cache obj.shardId obj)
      (objs.map fun o => if o.shardId = obj.shardId then obj else o) := by
  intro id o
  rw [MojDbShardIdCache.update, if_pos ((h.isExist_iff _).mpr hsome), SortedMap.find_insert, List.mem_map]
  split_ifs with hid
  · subst hid
    rw [Option.some.injEq]
    constructor
    · intro he
      subst he
      obtain ⟨o', ho', hid'⟩ := hsome
      exact ⟨⟨o', ho', if_pos hid'⟩, rfl⟩
    · intro ⟨⟨o', ho', he⟩, hid'⟩
      split_ifs at he with hother
      · exact he
      · exact (hother (he ▸ hid')).elim
  · rw [h]
    constructor
    · intro ⟨hmem, he⟩
      exact ⟨⟨o, hmem, if_neg (he ▸ hid)⟩, he⟩
    · intro ⟨⟨o', ho', he⟩, hid'⟩
      split_ifs at he with hother
      · exact (hid (hid'.symm.trans (by rw [← he]))).elim
      · exact ⟨he ▸ ho', hid'⟩

theorem synced_del (h : Synced cache objs) (shardId : MojDbShardId) :
    Synced (MojDbShardIdCache.del cache shardId) (objs.filter fun o => o.shardId ≠ shardId) := by
  intro id o
  rw [MojDbShardIdCache.del, SortedMap.find_erase, List.mem_filter, decide_eq_true_eq]
  split_ifs with hid
  · subst hid
    constructor
    · intro he
      cases he
    · intro ⟨⟨_, hne⟩, he⟩
      exact (hne he).elim
  · rw [h]
    constructor
    · intro ⟨hmem, he⟩
      exact ⟨⟨hmem, he ▸ hid⟩, he⟩
    · intro ⟨⟨hmem, _⟩, he⟩
      exact ⟨hmem, he⟩

theorem synced_initCache (h : Unique objs) (hid : ∀ o ∈ objs, o.shardId < 2 ^ 31) :
    ∃ cache, initCache objs .empty = (cache, none) ∧ Synced cache objs := by
  -- the objects that are in the cache come before those that are not
  have hfold : ∀ (rest done : List ShardInfoObj) (cache : MojDbShardIdCache), Synced cache done →
      Unique (done ++ rest) → (∀ o ∈ rest, o.shardId < 2 ^ 31) →
      ∃ cache', initCache rest cache = (cache', none) ∧ Synced cache' (done ++ rest) := by
    intro rest
    induction rest with
    | nil =>
      intro done cache hsynced _ _
      rw [List.append_nil]
      exact ⟨cache, rfl, hsynced⟩
    | cons o rest ih =>
      intro done cache hsynced hunique hid
      have hput : Synced (MojDbShardIdCache.put cache o.shardId o) (done ++ [o]) := synced_put hsynced fun o' ho' hid =>
        hunique o' (List.mem_append_left _ ho') o (List.mem_append_right _ List.mem_cons_self) hid
      rw [List.append_cons] at hunique ⊢
      rw [initCache, if_pos (hid o List.mem_cons_self)]
      exact ih (done ++ [o]) _ hput hunique fun o' ho' => hid o' (List.mem_cons_of_mem o ho')
  refine hfold objs [] .empty (fun id o => ?_) h hid
  simp

theorem unique_resetShards (h : Unique objs) : Unique (resetShards objs) := by
  intro o ho o' ho' hid
  obtain ⟨a, ha, rfl⟩ := List.mem_map.mp ho
  obtain ⟨b, hb, rfl⟩ := List.mem_map.mp ho'
  have hab : a = b := h a ha b hb hid
  rw [hab]

/-! ## The calls -/

/-- A call for this shard that fails has not changed what the open request sees. -/
def Unwritten (st : MojDbShardEngine) (shardId : MojDbShardId) (fault : Option Nat) : Prop :=
  ∀ written, fault = some written →
    st.working = none ∨ written = 0 ∨ ∀ o ∈ st.view, o.shardId ≠ shardId

theorem mergeUpTo_eq {written : Nat} (h : written = 0 ∨ ∀ o ∈ objs, o.shardId ≠ obj.shardId) :
    mergeUpTo obj written objs = objs := by
  cases h with
  | inl hzero => rw [hzero, mergeUpTo]
  | inr hnone =>
    cases written with
    | zero => rw [mergeUpTo]
    | succ written =>
      induction objs with
      | nil => rw [mergeUpTo]
      | cons o objs ih =>
        rw [mergeUpTo, if_neg (hnone o List.mem_cons_self), ih fun o' ho' => hnone o' (List.mem_cons_of_mem _ ho')]

theorem delUpTo_eq {written : Nat} {shardId : MojDbShardId}
    (h : written = 0 ∨ ∀ o ∈ objs, o.shardId ≠ shardId) : delUpTo shardId written objs = objs := by
  cases h with
  | inl hzero => rw [hzero, delUpTo]
  | inr hnone =>
    cases written with
    | zero => rw [delUpTo]
    | succ written =>
      induction objs with
      | nil => rw [delUpTo]
      | cons o objs ih =>
        rw [delUpTo, if_neg (hnone o List.mem_cons_self), ih fun o' ho' => hnone o' (List.mem_cons_of_mem _ ho')]

theorem fail_eq (h : st.working = none ∨ objs = st.view) : st.fail objs = st := by
  obtain ⟨committed, working, cache⟩ := st
  cases working with
  | none => rfl
  | some working =>
    have hobjs : objs = working := h.resolve_left (Option.some_ne_none working)
    rw [fail, hobjs]

@[simp] theorem write_cache : (st.write objs).cache = st.cache := by
  unfold write
  split <;> rfl

@[simp] theorem write_view : (st.write objs).view = objs := by
  unfold write
  split
  · rfl
  · next hnone => rw [view, hnone, Option.getD_none]

theorem write_committed (st : MojDbShardEngine) (objs : List ShardInfoObj) :
    (st.write objs).committed = st.committed ∨ (st.write objs).committed = objs := by
  unfold write
  split
  · exact .inl rfl
  · exact .inr rfl

/-- A call that writes the objects and updates the cache. -/
theorem inv_write (h : Inv st) (hsynced : Synced cache objs) : Inv { st.write objs with cache } where
  synced := by
    change Synced cache (st.write objs).view
    rw [write_view]
    exact hsynced
  unique := by
    change Unique (st.write objs).committed
    cases write_committed st objs with
    | inl hcommitted =>
      rw [hcommitted]
      exact h.unique
    | inr hcommitted =>
      rw [hcommitted]
      exact hsynced.unique

theorem objToPut_shardId (shardInfo : MojDbShardInfo) (now : Int) :
    (objToPut shardInfo now).shardId = shardInfo.id := by
  unfold objToPut
  dsimp only
  split_ifs
  · rfl
  · rfl

theorem inv_put (h : Inv st) {shardInfo : MojDbShardInfo} (now : Int) {fault : Bool}
    (hsafe : fault = true ∨ ∀ o ∈ st.view, o.shardId ≠ shardInfo.id) : Inv (st.put shardInfo now fault) := by
  unfold put
  cases fault with
  | true => exact h
  | false =>
    have hnew := hsafe.resolve_left Bool.false_ne_true
    have hid := objToPut_shardId shardInfo now
    dsimp only
    rw [if_neg Bool.false_ne_true, write_cache, ← hid]
    refine inv_write h (synced_put h.synced fun o ho he => ?_)
    exact (hnew o ho (he.trans hid)).elim

theorem inv_update (h : Inv st) {shardInfo : MojDbShardInfo} (now : Int) {fault : Option Nat}
    (hsafe : st.Unwritten shardInfo.id fault) : Inv (st.update shardInfo now fault) := by
  unfold update
  cases fault with
  | some written =>
    have hfail : st.fail (mergeUpTo (convert { shardInfo with timestamp := now }) written st.view) = st :=
      fail_eq ((hsafe written rfl).imp_right mergeUpTo_eq)
    dsimp only
    rw [hfail]
    exact h
  | none =>
    dsimp only
    split_ifs with hnone
    · exact h
    · have hsome : ∃ o ∈ st.view, o.shardId = shardInfo.id := by
        simpa using hnone
      have hsynced := @synced_update _ _ (convert { shardInfo with timestamp := now }) h.synced hsome
      rw [write_cache]
      exact inv_write h hsynced

theorem inv_removeShardInfo (h : Inv st) {shardId : MojDbShardId} {fault : Option Nat}
    (hsafe : st.Unwritten shardId fault) : Inv (st.removeShardInfo shardId fault) := by
  unfold removeShardInfo
  cases fault with
  | some written =>
    dsimp only
    rw [fail_eq ((hsafe written rfl).imp_right delUpTo_eq)]
    exact h
  | none =>
    dsimp only
    rw [write_cache]
    exact inv_write h (synced_del h.synced shardId)

/-- The cache gives a shard under its own id. -/
theorem id_of_get (h : Inv st) {shardId : MojDbShardId} {shardInfo : MojDbShardInfo}
    (hget : st.get shardId = some shardInfo) : shardInfo.id = shardId := by
  obtain ⟨o, hfind, rfl⟩ := Option.map_eq_some_iff.mp hget
  exact ((h.synced shardId o).mp hfind).2

theorem inv_link (h : Inv st) {shardId : MojDbShardId} (kindId : MojString) (now : Int) {fault : Option Nat}
    (hsafe : st.Unwritten shardId fault) : Inv (st.linkShardAndKindId shardId kindId now fault) := by
  unfold linkShardAndKindId
  split_ifs
  · exact h
  · cases hget : st.get shardId with
    | none => exact h
    | some shardInfo =>
      dsimp only
      split_ifs
      · exact h
      · exact inv_update h now ((id_of_get h hget).symm ▸ hsafe)

theorem inv_unlink (h : Inv st) {shardId : MojDbShardId} (kindId : MojString) (now : Int) {fault : Option Nat}
    (hsafe : st.Unwritten shardId fault) : Inv (st.unlinkShardAndKindId shardId kindId now fault) := by
  unfold unlinkShardAndKindId
  split_ifs
  · exact h
  · cases hget : st.get shardId with
    | none => exact h
    | some shardInfo =>
      dsimp only
      split_ifs
      · exact inv_update h now ((id_of_get h hget).symm ▸ hsafe)
      · exact h

/-! ## Runs -/

def Safe (st : MojDbShardEngine) : Action → Prop
  | .put shardInfo _ fault => fault = true ∨ ∀ o ∈ st.view, o.shardId ≠ shardInfo.id
  | .update shardInfo _ fault => st.Unwritten shardInfo.id fault
  | .removeShardInfo shardId fault => st.Unwritten shardId fault
  | .link shardId _ _ fault => st.Unwritten shardId fault
  | .unlink shardId _ _ fault => st.Unwritten shardId fault
  | .begin => True
  | .finish commits => commits = true ∨ st.view = st.committed
  | .reopen => ∀ o ∈ st.committed, o.shardId < 2 ^ 31

theorem inv_init : Inv init where
  synced _ _ := by simp [init, view]
  unique _ ho := nomatch ho

theorem inv_step (h : Inv st) (a : Action) (hsafe : st.Safe a) : Inv (st.step a) := by
  cases a with
  | put shardInfo now fault => exact inv_put h now hsafe
  | update shardInfo now fault => exact inv_update h now hsafe
  | removeShardInfo shardId fault => exact inv_removeShardInfo h hsafe
  | link shardId kindId now fault => exact inv_link h kindId now hsafe
  | unlink shardId kindId now fault => exact inv_unlink h kindId now hsafe
  | begin => exact ⟨h.synced, h.unique⟩
  | finish commits =>
    cases commits with
    | true => exact ⟨h.synced, h.synced.unique⟩
    | false =>
      have hsynced : Synced st.cache st.committed := hsafe.resolve_left Bool.false_ne_true ▸ h.synced
      exact ⟨hsynced, h.unique⟩
  | reopen =>
    have hunique := unique_resetShards h.unique
    have hid : ∀ o ∈ resetShards st.committed, o.shardId < 2 ^ 31 := by
      intro o ho
      obtain ⟨o', ho', rfl⟩ := List.mem_map.mp ho
      exact hsafe o' ho'
    obtain ⟨cache, hcache, hsynced⟩ := synced_initCache hunique hid
    rw [step, reopen, hcache]
    exact ⟨hsynced, hunique⟩

/-- What reads the cache finds what is stored. -/
theorem Inv.agrees (h : Inv st) : Agrees st where
  synced := h.synced
  at_rest hrest := by
    have hview : st.view = st.committed := by rw [view, hrest, Option.getD_none]
    exact hview ▸ h.synced
  get id info := by
    rw [MojDbShardEngine.get, Option.map_eq_some_iff]
    exact exists_congr fun o => by rw [h.synced, and_assoc]
  isIdExist id := h.synced.isExist_iff id
  checkShard id := by
    have hactive : (∃ o ∈ st.view, o.shardId = id ∧ o.active = false) ↔
        ∃ o, st.cache.find id = some o ∧ o.active = false :=
      exists_congr fun o => by rw [h.synced, and_assoc]
    rw [hactive, MojDbShardEngine.checkShard]
    by_cases hmain : id ≠ MojDbIdGenerator.MainShardId
    · rw [if_pos hmain, MojDbShardEngine.get, and_iff_right hmain]
      cases hfind : st.cache.find id with
      | none => simp
      | some o => simp [shardInfoOf]
    · rw [if_neg hmain]
      exact iff_of_false Bool.false_ne_true fun hand => hmain hand.1

theorem agrees_of_run {acts : List Action} (hsafe : Along step Safe init acts) : Agrees (run step init acts) :=
  (Along.invariant Inv (fun _ a h ha => inv_step h a ha) inv_init hsafe).agrees

/-- An active shard that no kind is linked with. -/
def aShard : MojDbShardInfo :=
  ⟨5, true, false, 0, .empty, .empty, .empty, .empty, .empty, .empty, .empty, []⟩

theorem agrees_of_run_link :
    Along step Safe init
        [.put aShard 1 false, .begin, .link 5 MojDbKindIdList.separator 2 none, .finish true, .reopen] ∧
      Agrees (run step init
        [.put aShard 1 false, .begin, .link 5 MojDbKindIdList.separator 2 none, .finish true, .reopen]) := by
  have hsafe : Along step Safe init
      [.put aShard 1 false, .begin, .link 5 MojDbKindIdList.separator 2 none, .finish true, .reopen] := by
    refine ⟨?_, trivial, fun written hfault => ?_, ?_, ?_, trivial⟩
    · exact Or.inr fun o ho => (List.not_mem_nil ho).elim
    · exact (Option.some_ne_none written hfault.symm).elim
    · exact Or.inl rfl
    · simp only [Safe]
      decide
  exact ⟨hsafe, agrees_of_run hsafe⟩

/-- The request in which the shard was updated aborts: the cache keeps the update. -/
theorem not_agrees_of_abort :
    ¬∀ acts : List Action, Agrees (run step init acts) := by
  intro h
  have hrun := (h [.put aShard 1 false, .begin, .update { aShard with active := false } 2 none, .finish false]).synced
  have hstored : convert { aShard with timestamp := 1, id_base64 := convertId 5 } ∈
      (run step init
        [.put aShard 1 false, .begin, .update { aShard with active := false } 2 none, .finish false]).view := by
    decide
  have hfind := (hrun 5 _).mpr ⟨hstored, rfl⟩
  revert hfind
  decide

end MojDbShardEngine

end Db8
