import Db8.Db.MojDbPurgeSpec

/-!
# Db.MojDbPurgeShards

A purge as a whole, with what it does to shards that have been inactive for long.

* `FoundBy`                  — what a query on a kind asks for; a cursor returns nothing else (`get_found`).
* `Marked`                   — an object of a shard that has been inactive for long, which a purge makes a tombstone.
* `purgeShardObjects_eq`     — where there are none, the data stays as it is.
* `purge_leaves_deleted_iff` — when just the objects deleted up to the cutoff are gone.
-/

namespace Db8

open Lib MojObject
open MojDbIsamQuery (Ok rest)
open MojDbQueryPlan (effectiveQuery)

namespace MojDb

open MojDbData (Valid)
open MojDbIndex (shardOf)

variable {env : MojDbEnv} {root table : MojDbKindIndex} {d : MojDbData} {args : PurgeArgs} {from_ : MojString}
  {query effective : MojDbQuery} {ki : MojDbKindIndex}

/-! ## What a cursor returns -/

/-- Conditions that every plan can build ranges for. -/
def Simple (query : MojDbQuery) : Prop :=
  ∀ c ∈ query.whereClauses.map Prod.snd, c.lowerOp ≠ .opSubString ∧ c.lowerOp ≠ .opSearch ∧ c.lowerVal.alternatives ≠ []

/-- A query on a kind asks for the object. -/
def FoundBy (env : MojDbEnv) (from_ : MojString) (query : MojDbQuery) (obj : MojObject) : Prop :=
  ∃ effective ki, Planned env from_ query effective ki ∧ Sought env ki effective obj

theorem simple_of_effectiveQuery (h : Simple query) {index : MojDbIndex} (heff : effectiveQuery index query = .ok effective) :
    Simple effective := by
  intro c hc
  cases MojDbQueryPlan.effectiveQuery_cases heff with
  | inl hsame => exact h c (hsame.1 ▸ hc)
  | inr hadded =>
    rw [hadded.2.2.1, List.map_append, List.mem_append] at hc
    cases hc with
    | inl hc => exact h c hc
    | inr hc =>
      obtain rfl := List.mem_singleton.mp hc
      exact ⟨fun he => (by cases he), fun he => (by cases he), List.cons_ne_nil _ _⟩

theorem planned_of_findImpl (hsimple : Simple query) {c : MojDbFind} (h : findImpl env from_ query = .ok c) :
    ∃ effective ki, Planned env from_ query effective ki ∧ c = cursorOf ki effective := by
  obtain ⟨_, hvalid, h⟩ := bind_eq_ok.mp h
  split_ifs at h with hregistered
  split at h
  · cases h
  · rename_i ki hindex
    obtain ⟨effective, heff, h⟩ := bind_eq_ok.mp h
    rw [MojDbQueryPlan.init, heff] at h
    have hbuilt := simple_of_effectiveQuery hsimple heff
    refine ⟨effective, ki, ⟨by simpa using hregistered, hvalid, hindex, heff, fun c hc => (hbuilt c hc).2.1, fun c hc => ?_⟩,
      (Except.ok.inj h).symm⟩
    exact ⟨(hbuilt c hc).1, fun _ c' hc' => (hbuilt c' hc').2.2⟩

/-- The keys to come are keys that the query covers. -/
structure Reading (env : MojDbEnv) (d : MojDbData) (ki : MojDbKindIndex) (effective : MojDbQuery) (items : MojDbIsamItems) :
    Prop where
  ok : Ok ((cursorOf ki effective).source env d) items.query
  subset : rest ((cursorOf ki effective).source env d) items.query ⊆ keysFrom env d ki effective

theorem reading_start (hplanned : Planned env from_ query effective ki) (d : MojDbData) :
    Reading env d ki effective (cursorOf ki effective).items :=
  ⟨(hplanned.open_rest d).1, fun _ h => h⟩

/-- **A cursor returns what its query asks for.** -/
theorem get_found (hplain : ∀ ki ∈ env.indexes, ki.index.PlainId) (hplanned : Planned env from_ query effective ki)
    (hpage : query.page = []) (h : Valid env d) {items items' : MojDbIsamItems} {id obj : MojObject}
    (hreading : Reading env d ki effective items)
    (hget : MojDbFind.get env d { cursorOf ki effective with items } = .ok (some (id, obj), items')) :
    obj.get IdKey = some id ∧ d.objs id.toBytes = some obj ∧ FoundBy env from_ query obj ∧ Reading env d ki effective items' := by
  have hstored : ∀ key ∈ rest ((cursorOf ki effective).source env d) items.query, ∃ id obj, d.objs id.toBytes = some obj ∧
      HasKey env ki obj key ∧ MojDbIsamQuery.parseId ki.index.idIndex key = .ok id ∧ obj.get IdKey = some id := by
    intro key hkey
    obtain ⟨k, obj, hobj, hhas⟩ := (mem_keys h hplanned.mem).mp (mem_rest.mp hkey).1
    obtain ⟨id, hid, hgetId, rfl⟩ := parseId_of_hasKey hplain h hplanned.mem hobj hhas
    exact ⟨id, obj, hobj, hhas, hid, hgetId⟩
  obtain ⟨r, it, hitem, hgets⟩ := @MojDbIsamItems.getItem_spec ((cursorOf ki effective).source env d) d.objs ki.index.idIndex
    items hreading.ok fun key hkey => by
      obtain ⟨id, _, _, _, hid, _⟩ := hstored key hkey
      exact ⟨id, hid⟩
  obtain ⟨rfl, rfl⟩ := Prod.mk.inj (Except.ok.inj (hitem.symm.trans hget))
  cases hgets with
  | some pre key within rest_eq passed id_eq val_eq fresh ok state count =>
    have hmem : key ∈ rest ((cursorOf ki effective).source env d) items.query := by
      rw [rest_eq]
      exact List.mem_append_right _ List.mem_cons_self
    obtain ⟨id', obj', hobj, hhas, hid, hgetId⟩ := hstored key hmem
    obtain rfl := Except.ok.inj (id_eq.symm.trans hid)
    obtain rfl := Option.some.inj (val_eq.symm.trans hobj)
    refine ⟨hgetId, val_eq, ⟨effective, ki, hplanned, ?_⟩, ok, fun key' hkey' => ?_⟩
    · exact (sought_iff hplain hplanned hpage h val_eq).mpr ⟨key, hreading.subset hmem, hhas⟩
    · refine hreading.subset ?_
      rw [rest_eq]
      exact List.mem_append_right _ (List.mem_cons_of_mem key hkey')

/-! ## Objects that are marked -/

/-- The query for the records of shards whose time is that many days ago. -/
def shardRecords (args : PurgeArgs) : MojDbQuery :=
  { recordsQuery (args.shardTime - UnitsPerDay * windowOf args) MojDbQuery.LimitDefault MojString.empty false with
    ignoreInactiveShards := false }

theorem recordsQueryOf_eq (args : PurgeArgs) : recordsQueryOf args = .ok (shardRecords args) := rfl

theorem simple_shardRecords (args : PurgeArgs) : Simple (shardRecords args) := by
  intro c hc
  obtain rfl := List.mem_singleton.mp hc
  exact ⟨fun he => (by cases he), fun he => (by cases he), List.cons_ne_nil _ _⟩

theorem simple_kindQuery : Simple kindQuery := fun _ hc => absurd hc List.not_mem_nil

/-- A stored record says that the shard is not active since that many days. -/
def LongInactive (env : MojDbEnv) (d : MojDbData) (args : PurgeArgs) (shardId : MojDbShardId) : Prop :=
  ∃ k record, d.objs k = some record ∧ FoundBy env ShardInfoId (shardRecords args) record ∧
    recordShard record = .ok shardId ∧ ∃ active, record.get ActiveKey = some active ∧ active.boolValue = false

/-- The object is of a shard that has been inactive for long, and of a kind linked with it that is not built in. -/
def Marked (env : MojDbEnv) (d : MojDbData) (args : PurgeArgs) (obj : MojObject) : Prop :=
  ∃ shardId info kindId, LongInactive env d args shardId ∧ env.shardEngine.get shardId = some info ∧ kindId ∈ info.kindIds ∧
    args.builtin kindId = false ∧ FoundBy env kindId kindQuery obj ∧ shardOf obj = .ok shardId

section Plain

variable (hplain : ∀ ki ∈ env.indexes, ki.index.PlainId)

include hplain

theorem oldShards_inactive (hplanned : Planned env ShardInfoId (shardRecords args) effective ki) (h : Valid env d) (fuel : Nat)
    {items : MojDbIsamItems} (hreading : Reading env d ki effective items) {shardIds out : List MojDbShardId}
    (hold : ∀ shardId ∈ shardIds, LongInactive env d args shardId)
    (hout : oldShards env d fuel { cursorOf ki effective with items } shardIds = .ok out) :
    ∀ shardId ∈ out, LongInactive env d args shardId := by
  induction fuel generalizing items shardIds with
  | zero =>
    obtain rfl := Except.ok.inj hout
    exact hold
  | succ fuel ih =>
    obtain ⟨⟨item, items'⟩, hget, hout⟩ := bind_eq_ok.mp hout
    cases item with
    | none =>
      obtain rfl := Except.ok.inj hout
      exact hold
    | some found =>
      obtain ⟨id, record⟩ := found
      obtain ⟨-, hrecord, hfound, hreading'⟩ := get_found hplain hplanned rfl h hreading hget
      obtain ⟨shardId, hshard, hout⟩ := bind_eq_ok.mp hout
      obtain ⟨active, hactive, hout⟩ := bind_eq_ok.mp hout
      have hget' : record.get ActiveKey = some active := by
        unfold getRequired at hactive
        split at hactive
        · cases hactive
        · obtain rfl := Except.ok.inj hactive
          assumption
      refine ih hreading' (fun s hs => ?_) hout
      split_ifs at hs with hskip
      · exact hold s hs
      · cases List.mem_append.mp hs with
        | inl hs => exact hold s hs
        | inr hs =>
          obtain rfl := List.mem_singleton.mp hs
          rw [Bool.or_eq_true, not_or, Bool.not_eq_true] at hskip
          exact ⟨_, record, hrecord, hfound, hshard, active, hget', hskip.1⟩

/-- Objects of other shards are left alone. -/
theorem removeItems_eq {kindId : MojString} (hplanned : Planned env kindId kindQuery effective ki) (h : Valid env d)
    {shardId : MojDbShardId} (hother : ∀ k obj, d.objs k = some obj → FoundBy env kindId kindQuery obj → shardOf obj ≠ .ok shardId)
    (fuel : Nat) {items : MojDbIsamItems} (hreading : Reading env d ki effective items) :
    removeItems env args shardId fuel d { cursorOf ki effective with items } = .ok d ∨
      removeItems env args shardId fuel d { cursorOf ki effective with items } = .error d := by
  induction fuel generalizing items with
  | zero => exact .inl rfl
  | succ fuel ih =>
    rw [removeItems]
    cases hget : MojDbFind.get env d { cursorOf ki effective with items } with
    | error e => exact .inr rfl
    | ok found =>
      obtain ⟨item, items'⟩ := found
      cases item with
      | none => exact .inl rfl
      | some item =>
        obtain ⟨id, record⟩ := item
        obtain ⟨hid, hrecord, hfound, hreading'⟩ := get_found hplain hplanned rfl h hreading hget
        have hshard : shardOf record ≠ .ok shardId := hother _ record hrecord hfound
        rw [shardOf, hid] at hshard
        have hrequired : getRequired record IdKey = .ok id := by rw [getRequired, hid]
        dsimp only
        rw [hrequired, ok_bind]
        cases hextract : MojDbIdGenerator.extractShard id with
        | error e => exact .inr rfl
        | ok cmpShardId =>
          have hne : cmpShardId ≠ shardId := fun he => hshard (he ▸ hextract)
          rw [ok_bind]
          dsimp only [pure, Except.pure]
          rw [if_pos hne]
          exact ih hreading'

/-- **Where no object is marked** the data stays as it is. -/
theorem purgeShardObjects_eq (h : Valid env d) (hquiet : ∀ k obj, d.objs k = some obj → ¬Marked env d args obj) :
    purgeShardObjects env args d = d := by
  have hkind : ∀ {shardId kindId info}, LongInactive env d args shardId → env.shardEngine.get shardId = some info →
      kindId ∈ info.kindIds → args.builtin kindId = false →
      removeShardKindObjects env args shardId kindId d = .ok d ∨ removeShardKindObjects env args shardId kindId d = .error d := by
    intro shardId kindId info hold hinfo hmem hbuiltin
    unfold removeShardKindObjects
    cases hfind : findImpl env kindId kindQuery with
    | error e => exact .inr rfl
    | ok c =>
      obtain ⟨effective, ki, hplanned, rfl⟩ := planned_of_findImpl simple_kindQuery hfind
      refine removeItems_eq hplain hplanned h (fun k obj hobj hfound hshard => ?_) _ (reading_start hplanned d)
      exact hquiet k obj hobj ⟨shardId, info, kindId, hold, hinfo, hmem, hbuiltin, hfound, hshard⟩
  have hshards : ∀ shardIds : List MojDbShardId, (∀ shardId ∈ shardIds, LongInactive env d args shardId) →
      removeShardObjects env args shardIds d = .ok d ∨ removeShardObjects env args shardIds d = .error d := by
    intro shardIds hold
    refine foldlM_fixed fun shardId hshardId => ?_
    cases hinfo : env.shardEngine.get shardId with
    | none => exact .inl rfl
    | some info =>
      refine foldlM_fixed fun kindId hmem => ?_
      split_ifs with hregistered hbuiltin
      · exact .inr rfl
      · exact .inl rfl
      · exact hkind (hold shardId hshardId) hinfo hmem (by simpa using hbuiltin)
  unfold purgeShardObjects
  rw [recordsQueryOf_eq, ok_bind]
  cases hfind : findImpl env ShardInfoId (shardRecords args) with
  | error e => rfl
  | ok c =>
    obtain ⟨effective, ki, hplanned, rfl⟩ := planned_of_findImpl (simple_shardRecords args) hfind
    rw [ok_bind]
    cases hout : oldShards env d (((cursorOf ki effective).source env d).keys.size + 1) (cursorOf ki effective) [] with
    | error e => rfl
    | ok shardIds =>
      have hold := oldShards_inactive hplain hplanned h _ (reading_start hplanned d) (fun _ hs => absurd hs List.not_mem_nil) hout
      dsimp only
      cases hshards shardIds hold with
      | inl hok => rw [hok]
      | inr herror => rw [herror]

/-! ## The purge -/

theorem purge_eq (h : Valid env d) (henable : args.enablePurge = true)
    (hquiet : ∀ k obj, d.objs k = some obj → ¬Marked env d args obj) (fuel : Nat) :
    purge env fuel d args = purgeDeleted env fuel d args := by
  rw [purge, henable, purgeShardObjects_eq hplain h hquiet]
  rfl

end Plain

/-- No kind is linked with the shard. -/
theorem not_marked_purgeEnv {obj : MojObject} : ¬Marked purgeEnv d args obj := by
  intro ⟨shardId, info, kindId, _, hinfo, hmem, _⟩
  obtain ⟨stored, hstored, rfl⟩ := Option.map_eq_some_iff.mp hinfo
  have hshard : stored = absentShard := by
    change (SortedMap.empty.insert 8 absentShard).find shardId = some stored at hstored
    rw [SortedMap.find_insert] at hstored
    split_ifs at hstored with h8
    · exact (Option.some.inj hstored).symm
    · cases hstored
  rw [hshard] at hmem
  cases hmem

end MojDb

end Db8
