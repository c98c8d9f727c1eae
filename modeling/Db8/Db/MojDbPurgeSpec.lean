import Db8.Db.MojDbPurgeFind

/-!
# Db.MojDbPurgeSpec

What a purge does to objects that are deleted: which are gone after it, and that it ends.

* `Builtins`         — the kinds that a purge runs its queries on, with their indexes.
* `Kept`             — the table of revisions and the state object are as a purge leaves them.
* `Flagged`          — the objects that the two passes of a batch ask for.
* `purgeImpl_purges` — one batch; `purgeLoop_purges`: batch after batch until none is left.
* `purgeDeleted_leaves` — what a purge leaves of the objects that are deleted.
-/

namespace Db8

open Lib MojObject
open MojDbIndex (delProp idProp)
open MojDbQuotaEngine (RootKindId)
open MojDbQueryPlan (Finds effectiveQuery)

namespace MojDb

open MojDbData (Valid SoundObj)

theorem revKey_split_ne_nil : RevKey.split MojDbPropExtractor.PropComponentSeparator ≠ [] := by decide
theorem timestampKey_split_ne_nil : TimestampKey.split MojDbPropExtractor.PropComponentSeparator ≠ [] := by decide

/-- A kind without revision sets, ids for objects in arrays, and backup. -/
def BuiltinKind (kinds : RevKinds) (kindId : MojString) : Prop :=
  ∃ kind, (kinds.kinds.find? fun k => k.1 = kindId) = some (kindId, kind) ∧ kind.allRevSets = [] ∧
    kind.assignId = false ∧ kind.backup = false

/-- The built-in kinds, and the indexes on `_del`, `_sync` and `_rev`, and on `timestamp`. -/
structure Builtins (env : MojDbEnv) (root table : MojDbKindIndex) : Prop where
  plain : ∀ ki ∈ env.indexes, ki.index.PlainId
  mainShard : MojDbIdGenerator.MainShardId ∈ env.shards
  rootKind : BuiltinKind env.kinds RootKindId
  tableKind : BuiltinKind env.kinds RevTimestampId
  stateKind : BuiltinKind env.kinds DbStateId
  supers : ∀ k ∈ env.kinds.kinds, RootKindId ∈ env.updates k.1
  tableUpdates : RevTimestampId ∈ env.updates RevTimestampId
  stateUpdates : RevTimestampId ∉ env.updates DbStateId
  rootIndexes : ∃ idIndex, idIndex.index.props = [delProp, idProp] ∧
    (env.indexes.filter fun ki => ki.kindId = RootKindId) = [idIndex, root]
  rootProps : root.index.props = [delProp, syncProp, plainProp RevKey revKey_split_ne_nil, idProp]
  rootDeleted : root.index.includeDeleted = true
  rootReady : root.index.ready = true
  tableIndexes : ∃ idIndex, idIndex.index.props = [delProp, idProp] ∧
    (env.indexes.filter fun ki => ki.kindId = RevTimestampId) = [idIndex, table]
  tableProps : table.index.props = [plainProp TimestampKey timestampKey_split_ne_nil, idProp]
  tableDeleted : table.index.includeDeleted = false
  tableReady : table.index.ready = true

variable {env : MojDbEnv} {root table : MojDbKindIndex} {d : MojDbData}

/-! ## The queries -/

/-- The query for the tombstones of a pass. -/
def tombstonesQuery (sync : Bool) (n : Int64) (limit : Nat) : MojDbQuery :=
  { MojDbQuery.all with
    whereClauses := [(DelKey, eqClause (.bool true) rfl), (KindContext.ObjectSyncKey, eqClause (.bool sync) rfl),
      (RevKey, uptoClause n)]
    limit
    where_nodup := (by decide : [DelKey, KindContext.ObjectSyncKey, RevKey].Nodup) }

/-- The query for records of the table. -/
def recordsQuery (n : Int64) (limit : Nat) (orderProp : MojString) (desc : Bool) : MojDbQuery :=
  { MojDbQuery.all with
    whereClauses := [(TimestampKey, uptoClause n)]
    limit, orderProp, desc
    where_nodup := List.nodup_singleton _ }

theorem tombstones_eq (sync : Bool) (n : Int64) :
    tombstones sync (.int n) = .ok (tombstonesQuery sync n MojDbQuery.LimitDefault) := rfl

theorem recordsTo_eq (n : Int64) :
    recordsTo (.int n) = .ok (recordsQuery n MojDbQuery.LimitDefault MojString.empty false) := rfl

theorem find?_of_filter {kindId : MojString} {query : MojDbQuery} {idIndex ki : MojDbKindIndex}
    (hfilter : (env.indexes.filter fun ki => ki.kindId = kindId) = [idIndex, ki])
    (hid : idIndex.index.canAnswer query = false) (hki : ki.index.canAnswer query = true) :
    (env.indexes.find? fun ki => ki.kindId = kindId && ki.index.canAnswer query) = some ki := by
  have hfind : ((env.indexes.filter fun ki => ki.kindId = kindId).find? fun ki => ki.index.canAnswer query) = some ki := by
    simp [hfilter, hid, hki]
  rw [List.find?_filter] at hfind
  simpa only [Bool.decide_and, Bool.decide_eq_true] using hfind

theorem isNone_of_builtin {kinds : RevKinds} {kindId : MojString} (h : BuiltinKind kinds kindId) :
    (kinds.kinds.find? fun k => k.1 = kindId).isNone = false := by
  obtain ⟨kind, hfind, _⟩ := h
  rw [hfind]
  rfl

theorem runs_tombstones (hb : Builtins env root table) (sync : Bool) (n : Int64) (limit : Nat) :
    Runs env RootKindId (tombstonesQuery sync n limit) root where
  registered := isNone_of_builtin hb.rootKind
  valid := rfl
  index := by
    obtain ⟨idIndex, hid, hfilter⟩ := hb.rootIndexes
    refine find?_of_filter hfilter ?_ ?_
    · unfold MojDbIndex.canAnswer
      rw [hid]
      cases idIndex.index.ready with
      | false => rfl
      | true => rfl
    · unfold MojDbIndex.canAnswer
      rw [hb.rootReady, hb.rootProps, hb.rootDeleted]
      rfl
  complete := by
    unfold effectiveQuery
    rw [if_neg]
    intro h
    cases h.2
  noSearch := by
    intro c hc
    simp only [tombstonesQuery, List.map_cons, List.map_nil, List.mem_cons, List.not_mem_nil, or_false] at hc
    obtain rfl | rfl | rfl := hc
    all_goals exact fun he => by cases he
  buildable := by
    intro c hc
    have halts : ∀ c' ∈ (tombstonesQuery sync n limit).whereClauses.map Prod.snd,
        c'.lowerOp ≠ .opSubString ∧ c'.lowerVal.alternatives ≠ [] := by
      intro c' hc'
      simp only [tombstonesQuery, List.map_cons, List.map_nil, List.mem_cons, List.not_mem_nil, or_false] at hc'
      obtain rfl | rfl | rfl := hc'
      all_goals exact ⟨fun he => (by cases he), List.cons_ne_nil _ _⟩
    exact ⟨(halts c hc).1, fun _ c' hc' => (halts c' hc').2⟩
  page := rfl

theorem runs_records (hb : Builtins env root table) (n : Int64) (limit : Nat) (desc : Bool) {orderProp : MojString}
    (horder : orderProp = MojString.empty ∨ orderProp = TimestampKey) :
    Runs env RevTimestampId (recordsQuery n limit orderProp desc) table where
  registered := isNone_of_builtin hb.tableKind
  valid := rfl
  index := by
    obtain ⟨idIndex, hid, hfilter⟩ := hb.tableIndexes
    refine find?_of_filter hfilter ?_ ?_
    · unfold MojDbIndex.canAnswer
      rw [hid]
      cases idIndex.index.ready with
      | false => rfl
      | true =>
        cases idIndex.index.includeDeleted with
        | false => rfl
        | true => rfl
    · unfold MojDbIndex.canAnswer
      rw [hb.tableReady, hb.tableProps, hb.tableDeleted]
      cases horder with
      | inl h =>
        rw [h]
        rfl
      | inr h =>
        rw [h]
        rfl
  complete := by
    unfold effectiveQuery
    rw [if_neg]
    intro h
    rw [hb.tableDeleted] at h
    cases h.1
  noSearch := by
    intro c hc
    obtain rfl := List.mem_singleton.mp hc
    exact fun he => by cases he
  buildable := by
    intro c hc
    obtain rfl := List.mem_singleton.mp hc
    refine ⟨fun he => (by cases he), fun _ c' hc' => ?_⟩
    obtain rfl := List.mem_singleton.mp hc'
    exact List.cons_ne_nil _ _
  page := rfl

/-! ## What the queries ask for -/

/-- An integer property up to a number. -/
def UpTo (obj : MojObject) (key : MojString) (n : Int64) : Prop := ∃ i, obj.get key = some (.int i) ∧ i ≤ n

/-- The object is deleted as the index has it, with `_sync` as one of the passes asks for it, and not passed over. -/
structure Flagged (env : MojDbEnv) (sync : Bool) (n : Int64) (obj : MojObject) : Prop where
  deleted : HasVal obj DelKey (.bool false) (.bool true)
  synced : HasVal obj KindContext.ObjectSyncKey (.bool false) (.bool sync)
  upTo : UpTo obj RevKey n
  active : ¬Excluded env obj

theorem vals_delProp {text : MojDbText} {obj : MojObject} {b : Bool} :
    (MojObject.bool b).toBytes ∈ delProp.vals text obj ↔ HasVal obj DelKey (.bool false) (.bool b) :=
  mem_vals_bool (by decide) (by decide) rfl rfl rfl

theorem vals_syncProp {text : MojDbText} {obj : MojObject} {b : Bool} :
    (MojObject.bool b).toBytes ∈ syncProp.vals text obj ↔ HasVal obj KindContext.ObjectSyncKey (.bool false) (.bool b) :=
  mem_vals_bool (by decide) (by decide) rfl rfl rfl

theorem vals_revProp {text : MojDbText} {obj : MojObject} {i : Int64} (h : obj.get RevKey = some (.int i)) {part : MojDbKey} :
    part ∈ (plainProp RevKey revKey_split_ne_nil).vals text obj ↔ part = (MojObject.int i).toBytes :=
  vals_of_get (by decide) (by decide) rfl rfl h rfl

theorem vals_timestampProp {text : MojDbText} {obj : MojObject} {i : Int64} (h : obj.get TimestampKey = some (.int i))
    {part : MojDbKey} :
    part ∈ (plainProp TimestampKey timestampKey_split_ne_nil).vals text obj ↔ part = (MojObject.int i).toBytes :=
  vals_of_get (by decide) (by decide) rfl rfl h rfl

theorem vals_idProp {text : MojDbText} {obj id : MojObject} (h : obj.get IdKey = some id) (harray : id.isArray = false)
    {part : MojDbKey} : part ∈ idProp.vals text obj ↔ part = id.toBytes :=
  vals_of_get (by decide) (by decide) rfl rfl h harray

theorem kindId_of_filter {kindId : MojString} {idIndex ki : MojDbKindIndex}
    (hfilter : (env.indexes.filter fun ki => ki.kindId = kindId) = [idIndex, ki]) : ki ∈ env.indexes ∧ ki.kindId = kindId := by
  have hmem : ki ∈ env.indexes.filter fun ki => ki.kindId = kindId := by
    rw [hfilter]
    exact List.mem_cons_of_mem _ List.mem_cons_self
  simpa using List.mem_filter.mp hmem

/-- Every object is in the indexes of the root kind. -/
theorem covers_root (hb : Builtins env root table) {k : MojDbKey} {obj : MojObject} (h : SoundObj env k obj) :
    env.covers root obj = true := by
  obtain ⟨kind, hkind⟩ := h.kind
  obtain ⟨_, _, hfilter⟩ := hb.rootIndexes
  have hmem := List.mem_of_find?_eq_some (RevKinds.getKind_eq_ok hkind).2
  rw [MojDbData.covers_of_getKind hkind, decide_eq_true_eq, (kindId_of_filter hfilter).2]
  exact hb.supers kind hmem

theorem sought_tombstones (hb : Builtins env root table) {k : MojDbKey} {obj : MojObject} (h : SoundObj env k obj) {sync : Bool}
    {n : Int64} {limit : Nat} : Sought env root (tombstonesQuery sync n limit) obj ↔ Flagged env sync n obj := by
  obtain ⟨i, hrev⟩ := h.rev
  obtain ⟨id, hid, _, harray, _, _⟩ := h.id
  have hprop : ∀ {e e' : MojDbExtractor}, e ∈ root.index.props → e' ∈ root.index.props → e.name = e'.name → e = e' :=
    fun he he' hname => MojDbIndex.eq_of_name_eq he he' hname
  have hdel : delProp ∈ root.index.props := by
    rw [hb.rootProps]
    exact List.mem_cons_self
  have hsync : syncProp ∈ root.index.props := by
    rw [hb.rootProps]
    exact List.mem_cons_of_mem _ List.mem_cons_self
  have hrevProp : plainProp RevKey revKey_split_ne_nil ∈ root.index.props := by
    rw [hb.rootProps]
    exact List.mem_cons_of_mem _ (List.mem_cons_of_mem _ List.mem_cons_self)
  -- what the three conditions ask for
  have hfindsDel : Finds root.index.text (eqClause (.bool true) rfl) (delProp.vals root.index.text obj) ↔
      HasVal obj DelKey (.bool false) (.bool true) := (finds_eqClause rfl rfl).trans vals_delProp
  have hfindsSync : Finds root.index.text (eqClause (.bool sync) rfl) (syncProp.vals root.index.text obj) ↔
      HasVal obj KindContext.ObjectSyncKey (.bool false) (.bool sync) := (finds_eqClause rfl rfl).trans vals_syncProp
  have hfindsRev : Finds root.index.text (uptoClause n) ((plainProp RevKey revKey_split_ne_nil).vals root.index.text obj) ↔
      i ≤ n := finds_uptoClause fun part => vals_revProp hrev
  constructor
  · intro hsought
    have hfinds := hsought.finds
    simp only [tombstonesQuery, List.forall_mem_cons] at hfinds
    obtain ⟨⟨e, he, hname, hd⟩, ⟨e', he', hname', hs⟩, ⟨e'', he'', hname'', hr⟩, _⟩ := hfinds
    obtain rfl := hprop he hdel hname
    obtain rfl := hprop he' hsync hname'
    obtain rfl := hprop he'' hrevProp hname''
    exact ⟨hfindsDel.mp hd, hfindsSync.mp hs, ⟨i, hrev, hfindsRev.mp hr⟩, fun hexcluded => hsought.active ⟨rfl, hexcluded⟩⟩
  · intro hflagged
    obtain ⟨j, hrev', hle⟩ := hflagged.upTo
    rw [hrev] at hrev'
    obtain rfl : i = j := MojObject.int.inj (Option.some.inj hrev')
    refine ⟨covers_root hb h, ⟨?_, ?_⟩, ?_, fun hexcluded => hflagged.active hexcluded.2⟩
    · simp only [MojDbIndex.includeObj, hb.rootDeleted, if_true]
    · refine ⟨_, (MojDbIndex.mem_getKeys root.index).mpr
        ⟨[(MojObject.bool true).toBytes, (MojObject.bool sync).toBytes, (MojObject.int i).toBytes, id.toBytes], ?_, rfl⟩⟩
      rw [hb.rootProps]
      exact .cons (vals_delProp.mpr hflagged.deleted) (.cons (vals_syncProp.mpr hflagged.synced)
        (.cons ((vals_revProp hrev).mpr rfl) (.cons ((vals_idProp hid harray).mpr rfl) .nil)))
    · simp only [tombstonesQuery, List.forall_mem_cons]
      exact ⟨⟨_, hdel, rfl, hfindsDel.mpr hflagged.deleted⟩, ⟨_, hsync, rfl, hfindsSync.mpr hflagged.synced⟩,
        ⟨_, hrevProp, rfl, hfindsRev.mpr hle⟩, fun _ hp => absurd hp List.not_mem_nil⟩

/-! ### Records of the table -/

/-- A live object of the table. -/
def InTable (env : MojDbEnv) (table : MojDbKindIndex) (obj : MojObject) : Prop :=
  env.covers table obj = true ∧ table.index.includeObj (some obj) = true

/-- A record as a purge puts it. -/
structure Record (env : MojDbEnv) (obj : MojObject) (rev time : Int64) : Prop where
  live : obj.get DelKey = none
  rev : obj.get RevNumKey = some (.int rev)
  time : obj.get TimestampKey = some (.int time)
  active : ¬Excluded env obj

theorem sought_records (hb : Builtins env root table) {k : MojDbKey} {obj : MojObject} (h : SoundObj env k obj)
    {rev time : Int64} (hrecord : Record env obj rev time) {n : Int64} {limit : Nat} {orderProp : MojString} {desc : Bool} :
    Sought env table (recordsQuery n limit orderProp desc) obj ↔ InTable env table obj ∧ time ≤ n := by
  obtain ⟨id, hid, _, harray, _, _⟩ := h.id
  have htime : plainProp TimestampKey timestampKey_split_ne_nil ∈ table.index.props := by
    rw [hb.tableProps]
    exact List.mem_cons_self
  have hfinds : Finds table.index.text (uptoClause n)
      ((plainProp TimestampKey timestampKey_split_ne_nil).vals table.index.text obj) ↔ time ≤ n :=
    finds_uptoClause fun part => vals_timestampProp hrecord.time
  constructor
  · intro hsought
    obtain ⟨e, he, hname, hfound⟩ := hsought.finds _ List.mem_cons_self
    obtain rfl := MojDbIndex.eq_of_name_eq he htime hname
    exact ⟨⟨hsought.covers, hsought.keyOf.1⟩, hfinds.mp hfound⟩
  · intro ⟨hin, hle⟩
    refine ⟨hin.1, ⟨hin.2, ?_⟩, fun p hp => ?_, fun hexcluded => hrecord.active hexcluded.2⟩
    · refine ⟨_, (MojDbIndex.mem_getKeys table.index).mpr ⟨[(MojObject.int time).toBytes, id.toBytes], ?_, rfl⟩⟩
      rw [hb.tableProps]
      exact .cons ((vals_timestampProp hrecord.time).mpr rfl) (.cons ((vals_idProp hid harray).mpr rfl) .nil)
    · obtain rfl := List.mem_singleton.mp hp
      exact ⟨_, htime, rfl, hfinds.mpr hle⟩

/-! ## What a purge writes -/

open RevKinds (withId withIds withSync)

/-- An object of a built-in kind as it is stored. -/
def storedObj (putId : MojObject) (rev : Int64) (obj : MojObject) : MojObject :=
  (withId putId (obj.put RevKey (.int rev))).put IdKey putId

theorem get_storedObj {putId obj : MojObject} {rev : Int64} {key : MojString} (hid : key ≠ IdKey) (hrev : key ≠ RevKey) :
    (storedObj putId rev obj).get key = obj.get key := by
  rw [storedObj, get_put_of_ne hid, RevKinds.get_withId hid, get_put_of_ne hrev]

theorem get_storedObj_rev {putId obj : MojObject} {rev : Int64} : (storedObj putId rev obj).get RevKey = some (.int rev) := by
  rw [storedObj, get_put_of_ne (by decide), RevKinds.get_withId (by decide), get_put_self]

theorem isOrdered_storedObj {putId obj : MojObject} {rev : Int64} (hobj : obj.isOrdered = true) (hid : putId.isOrdered = true) :
    (storedObj putId rev obj).isOrdered = true := by
  have hrev : (obj.put RevKey (.int rev)).isOrdered = true := isOrdered_put hobj rfl
  rw [storedObj, withId]
  split_ifs
  · exact isOrdered_put (isOrdered_put hrev hid) hid
  · exact isOrdered_put hrev hid

theorem getKind_builtin {kinds : RevKinds} {kindId : MojString} {kind : RevKind} {obj : MojObject}
    (hfind : (kinds.kinds.find? fun k => k.1 = kindId) = some (kindId, kind)) (hkind : obj.get KindKey = some (.string kindId)) :
    kinds.getKind obj = .ok (kindId, kind) := by
  have hid : (MojObject.string kindId).stringValue = kindId := rfl
  simp only [RevKinds.getKind, hkind]
  rw [hid, hfind]

theorem putObj_builtin {kinds : RevKinds} {kindId : MojString} (hbuiltin : BuiltinKind kinds kindId) {putId obj : MojObject}
    {step : RevKinds.Step} {prev : Option MojObject} (hkind : obj.get KindKey = some (.string kindId))
    (hprev : ∀ old, prev = some old → ∃ kind, kinds.getKind old = .ok kind) (hne : prev ≠ some obj) :
    ∃ created, kinds.putObj putId step obj prev = .ok (.stored (storedObj putId step.rev obj) created) := by
  obtain ⟨kind, hfind, hsets, hassign, hbackup⟩ := hbuiltin
  have hget : (withId putId (obj.put RevKey (.int step.rev))).get KindKey = some (.string kindId) := by
    rw [RevKinds.get_withId (by decide), get_put_of_ne (by decide), hkind]
  have hids : ∀ o, withIds (kindId, kind) step.ids o = o := by
    intro o
    rw [withIds, hassign, Bool.and_false]
    rfl
  have hsync : ∀ o, withSync (kindId, kind) o = o := by
    intro o
    rw [withSync, hbackup, Bool.false_and]
    rfl
  have hpre : ∀ old o, kind.preUpdate kinds.text old o = .ok o := by
    intro old o
    rw [RevKind.preUpdate_eq, hsets]
    rfl
  rw [RevKinds.putObj, if_neg hne, RevKinds.prepare, getKind_builtin hfind hget, ok_bind, hids, hsync]
  cases hcase : prev with
  | none =>
    refine ⟨true, ?_⟩
    dsimp only
    rw [pure_bind, hpre]
    rfl
  | some old =>
    obtain ⟨oldKind, hold⟩ := hprev old hcase
    refine ⟨(if oldKind.1 = kindId then some old else none).isNone, ?_⟩
    dsimp only
    rw [hold, ok_bind, pure_bind, hpre]
    rfl

/-- A put of an object of a built-in kind under an id that has none of another kind. -/
theorem request_builtin (hb : Builtins env root table) (h : Valid env d) {kindId : MojString}
    (hbuiltin : BuiltinKind env.kinds kindId) {putId obj : MojObject} {step : RevKinds.Step} (forcedel : Bool)
    (hrequested : RevKinds.requested step.request (d.objs putId.toBytes) = .ok (some obj))
    (hkind : obj.get KindKey = some (.string kindId))
    (hprev : ∀ old, d.objs putId.toBytes = some old → old.get KindKey = some (.string kindId)) (harray : putId.isArray = false)
    (hdef : putId.isDefined = true) (hord : putId.isOrdered = true)
    (hshard : ∃ shard ∈ env.shards, MojDbIdGenerator.extractShard putId = .ok shard) :
    ∃ d' obj', d.request env putId step forcedel = .ok d' ∧ d'.objs = Function.update d.objs putId.toBytes (some obj') ∧
      d'.nextId = d.nextId ∧ Valid env d' ∧ (obj' = obj ∧ d' = d ∨ obj' = storedObj putId step.rev obj) ∧
      obj'.get IdKey = some putId := by
  rw [MojDbData.request, RevKinds.apply, hrequested]
  dsimp only
  by_cases hsame : d.objs putId.toBytes = some obj
  · have hid : obj.get IdKey = some putId := by
      obtain ⟨id, hget, hbytes, _, hidDef, _⟩ := (h.sound _ obj hsame).id
      rw [hget, (@toBytes_append_inj id putId hidDef hdef [] [] (by rw [hbytes])).1]
    refine ⟨d, obj, ?_, ?_, rfl, h, .inl ⟨rfl, rfl⟩, hid⟩
    · rw [RevKinds.putObj, if_pos hsame]
    · rw [← hsame, Function.update_eq_self]
  · have hfound := hbuiltin
    obtain ⟨kind, hfind, _⟩ := hfound
    obtain ⟨created, hput⟩ := @putObj_builtin env.kinds kindId hbuiltin putId obj step _ hkind
      (fun old hold => ⟨_, getKind_builtin hfind (hprev old hold)⟩) hsame
    have hid : (storedObj putId step.rev obj).get IdKey = some putId := get_put_self _ _ _
    have hstoredKind : (storedObj putId step.rev obj).get KindKey = some (.string kindId) := by
      rw [get_storedObj (by decide) (by decide), hkind]
    have hsound : SoundObj env putId.toBytes (storedObj putId step.rev obj) := by
      refine ⟨⟨putId, hid, rfl, harray, hdef, hord⟩, ?_, ⟨_, getKind_builtin hfind hstoredKind⟩, ⟨_, get_storedObj_rev⟩⟩
      obtain ⟨shard, hmem, hextract⟩ := hshard
      refine ⟨shard, hmem, ?_⟩
      rw [MojDbIndex.shardOf, hid]
      exact hextract
    obtain ⟨d', hreplace, hobjs, hnext, hvalid⟩ := @MojDbData.replace_valid env d hb.plain h putId.toBytes
      (some (storedObj putId step.rev obj)) forcedel (fun new hnew => Option.some.inj hnew ▸ hsound) (by
        intro new old hnew hold
        obtain rfl := Option.some.inj hnew
        rw [getKind_builtin hfind hstoredKind, getKind_builtin hfind (hprev old hold)])
    rw [hput]
    exact ⟨d', _, hreplace, hobjs, hnext, hvalid, .inr rfl, hid⟩

def stateKey : MojDbKey := (MojObject.string DbStateObjId).toBytes

/-- The records of the table and the state object are as a purge leaves them. -/
structure Kept (env : MojDbEnv) (table : MojDbKindIndex) (d : MojDbData) : Prop where
  records : ∀ k obj, d.objs k = some obj → InTable env table obj → ∃ rev time, Record env obj rev time
  state : ∀ obj, d.objs stateKey = some obj →
    obj.get KindKey = some (.string DbStateId) ∧ obj.get DelKey = none ∧ obj.isOrdered = true

theorem valid_nextId (h : Valid env d) (nextId : Int64) : Valid env { d with nextId } := ⟨h.exact, h.sound⟩

theorem not_inTable_state (hb : Builtins env root table) {obj : MojObject} (hkind : obj.get KindKey = some (.string DbStateId)) :
    ¬InTable env table obj := by
  obtain ⟨kind, hfind, _⟩ := hb.stateKind
  obtain ⟨_, _, hfilter⟩ := hb.tableIndexes
  intro ⟨hcovers, _⟩
  rw [MojDbData.covers_of_getKind (getKind_builtin hfind hkind), decide_eq_true_eq, (kindId_of_filter hfilter).2] at hcovers
  exact hb.stateUpdates hcovers

theorem updateState_spec (hb : Builtins env root table) (h : Valid env d) (hk : Kept env table d) (args : PurgeArgs) (n : Int64) :
    ∃ d', updateState env d args LastPurgedRevKey (.int n) = .ok d' ∧ Valid env d' ∧ Kept env table d' ∧
      ∀ k, k ≠ stateKey → d'.objs k = d.objs k := by
  -- what is merged into the state object
  let obj := ((MojObject.undefined.put IdKey (.string DbStateObjId)).put KindKey (.string DbStateId)).put LastPurgedRevKey (.int n)
  have hobjKind : obj.get KindKey = some (.string DbStateId) := rfl
  have hobjDel : obj.get DelKey = none := rfl
  have hobjRev : obj.get RevKey = none := rfl
  have hobjOrd : obj.isOrdered = true := isOrdered_put (isOrdered_put (isOrdered_put rfl rfl) rfl) rfl
  have hrequested : ∃ obj', RevKinds.requested (.put ⟨true, false, false⟩ obj) (d.objs stateKey) = .ok (some obj') ∧
      obj'.get KindKey = some (.string DbStateId) ∧ obj'.get DelKey = none ∧ obj'.isOrdered = true := by
    cases hprev : d.objs stateKey with
    | none => exact ⟨obj, rfl, hobjKind, hobjDel, hobjOrd⟩
    | some prev =>
      obtain ⟨hprevKind, hprevDel, hprevOrd⟩ := hk.state prev hprev
      obtain ⟨rev, hprevRev⟩ := (h.sound stateKey prev hprev).rev
      have hget : ∀ key, (mergeInto obj prev .undefined).get key = mergeOption (obj.get key) (prev.get key) := by
        intro key
        rw [get_mergeInto hobjOrd hprevOrd]
        exact Option.or_none
      have hrev : (mergeInto obj prev .undefined).get RevKey = some (.int rev) := by
        rw [hget, hobjRev, hprevRev]
        rfl
      refine ⟨mergeInto obj prev .undefined, ?_, ?_, ?_, isOrdered_mergeInto hobjOrd hprevOrd rfl⟩
      · simp [RevKinds.requested, hrev, hprevRev]
      · rw [hget, hobjKind, hprevKind]
        rfl
      · rw [hget, hobjDel, hprevDel]
        rfl
  obtain ⟨obj', hrequested, hkind, hdel, hord⟩ := hrequested
  obtain ⟨d', stored, hrequest, hobjs, _, hvalid, hstored, _⟩ := @request_builtin env root table { d with nextId := d.nextId + 1 } hb
    (valid_nextId h _) DbStateId hb.stateKind (.string DbStateObjId) obj' ⟨.put ⟨true, false, false⟩ obj, d.nextId, args.ids⟩ true
    hrequested hkind (fun old hold => (hk.state old hold).1) rfl rfl rfl ⟨_, hb.mainShard, rfl⟩
  have hstate : stored.get KindKey = some (.string DbStateId) ∧ stored.get DelKey = none ∧ stored.isOrdered = true := by
    cases hstored with
    | inl hsame => exact hsame.1 ▸ ⟨hkind, hdel, hord⟩
    | inr hnew =>
      rw [hnew, get_storedObj (by decide) (by decide), get_storedObj (by decide) (by decide)]
      exact ⟨hkind, hdel, isOrdered_storedObj hord rfl⟩
  have hothers : ∀ k, k ≠ stateKey → d'.objs k = d.objs k := by
    intro k hne
    rw [hobjs]
    exact Function.update_of_ne hne _ _
  have hself : d'.objs stateKey = some stored := by
    rw [hobjs]
    exact Function.update_self _ _ _
  refine ⟨d', hrequest, hvalid, ⟨fun k o ho hin => ?_, fun o ho => ?_⟩, hothers⟩
  · by_cases hk' : k = stateKey
    · rw [hk', hself] at ho
      obtain rfl := Option.some.inj ho
      exact absurd hin (not_inTable_state hb hstate.1)
    · rw [hothers k hk'] at ho
      exact hk.records k o ho hin
  · rw [hself] at ho
    obtain rfl := Option.some.inj ho
    exact hstate

/-- The id of the new record, as the id generator makes it. -/
structure FreshId (d : MojDbData) (args : PurgeArgs) : Prop where
  fresh : d.objs (MojObject.string args.putId).toBytes = none
  main : MojDbIdGenerator.extractShard (.string args.putId) = .ok MojDbIdGenerator.MainShardId
  not_state : args.putId ≠ DbStateObjId

theorem recordNow_spec (hb : Builtins env root table) (h : Valid env d) (hk : Kept env table d) {args : PurgeArgs}
    (hfresh : FreshId d args) :
    ∃ d' record, recordNow env d args = .ok d' ∧
      d'.objs = Function.update d.objs (MojObject.string args.putId).toBytes (some record) ∧ Valid env d' ∧ Kept env table d' ∧
      InTable env table record ∧ Record env record d.nextId args.time := by
  have hkind : (revTimeMapping d.nextId args.time).get KindKey = some (.string RevTimestampId) := rfl
  obtain ⟨d', record, hrequest, hobjs, _, hvalid, hstored, hid⟩ :=
    @request_builtin env root table { d with nextId := d.nextId + 1 + 1 } hb (valid_nextId h _) RevTimestampId hb.tableKind
      (.string args.putId) (revTimeMapping d.nextId args.time)
      ⟨.put ⟨false, false, false⟩ (revTimeMapping d.nextId args.time), d.nextId + 1, args.ids⟩ false
      (by
        change RevKinds.requested _ (d.objs (MojObject.string args.putId).toBytes) = _
        rw [hfresh.fresh]
        rfl) hkind
      (fun old hold => absurd (hfresh.fresh.symm.trans hold) (by simp)) rfl rfl rfl ⟨_, hb.mainShard, hfresh.main⟩
  have hget : ∀ key, key ≠ IdKey → key ≠ RevKey → record.get key = (revTimeMapping d.nextId args.time).get key := by
    intro key hne hne'
    cases hstored with
    | inl hsame => rw [hsame.1]
    | inr hnew => rw [hnew, get_storedObj hne hne']
  have hactive : ¬Excluded env record := by
    intro ⟨id, hget, hcheck⟩
    rw [hid] at hget
    obtain rfl := Option.some.inj hget
    rw [MojDbIsamQuery.checkShard, hfresh.main] at hcheck
    cases hcheck
  have hrecord : Record env record d.nextId args.time :=
    ⟨hget DelKey (by decide) (by decide), hget RevNumKey (by decide) (by decide), hget TimestampKey (by decide) (by decide), hactive⟩
  obtain ⟨kind, hfind, _⟩ := hb.tableKind
  obtain ⟨_, _, hfilter⟩ := hb.tableIndexes
  have hin : InTable env table record := by
    constructor
    · rw [MojDbData.covers_of_getKind (getKind_builtin hfind (hget KindKey (by decide) (by decide) ▸ hkind)), decide_eq_true_eq,
        (kindId_of_filter hfilter).2]
      exact hb.tableUpdates
    · simp only [MojDbIndex.includeObj, hrecord.live, ite_self]
  refine ⟨d', record, hrequest, hobjs, hvalid, ⟨fun k o ho hin' => ?_, fun o ho => ?_⟩, hin, hrecord⟩
  · rw [hobjs, Function.update_apply] at ho
    split_ifs at ho with hk'
    · obtain rfl := Option.some.inj ho
      exact ⟨_, _, hrecord⟩
    · exact hk.records k o ho hin'
  · rw [hobjs, Function.update_apply] at ho
    split_ifs at ho with hk'
    · have hsame := (@toBytes_append_inj (.string DbStateObjId) (.string args.putId) rfl rfl [] [] (by
        rw [List.append_nil, List.append_nil]
        exact hk')).1
      exact absurd (MojObject.string.inj hsame).symm hfresh.not_state
    · exact hk.state o ho

/-! ## The cutoff -/

/-- A record of the table with its numbers. -/
def Recorded (env : MojDbEnv) (table : MojDbKindIndex) (d : MojDbData) (rev time : Int64) : Prop :=
  ∃ k obj, d.objs k = some obj ∧ InTable env table obj ∧ Record env obj rev time

/-- The last revision that was recorded up to a time, if there is one. -/
def IsCutoff (recorded : Int64 → Int64 → Prop) (upTo : Int) : Option (Int64 × Int64) → Prop
  | none => ∀ rev time, recorded rev time → ¬time.toInt ≤ upTo
  | some (rev, time) => recorded rev time ∧ time.toInt ≤ upTo ∧ ∀ rev' time', recorded rev' time' → time'.toInt ≤ upTo → time' ≤ time

theorem record_unique {obj : MojObject} {rev time rev' time' : Int64} (h : Record env obj rev time)
    (h' : Record env obj rev' time') : rev = rev' ∧ time = time' := by
  have hrev := h.rev.symm.trans h'.rev
  have htime := h.time.symm.trans h'.time
  exact ⟨MojObject.int.inj (Option.some.inj hrev), MojObject.int.inj (Option.some.inj htime)⟩

/-- A key of the table begins with the time. -/
theorem key_of_record (hb : Builtins env root table) {obj : MojObject} {rev time : Int64} (hrecord : Record env obj rev time)
    {key : MojDbKey} (hkey : key ∈ table.index.getKeys obj) :
    ∃ rest, key = table.index.idKey ++ ((MojObject.int time).toBytes ++ rest) := by
  obtain ⟨parts, hparts, rfl⟩ := (MojDbIndex.mem_getKeys table.index).mp hkey
  rw [hb.tableProps] at hparts
  cases hparts with
  | cons hpart hparts =>
    rw [(vals_timestampProp hrecord.time).mp hpart, List.flatten_cons]
    exact ⟨_, rfl⟩

theorem time_le_of_key_le {index : MojDbIndex} {time time' : Int64} {s t : List MojByte}
    (h : index.idKey ++ ((MojObject.int time').toBytes ++ s) ≤ index.idKey ++ ((MojObject.int time).toBytes ++ t)) : time' ≤ time := by
  rw [append_le_append_iff] at h
  by_contra hlt
  have hcompare : (MojObject.int time).compare (.int time') = .lt := by
    change cmp time time' = .lt
    rw [Int64.cmp_eq_cmp_toInt, cmp_eq_lt_iff]
    exact Int64.lt_iff_toInt_lt.mp (Int64.not_le.mp hlt)
  have hbytes := (@WhereClause.lt_toBytes_iff (.int time) (.int time') rfl rfl t).mpr hcompare
  exact absurd h (not_le.mpr (hbytes.trans_le (le_of_isPrefix (List.prefix_append _ _))))

/-- **The record found** is the last one up to the time. -/
theorem findRecord_spec (hb : Builtins env root table) (h : Valid env d) (hk : Kept env table d) (args : PurgeArgs) :
    ∃ cutoff, IsCutoff (Recorded env table d) (purgeTime args).toInt cutoff ∧
      ((cutoff = none ∧ findRecord env d args = .ok none) ∨
        ∃ rev time obj, cutoff = some (rev, time) ∧ findRecord env d args = .ok (some obj) ∧ Record env obj rev time) := by
  have hruns := runs_records hb (purgeTime args) 1 true (.inr rfl)
  have hfound : ∀ {item items}, (cursorOf table (recordsQuery (purgeTime args) 1 TimestampKey true)).get env d = .ok (item, items) →
      findRecord env d args = .ok (item.map Prod.snd) := by
    intro item items hget
    have hwhere : MojDbQuery.all.addWhere TimestampKey .opLessThanEq (.int (purgeTime args)) none =
        .ok (recordsQuery (purgeTime args) MojDbQuery.LimitDefault MojString.empty false) := rfl
    rw [findRecord, hwhere, ok_bind]
    change (findImpl env RevTimestampId (recordsQuery (purgeTime args) 1 TimestampKey true) >>= _) = _
    rw [hruns.planned.findImpl_eq, ok_bind, hget]
    rfl
  obtain ⟨hok, hrest⟩ := hruns.planned.open_rest d
  -- a record up to the time has a key to come
  have hcome : ∀ {k obj rev time}, d.objs k = some obj → InTable env table obj → Record env obj rev time →
      time.toInt ≤ (purgeTime args).toInt → ∃ key ∈ keysFrom env d table (recordsQuery (purgeTime args) 1 TimestampKey true),
        HasKey env table obj key := by
    intro k obj rev time hobj hin hrecord hle
    refine (sought_iff hb.plain hruns.planned rfl h hobj).mp ?_
    exact (sought_records hb (h.sound k obj hobj) hrecord).mpr ⟨hin, Int64.le_iff_toInt_le.mpr hle⟩
  obtain ⟨items', hget, hends⟩ | ⟨id, obj, key, q, hget, hreturned⟩ :=
    @get_cases env d hb.plain (cursorOf table (recordsQuery (purgeTime args) 1 TimestampKey true)) hruns.planned.mem h
      (cursorOf table (recordsQuery (purgeTime args) 1 TimestampKey true)).items hok (by simp [cursorOf])
  · refine ⟨none, fun rev time hrec hle => ?_, .inl ⟨rfl, hfound hget⟩⟩
    · obtain ⟨k, obj, hobj, hin, hrecord⟩ := hrec
      obtain ⟨key, hkey, _⟩ := hcome hobj hin hrecord hle
      cases hends with
      | inl hlimit => exact absurd hlimit (Nat.not_succ_le_zero 0)
      | inr hnil =>
        have hempty : keysFrom env d table (recordsQuery (purgeTime args) 1 TimestampKey true) = [] := hnil
        rw [hempty] at hkey
        cases hkey
  · have hfirst : keysFrom env d table (recordsQuery (purgeTime args) 1 TimestampKey true) = key :: _ := hreturned.rest_eq
    have hin : InTable env table obj := ⟨hreturned.hasKey.covers, hreturned.hasKey.included⟩
    obtain ⟨rev, time, hrecord⟩ := hk.records _ obj hreturned.stored hin
    have hsought := (sought_iff hb.plain hruns.planned rfl h hreturned.stored).mpr
      ⟨key, hfirst ▸ List.mem_cons_self, hreturned.hasKey⟩
    have hle := ((sought_records hb (h.sound _ obj hreturned.stored) hrecord).mp hsought).2
    refine ⟨some (rev, time), ⟨⟨_, obj, hreturned.stored, hin, hrecord⟩, Int64.le_iff_toInt_le.mp hle, ?_⟩,
      .inr ⟨rev, time, obj, rfl, hfound hget, hrecord⟩⟩
    · intro rev' time' hrec hle'
      obtain ⟨k, obj', hobj', hin', hrecord'⟩ := hrec
      obtain ⟨key', hkey', hhas'⟩ := hcome hobj' hin' hrecord' hle'
      -- descending, the first key is the greatest
      have hge : key' ≤ key := by
        have hsorted := (SortedSet.pairwise_inOrder (MojDbFind.keys env d table) false).filter fun key =>
          MojDbQueryPlan.Covered (MojDbQueryPlan.buildRanges table.index (recordsQuery (purgeTime args) 1 TimestampKey true)) key ∧
            ¬((recordsQuery (purgeTime args) 1 TimestampKey true).ignoreInactiveShards = true ∧
              (cursorOf table (recordsQuery (purgeTime args) 1 TimestampKey true)).inactive env key = true)
        have hlist := hrest.symm.trans hfirst
        rw [show (!(recordsQuery (purgeTime args) 1 TimestampKey true).desc) = false from rfl] at hlist
        rw [hlist] at hsorted
        rw [hfirst] at hkey'
        cases List.mem_cons.mp hkey' with
        | inl hsame => exact le_of_eq hsame
        | inr htail => exact le_of_lt (CursorPos.key_lt_key.mp ((List.pairwise_cons.mp hsorted).1 key' htail))
      obtain ⟨s, rfl⟩ := key_of_record hb hrecord hreturned.hasKey.mem
      obtain ⟨s', rfl⟩ := key_of_record hb hrecord' hhas'.mem
      exact time_le_of_key_le hge

/-! ## One batch -/

theorem Kept.of_removal (hk : Kept env table d) {d' : MojDbData} {removed : List MojDbKey} (h : Removal env d d' removed) :
    Kept env table d' :=
  ⟨fun k obj hobj hin => hk.records k obj (h.of_objs hobj) hin, fun obj hobj => hk.state obj (h.of_objs hobj)⟩

theorem not_flagged_of_live {obj : MojObject} (hlive : obj.get DelKey = none) {sync : Bool} {n : Int64} :
    ¬Flagged env sync n obj := by
  intro hflagged
  have hdel := hflagged.deleted
  rw [HasVal, hlive] at hdel
  cases hdel

/-- Flagged objects are removed, and records of the table up to a time. -/
structure Purges (env : MojDbEnv) (table : MojDbKindIndex) (n time : Int64) (d d' : MojDbData) (removed : List MojDbKey) : Prop where
  valid : Valid env d'
  kept : Kept env table d'
  flagged : ∀ k ∈ removed, ∃ obj sync, d.objs k = some obj ∧ Flagged env sync n obj
  ne_state : ∀ k ∈ removed, k ≠ stateKey
  gone : ∀ k ∈ removed, d'.objs k = none
  others : ∀ k obj, k ∉ removed → k ≠ stateKey → d.objs k = some obj → d'.objs k = some obj ∨
    d'.objs k = none ∧ InTable env table obj ∧ ∃ rev t, Record env obj rev t ∧ t ≤ time
  absent : ∀ k, k ≠ stateKey → d.objs k = none → d'.objs k = none

/-- Every flagged object is among them. -/
def RemovesAll (env : MojDbEnv) (n : Int64) (d : MojDbData) (removed : List MojDbKey) : Prop :=
  ∀ k obj sync, d.objs k = some obj → Flagged env sync n obj → k ∈ removed

theorem Purges.of_objs {n time : Int64} {d' : MojDbData} {removed : List MojDbKey} (h : Purges env table n time d d' removed)
    {k : MojDbKey} {obj : MojObject} (hne : k ≠ stateKey) (hobj : d'.objs k = some obj) : d.objs k = some obj ∧ k ∉ removed := by
  have hnot : k ∉ removed := by
    intro hk
    rw [h.gone k hk] at hobj
    cases hobj
  refine ⟨?_, hnot⟩
  cases hold : d.objs k with
  | none =>
    rw [h.absent k hne hold] at hobj
    cases hobj
  | some old =>
    cases h.others k old hnot hne hold with
    | inl hsame => exact hsame.symm.trans hobj
    | inr hrecord =>
      rw [hrecord.1] at hobj
      cases hobj

theorem purges_trans {n time : Int64} {d₁ d₂ : MojDbData} {removed removed' : List MojDbKey}
    (h : Purges env table n time d d₁ removed) (h' : Purges env table n time d₁ d₂ removed') :
    Purges env table n time d d₂ (removed ++ removed') where
  valid := h'.valid
  kept := h'.kept
  flagged k hk := by
    cases List.mem_append.mp hk with
    | inl hk => exact h.flagged k hk
    | inr hk =>
      obtain ⟨obj, sync, hobj, hflagged⟩ := h'.flagged k hk
      exact ⟨obj, sync, (h.of_objs (h'.ne_state k hk) hobj).1, hflagged⟩
  ne_state k hk := (List.mem_append.mp hk).elim (h.ne_state k) (h'.ne_state k)
  gone k hk := by
    cases List.mem_append.mp hk with
    | inl hk => exact h'.absent k (h.ne_state k hk) (h.gone k hk)
    | inr hk => exact h'.gone k hk
  others k obj hk hne hobj := by
    rw [List.mem_append, not_or] at hk
    cases h.others k obj hk.1 hne hobj with
    | inl hsame => exact h'.others k obj hk.2 hne hsame
    | inr hrecord => exact .inr ⟨h'.absent k hne hrecord.1, hrecord.2⟩
  absent k hne hnone := h'.absent k hne (h.absent k hne hnone)

/-- One pass removes its tombstones, no more than its limit. -/
theorem delImpl_tombstones (hb : Builtins env root table) (h : Valid env d) (sync : Bool) (n : Int64) {limit : Nat}
    (hlimit : limit ≤ AutoBatchSize) :
    ∃ d' removed, delImpl env purgeMode d RootKindId (tombstonesQuery sync n limit) = .ok (d', removed.length) ∧ Removal env d d' removed ∧
      removed.length ≤ limit ∧ (∀ k ∈ removed, ∃ obj, d.objs k = some obj ∧ Flagged env sync n obj) ∧
      (removed.length < limit → ∀ k obj, d.objs k = some obj → Flagged env sync n obj → k ∈ removed) := by
  have hne : (tombstonesQuery sync n limit).limit ≠ MojDbQuery.LimitDefault := by
    change limit ≠ 4294967295
    rw [AutoBatchSize] at hlimit
    omega
  obtain ⟨d', removed, hdel, hculls⟩ := delImpl_culls hb.plain purges_purgeMode (runs_tombstones hb sync n limit) h hne
  refine ⟨d', removed, hdel, hculls.toRemoval, hculls.within, fun k hk => ?_, fun hlt k obj hobj hflagged => ?_⟩
  · obtain ⟨obj, hobj, hsought⟩ := hculls.sought k hk
    exact ⟨obj, hobj, (sought_tombstones hb (h.sound k obj hobj)).mp hsought⟩
  · exact hculls.all hlt k obj hobj ((sought_tombstones hb (h.sound k obj hobj)).mpr hflagged)

/-- The second pass, which has what the first has left of the batch. -/
theorem secondPass (hb : Builtins env root table) (h : Valid env d) (n : Int64) {backupCount : Nat} :
    ∃ d' removed, (if AutoBatchSize - backupCount > 0 then
        delImpl env purgeMode d RootKindId { tombstonesQuery false n MojDbQuery.LimitDefault with limit := AutoBatchSize - backupCount }
      else .ok (d, 0)) = .ok (d', removed.length) ∧ Removal env d d' removed ∧
      removed.length ≤ AutoBatchSize - backupCount ∧ (∀ k ∈ removed, ∃ obj, d.objs k = some obj ∧ Flagged env false n obj) ∧
      (removed.length < AutoBatchSize - backupCount → ∀ k obj, d.objs k = some obj → Flagged env false n obj → k ∈ removed) := by
  split_ifs with hremain
  · exact delImpl_tombstones hb h false n (Nat.sub_le _ _)
  · exact ⟨d, [], rfl, removal_refl h, Nat.zero_le _, by simp, fun hlt => absurd (Nat.lt_of_le_of_lt (Nat.zero_le _) hlt) hremain⟩

/-- **One batch.** If it is not full, no flagged object is left. -/
theorem purgeImpl_purges (hb : Builtins env root table) (h : Valid env d) (hk : Kept env table d) (args : PurgeArgs)
    {obj : MojObject} {n time : Int64} (hrecord : Record env obj n time) :
    ∃ d' removed, purgeImpl env d args obj = .ok (d', removed.length) ∧ Purges env table n time d d' removed ∧
      (removed.length < AutoBatchSize → RemovesAll env n d removed) := by
  obtain ⟨d₁, removed₁, hdel₁, hremoval₁, hlen₁, hflagged₁, hall₁⟩ := delImpl_tombstones hb h true n (le_refl AutoBatchSize)
  obtain ⟨d₂, removed₂, hdel₂, hremoval₂, hlen₂, hflagged₂, hall₂⟩ :=
    @secondPass env root table d₁ hb hremoval₁.valid n removed₁.length
  have hremoval := removal_trans hremoval₁ hremoval₂
  have hk₂ : Kept env table d₂ := hk.of_removal hremoval
  -- the state object is written only after something was deleted
  have hupdate : ∃ d₃, (if removed₂.length + removed₁.length > 0 then updateState env d₂ args LastPurgedRevKey (.int n) else .ok d₂) =
      .ok d₃ ∧ Valid env d₃ ∧ Kept env table d₃ ∧ ∀ k, k ≠ stateKey → d₃.objs k = d₂.objs k := by
    split_ifs
    · exact updateState_spec hb hremoval₂.valid hk₂ args n
    · exact ⟨d₂, rfl, hremoval₂.valid, hk₂, fun _ _ => rfl⟩
  obtain ⟨d₃, hstate, hvalid₃, hk₃, hothers₃⟩ := hupdate
  obtain ⟨d₄, removed₃, hdel₄, hremoval₄, hsought⟩ :=
    delImpl_removal hb.plain purges_purgeMode (runs_records hb time MojDbQuery.LimitDefault false (.inl rfl)) hvalid₃
  have hrecords : ∀ k ∈ removed₃, ∃ o rev t, d₃.objs k = some o ∧ InTable env table o ∧ Record env o rev t ∧ t ≤ time := by
    intro k hmem
    obtain ⟨o, ho, hs⟩ := hsought k hmem
    obtain ⟨rev, t, hr⟩ := hk₃.records k o ho ⟨hs.covers, hs.keyOf.1⟩
    obtain ⟨hin, hle⟩ := (sought_records hb (hvalid₃.sound k o ho) hr).mp hs
    exact ⟨o, rev, t, ho, hin, hr, hle⟩
  have hflagged : ∀ k ∈ removed₁ ++ removed₂, ∃ o sync, d.objs k = some o ∧ Flagged env sync n o := by
    intro k hmem
    cases List.mem_append.mp hmem with
    | inl hmem =>
      obtain ⟨o, ho, hf⟩ := hflagged₁ k hmem
      exact ⟨o, true, ho, hf⟩
    | inr hmem =>
      obtain ⟨o, ho, hf⟩ := hflagged₂ k hmem
      exact ⟨o, false, hremoval₁.of_objs ho, hf⟩
  have hne : ∀ k ∈ removed₁ ++ removed₂, k ≠ stateKey := by
    intro k hmem he
    obtain ⟨o, sync, ho, hf⟩ := hflagged k hmem
    rw [he] at ho
    exact not_flagged_of_live (hk.state o ho).2.1 hf
  refine ⟨d₄, removed₁ ++ removed₂, ?_, ⟨hremoval₄.valid, hk₃.of_removal hremoval₄, hflagged, hne, fun k hmem => ?_,
    fun k o hnot hstateKey ho => ?_, fun k hstateKey hnone => ?_⟩, fun hlt k o sync ho hf => ?_⟩
  · rw [purgeImpl, getRequired, hrecord.rev, ok_bind, getRequired, hrecord.time, ok_bind, tombstones_eq, ok_bind]
    change (delImpl env purgeMode d RootKindId (tombstonesQuery true n AutoBatchSize) >>= _) = _
    rw [hdel₁, ok_bind]
    dsimp only
    rw [tombstones_eq, ok_bind, if_pos hlen₁, hdel₂, ok_bind]
    dsimp only
    rw [hstate, ok_bind, recordsTo_eq, ok_bind, hdel₄, ok_bind, List.length_append, Nat.add_comm removed₁.length]
    rfl
  · have hnone : d₃.objs k = none := by
      rw [hothers₃ k (hne k hmem), hremoval.objs, if_pos hmem]
    rw [hremoval₄.objs, hnone, ite_self]
  · have hsame : d₃.objs k = some o := by
      rw [hothers₃ k hstateKey, hremoval.objs, if_neg hnot, ho]
    rw [hremoval₄.objs, hsame]
    split_ifs with hmem
    · obtain ⟨o', rev, t, ho', hin, hr, hle⟩ := hrecords k hmem
      rw [hsame] at ho'
      obtain rfl := Option.some.inj ho'
      exact .inr ⟨rfl, hin, rev, t, hr, hle⟩
    · exact .inl rfl
  · have hnone₃ : d₃.objs k = none := by
      rw [hothers₃ k hstateKey, hremoval.objs, hnone, ite_self]
    rw [hremoval₄.objs, hnone₃, ite_self]
  · rw [List.length_append] at hlt
    cases sync with
    | true => exact List.mem_append_left _ (hall₁ (by omega) k o ho hf)
    | false =>
      by_cases hmem : k ∈ removed₁
      · exact List.mem_append_left _ hmem
      · have ho₁ : d₁.objs k = some o := by
          rw [hremoval₁.objs, if_neg hmem, ho]
        exact List.mem_append_right _ (hall₂ (by omega) k o ho₁ hf)

/-! ## All batches -/

/-- There are finitely many flagged objects: each has a key in the index. -/
theorem exists_flagged_keys (hb : Builtins env root table) (h : Valid env d) (n : Int64) :
    ∃ s : Finset MojDbKey, ∀ k obj sync, d.objs k = some obj → Flagged env sync n obj → k ∈ s := by
  let idOf : MojDbKey → MojDbKey := fun key =>
    match MojDbIsamQuery.parseId root.index.idIndex key with
    | .ok id => id.toBytes
    | .error _ => []
  refine ⟨((MojDbFind.keys env d root).elems.map idOf).toFinset, fun k obj sync hobj hflagged => ?_⟩
  have hruns := runs_tombstones hb sync n 0
  obtain ⟨key, _, hhas⟩ := (sought_iff hb.plain hruns.planned rfl h hobj).mp ((sought_tombstones hb (h.sound k obj hobj)).mpr hflagged)
  obtain ⟨id, hparse, _, hbytes⟩ := parseId_of_hasKey hb.plain h hruns.planned.mem hobj hhas
  rw [List.mem_toFinset, List.mem_map]
  refine ⟨key, (mem_keys h hruns.planned.mem).mpr ⟨k, obj, hobj, hhas⟩, ?_⟩
  simp only [idOf, hparse, hbytes]

/-- **Batch after batch**: a full batch leaves fewer flagged objects. -/
theorem purgeLoop_purges (hb : Builtins env root table) (args : PurgeArgs) {obj : MojObject} {n time : Int64}
    (hrecord : Record env obj n time) {m : Nat} (h : Valid env d) (hk : Kept env table d) {s : Finset MojDbKey}
    (hs : ∀ k obj sync, d.objs k = some obj → Flagged env sync n obj → k ∈ s) (hm : s.card < m) :
    ∃ d' removed, (∀ fuel, m ≤ fuel → ∀ total, purgeLoop env args obj fuel d total = .ok (some (d', total + removed.length))) ∧
      Purges env table n time d d' removed ∧ RemovesAll env n d removed := by
  induction m generalizing d s with
  | zero => exact absurd hm (Nat.not_lt_zero _)
  | succ m ih =>
    obtain ⟨d₁, removed, himpl, hpurges, hall⟩ := purgeImpl_purges hb h hk args hrecord
    by_cases hfull : removed.length < AutoBatchSize
    · refine ⟨d₁, removed, fun fuel hfuel total => ?_, hpurges, hall hfull⟩
      obtain ⟨fuel, rfl⟩ : ∃ f, fuel = f + 1 := ⟨fuel - 1, by omega⟩
      rw [purgeLoop, himpl, ok_bind]
      dsimp only
      rw [if_pos hfull]
    · have hne : removed ≠ [] := by
        intro hnil
        rw [hnil] at hfull
        exact hfull (by decide)
      obtain ⟨k, hmem⟩ := List.exists_mem_of_ne_nil removed hne
      obtain ⟨o, sync, ho, hf⟩ := hpurges.flagged k hmem
      have hcard : (s \ removed.toFinset).card < m := by
        have hlt : (s \ removed.toFinset).card < s.card := by
          refine Finset.card_lt_card (Finset.ssubset_iff_subset_ne.mpr ⟨Finset.sdiff_subset, fun he => ?_⟩)
          have hin := hs k o sync ho hf
          rw [← he, Finset.mem_sdiff, List.mem_toFinset] at hin
          exact hin.2 hmem
        omega
      have hs₁ : ∀ k obj sync, d₁.objs k = some obj → Flagged env sync n obj → k ∈ s \ removed.toFinset := by
        intro k o sync ho hf
        have hstateKey : k ≠ stateKey := by
          intro he
          rw [he] at ho
          exact not_flagged_of_live (hpurges.kept.state o ho).2.1 hf
        obtain ⟨hold, hnot⟩ := hpurges.of_objs hstateKey ho
        rw [Finset.mem_sdiff, List.mem_toFinset]
        exact ⟨hs k o sync hold hf, hnot⟩
      obtain ⟨d', removed', hloop, hpurges', hall'⟩ := ih hpurges.valid hpurges.kept hs₁ hcard
      refine ⟨d', removed ++ removed', fun fuel hfuel total => ?_, purges_trans hpurges hpurges', fun k o sync ho hf => ?_⟩
      · obtain ⟨fuel, rfl⟩ : ∃ f, fuel = f + 1 := ⟨fuel - 1, by omega⟩
        rw [purgeLoop, himpl, ok_bind]
        dsimp only
        rw [if_neg hfull, hloop fuel (by omega), List.length_append, Nat.add_assoc]
      · by_cases hmem' : k ∈ removed
        · exact List.mem_append_left _ hmem'
        · have hstateKey : k ≠ stateKey := by
            intro he
            rw [he] at ho
            exact not_flagged_of_live (hk.state o ho).2.1 hf
          cases hpurges.others k o hmem' hstateKey ho with
          | inl hsame => exact List.mem_append_right _ (hall' k o sync hsame hf)
          | inr hgone =>
            -- a flagged object is no live record
            obtain ⟨_, _, _, _, hr, _⟩ := hgone
            exact absurd hf (not_flagged_of_live hr.live)

/-! ## The purge -/

/-- The records of the table, with the one that the purge puts. -/
def RecordedNow (env : MojDbEnv) (table : MojDbKindIndex) (d : MojDbData) (args : PurgeArgs) (rev time : Int64) : Prop :=
  Recorded env table d rev time ∨ rev = d.nextId ∧ time = args.time

/-- The time that many days ago. -/
def daysAgo (args : PurgeArgs) : Int := args.time.toInt - UnitsPerDay.toInt * (windowOf args).toInt

/-- Objects other than the live records of the table and the state object. -/
def Ordinary (env : MojDbEnv) (table : MojDbKindIndex) (k : MojDbKey) (obj : MojObject) : Prop :=
  ¬InTable env table obj ∧ k ≠ stateKey

/-- One of the passes asks for the object. -/
def FlaggedTo (env : MojDbEnv) (cutoff : Option (Int64 × Int64)) (obj : MojObject) : Prop :=
  ∃ c ∈ cutoff, ∃ sync, Flagged env sync c.1 obj

/-- Deleted with a revision up to the cutoff. -/
def DeletedTo (cutoff : Option (Int64 × Int64)) (obj : MojObject) : Prop :=
  ∃ c ∈ cutoff, obj.isDeleted = true ∧ UpTo obj RevKey c.1

/-- What a purge leaves of the objects. -/
structure Leaves (env : MojDbEnv) (table : MojDbKindIndex) (gone : MojObject → Prop) (cutoff : Option (Int64 × Int64))
    (d d' : MojDbData) : Prop where
  removed : ∀ k obj, d.objs k = some obj → Ordinary env table k obj → gone obj → d'.objs k = none
  stays : ∀ k obj, d.objs k = some obj → Ordinary env table k obj → ¬gone obj → d'.objs k = some obj
  records : ∀ k obj rev time, d.objs k = some obj → InTable env table obj → Record env obj rev time →
    (∀ c ∈ cutoff, c.2 < time) → d'.objs k = some obj

theorem recorded_put {d₁ : MojDbData} {args : PurgeArgs} {record : MojObject} (hfresh : FreshId d args)
    (hobjs : d₁.objs = Function.update d.objs (MojObject.string args.putId).toBytes (some record))
    (hin : InTable env table record) (hrecord : Record env record d.nextId args.time) (rev time : Int64) :
    Recorded env table d₁ rev time ↔ RecordedNow env table d args rev time := by
  constructor
  · intro ⟨k, obj, hobj, hin', hr⟩
    rw [hobjs, Function.update_apply] at hobj
    split_ifs at hobj with hk
    · obtain rfl := Option.some.inj hobj
      exact .inr (record_unique hr hrecord)
    · exact .inl ⟨k, obj, hobj, hin', hr⟩
  · intro h
    cases h with
    | inl h =>
      obtain ⟨k, obj, hobj, hin', hr⟩ := h
      refine ⟨k, obj, ?_, hin', hr⟩
      rw [hobjs, Function.update_of_ne]
      · exact hobj
      · intro hk
        rw [hk, hfresh.fresh] at hobj
        cases hobj
    | inr h =>
      obtain ⟨rfl, rfl⟩ := h
      exact ⟨_, record, by rw [hobjs, Function.update_self], hin, hrecord⟩

/-- **What a purge leaves** of what is deleted, for enough fuel: the objects its passes ask for are gone, and no others. -/
theorem purgeDeleted_leaves (hb : Builtins env root table) (h : Valid env d) (hk : Kept env table d) {args : PurgeArgs}
    (hfresh : FreshId d args) (hfits : (purgeTime args).toInt = daysAgo args) :
    ∃ cutoff, IsCutoff (RecordedNow env table d args) (daysAgo args) cutoff ∧ ∃ fuel₀ d' count,
      (∀ fuel, fuel₀ ≤ fuel → purgeDeleted env fuel d args = .ok (some (d', count))) ∧ Valid env d' ∧ Kept env table d' ∧
        Leaves env table (FlaggedTo env cutoff) cutoff d d' := by
  obtain ⟨d₁, record, hrecordNow, hobjs, hvalid₁, hk₁, hin, hrecord⟩ := recordNow_spec hb h hk hfresh
  obtain ⟨cutoff, hcutoff, hfind⟩ := findRecord_spec hb hvalid₁ hk₁ args
  have hold : ∀ {k obj}, d.objs k = some obj → d₁.objs k = some obj := by
    intro k obj hobj
    rw [hobjs, Function.update_of_ne]
    · exact hobj
    · intro hk
      rw [hk, hfresh.fresh] at hobj
      cases hobj
  have hcutoff' : IsCutoff (RecordedNow env table d args) (daysAgo args) cutoff := by
    have hsame : Recorded env table d₁ = RecordedNow env table d args :=
      funext₂ fun rev time => propext (recorded_put hfresh hobjs hin hrecord rev time)
    rwa [← hsame, ← hfits]
  refine ⟨cutoff, hcutoff', ?_⟩
  have hunfold : ∀ fuel, purgeDeleted env fuel d args = findRecord env d₁ args >>= purgeFrom env args fuel d₁ := by
    intro fuel
    rw [purgeDeleted, hrecordNow]
    rfl
  obtain ⟨rfl, hnone⟩ | ⟨rev, time, obj, rfl, hsome, hfound⟩ := hfind
  · refine ⟨0, d₁, 0, fun fuel _ => ?_, hvalid₁, hk₁, fun k o _ _ hgone => ?_, fun k o ho _ _ => hold ho,
      fun k o _ _ ho _ _ _ => hold ho⟩
    · rw [hunfold, hnone]
      rfl
    · obtain ⟨c, hc, _⟩ := hgone
      cases hc
  · obtain ⟨s, hs⟩ := exists_flagged_keys hb hvalid₁ rev
    obtain ⟨d', removed, hloop, hpurges, hall⟩ := purgeLoop_purges hb args hfound hvalid₁ hk₁ hs (Nat.lt_succ_self s.card)
    have hnotState : ∀ {k o rev' time'}, InTable env table o → d₁.objs k = some o → Record env o rev' time' → k ≠ stateKey := by
      intro k o rev' time' hin' ho _ he
      rw [he] at ho
      exact not_inTable_state hb (hk₁.state o ho).1 hin'
    refine ⟨s.card + 1, d', 0 + removed.length, fun fuel hfuel => ?_, hpurges.valid, hpurges.kept, fun k o ho hord hgone => ?_,
      fun k o ho hord hstays => ?_, fun k o rev' time' ho hin' hr hafter => ?_⟩
    · rw [hunfold, hsome]
      exact hloop fuel hfuel 0
    · obtain ⟨c, hc, sync, hf⟩ := hgone
      obtain rfl := Option.some.inj hc
      exact hpurges.gone k (hall k o sync (hold ho) hf)
    · have hnot : k ∉ removed := by
        intro hmem
        obtain ⟨o', sync, ho', hf⟩ := hpurges.flagged k hmem
        rw [hold ho] at ho'
        obtain rfl := Option.some.inj ho'
        exact hstays ⟨_, rfl, sync, hf⟩
      cases hpurges.others k o hnot hord.2 (hold ho) with
      | inl hsame => exact hsame
      | inr hrec => exact absurd hrec.2.1 hord.1
    · have hne := hnotState hin' (hold ho) hr
      have hnot : k ∉ removed := by
        intro hmem
        obtain ⟨o', sync, ho', hf⟩ := hpurges.flagged k hmem
        rw [hold ho] at ho'
        obtain rfl := Option.some.inj ho'
        exact not_flagged_of_live hr.live hf
      cases hpurges.others k o hnot hne (hold ho) with
      | inl hsame => exact hsame
      | inr hrec =>
        obtain ⟨_, _, rev'', time'', hr'', hle⟩ := hrec
        obtain ⟨_, rfl⟩ := record_unique hr hr''
        exact absurd hle (Int64.not_le.mpr (hafter _ rfl))

/-! ### A store with one tombstone -/

/-- `K:2`, which has no indexes of its own. -/
def purgeKindId : MojString := ⟨[75, 58, 50], by decide⟩

def plainKind : RevKind := ⟨[], [], false, false⟩

def purgeText : MojDbText := ⟨fun _ s => s, fun s => [s]⟩

theorem nodup_idIndex : (MojDbIndex.propNames [delProp, idProp]).Nodup := by decide

/-- The index on `_id` that each kind has. -/
def idIndexOf (id : Int64) : MojDbIndex where
  id
  text := purgeText
  includeDeleted := true
  ready := true
  props := [delProp, idProp]
  names_nodup := nodup_idIndex
  id_mem := List.mem_cons_of_mem _ List.mem_cons_self
  del_front := fun _ => rfl

/-- `_sync_revIncDel` -/
def syncRevIndex : MojDbIndex where
  id := 2
  text := purgeText
  includeDeleted := true
  ready := true
  props := [delProp, syncProp, plainProp RevKey revKey_split_ne_nil, idProp]
  names_nodup := by decide
  id_mem := by decide
  del_front := fun _ => rfl

/-- `timestamp` -/
def timestampIndex : MojDbIndex where
  id := 4
  text := purgeText
  includeDeleted := false
  ready := true
  props := [plainProp TimestampKey timestampKey_split_ne_nil, idProp]
  names_nodup := by decide
  id_mem := by decide
  del_front := by decide

/-- `Timestamp`, of `ShardInfo1:1`. -/
def shardTimestampIndex : MojDbIndex := { timestampIndex with id := 6 }

/-- A shard on a medium that is not there. -/
def absentShard : ShardInfoObj := ⟨8, false, false, .empty, .empty, .empty, .empty, .empty, .empty, 0, .empty, .empty⟩

def purgeKinds : RevKinds :=
  ⟨purgeText, [(RootKindId, plainKind), (RevTimestampId, plainKind), (DbStateId, plainKind), (ShardInfoId, plainKind),
    (purgeKindId, plainKind)], by decide⟩

def purgeEnv : MojDbEnv where
  kinds := purgeKinds
  updates := fun kindId => [kindId, RootKindId]
  indexes := [⟨RootKindId, idIndexOf 1⟩, ⟨RootKindId, syncRevIndex⟩, ⟨RevTimestampId, idIndexOf 3⟩, ⟨RevTimestampId, timestampIndex⟩,
    ⟨ShardInfoId, idIndexOf 5⟩, ⟨ShardInfoId, shardTimestampIndex⟩]
  shards := [MojDbIdGenerator.MainShardId, 8]
  shardEngine := ⟨[absentShard], none, SortedMap.empty.insert 8 absentShard⟩
  engine := .sandwich
  ids_nodup := by decide

theorem builtins_purgeEnv : Builtins purgeEnv ⟨RootKindId, syncRevIndex⟩ ⟨RevTimestampId, timestampIndex⟩ where
  plain := by
    intro ki hki
    have hid : idProp ∈ ki.index.props := by
      simp only [purgeEnv, List.mem_cons, List.not_mem_nil, or_false] at hki
      obtain rfl | rfl | rfl | rfl | rfl | rfl := hki
      all_goals simp [idIndexOf, syncRevIndex, timestampIndex, shardTimestampIndex]
    exact ⟨_, hid, rfl, rfl, rfl⟩
  mainShard := List.mem_cons_self
  rootKind := ⟨plainKind, rfl, rfl, rfl, rfl⟩
  tableKind := ⟨plainKind, rfl, rfl, rfl, rfl⟩
  stateKind := ⟨plainKind, rfl, rfl, rfl, rfl⟩
  supers _ _ := List.mem_cons_of_mem _ List.mem_cons_self
  tableUpdates := List.mem_cons_self
  stateUpdates := by decide
  rootIndexes := ⟨⟨RootKindId, idIndexOf 1⟩, rfl, rfl⟩
  rootProps := rfl
  rootDeleted := rfl
  rootReady := rfl
  tableIndexes := ⟨⟨RevTimestampId, idIndexOf 3⟩, rfl, rfl⟩
  tableProps := rfl
  tableDeleted := rfl
  tableReady := rfl

/-- Nothing is stored. -/
def emptyData : MojDbData := ⟨fun _ => none, fun _ _ => .empty, 10⟩

theorem valid_emptyData : Valid purgeEnv emptyData := by
  refine ⟨fun ki _ shard key => ?_, fun _ _ h => by cases h⟩
  constructor
  · intro h
    exact absurd h (SortedSet.not_mem_empty key)
  · intro ⟨_, _, h, _⟩
    cases h

/-- An object of `K:2`, deleted with revision 5. -/
def tombstone (id : MojString) : MojObject :=
  .object [(DelKey, .bool true), (IdKey, .string id), (KindKey, .string purgeKindId), (RevKey, .int 5)]

theorem exists_tombstone {id : MojString} {shard : MojDbShardId} (hmem : shard ∈ purgeEnv.shards)
    (hshard : MojDbIdGenerator.extractShard (.string id) = .ok shard) :
    ∃ d, d.objs = Function.update emptyData.objs (MojObject.string id).toBytes (some (tombstone id)) ∧ d.nextId = 10 ∧
      Valid purgeEnv d := by
  obtain ⟨d, _, hobjs, hnext, hvalid⟩ := @MojDbData.replace_valid purgeEnv emptyData builtins_purgeEnv.plain valid_emptyData
    (MojObject.string id).toBytes (some (tombstone id)) false (fun new hnew => by
      obtain rfl := Option.some.inj hnew
      refine ⟨⟨.string id, rfl, rfl, rfl, rfl, rfl⟩, ⟨shard, hmem, hshard⟩, ⟨(purgeKindId, plainKind), rfl⟩, ⟨5, rfl⟩⟩)
    (fun _ _ _ hold => by cases hold)
  exact ⟨d, hobjs, hnext, hvalid⟩

/-- `tomb` -/
def tombstoneId : MojString := ⟨[116, 111, 109, 98], by decide⟩

/-- An id of the shard that is not there. -/
def absentShardId : MojString := ⟨[43, 43, 43, 43, 49, 43, 43, 43, 43, 43, 43, 43, 43, 43, 43, 43], by decide⟩

/-- A purge of what is deleted now. -/
def purgeNow : PurgeArgs :=
  ⟨true, 14, 0, 1000, 1000, fun _ => false, ⟨[110, 101, 119], by decide⟩, fun _ => MojString.empty⟩

theorem stored_tombstone {id : MojString} {d : MojDbData}
    (hobjs : d.objs = Function.update emptyData.objs (MojObject.string id).toBytes (some (tombstone id))) {k : MojDbKey} {obj : MojObject}
    (hobj : d.objs k = some obj) : k = (MojObject.string id).toBytes ∧ obj = tombstone id := by
  rw [hobjs, Function.update_apply] at hobj
  split_ifs at hobj with hk
  · exact ⟨hk, (Option.some.inj hobj).symm⟩
  · cases hobj

theorem not_inTable_tombstone (id : MojString) : ¬InTable purgeEnv ⟨RevTimestampId, timestampIndex⟩ (tombstone id) := by
  intro ⟨hcovers, _⟩
  rw [@MojDbData.covers_of_getKind purgeEnv _ (tombstone id) (purgeKindId, plainKind) rfl] at hcovers
  cases hcovers

theorem kept_tombstone {id : MojString} (hid : id ≠ DbStateObjId) {d : MojDbData}
    (hobjs : d.objs = Function.update emptyData.objs (MojObject.string id).toBytes (some (tombstone id))) :
    Kept purgeEnv ⟨RevTimestampId, timestampIndex⟩ d := by
  refine ⟨fun k obj hobj hin => ?_, fun obj hobj => ?_⟩
  · obtain ⟨_, rfl⟩ := stored_tombstone hobjs hobj
    exact absurd hin (not_inTable_tombstone id)
  · obtain ⟨hk, _⟩ := stored_tombstone hobjs hobj
    have hsame := (@toBytes_append_inj (.string DbStateObjId) (.string id) rfl rfl [] [] (by
      rw [List.append_nil, List.append_nil]
      exact hk)).1
    exact absurd (MojObject.string.inj hsame).symm hid

theorem freshId_tombstone {id : MojString} (hid : id ≠ purgeNow.putId) {d : MojDbData}
    (hobjs : d.objs = Function.update emptyData.objs (MojObject.string id).toBytes (some (tombstone id))) : FreshId d purgeNow := by
  refine ⟨?_, rfl, by decide⟩
  cases hobj : d.objs (MojObject.string purgeNow.putId).toBytes with
  | none => rfl
  | some obj =>
    obtain ⟨hk, _⟩ := stored_tombstone hobjs hobj
    have hsame := (@toBytes_append_inj (.string purgeNow.putId) (.string id) rfl rfl [] [] (by
      rw [List.append_nil, List.append_nil]
      exact hk)).1
    exact absurd (MojObject.string.inj hsame).symm hid

end MojDb

end Db8
