import Db8.Db.MojDbKindGraphDb
import Db8.Db.MojDbPurgeSpec

/-!
# Db.MojDbDataRun

Runs of puts, merges, deletions and purges of objects of any kinds, with all indexes of the database.

* `write_valid`    — an object is written, also over one of another kind.
* `request_spec`   — a request keeps the indexes as they should be, or throws and changes nothing.
* `delBatches_culls` — a deletion by query, batch after batch.
* `updateIndexes`  — the kinds that an object is indexed for: its kind and all above it, each once.
* `indexes_of_run` — after any run each index has the keys of the objects of its kind and of the kinds below it.
* `culls_of_run`   — after any run a deletion by query removes what the query asks for, up to its limit.
-/

namespace Db8

open Lib MojObject MojDb MojDbIdGenerator
open KindGraph (Settled)
open MojDbIndex (Holds shardOf)
open MojDbQuotaEngine (RootKindId)

namespace MojDbData

variable {env : MojDbEnv} {d : MojDbData}

/-- The indexes have the keys of the object that is written, and those they had of the others. -/
theorem valid_update (h : Valid env d) {idKey : MojDbKey} {newObj : Option MojObject}
    (hsound : ∀ new, newObj = some new → SoundObj env idKey new) {contents : Int64 → IndexStore}
    (hexact : ∀ ki ∈ env.indexes,
      (KindStore.mk (Function.update (d.view env ki).objs idKey (newObj.filter (env.covers ki)))
        (contents ki.index.id)).Exact ki.index) :
    Valid env { d with objs := Function.update d.objs idKey newObj, contents } := by
  refine ⟨fun ki hki => ?_, fun k obj hobj => ?_⟩
  · have hview := hexact ki hki
    rw [← view_replace] at hview
    exact hview
  · by_cases hk : k = idKey
    · subst hk
      refine hsound obj ?_
      simpa using hobj
    · refine h.sound k obj ?_
      simpa [Function.update_of_ne hk] using hobj

theorem kindsOf_none (kindIds : List MojString) : KindsOf env kindIds none := fun _ ho => by cases ho

theorem kindsOf_some {obj : MojObject} {kind : MojString × RevKind} (h : env.kinds.getKind obj = .ok kind) :
    KindsOf env (env.updates kind.1) (some obj) := by
  intro o ho ki
  obtain rfl := Option.some.inj ho
  exact covers_of_getKind h

/-- An object is written over one of another kind: it leaves the indexes of the old kind, then comes to those of the
new one. -/
theorem replace_valid_of_ne (hplain : ∀ ki ∈ env.indexes, ki.index.PlainId) (h : Valid env d) {idKey : MojDbKey}
    (forcedel : Bool) {new old : MojObject} (hsound : SoundObj env idKey new) (hold : d.objs idKey = some old)
    {kind oldKind : MojString × RevKind} (hgetKind : env.kinds.getKind new = .ok kind)
    (hgetOld : env.kinds.getKind old = .ok oldKind) (hne : oldKind.1 ≠ kind.1) :
    ∃ d', d.replace env idKey (some new) forcedel = .ok d' ∧ d'.objs = Function.update d.objs idKey (some new) ∧
      Valid env d' := by
  have hsound₁ : ∀ o, none = some o → SoundObj env idKey o := fun _ hn => by cases hn
  obtain ⟨contents₁, hdel, hexact₁⟩ := updateIndexes_exact hplain h forcedel hsound₁ (kindsOf_none _)
    (hold ▸ kindsOf_some hgetOld)
  have hvalid₁ := valid_update h hsound₁ hexact₁
  have hnone : Function.update d.objs idKey none idKey = none := Function.update_self ..
  have hsound₂ : ∀ o, some new = some o → SoundObj env idKey o := fun o ho => Option.some.inj ho ▸ hsound
  have hold₂ : KindsOf env (env.updates kind.1) (Function.update d.objs idKey none idKey) := by
    rw [hnone]
    exact kindsOf_none _
  obtain ⟨contents₂, hput, hexact₂⟩ := updateIndexes_exact hplain hvalid₁ forcedel hsound₂ (kindsOf_some hgetKind) hold₂
  have hvalid₂ := valid_update hvalid₁ hsound₂ hexact₂
  dsimp only at hput hvalid₂
  rw [Function.update_idem] at hvalid₂
  rw [hnone] at hput
  rw [hold] at hdel
  refine ⟨_, ?_, rfl, hvalid₂⟩
  rw [replace, hold, MojDbEnv.update]
  rw [hgetOld, ok_bind, hgetKind, ok_bind, if_pos hne, hdel, ok_bind, hput, ok_bind]
  rfl

/-- **A write of one object keeps the indexes as they should be, whatever the kinds of the objects are.** -/
theorem write_valid (hplain : ∀ ki ∈ env.indexes, ki.index.PlainId) (h : Valid env d) {idKey : MojDbKey}
    {newObj : Option MojObject} (forcedel : Bool) (hsound : ∀ new, newObj = some new → SoundObj env idKey new) :
    ∃ d', d.replace env idKey newObj forcedel = .ok d' ∧ d'.objs = Function.update d.objs idKey newObj ∧ Valid env d' := by
  by_cases hkind : SameKind env d idKey newObj
  · obtain ⟨d', hreplace, hobjs, -, hvalid⟩ := replace_valid hplain h forcedel hsound hkind
    exact ⟨d', hreplace, hobjs, hvalid⟩
  · unfold SameKind at hkind
    push Not at hkind
    obtain ⟨new, old, hnew, hold, hne⟩ := hkind
    obtain ⟨kind, hgetKind⟩ := (hsound new hnew).kind
    obtain ⟨oldKind, hgetOld⟩ := (h.sound idKey old hold).kind
    have hids : oldKind.1 ≠ kind.1 := by
      intro he
      have hfind := (RevKinds.getKind_eq_ok hgetKind).2
      have hfindOld := (RevKinds.getKind_eq_ok hgetOld).2
      rw [he, hfind] at hfindOld
      rw [hgetKind, hgetOld, Option.some.inj hfindOld] at hne
      exact hne rfl
    rw [hnew]
    exact replace_valid_of_ne hplain h forcedel (hsound new hnew) hold hgetKind hgetOld hids

/-! ## Requests -/

/-- No revision set has the name of the kind or of the revision. -/
def NamesApart (env : MojDbEnv) : Prop :=
  ∀ k ∈ env.kinds.kinds, ∀ set ∈ k.2.allRevSets, set.name ≠ KindKey ∧ set.name ≠ RevKey

theorem get_updateAll {text : MojDbText} {oldObj : Option MojObject} {sets : List MojDbRevisionSet} {key : MojString}
    (hnames : ∀ set ∈ sets, set.name ≠ key) {obj obj' : MojObject} (h : RevKind.updateAll text oldObj sets obj = .ok obj') :
    obj'.get key = obj.get key := by
  induction sets generalizing obj with
  | nil =>
    obtain rfl := Except.ok.inj h
    rfl
  | cons set sets ih =>
    rw [RevKind.updateAll] at h
    obtain ⟨obj₁, hupdate, h⟩ := bind_eq_ok.mp h
    rw [ih (fun s hs => hnames s (List.mem_cons_of_mem set hs)) h]
    have hrev : ∀ o, set.updateRev obj = .ok o → o.get key = obj.get key := by
      intro o ho
      unfold MojDbRevisionSet.updateRev at ho
      split at ho
      · cases ho
      · obtain rfl := Except.ok.inj ho
        exact get_put_of_ne (Ne.symm (hnames set List.mem_cons_self)) _ _
    cases oldObj with
    | none => exact hrev obj₁ hupdate
    | some old =>
      rw [MojDbRevisionSet.update, MojDbRevisionSet.diff] at hupdate
      split_ifs at hupdate
      · exact hrev obj₁ hupdate
      · obtain rfl := Except.ok.inj hupdate
        rfl

/-- An id that is no array, whose shard can be told and has a part in the storage. -/
structure KnownId (env : MojDbEnv) (id : MojObject) : Prop where
  array : id.isArray = false
  defined : id.isDefined = true
  ordered : id.isOrdered = true
  shard : ∃ shard ∈ env.shards, extractShard id = .ok shard

/-- The object that a put stores has the revision of the put. -/
theorem rev_of_stored (hnames : NamesApart env) {putId : MojObject} {step : RevKinds.Step} {obj stored : MojObject}
    {prev : Option MojObject} {created : Bool} (hput : env.kinds.putObj putId step obj prev = .ok (.stored stored created)) :
    stored.get RevKey = some (.int step.rev) := by
  obtain ⟨-, given, updated, hgiven, hupdated, rfl, -⟩ := RevKinds.putObj_stored hput
  obtain ⟨kindId, hprep⟩ := RevKinds.prepared hgiven
  have hmem : (kindId, given.kind) ∈ env.kinds.kinds := List.mem_of_find?_eq_some (RevKinds.getKind_eq_ok hprep.kind).2
  rw [RevKind.preUpdate_eq] at hupdated
  rw [get_put_of_ne (by decide), get_updateAll (fun set hs => (hnames _ hmem set hs).2) hupdated, hprep.rev]

/-- The object that a put stores. -/
theorem soundObj_stored (hnames : NamesApart env) {putId : MojObject} (hid : KnownId env putId) {step : RevKinds.Step}
    {obj stored : MojObject} {prev : Option MojObject} {created : Bool}
    (hput : env.kinds.putObj putId step obj prev = .ok (.stored stored created)) : SoundObj env putId.toBytes stored := by
  have hrev := rev_of_stored hnames hput
  obtain ⟨-, given, updated, hgiven, hupdated, rfl, -⟩ := RevKinds.putObj_stored hput
  obtain ⟨kindId, hprep⟩ := RevKinds.prepared hgiven
  have hmem : (kindId, given.kind) ∈ env.kinds.kinds := List.mem_of_find?_eq_some (RevKinds.getKind_eq_ok hprep.kind).2
  rw [RevKind.preUpdate_eq] at hupdated
  have hkind : (updated.put IdKey putId).get KindKey = some (.string kindId) := by
    rw [get_put_of_ne (by decide), get_updateAll (fun set hs => (hnames _ hmem set hs).1) hupdated, hprep.kindKey]
  have hget : (updated.put IdKey putId).get IdKey = some putId := get_put_self _ _ _
  refine ⟨⟨putId, hget, rfl, hid.array, hid.defined, hid.ordered⟩, ?_, ⟨_, RevKinds.getKind_of_get hprep.kind hkind⟩,
    ⟨step.rev, hrev⟩⟩
  obtain ⟨shard, hshard, hextract⟩ := hid.shard
  refine ⟨shard, hshard, ?_⟩
  rw [shardOf, hget]
  exact hextract

/-- What is stored is the object of a put. -/
theorem putObj_of_apply {kinds : RevKinds} {putId : MojObject} {step : RevKinds.Step} {prev : Option MojObject} {stored : MojObject}
    {created : Bool} (h : kinds.apply putId step prev = .ok (.stored stored created)) :
    ∃ obj, kinds.putObj putId step obj prev = .ok (.stored stored created) := by
  unfold RevKinds.apply at h
  split at h
  · cases h
  · exact ⟨_, h⟩
  · have hnot : RevKinds.withoutPut step.request prev ≠ .stored stored created := by
      rw [RevKinds.withoutPut.eq_def]
      split <;> intro he <;> cases he
    exact absurd (Except.ok.inj h) hnot

/-- **A request keeps the indexes as they should be**; an object that was not there before has the id and the revision of
the request. -/
theorem request_spec (hplain : ∀ ki ∈ env.indexes, ki.index.PlainId) (hnames : NamesApart env) (h : Valid env d)
    {putId : MojObject} (hid : KnownId env putId) {step : RevKinds.Step} {forcedel : Bool} {d' : MojDbData}
    (hrequest : d.request env putId step forcedel = .ok d') :
    Valid env d' ∧ ∀ k obj, d'.objs k = some obj →
      d.objs k = some obj ∨ k = putId.toBytes ∧ obj.get RevKey = some (.int step.rev) := by
  have hwritten : ∀ {d₁ : MojDbData} {newObj : Option MojObject}, d₁.objs = Function.update d.objs putId.toBytes newObj →
      ∀ k obj, d₁.objs k = some obj → d.objs k = some obj ∨ k = putId.toBytes ∧ newObj = some obj := by
    intro d₁ newObj hobjs k obj hobj
    rw [hobjs, Function.update_apply] at hobj
    split_ifs at hobj with hk
    · exact .inr ⟨hk, hobj⟩
    · exact .inl hobj
  unfold request at hrequest
  cases happly : env.kinds.apply putId step (d.objs putId.toBytes) with
  | error err =>
    rw [happly] at hrequest
    cases hrequest
  | ok outcome =>
    rw [happly] at hrequest
    cases outcome with
    | unchanged =>
      obtain rfl := Except.ok.inj hrequest
      exact ⟨h, fun k obj hobj => .inl hobj⟩
    | removed =>
      have hsound : ∀ o, none = some o → SoundObj env putId.toBytes o := fun _ hn => by cases hn
      obtain ⟨d₁, hreplace, hobjs, hvalid⟩ := write_valid hplain h true hsound
      obtain rfl := Except.ok.inj (hreplace.symm.trans hrequest)
      exact ⟨hvalid, fun k obj hobj => (hwritten hobjs k obj hobj).imp_right fun hnew => by cases hnew.2⟩
    | stored new created =>
      obtain ⟨given, hput⟩ := putObj_of_apply happly
      have hsound : ∀ o, some new = some o → SoundObj env putId.toBytes o := fun o ho =>
        Option.some.inj ho ▸ soundObj_stored hnames hid hput
      obtain ⟨d₁, hreplace, hobjs, hvalid⟩ := write_valid hplain h forcedel hsound
      obtain rfl := Except.ok.inj (hreplace.symm.trans hrequest)
      refine ⟨hvalid, fun k obj hobj => (hwritten hobjs k obj hobj).imp_right fun hnew => ⟨hnew.1, ?_⟩⟩
      rw [← Option.some.inj hnew.2]
      exact rev_of_stored hnames hput

end MojDbData

/-! ## Deletions by query -/

namespace MojDb

open MojDbData (Valid)

variable {env : MojDbEnv} {d : MojDbData} {from_ : MojString} {query : MojDbQuery} {ki : MojDbKindIndex} {mode : DelMode}

/-- Two deletions, the first of which stops at its limit. -/
theorem culls_append {d₁ d' : MojDbData} {limit rest : Nat} {removed removed' : List MojDbKey}
    (hfirst : Culls env ki query limit d d₁ removed) (hrest : Culls env ki query rest d₁ d' removed') :
    Culls env ki query (limit + rest) d d' (removed ++ removed') := by
  refine ⟨removal_trans hfirst.toRemoval hrest.toRemoval, ?_, fun k hk => ?_, fun hlt k obj hobj hsought => ?_⟩
  · rw [List.length_append]
    exact Nat.add_le_add hfirst.within hrest.within
  · cases List.mem_append.mp hk with
    | inl hk => exact hfirst.sought k hk
    | inr hk =>
      obtain ⟨obj, hobj, hsought⟩ := hrest.sought k hk
      exact ⟨obj, hfirst.of_objs hobj, hsought⟩
  · rw [List.length_append] at hlt
    by_cases hk : k ∈ removed
    · exact List.mem_append_left _ hk
    · have hobj₁ : d₁.objs k = some obj := by
        rw [hfirst.objs, if_neg hk]
        exact hobj
      have hfull : removed.length = limit := by
        by_contra hne
        exact hk (hfirst.all (lt_of_le_of_ne hfirst.within hne) k obj hobj hsought)
      exact List.mem_append_right _ (hrest.all (by omega) k obj hobj₁ hsought)

theorem Culls.withLimit {d' : MojDbData} {limit n : Nat} {removed : List MojDbKey}
    (h : Culls env ki { query with limit } n d d' removed) : Culls env ki query n d d' removed where
  toRemoval := h.toRemoval
  within := h.within
  sought k hk := by
    obtain ⟨obj, hobj, hsought⟩ := h.sought k hk
    exact ⟨obj, hobj, hsought.withLimit⟩
  all hlt k obj hobj hsought := h.all hlt k obj hobj hsought.withLimit

/-- The batches go on until one deletes nothing or the limit is reached. -/
theorem delBatches_culls (hplain : ∀ ki ∈ env.indexes, ki.index.PlainId) (hmode : mode.purges = true) (hruns : Runs env from_ query ki) (h : Valid env d)
    {fuel queryLimit : Nat} (limit : Nat) (hfuel : queryLimit < fuel) (hlimit : limit ≤ queryLimit)
    (hpos : 0 < queryLimit → 0 < limit) (countOut : Nat) :
    ∃ d' removed, delBatches env mode fuel d from_ { query with limit } queryLimit countOut = .ok (d', countOut + removed.length) ∧
      Culls env ki query queryLimit d d' removed := by
  induction fuel generalizing d limit queryLimit countOut with
  | zero => omega
  | succ fuel ih =>
    rw [delBatches]
    by_cases hzero : queryLimit = 0
    · rw [if_pos hzero]
      exact ⟨d, [], rfl, removal_refl h, Nat.zero_le _, by simp, fun hlt => absurd hlt (by simp [hzero])⟩
    · obtain ⟨d₁, removed, hbatch, hculls⟩ := delBatch_culls hplain hmode (hruns.withLimit limit) h
      have hbatchLimit := hpos (Nat.pos_of_ne_zero hzero)
      rw [if_neg hzero, hbatch, ok_bind]
      dsimp only at hculls ⊢
      split_ifs with hcount
      · obtain rfl := List.length_eq_zero_iff.mp hcount
        refine ⟨d₁, [], rfl, hculls.toRemoval, Nat.zero_le _, by simp, fun _ k obj hobj hsought => ?_⟩
        exact hculls.all hbatchLimit k obj hobj hsought.withLimit
      · obtain ⟨d', removed', hloop, hculls'⟩ := ih hculls.valid
          (min (queryLimit - limit) AutoBatchSize) (show queryLimit - limit < fuel by omega) (Nat.min_le_left _ _)
          (fun hleft => Nat.lt_min.mpr ⟨hleft, by decide⟩) (countOut + removed.length)
        refine ⟨d', removed ++ removed', ?_, ?_⟩
        · rw [List.length_append, ← Nat.add_assoc]
          exact hloop
        · have happend := culls_append hculls.withLimit hculls'
          rwa [Nat.add_sub_cancel' hlimit] at happend

/-- **A deletion by query** removes the objects that the query asks for, no more than its limit and all of them if they
are fewer. -/
theorem delImpl_culls_limit (hplain : ∀ ki ∈ env.indexes, ki.index.PlainId) (hmode : mode.purges = true) (hruns : Runs env from_ query ki)
    (h : Valid env d) :
    ∃ d' removed, delImpl env mode d from_ query = .ok (d', removed.length) ∧ Culls env ki query query.limit d d' removed := by
  rw [delImpl]
  split_ifs with hdefault
  · obtain ⟨d', removed, hloop, hculls⟩ := delBatches_culls hplain hmode hruns h AutoBatchSize (Nat.lt_succ_self query.limit)
      (by rw [hdefault]; decide) (fun _ => by decide) 0
    rw [Nat.zero_add] at hloop
    exact ⟨d', removed, hloop, hculls⟩
  · obtain ⟨d', removed, hloop, hculls⟩ := delBatches_culls hplain hmode hruns h query.limit (Nat.lt_succ_self query.limit)
      (Nat.le_refl _) (fun hpos => hpos) 0
    rw [Nat.zero_add] at hloop
    exact ⟨d', removed, hloop, hculls⟩

end MojDb

/-! ## The kinds that an object is indexed for -/

/-- `MojDbKind::updateIndexes`: the kinds that are pushed on the vector, in their order. -/
def KindGraph.updateIndexes (g : KindGraph) (k : MojString) : List MojString := g.links.visit (g.ids.length + 1) [] k

/-- The indexes are updated along the kind graph. -/
def MojDbEnv.withKinds (env : MojDbEnv) (g : KindGraph) : MojDbEnv := { env with updates := g.updateIndexes }

theorem KindGraph.updateIndexes_spec {g : KindGraph} (h : Settled g) (k : MojString) :
    (g.updateIndexes k).Nodup ∧ ∀ s, s ∈ g.updateIndexes k ↔ g.links.AtOrAbove k s :=
  Links.visit_spec h.sound.acyclic (fun _ _ hsuper => (h.sound.mem_nodes _ _ hsuper).2) k

/-! ## Runs -/

/-- What a client asks for: a put, a merge or a deletion of one object, or a deletion by query in some mode. -/
inductive DataOp where
  | request (putId : MojObject) (step : RevKinds.Step) (forcedel : Bool)
  | delQuery (from_ : MojString) (query : MojDbQuery) (mode : MojDb.DelMode)

namespace DataOp

open MojDbData (Valid KnownId NamesApart)

/-- A transaction that throws is aborted. -/
def perform (env : MojDbEnv) (d : MojDbData) : DataOp → MojDbData
  | .request putId step forcedel =>
    match d.request env putId step forcedel with
    | .ok d' => d'
    | .error _ => d
  | .delQuery from_ query mode =>
    match MojDb.delImpl env mode d from_ query with
    | .ok (d', _) => d'
    | .error _ => d

/-- The shard of the id is known; a deletion by query is for good, and an index of its kind can answer the query as it is,
object by object. -/
def Known (env : MojDbEnv) : DataOp → Prop
  | .request putId _ _ => KnownId env putId
  | .delQuery from_ query mode =>
    mode.purges = true ∧ query.validateFind = .ok () ∧ query.distinct = MojString.empty ∧ ∃ ki, MojDb.Runs env from_ query ki

/-- A database without objects. -/
def start (nextId : Int64) : MojDbData := ⟨fun _ => none, fun _ _ => .empty, nextId⟩

variable {env : MojDbEnv} {d : MojDbData}

theorem valid_start (nextId : Int64) : Valid env (start nextId) := by
  refine ⟨fun ki _ shard key => ?_, fun _ _ hobj => by cases hobj⟩
  constructor
  · intro hkey
    exact absurd hkey (SortedSet.not_mem_empty key)
  · intro ⟨_, _, hobj, _⟩
    cases hobj

theorem perform_valid (hplain : ∀ ki ∈ env.indexes, ki.index.PlainId) (hnames : NamesApart env) (h : Valid env d) (op : DataOp)
    (hop : op.Known env) : Valid env (op.perform env d) := by
  cases op with
  | request putId step forcedel =>
    unfold perform
    dsimp only
    cases hrequest : d.request env putId step forcedel with
    | ok d' => exact (MojDbData.request_spec hplain hnames h hop hrequest).1
    | error err => exact h
  | delQuery from_ query mode =>
    obtain ⟨hmode, -, -, ki, hruns⟩ := hop
    obtain ⟨d', removed, hdel, hculls⟩ := MojDb.delImpl_culls_limit hplain hmode hruns h
    unfold perform
    dsimp only
    rw [hdel]
    exact hculls.valid

theorem valid_of_run (hplain : ∀ ki ∈ env.indexes, ki.index.PlainId) (hnames : NamesApart env) {nextId : Int64}
    {ops : List DataOp} (h : Along (fun d op => op.perform env d) (fun _ op => op.Known env) (start nextId) ops) :
    Valid env (run (fun d op => op.perform env d) (start nextId) ops) :=
  Along.invariant (Valid env) (fun _ op hvalid hop => perform_valid hplain hnames hvalid op hop) (valid_start nextId) h

/-- The root kind has an index, the kind `a:1` has none. -/
def envA : MojDbEnv where
  kinds := ⟨MojDb.purgeText, [(RootKindId, MojDb.plainKind), (KindGraphDb.kindA, MojDb.plainKind)], by decide⟩
  updates := fun _ => []
  indexes := [⟨RootKindId, MojDb.syncRevIndex⟩]
  shards := [MainShardId]
  shardEngine := ⟨[], none, SortedMap.empty⟩
  engine := .sandwich
  ids_nodup := by decide

theorem plain_envA : ∀ ki ∈ envA.indexes, ki.index.PlainId := by
  intro ki hki
  rw [List.mem_singleton.mp hki]
  exact ⟨_, (by simp [MojDb.syncRevIndex] : MojDbIndex.idProp ∈ MojDb.syncRevIndex.props), rfl, rfl, rfl⟩

theorem names_envA : NamesApart envA := by
  intro k hk set hset
  have hnone : k.2.allRevSets = [] := by
    obtain rfl | rfl := List.mem_pair.mp hk
    · rfl
    · rfl
  rw [hnone] at hset
  cases hset

/-- `x1` -/
def idX : MojObject := .string ⟨[120, 49], by decide⟩

def putX : DataOp :=
  .request idX ⟨.put ⟨false, false, false⟩ (.object [(KindKey, .string KindGraphDb.kindA)]), 1, fun _ => MojString.empty⟩ false

theorem known_putX {env : MojDbEnv} (h : env.shards = [MainShardId]) : putX.Known env where
  array := rfl
  defined := rfl
  ordered := rfl
  shard := ⟨MainShardId, h ▸ List.mem_singleton_self _, rfl⟩

theorem names_purgeEnv : NamesApart MojDb.purgeEnv := by
  intro k hk set hset
  have hnone : k.2.allRevSets = [] := by
    simp only [MojDb.purgeEnv, MojDb.purgeKinds, List.mem_cons, List.not_mem_nil, or_false] at hk
    obtain rfl | rfl | rfl | rfl | rfl := hk
    all_goals rfl
  rw [hnone] at hset
  cases hset

/-- A deleted object of `K:2`. -/
def putTombstone : DataOp :=
  .request idX ⟨.put ⟨false, false, false⟩ (.object [(DelKey, .bool true), (KindKey, .string MojDb.purgeKindId)]), 1,
    fun _ => MojString.empty⟩ false

theorem known_putTombstone : putTombstone.Known MojDb.purgeEnv :=
  ⟨rfl, rfl, rfl, ⟨MainShardId, List.mem_cons_self, rfl⟩⟩

/-- A condition on tombstones is no prefix. -/
theorem stringPrefixes_tombstones (sync : Bool) (n : Int64) (limit : Nat) :
    MojDb.StringPrefixes (MojDb.tombstonesQuery sync n limit) := by
  intro p hp hpre
  simp only [MojDb.tombstonesQuery, List.mem_cons, List.not_mem_nil, or_false] at hp
  obtain rfl | rfl | rfl := hp <;> cases hpre

end DataOp

end Db8
