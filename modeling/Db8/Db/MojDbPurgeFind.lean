import Db8.Db.MojDbPurgeRun

/-!
# Db.MojDbPurgeFind

What the queries of a purge find, and what a deletion of what they find removes.

* `Planned`           — a query that an index of its kind answers; `Runs`: as it stands.
* `Sought`            — the objects under the keys where the plan looks.
* `Asked`             — the objects with values that satisfy the conditions; `sought_iff_asked`: these are the same where
  prefixes are strings.
* `delBatch_culls`    — one batch removes these, no more than the limit and all if they are fewer.
* `delImpl_culls`     — so do the batches of a deletion.
-/

namespace Db8

open Lib MojObject
open MojDbQuotaEngine (RootKindId)
open MojDbQueryPlan (Buildable Covered Finds effectiveQuery buildRanges)

namespace MojDbIndex

/-- Whether an index answers a query hangs on its conditions and its order. -/
theorem canAnswerLoop_congr {query query' : MojDbQuery} (hwhere : query'.whereClauses = query.whereClauses)
    (horder : query'.orderProp = query.orderProp) (props : List MojDbExtractor) (numQueryProps : Nat) :
    canAnswerLoop query' props numQueryProps = canAnswerLoop query props numQueryProps := by
  induction props generalizing numQueryProps with
  | nil => rfl
  | cons prop rest ih => simp only [canAnswerLoop, hwhere, horder, ih]

theorem canAnswer_congr {query query' : MojDbQuery} (hwhere : query'.whereClauses = query.whereClauses)
    (horder : query'.orderProp = query.orderProp) (index : MojDbIndex) : index.canAnswer query' = index.canAnswer query := by
  simp only [canAnswer, hwhere, horder, canAnswerLoop_congr hwhere horder]

end MojDbIndex

namespace MojDb

open MojDbData (Valid)
open MojDbIsamQuery (Ok rest Source open_)

variable {env : MojDbEnv} {d : MojDbData} {from_ : MojString} {query : MojDbQuery} {ki : MojDbKindIndex} {mode : DelMode}

/-! ## Queries -/

/-- The index is the one the query runs on, with the query as the plan has it, and the plan can build its ranges. -/
structure Planned (env : MojDbEnv) (from_ : MojString) (query effective : MojDbQuery) (ki : MojDbKindIndex) : Prop where
  registered : (env.kinds.kinds.find? fun k => k.1 = from_).isNone = false
  valid : query.validate = .ok ()
  index : (env.indexes.find? fun ki => ki.kindId = from_ && ki.index.canAnswer query) = some ki
  complete : effectiveQuery ki.index query = .ok effective
  noSearch : ∀ c ∈ effective.whereClauses.map Prod.snd, c.lowerOp ≠ .opSearch
  buildable : Buildable (effective.whereClauses.map Prod.snd)

def rangesOf (ki : MojDbKindIndex) (query : MojDbQuery) : List MojDbKeyRange :=
  if query.desc then (buildRanges ki.index query).reverse else buildRanges ki.index query

/-- The cursor of a query that has returned nothing. -/
def cursorOf (ki : MojDbKindIndex) (query : MojDbQuery) : MojDbFind :=
  ⟨ki, query, rangesOf ki query, ⟨⟨rangesOf ki query, .seek, .beforeFirst, [], 0, []⟩, []⟩⟩

/-- The keys that the query covers, from its page on and in its order. -/
def keysFrom (env : MojDbEnv) (d : MojDbData) (ki : MojDbKindIndex) (effective : MojDbQuery) : List MojDbKey :=
  rest ((cursorOf ki effective).source env d) (open_ ((cursorOf ki effective).source env d))

namespace Planned

variable {effective : MojDbQuery}

theorem mem (h : Planned env from_ query effective ki) : ki ∈ env.indexes := List.mem_of_find?_eq_some h.index

theorem canAnswer (h : Planned env from_ query effective ki) : ki.index.canAnswer query = true := by
  have hfound := List.find?_some h.index
  simp only [Bool.and_eq_true] at hfound
  exact hfound.2

theorem findImpl_eq (h : Planned env from_ query effective ki) : findImpl env from_ query = .ok (cursorOf ki effective) := by
  have hinit : MojDbQueryPlan.init ki.index query = .ok (rangesOf ki effective) := by
    rw [MojDbQueryPlan.init, h.complete]
    rfl
  rw [findImpl, h.valid, ok_bind, h.registered, h.index]
  simp only [Bool.false_eq_true, if_false]
  rw [h.complete, ok_bind, hinit]
  rfl

/-- The keys to come are those in the ranges that are not passed over. -/
theorem open_rest (h : Planned env from_ query effective ki) (d : MojDbData) :
    Ok ((cursorOf ki effective).source env d) (open_ ((cursorOf ki effective).source env d)) ∧
      keysFrom env d ki effective =
        ((MojDbFind.keys env d ki).inOrder (!effective.desc)).filter fun key =>
          Covered (buildRanges ki.index effective) key ∧
            ¬(effective.ignoreInactiveShards = true ∧ (cursorOf ki effective).inactive env key = true) := by
  obtain ⟨front, back, clauses, hanswers⟩ := MojDbQueryPlan.answers_of_canAnswer h.canAnswer h.complete
  have hmem : ∀ c, c ∈ clauses ↔ c ∈ effective.whereClauses.map Prod.snd := fun c => MojDbQueryPlan.mem_clauses_iff hanswers
  have hbuildable : Buildable clauses := by
    have hbuild := h.buildable
    simp only [Buildable, ← hmem] at hbuild
    exact hbuild
  obtain ⟨ranges, hranges⟩ := (MojDbQueryPlan.returns_iff hanswers).mpr hbuildable
  obtain ⟨hbehind, hbounded⟩ := MojDbQueryPlan.buildRanges_behind hanswers hranges
  rw [← MojDbQueryPlan.behind_ungrouped, MojDbQueryPlan.ungrouped_buildRanges hanswers
    (fun c hc => h.noSearch c ((hmem c).mp hc)) hranges] at hbehind
  rw [← MojDbQueryPlan.bounded_ungrouped, MojDbQueryPlan.ungrouped_buildRanges hanswers
    (fun c hc => h.noSearch c ((hmem c).mp hc)) hranges] at hbounded
  exact MojDbIsamQuery.rest_open env.engine (MojDbFind.keys env d ki) MojDbFind.ne_nil_of_mem_keys
    ((cursorOf ki effective).inactive env) hbehind hbounded

end Planned

/-- The index is the one the query runs on, and nothing is added to the query. -/
structure Runs (env : MojDbEnv) (from_ : MojString) (query : MojDbQuery) (ki : MojDbKindIndex) : Prop where
  registered : (env.kinds.kinds.find? fun k => k.1 = from_).isNone = false
  valid : query.validate = .ok ()
  index : (env.indexes.find? fun ki => ki.kindId = from_ && ki.index.canAnswer query) = some ki
  complete : effectiveQuery ki.index query = .ok query
  noSearch : ∀ c ∈ query.whereClauses.map Prod.snd, c.lowerOp ≠ .opSearch
  buildable : Buildable (query.whereClauses.map Prod.snd)
  page : query.page = []

namespace Runs

/-- The limit plays no part. -/
theorem withLimit (h : Runs env from_ query ki) (limit : Nat) : Runs env from_ { query with limit } ki where
  registered := h.registered
  valid := h.valid
  index := by
    refine Eq.trans ?_ h.index
    congr 1
    funext ki
    rw [@MojDbIndex.canAnswer_congr query { query with limit } rfl rfl]
  complete := by
    unfold effectiveQuery
    split_ifs with hdel
    · -- a condition that is added was not there before
      cases MojDbQueryPlan.effectiveQuery_cases h.complete with
      | inl hsame => exact absurd hdel hsame.2
      | inr hadded => exact absurd (congrArg List.length hadded.2.2.1) (by simp)
    · rfl
  noSearch := h.noSearch
  buildable := h.buildable
  page := h.page

theorem planned (h : Runs env from_ query ki) : Planned env from_ query query ki :=
  ⟨h.registered, h.valid, h.index, h.complete, h.noSearch, h.buildable⟩

end Runs

/-! ## Conditions -/

/-- The condition `= val`. -/
def eqClause (val : MojObject) (h : val.isArray = false) : WhereClause :=
  MojDbQuery.createClause .opEq val none MojDbIndex.opEq_ne_opNone fun harray => absurd (harray.symm.trans h) Bool.noConfusion

theorem opLessThanEq_ne_opNone : CompOp.opLessThanEq ≠ .opNone := by decide

/-- The condition `<= n`. -/
def uptoClause (n : Int64) : WhereClause :=
  MojDbQuery.createClause .opLessThanEq (.int n) none opLessThanEq_ne_opNone fun h => by cases h

/-- The value of a property, or an element of it, is `val`; an object without the property has the default. -/
def HasVal (obj : MojObject) (key : MojString) (default val : MojObject) : Prop :=
  match obj.get key with
  | none => val = default
  | some (.array vec) => val ∈ vec
  | some v => v = val

section Conditions

variable {text : MojDbText} {e : MojDbPropExtractor} {key : MojString} {obj : MojObject}

theorem bool_toBytes_eq_iff {v : MojObject} {b : Bool} : (MojObject.bool b).toBytes = v.toBytes ↔ v = .bool b := by
  constructor
  · intro h
    have hwritten : v.written = .bool b := by
      refine (toBytes_append_inj (isDefined_written v) rfl (s := []) (t := []) ?_).1
      rw [written_toBytes, h]
    cases v with
    | bool b' => exact hwritten
    | _ => cases hwritten
  · intro h
    rw [h]

theorem lastVals_plain (hcoll : e.collation = none) (htok : e.tokenizer = false) (v : MojObject) :
    MojDbPropExtractor.lastVals text e v = [v.toBytes] := by
  cases v <;> simp [MojDbPropExtractor.lastVals, htok, hcoll, MojDbKey.assign, MojDbText.collate]

/-- The parts of a property with a boolean default. -/
theorem mem_vals_bool (hpath : e.prop = [key]) (hwild : key ≠ MojDbPropExtractor.WildcardKey) (hcoll : e.collation = none)
    (htok : e.tokenizer = false) {b₀ b : Bool} (hdefault : e.default = .singleton (MojObject.bool b₀).toBytes) :
    (MojObject.bool b).toBytes ∈ MojDbExtractor.vals text obj (.prop e) ↔ HasVal obj key (.bool b₀) (.bool b) := by
  rw [MojDbExtractor.vals, MojDbPropExtractor.vals, SortedSet.mem_ofList, hpath, MojDbPropExtractor.handleVal, if_neg hwild, HasVal]
  cases hget : obj.get key with
  | none =>
    simp only [hdefault]
    exact List.mem_singleton.trans (bool_toBytes_eq_iff.trans eq_comm)
  | some v =>
    have hone : ∀ v, (MojObject.bool b).toBytes ∈ MojDbPropExtractor.handleVal text e [] v ↔ v = .bool b := by
      intro v
      rw [MojDbPropExtractor.handleVal, lastVals_plain hcoll htok, List.mem_singleton, bool_toBytes_eq_iff]
    cases v with
    | array vec =>
      simp only [List.mem_flatMap, hone]
      exact exists_eq_right
    | _ => exact hone _

/-- The part of a property that is there and no array. -/
theorem vals_of_get (hpath : e.prop = [key]) (hwild : key ≠ MojDbPropExtractor.WildcardKey) (hcoll : e.collation = none)
    (htok : e.tokenizer = false) {v : MojObject} (hget : obj.get key = some v) (harray : v.isArray = false) {part : MojDbKey} :
    part ∈ MojDbExtractor.vals text obj (.prop e) ↔ part = v.toBytes := by
  rw [MojDbExtractor.vals, MojDbPropExtractor.vals, SortedSet.mem_ofList, hpath, MojDbPropExtractor.handleVal, if_neg hwild, hget]
  have hone : ∀ v, part ∈ MojDbPropExtractor.handleVal text e [] v ↔ part = v.toBytes := by
    intro v
    rw [MojDbPropExtractor.handleVal, lastVals_plain hcoll htok, List.mem_singleton]
  cases v with
  | array vec => cases harray
  | _ => exact hone _

theorem finds_eqClause {val : MojObject} (h : val.isArray = false) (hval : val.written = val) {parts : KeySet} :
    Finds text (eqClause val h) parts ↔ val.toBytes ∈ parts := by
  have hoperands : (eqClause val h).lowerOperands text = [val] := by
    unfold WhereClause.lowerOperands
    have halts : (eqClause val h).lowerVal.alternatives = [val] := by
      cases val with
      | array vec => cases h
      | _ => rfl
    rw [halts]
    cases val <;> exact congrArg (fun v => [v]) hval
  constructor
  · intro ⟨v, _, hpart, hmatch⟩
    have hmem : v ∈ (eqClause val h).lowerOperands text := (MojDbQueryPlan.keyMatches_of_eq rfl v).mpr hmatch
    rw [hoperands] at hmem
    exact List.mem_singleton.mp hmem ▸ hpart
  · intro hpart
    refine ⟨val, written_eq_self_iff.mp hval, hpart, (MojDbQueryPlan.keyMatches_of_eq rfl val).mp ?_⟩
    rw [hoperands]
    exact List.mem_singleton_self val

/-- An integer property is found up to its bound. -/
theorem finds_uptoClause {i n : Int64} {parts : KeySet} (hparts : ∀ part, part ∈ parts ↔ part = (MojObject.int i).toBytes) :
    Finds text (uptoClause n) parts ↔ i ≤ n := by
  have hmatch : (uptoClause n).KeyMatches text (.int i) ↔ i ≤ n := by
    change True ∧ cmp i n ≠ .gt ↔ i ≤ n
    rw [true_and, Int64.cmp_eq_cmp_toInt, ne_eq, cmp_eq_gt_iff, not_lt, Int64.le_iff_toInt_le]
  rw [← hmatch]
  constructor
  · intro ⟨v, hdef, hpart, hmatch⟩
    have hv := (@toBytes_append_inj v (.int i) hdef rfl [] [] (by rw [(hparts _).mp hpart])).1
    exact hv ▸ hmatch
  · intro hmatch
    exact ⟨.int i, rfl, (hparts _).mpr rfl, hmatch⟩

end Conditions

/-! ## Objects -/

/-- A query passes the object over: it is in an inactive shard. -/
def Excluded (env : MojDbEnv) (obj : MojObject) : Prop :=
  ∃ id, obj.get IdKey = some id ∧ MojDbIsamQuery.checkShard env.shardEngine id = .ok true

/-- The object is in the index, its values are where the plan looks for the conditions, and it is not passed over. -/
structure Sought (env : MojDbEnv) (ki : MojDbKindIndex) (query : MojDbQuery) (obj : MojObject) : Prop where
  covers : env.covers ki obj = true
  keyOf : ki.index.HasKeyOf obj
  finds : ∀ p ∈ query.whereClauses, ∃ e ∈ ki.index.props, e.name = p.1 ∧ Finds ki.index.text p.2 (e.vals ki.index.text obj)
  active : ¬(query.ignoreInactiveShards = true ∧ Excluded env obj)

/-- The object is in the index, each condition is satisfied by a value that it has there, and it is not passed over. -/
structure Asked (env : MojDbEnv) (ki : MojDbKindIndex) (query : MojDbQuery) (obj : MojObject) : Prop where
  covers : env.covers ki obj = true
  keyOf : ki.index.HasKeyOf obj
  matched : ∀ p ∈ query.whereClauses, ∃ e ∈ ki.index.props, e.name = p.1 ∧
    ∃ v : MojObject, v.isDefined = true ∧ v.toBytes ∈ e.vals ki.index.text obj ∧ p.2.Matches ki.index.text v
  active : ¬(query.ignoreInactiveShards = true ∧ Excluded env obj)

/-- The values of prefix conditions are strings. -/
def StringPrefixes (query : MojDbQuery) : Prop :=
  ∀ p ∈ query.whereClauses, p.2.lowerOp = .opPrefix → ∀ alt ∈ p.2.lowerVal.alternatives, alt.type = .typeString

/-- A plan looks for nothing else where prefixes are strings. -/
theorem keyMatches_iff_matches {text : MojDbText} {c : WhereClause}
    (h : c.lowerOp = .opPrefix → ∀ alt ∈ c.lowerVal.alternatives, alt.type = .typeString) {v : MojObject}
    (hv : v.isDefined = true) : c.KeyMatches text v ↔ c.Matches text v := by
  rw [WhereClause.keyMatches_iff hv]
  refine or_iff_left fun hover => ?_
  obtain ⟨hpre, -, alt, halt, hne, -⟩ := hover
  obtain ⟨val, hval, rfl⟩ := List.mem_map.mp halt
  have htype := h hpre val hval
  cases val with
  | string s => cases hcoll : c.collation <;> exact hne (by rw [WhereClause.operand, hcoll]; rfl)
  | _ => cases htype

theorem sought_iff_asked (h : StringPrefixes query) {obj : MojObject} : Sought env ki query obj ↔ Asked env ki query obj := by
  have hfinds : ∀ p ∈ query.whereClauses, ∀ parts, Finds ki.index.text p.2 parts ↔
      ∃ v : MojObject, v.isDefined = true ∧ v.toBytes ∈ parts ∧ p.2.Matches ki.index.text v := by
    intro p hp parts
    refine exists_congr fun v => and_congr_right fun hv => and_congr_right fun _ => ?_
    exact keyMatches_iff_matches (h p hp) hv
  constructor
  · intro hs
    refine ⟨hs.covers, hs.keyOf, fun p hp => ?_, hs.active⟩
    obtain ⟨e, he, hname, hf⟩ := hs.finds p hp
    exact ⟨e, he, hname, (hfinds p hp _).mp hf⟩
  · intro ha
    refine ⟨ha.covers, ha.keyOf, fun p hp => ?_, ha.active⟩
    obtain ⟨e, he, hname, hf⟩ := ha.matched p hp
    exact ⟨e, he, hname, (hfinds p hp _).mpr hf⟩

/-- The condition that a plan may add is no prefix. -/
theorem StringPrefixes.effective (h : StringPrefixes query) {index : MojDbIndex} {effective : MojDbQuery}
    (heff : effectiveQuery index query = .ok effective) : StringPrefixes effective := by
  intro p hp hpre
  cases MojDbQueryPlan.effectiveQuery_cases heff with
  | inl hsame => exact h p (hsame.1 ▸ hp) hpre
  | inr hadded =>
    rw [hadded.2.2.1] at hp
    cases List.mem_append.mp hp with
    | inl hp => exact h p hp hpre
    | inr hp =>
      rw [List.mem_singleton.mp hp] at hpre
      cases hpre

variable (hplain : ∀ ki ∈ env.indexes, ki.index.PlainId)

include hplain

theorem inactive_iff (h : Valid env d) (hki : ki ∈ env.indexes) {k key : MojDbKey} {obj : MojObject}
    (hobj : d.objs k = some obj) (hkey : HasKey env ki obj key) :
    (cursorOf ki query).inactive env key = true ↔ Excluded env obj := by
  obtain ⟨id, hid, hget, _⟩ := parseId_of_hasKey hplain h hki hobj hkey
  have hinactive : (cursorOf ki query).inactive env key =
      MojDbFind.excluded (MojDbIsamQuery.checkShard env.shardEngine id) := by
    rw [MojDbFind.inactive]
    change MojDbFind.excluded (MojDbIsamQuery.parseId ki.index.idIndex key >>= MojDbIsamQuery.checkShard env.shardEngine) = _
    rw [hid, ok_bind]
  rw [hinactive]
  constructor
  · intro hexcluded
    refine ⟨id, hget, ?_⟩
    cases hcheck : MojDbIsamQuery.checkShard env.shardEngine id with
    | error err =>
      rw [hcheck] at hexcluded
      cases hexcluded
    | ok excluded =>
      rw [hcheck] at hexcluded
      exact congrArg Except.ok hexcluded
  · intro hexcluded
    obtain ⟨id', hget', hcheck⟩ := hexcluded
    rw [hget] at hget'
    obtain rfl := Option.some.inj hget'
    rw [hcheck]
    rfl

/-- **The objects whose keys are to come** at the start are those the query asks for. -/
theorem sought_iff {effective : MojDbQuery} (hplanned : Planned env from_ query effective ki) (hpage : query.page = []) (h : Valid env d)
    {k : MojDbKey} {obj : MojObject} (hobj : d.objs k = some obj) :
    Sought env ki effective obj ↔ ∃ key ∈ keysFrom env d ki effective, HasKey env ki obj key := by
  obtain ⟨-, hrest⟩ := hplanned.open_rest d
  rw [hrest]
  simp only [List.mem_filter, SortedSet.mem_inOrder, decide_eq_true_eq]
  constructor
  · intro hsought
    obtain ⟨key, hkey, hcovered⟩ := (MojDbQueryPlan.exists_covered_iff hplanned.canAnswer hplanned.complete hpage
      hsought.keyOf.2).mpr hsought.finds
    have hhas : HasKey env ki obj key := ⟨hsought.covers, hsought.keyOf.1, hkey⟩
    refine ⟨key, ⟨(mem_keys h hplanned.mem).mpr ⟨k, obj, hobj, hhas⟩, hcovered, ?_⟩, hhas⟩
    rw [inactive_iff hplain h hplanned.mem hobj hhas]
    exact hsought.active
  · intro ⟨key, ⟨_, hcovered, hactive⟩, hhas⟩
    rw [inactive_iff hplain h hplanned.mem hobj hhas] at hactive
    exact ⟨hhas.covers, ⟨hhas.included, key, hhas.mem⟩,
      (MojDbQueryPlan.exists_covered_iff hplanned.canAnswer hplanned.complete hpage ⟨key, hhas.mem⟩).mp
        ⟨key, hhas.mem, hcovered⟩, hactive⟩

/-! ## Deletions -/

/-- Objects that a query asks for are removed, no more than a limit and all of them if they are fewer. -/
structure Culls (env : MojDbEnv) (ki : MojDbKindIndex) (query : MojDbQuery) (limit : Nat) (d d' : MojDbData)
    (removed : List MojDbKey) : Prop extends Removal env d d' removed where
  within : removed.length ≤ limit
  sought : ∀ k ∈ removed, ∃ obj, d.objs k = some obj ∧ Sought env ki query obj
  all : removed.length < limit → ∀ k obj, d.objs k = some obj → Sought env ki query obj → k ∈ removed

/-- **One batch.** -/
theorem delBatch_culls (hmode : mode.purges = true) (hruns : Runs env from_ query ki) (h : Valid env d) :
    ∃ d' removed, delBatch env mode d from_ query = .ok (d', removed.length) ∧ Culls env ki query query.limit d d' removed := by
  obtain ⟨hok, _⟩ := hruns.planned.open_rest d
  have hlength : (rest ((cursorOf ki query).source env d) (cursorOf ki query).items.query).length <
      ((cursorOf ki query).source env d).keys.size + 1 := Nat.lt_succ_of_le (MojDbIsamQuery.length_rest_le _ _)
  obtain ⟨d', removed, hloop, hdeletes⟩ := @delItems_deletes env d mode hplain hmode (cursorOf ki query) hruns.planned.mem _ h
    (cursorOf ki query).items hok (by simp [cursorOf]) hlength 0
  refine ⟨d', removed, ?_, hdeletes.toRemoval, hdeletes.within, fun k hk => ?_, fun hlt k obj hobj hsought => ?_⟩
  · rw [delBatch, hruns.planned.findImpl_eq, ok_bind]
    rw [Nat.zero_add] at hloop
    exact hloop
  · obtain ⟨obj, key, hobj, hhas, hkey⟩ := hdeletes.of_keys k hk
    exact ⟨obj, hobj, (sought_iff hplain hruns.planned hruns.page h hobj).mpr ⟨key, hkey, hhas⟩⟩
  · obtain ⟨key, hkey, hhas⟩ := (sought_iff hplain hruns.planned hruns.page h hobj).mp hsought
    exact hdeletes.all hlt k obj key hobj hhas hkey

omit hplain in
theorem removal_refl (h : Valid env d) : Removal env d d [] where
  valid := h
  nextId := rfl
  objs k := by simp
  nodup := List.nodup_nil
  stored k hk := absurd hk List.not_mem_nil

omit hplain in
theorem Sought.withLimit {obj : MojObject} {limit : Nat} (h : Sought env ki query obj) :
    Sought env ki { query with limit } obj := ⟨h.covers, h.keyOf, h.finds, h.active⟩

/-- A deletion within the limit of one batch. -/
theorem delImpl_culls (hmode : mode.purges = true) (hruns : Runs env from_ query ki) (h : Valid env d) (hlimit : query.limit ≠ MojDbQuery.LimitDefault) :
    ∃ d' removed, delImpl env mode d from_ query = .ok (d', removed.length) ∧ Culls env ki query query.limit d d' removed := by
  rw [delImpl, if_neg hlimit, delBatches]
  by_cases hzero : query.limit = 0
  · rw [if_pos hzero]
    exact ⟨d, [], rfl, removal_refl h, Nat.zero_le _, by simp, fun hlt => absurd hlt (by simp [hzero])⟩
  · obtain ⟨d', removed, hbatch, hculls⟩ := delBatch_culls hplain hmode hruns h
    refine ⟨d', removed, ?_, hculls⟩
    rw [if_neg hzero, hbatch, ok_bind]
    dsimp only
    split_ifs with hcount
    · rw [hcount]
    · obtain ⟨n, hn⟩ := Nat.exists_eq_succ_of_ne_zero hzero
      rw [Nat.sub_self, hn, delBatches, if_pos rfl, Nat.zero_add]

/-- The batches one after the other. -/
theorem delBatches_removal (hmode : mode.purges = true) (hruns : Runs env from_ query ki) (h : Valid env d) (fuel limit queryLimit countOut : Nat) :
    ∃ d' removed, delBatches env mode fuel d from_ { query with limit } queryLimit countOut = .ok (d', countOut + removed.length) ∧
      Removal env d d' removed ∧ ∀ k ∈ removed, ∃ obj, d.objs k = some obj ∧ Sought env ki query obj := by
  induction fuel generalizing d limit queryLimit countOut with
  | zero => exact ⟨d, [], rfl, removal_refl h, by simp⟩
  | succ fuel ih =>
    rw [delBatches]
    by_cases hzero : queryLimit = 0
    · rw [if_pos hzero]
      exact ⟨d, [], rfl, removal_refl h, by simp⟩
    · obtain ⟨d₁, removed, hbatch, hculls⟩ := delBatch_culls hplain hmode (hruns.withLimit limit) h
      have hsought : ∀ k ∈ removed, ∃ obj, d.objs k = some obj ∧ Sought env ki query obj := by
        intro k hk
        obtain ⟨obj, hobj, hsought⟩ := hculls.sought k hk
        exact ⟨obj, hobj, hsought.withLimit⟩
      rw [if_neg hzero, hbatch, ok_bind]
      dsimp only
      split_ifs with hcount
      · obtain rfl := List.length_eq_zero_iff.mp hcount
        exact ⟨d₁, [], rfl, hculls.toRemoval, hsought⟩
      · obtain ⟨d', removed', hloop, hremoval, hsought'⟩ := @ih d₁ hculls.valid
          (min (queryLimit - limit) AutoBatchSize) (queryLimit - limit) (countOut + removed.length)
        refine ⟨d', removed ++ removed', ?_, removal_trans hculls.toRemoval hremoval, fun k hk => ?_⟩
        · rw [List.length_append, ← Nat.add_assoc]
          exact hloop
        · cases List.mem_append.mp hk with
          | inl hk => exact hsought k hk
          | inr hk =>
            obtain ⟨obj, hobj, hs⟩ := hsought' k hk
            exact ⟨obj, hculls.of_objs hobj, hs⟩

/-- A deletion without a limit. -/
theorem delImpl_removal (hmode : mode.purges = true) (hruns : Runs env from_ query ki) (h : Valid env d) :
    ∃ d' removed, delImpl env mode d from_ query = .ok (d', removed.length) ∧ Removal env d d' removed ∧
      ∀ k ∈ removed, ∃ obj, d.objs k = some obj ∧ Sought env ki query obj := by
  rw [delImpl]
  split_ifs with hlimit
  · obtain ⟨d', removed, hloop, hremoval⟩ :=
      delBatches_removal hplain hmode hruns h (query.limit + 1) AutoBatchSize query.limit 0
    rw [Nat.zero_add] at hloop
    exact ⟨d', removed, hloop, hremoval⟩
  · obtain ⟨d', removed, hloop, hremoval⟩ :=
      delBatches_removal hplain hmode hruns h (query.limit + 1) query.limit query.limit 0
    rw [Nat.zero_add] at hloop
    exact ⟨d', removed, hloop, hremoval⟩

end MojDb

end Db8
