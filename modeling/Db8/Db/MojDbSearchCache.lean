import Db8.Db.MojDbPurgeSpec
import Db8.Db.MojDbSearchCursor

/-!
# Db.MojDbSearchCache

The keys under which search results are cached.

* `QueryKey.fromQuery`  — the kind, the revision, and the text of the query without its limit and page.
* `less`                — the order of the container, which compares the texts up to the length of the first.
* `less_iff`            — of two keys from queries, neither text begins with the other: the order is lexicographic.
* `resultIds_eq`        — queries with the same text find the same ids if the options that are not written agree.
-/

namespace Db8

open Lib MojObject
open MojDbSearchCursor (Store)

/-- `strncmp` on texts that end with a NUL. -/
def strncmp : Nat → List MojByte → List MojByte → Ordering
  | 0, _, _ => .eq
  | _ + 1, [], [] => .eq
  | _ + 1, [], _ :: _ => .lt
  | _ + 1, _ :: _, [] => .gt
  | n + 1, a :: as, b :: bs => (cmp a b).then (strncmp n as bs)

theorem strncmp_length (as bs : List MojByte) : strncmp as.length as bs = if as <+: bs then .eq else lexCompare as bs := by
  induction as generalizing bs with
  | nil => simp [strncmp]
  | cons a as ih =>
    cases bs with
    | nil => simp [strncmp, lexCompare]
    | cons b bs =>
      have hlex : lexCompare (a :: as) (b :: bs) = (cmp a b).then (lexCompare as bs) := rfl
      rw [List.length_cons, strncmp, ih, hlex]
      by_cases hab : a = b
      · subst hab
        simp [cmp_self_eq_eq, List.cons_prefix_cons]
      · simp only [List.cons_prefix_cons, hab, false_and, if_false]
        cases hc : cmp a b with
        | eq => exact absurd ((cmp_eq_eq_iff _ _).mp hc) hab
        | lt => rfl
        | gt => rfl

/-- `MojDbSearchCache::QueryKey` -/
structure QueryKey where
  kind : MojString
  rev : UInt32
  query : MojString
  deriving DecidableEq

namespace QueryKey

/-- The text of an object of a query, from which page and limit are deleted. -/
def queryText (obj : MojObject) : MojString :=
  ⟨((obj.del MojDbQuery.PageKey).del MojDbQuery.LimitKey).toJson, zero_notMem_toJson _⟩

def setQuery (key : QueryKey) (query : MojDbSearchQuery) : Except MojErr QueryKey := do
  let obj ← query.toObject
  return { key with query := queryText obj, kind := query.fromType }

def fromQuery (query : MojDbSearchQuery) (a_revision : UInt32) : Except MojErr QueryKey :=
  setQuery ⟨.empty, a_revision, .empty⟩ query

/-- `operator==` -/
def equals (key rhsKey : QueryKey) : Bool := key.rev = rhsKey.rev && key.query = rhsKey.query && key.kind = rhsKey.kind

/-- `operator<` -/
def less (key rhsKey : QueryKey) : Bool :=
  let eqKind := key.kind.compare rhsKey.kind
  if eqKind = .lt then true
  else
    let eqQuery := strncmp key.query.chars.length key.query.chars rhsKey.query.chars
    if eqKind = .eq ∧ eqQuery = .lt then true
    else decide (eqKind = .eq ∧ eqQuery = .eq ∧ key.rev < rhsKey.rev)

/-! ## The order of keys from queries -/

/-- The key comes from a query. -/
def IsBuilt (key : QueryKey) : Prop := ∃ query rev, fromQuery query rev = .ok key

/-- The text of the key is that of an object. -/
theorem fromQuery_eq (query : MojDbSearchQuery) (rev : UInt32) :
    fromQuery query rev = .ok ⟨query.fromType, rev, queryText (MojObjectBuilder.Built.object query.entries).obj⟩ := by
  rw [fromQuery, setQuery, query.toObject_eq]
  rfl

theorem IsBuilt.exists_text {key : QueryKey} (h : key.IsBuilt) :
    ∃ ps, key.query.chars = (MojObject.object ps).jsonText := by
  obtain ⟨query, rev, hkey⟩ := h
  rw [fromQuery_eq] at hkey
  obtain rfl := Except.ok.inj hkey
  obtain ⟨ps, hps⟩ : ∃ ps, (MojObjectBuilder.Built.object query.entries).obj = .object ps := ⟨_, rfl⟩
  refine ⟨(ps.filter fun p => p.1 ≠ MojDbQuery.PageKey).filter fun p => p.1 ≠ MojDbQuery.LimitKey, ?_⟩
  rw [hps]
  exact toJson_eq _

/-- The comparison stops where the first text does, and there the other one does as well. -/
theorem strncmp_built {key rhsKey : QueryKey} (h : key.IsBuilt) (h' : rhsKey.IsBuilt) :
    strncmp key.query.chars.length key.query.chars rhsKey.query.chars = key.query.compare rhsKey.query := by
  obtain ⟨ps, hps⟩ := h.exists_text
  obtain ⟨qs, hqs⟩ := h'.exists_text
  rw [strncmp_length, MojString.compare]
  split_ifs with hpre
  · rw [hps, hqs] at hpre ⊢
    rw [jsonText_prefix_free hpre]
    exact (lexCompare_eq_eq.mpr rfl).symm
  · rfl

/-- The kind decides, then the text, then the revision. -/
def orderKey (key : QueryKey) : MojString ×ₗ MojString ×ₗ Nat := toLex (key.kind, toLex (key.query, key.rev.toNat))

theorem orderKey_inj {key rhsKey : QueryKey} (h : key.orderKey = rhsKey.orderKey) : key = rhsKey := by
  obtain ⟨kind, rev, query⟩ := key
  obtain ⟨kind', rev', query'⟩ := rhsKey
  obtain ⟨hkind, hrest⟩ := Prod.mk.inj (toLex.injective h)
  obtain ⟨hquery, hrev⟩ := Prod.mk.inj (toLex.injective hrest)
  obtain rfl := UInt32.toNat_inj.mp hrev
  obtain rfl : kind = kind' := hkind
  obtain rfl : query = query' := hquery
  rfl

theorem less_iff {key rhsKey : QueryKey} (h : key.IsBuilt) (h' : rhsKey.IsBuilt) :
    key.less rhsKey = true ↔ key.orderKey < rhsKey.orderKey := by
  unfold less
  rw [strncmp_built h h', orderKey, orderKey, Prod.Lex.toLex_lt_toLex, Prod.Lex.toLex_lt_toLex]
  simp only [MojString.compare_eq_lt, MojString.compare_eq_iff, UInt32.lt_iff_toNat_lt]
  split_ifs with hkind hquery
  · simp [hkind]
  · simp [hquery]
  · simp only [decide_eq_true_eq, hkind, false_or]
    constructor
    · intro ⟨he, hq, hr⟩
      exact ⟨he, .inr ⟨hq, hr⟩⟩
    · intro ⟨he, hrest⟩
      cases hrest with
      | inl hlt => exact absurd ⟨he, hlt⟩ hquery
      | inr hrest => exact ⟨he, hrest⟩

theorem equals_iff {key rhsKey : QueryKey} : key.equals rhsKey = true ↔ key = rhsKey := by
  obtain ⟨kind, rev, query⟩ := key
  obtain ⟨kind', rev', query'⟩ := rhsKey
  simp only [equals, Bool.and_eq_true, decide_eq_true_eq, QueryKey.mk.injEq]
  tauto

theorem isStrictWeakOrder_less :
    IsStrictWeakOrder {key : QueryKey // key.IsBuilt} fun key rhsKey => key.1.less rhsKey.1 = true where
  irrefl key h := by
    rw [less_iff key.2 key.2] at h
    exact lt_irrefl _ h
  trans a b c hab hbc := by
    rw [less_iff a.2 b.2] at hab
    rw [less_iff b.2 c.2] at hbc
    rw [less_iff a.2 c.2]
    exact hab.trans hbc
  incomp_trans a b c hab hbc := by
    rw [less_iff a.2 b.2, less_iff b.2 a.2, not_lt, not_lt] at hab
    rw [less_iff b.2 c.2, less_iff c.2 b.2, not_lt, not_lt] at hbc
    rw [less_iff a.2 c.2, less_iff c.2 a.2, not_lt, not_lt]
    exact ⟨hbc.1.trans hab.1, hab.2.trans hbc.2⟩

/-- Keys of which neither is less are equal. -/
theorem not_less_iff {key rhsKey : QueryKey} (h : key.IsBuilt) (h' : rhsKey.IsBuilt) :
    ¬key.less rhsKey = true ∧ ¬rhsKey.less key = true ↔ key.equals rhsKey = true := by
  rw [less_iff h h', less_iff h' h, not_lt, not_lt, equals_iff]
  constructor
  · intro ⟨hle, hge⟩
    exact orderKey_inj (le_antisymm hge hle)
  · intro he
    subst he
    exact ⟨le_rfl, le_rfl⟩

/-! ## Queries with the same text -/

theorem isDefined_del {o : MojObject} (h : o.isDefined = true) (key : MojString) : (o.del key).isDefined = true := by
  cases o with
  | object ps =>
    rw [MojObject.isDefined, isDefinedProps_iff] at h
    rw [MojObject.del, MojObject.isDefined, isDefinedProps_iff]
    exact fun p hp => h p (List.mem_of_mem_filter hp)
  | _ => exact h

theorem get_of_written {o o' : MojObject} (ho : o.isDefined = true) (ho' : o'.isDefined = true)
    (h : queryText o = queryText o') {key : MojString} (hlimit : key ≠ MojDbQuery.LimitKey) (hpage : key ≠ MojDbQuery.PageKey) :
    o.get key = o'.get key := by
  have htext : ((o.del MojDbQuery.PageKey).del MojDbQuery.LimitKey).toJson =
      ((o'.del MojDbQuery.PageKey).del MojDbQuery.LimitKey).toJson := congrArg MojString.chars h
  rw [toJson_eq, toJson_eq] at htext
  have hwritten := jsonText_inj htext
  rw [written_of_isDefined (isDefined_del (isDefined_del ho _) _),
    written_of_isDefined (isDefined_del (isDefined_del ho' _) _)] at hwritten
  have hget := congrArg (fun o => MojObject.get o key) hwritten
  rw [get_del, get_del, get_del, get_del, if_neg hlimit, if_neg hlimit, if_neg hpage, if_neg hpage] at hget
  exact hget

/-- Queries with the same text have the same members, as far as these are written. -/
theorem sameWritten_of_key {q q' : MojDbSearchQuery} {rev : UInt32} (h : fromQuery q rev = fromQuery q' rev) :
    q.SameWritten q' := by
  rw [fromQuery_eq, fromQuery_eq] at h
  have htext := congrArg QueryKey.query (Except.ok.inj h)
  exact MojDbSearchQuery.toObject_inj fun key hlimit hpage =>
    get_of_written (MojObjectBuilder.Built.object q.entries).isDefined (MojObjectBuilder.Built.object q'.entries).isDefined
      htext hlimit hpage

end QueryKey

namespace MojDbSearchQuery

/-- No value of a clause is or holds `undefined`, for which a text says `null`. -/
def Defined (q : MojDbSearchQuery) : Prop :=
  ∀ part ∈ (q.whereClauses ++ q.filterClauses).flatMap clauseParts, part.val.isDefined = true

/-- What has no place in the text is the same: whether inactive shards are ignored, and where the search ends if it returns
before all is loaded. -/
structure SameOptions (q q' : MojDbSearchQuery) : Prop where
  ignoreInactiveShards : q.ignoreInactiveShards = q'.ignoreInactiveShards
  immediate : MojDbSearchCursor.isImmediate q = MojDbSearchCursor.isImmediate q'
  ends : MojDbSearchCursor.isImmediate q = true → q.limit = q'.limit ∧ q.page = q'.page
  defined : q.Defined ∧ q'.Defined

/-- A part with an operator is written as it is; without an operator there is no value. -/
theorem SameClause.eq {p p' : MojString × WhereClause} (h : SameClause p p')
    (hnone : p.2.upperOp = .opNone → p.2.upperVal = .undefined)
    (hnone' : p'.2.upperOp = .opNone → p'.2.upperVal = .undefined)
    (hdef : ∀ part ∈ clauseParts p, part.val.isDefined = true) (hdef' : ∀ part ∈ clauseParts p', part.val.isDefined = true) :
    p = p' := by
  obtain ⟨key, ⟨lowerOp, upperOp, lowerVal, upperVal, collation, valid⟩⟩ := p
  obtain ⟨key', ⟨lowerOp', upperOp', lowerVal', upperVal', collation', valid'⟩⟩ := p'
  obtain ⟨hkey, hlowerOp, hupperOp, hlower, hupper, hcollation⟩ := h
  obtain rfl : key = key' := hkey
  obtain rfl : lowerOp = lowerOp' := hlowerOp
  obtain rfl : upperOp = upperOp' := hupperOp
  obtain rfl : collation = collation' := hcollation
  have hlowerVal : lowerVal = lowerVal' := by
    by_cases hop : lowerOp = .opNone
    · rw [valid.lower_none hop, valid'.lower_none hop]
    · have hmem : ⟨key, lowerOp, lowerVal, collation⟩ ∈ clauseParts (key, ⟨lowerOp, upperOp, lowerVal, upperVal, collation, valid⟩) := by
        simp [clauseParts, hop]
      have hmem' : ⟨key, lowerOp, lowerVal', collation⟩ ∈
          clauseParts (key, ⟨lowerOp, upperOp, lowerVal', upperVal', collation, valid'⟩) := by
        simp [clauseParts, hop]
      exact (written_of_isDefined (hdef _ hmem)).symm.trans (hlower.trans (written_of_isDefined (hdef' _ hmem')))
  have hupperVal : upperVal = upperVal' := by
    by_cases hop : upperOp = .opNone
    · exact (hnone hop).trans (hnone' hop).symm
    · have hmem : ⟨key, upperOp, upperVal, collation⟩ ∈ clauseParts (key, ⟨lowerOp, upperOp, lowerVal, upperVal, collation, valid⟩) := by
        simp [clauseParts, hop]
      have hmem' : ⟨key, upperOp, upperVal', collation⟩ ∈
          clauseParts (key, ⟨lowerOp, upperOp, lowerVal', upperVal', collation, valid'⟩) := by
        simp [clauseParts, hop]
      exact (written_of_isDefined (hdef _ hmem)).symm.trans (hupper.trans (written_of_isDefined (hdef' _ hmem')))
  subst hlowerVal
  subst hupperVal
  rfl

theorem clauses_eq {map map' : WhereMap} (h : List.Forall₂ SameClause map map')
    (hnone : ∀ p ∈ map, p.2.upperOp = .opNone → p.2.upperVal = .undefined)
    (hnone' : ∀ p ∈ map', p.2.upperOp = .opNone → p.2.upperVal = .undefined)
    (hdef : ∀ p ∈ map, ∀ part ∈ clauseParts p, part.val.isDefined = true)
    (hdef' : ∀ p ∈ map', ∀ part ∈ clauseParts p, part.val.isDefined = true) : map = map' := by
  induction h with
  | nil => rfl
  | @cons p p' map map' hp _ ih =>
    have hhead := hp.eq (hnone p List.mem_cons_self) (hnone' p' List.mem_cons_self) (hdef p List.mem_cons_self)
      (hdef' p' List.mem_cons_self)
    have htail := ih (fun r hr => hnone r (List.mem_cons_of_mem p hr)) (fun r hr => hnone' r (List.mem_cons_of_mem p' hr))
      (fun r hr => hdef r (List.mem_cons_of_mem p hr)) (fun r hr => hdef' r (List.mem_cons_of_mem p' hr))
    rw [hhead, htail]

theorem Defined.parts {q : MojDbSearchQuery} (h : q.Defined) {p : MojString × WhereClause}
    (hp : p ∈ q.whereClauses ++ q.filterClauses) : ∀ part ∈ clauseParts p, part.val.isDefined = true :=
  fun part hpart => h part (List.mem_flatMap.mpr ⟨p, hp, hpart⟩)

theorem SameWritten.whereClauses_eq {q q' : MojDbSearchQuery} (h : q.SameWritten q') (hdef : q.Defined) (hdef' : q'.Defined) :
    q.whereClauses = q'.whereClauses :=
  clauses_eq h.whereClauses (fun p hp => q.upper_none p (List.mem_append_left _ hp))
    (fun p hp => q'.upper_none p (List.mem_append_left _ hp)) (fun _ hp => hdef.parts (List.mem_append_left _ hp))
    (fun _ hp => hdef'.parts (List.mem_append_left _ hp))

theorem SameWritten.filterClauses_eq {q q' : MojDbSearchQuery} (h : q.SameWritten q') (hdef : q.Defined)
    (hdef' : q'.Defined) : q.filterClauses = q'.filterClauses :=
  clauses_eq h.filterClauses (fun p hp => q.upper_none p (List.mem_append_right _ hp))
    (fun p hp => q'.upper_none p (List.mem_append_right _ hp)) (fun _ hp => hdef.parts (List.mem_append_right _ hp))
    (fun _ hp => hdef'.parts (List.mem_append_right _ hp))

/-- The members a search looks at before it loads its items, apart from where it ends. -/
structure SameSearch (q q' : MojDbSearchQuery) : Prop where
  fromType : q.fromType = q'.fromType
  whereClauses : q.whereClauses = q'.whereClauses
  filterClauses : q.filterClauses = q'.filterClauses
  orderProp : q.orderProp = q'.orderProp
  distinct : q.distinct = q'.distinct
  desc : q.desc = q'.desc
  ignoreInactiveShards : q.ignoreInactiveShards = q'.ignoreInactiveShards

end MojDbSearchQuery

namespace MojDbSearchCursor

open MojDbSearchQuery (SameSearch)

variable {q q' : MojDbSearchQuery}

theorem planQuery_congr (h : q.SameSearch q') : planQuery q = planQuery q' := by
  obtain ⟨⟨whereClauses, filterClauses, orderProp, distinct, desc, limit, page, ignoreInactiveShards, where_nodup⟩, _⟩ := q
  obtain ⟨⟨whereClauses', filterClauses', orderProp', distinct', desc', limit', page', ignoreInactiveShards', where_nodup'⟩, _⟩ := q'
  obtain ⟨-, hwhere, hfilter, -, hdistinct, hdesc, hignore⟩ := h
  obtain rfl : whereClauses = whereClauses' := hwhere
  obtain rfl : filterClauses = filterClauses' := hfilter
  obtain rfl : distinct = distinct' := hdistinct
  obtain rfl : desc = desc' := hdesc
  obtain rfl : ignoreInactiveShards = ignoreInactiveShards' := hignore
  rfl

/-- The cursor with the members of the other query. -/
def withQuery (query : MojDbSearchQuery) (c : MojDbSearchCursor) : MojDbSearchCursor := { c with query }

theorem indexFind_congr (h : q.SameSearch q') (ki : MojDbKindIndex) (collation : Option MojDbCollationStrength) :
    indexFind ki q collation = (indexFind ki q' collation).map (withQuery q) := by
  unfold indexFind
  rw [planQuery_congr h]
  cases throws (MojDbQueryPlan.effectiveQuery ki.index (planQuery q')) with
  | error e => rfl
  | ok effective =>
    rw [ok_bind, ok_bind]
    cases asserts (MojDbQueryPlan.Checked.pushClauses ki.index.text effective.whereClauses 0 ki.index.props
      (MojDbQueryPlan.Checked.initial ki.index)) with
    | error e => rfl
    | ok building =>
      rw [ok_bind, ok_bind]
      cases asserts (MojDbQueryPlan.Checked.rangesFromBuilders effective building) with
      | error e => rfl
      | ok ranges => rfl

theorem findImpl_congr (h : q.SameSearch q') (env : MojDbEnv) : findImpl env q = (findImpl env q').map (withQuery q) := by
  have hvalidate : q.validate = q'.validate := by
    unfold MojDbQuery.validate
    rw [h.whereClauses, h.filterClauses]
  have hcollation : retrieveCollation env q = retrieveCollation env q' := by
    unfold retrieveCollation
    rw [h.orderProp, h.fromType]
  unfold findImpl
  rw [hvalidate, hcollation, h.fromType, planQuery_congr h]
  cases throws q'.validate with
  | error e => rfl
  | ok u =>
    rw [ok_bind, ok_bind]
    split
    · rfl
    · split
      · rfl
      · exact indexFind_congr h _ _

theorem query_of_findImpl {env : MojDbEnv} {c : MojDbSearchCursor} (h : findImpl env q = .ok c) : c.query = q := by
  unfold findImpl at h
  obtain ⟨_, -, h⟩ := bind_eq_ok.mp h
  split at h
  · cases h
  · split at h
    · cases h
    · obtain ⟨_, -, h⟩ := bind_eq_ok.mp h
      obtain ⟨_, -, h⟩ := bind_eq_ok.mp h
      obtain ⟨_, -, h⟩ := bind_eq_ok.mp h
      obtain rfl := pure_eq_ok.mp h
      rfl

theorem groupLoop_withQuery (store : Store) (c : MojDbSearchCursor) (query : MojDbSearchQuery) (fuel : Nat)
    (storageQuery : MojDbIsamQuery) (groupMap : GroupMap) :
    groupLoop store (withQuery query c) fuel storageQuery groupMap = groupLoop store c fuel storageQuery groupMap := by
  induction fuel generalizing storageQuery groupMap with
  | zero => rfl
  | succ fuel ih =>
    have hget : getId store (withQuery query c) storageQuery = getId store c storageQuery := rfl
    rw [groupLoop, groupLoop, hget]
    split
    · rfl
    · rfl
    · exact ih _ _

/-- The ids do not depend on what the cursor keeps of its query. -/
theorem loadIds_withQuery (store : Store) (c : MojDbSearchCursor) (query : MojDbSearchQuery) :
    loadIds store (withQuery query c) = loadIds store c := by
  unfold loadIds
  have hcalls : calls store (withQuery query c) = calls store c := rfl
  rw [groupLoop_withQuery, hcalls]
  rfl

theorem filtered_congr (h : q.SameSearch q') (store : Store) (c : MojDbSearchCursor) :
    filtered store (withQuery q c) = filtered store (withQuery q' c) := by
  funext obj
  change (if q.filterClauses.isEmpty then _ else MojDbQueryFilter.test store.icu q.filterClauses obj) =
    if q'.filterClauses.isEmpty then _ else MojDbQueryFilter.test store.icu q'.filterClauses obj
  rw [h.filterClauses]

theorem searchThread_callee_congr (h : q.SameSearch q') (store : Store) (c : MojDbSearchCursor) :
    searchThread_callee store (withQuery q c) = searchThread_callee store (withQuery q' c) := by
  have hget : getById store (withQuery q c) = getById store (withQuery q' c) := rfl
  funext id
  unfold searchThread_callee
  rw [filtered_congr h, hget]

theorem orderProp_congr (h : q.SameSearch q') (c : MojDbSearchCursor) :
    orderProp (withQuery q c) = orderProp (withQuery q' c) := by
  change (if q.distinct.isEmpty then q.orderProp else q.distinct) = if q'.distinct.isEmpty then q'.orderProp else q'.distinct
  rw [h.distinct, h.orderProp]

theorem sort_congr (h : q.SameSearch q') (store : Store) (c : MojDbSearchCursor) :
    sort store (withQuery q c) = sort store (withQuery q' c) := by
  have horder := orderProp_congr h c
  have hkeys : withSortKeys (withQuery q c) = withSortKeys (withQuery q' c) := by
    funext item
    unfold withSortKeys sortKeys
    simp only [horder]
    rfl
  funext items
  unfold sort
  rw [hkeys]

/-- Without immediate return neither limit nor page counts. -/
theorem loadSorted_congr (h : q.SameSearch q') (store : Store) (c : MojDbSearchCursor) :
    loadSorted store (withQuery q c) = loadSorted store (withQuery q' c) := by
  have hobjects : loadObjects store (withQuery q c) = loadObjects store (withQuery q' c) := by
    funext ids
    unfold loadObjects
    rw [searchThread_callee_congr h]
  have hdesc : (withQuery q c).query.desc = (withQuery q' c).query.desc := h.desc
  have hdistinct : (withQuery q c).query.distinct = (withQuery q' c).query.distinct := h.distinct
  unfold loadSorted
  rw [loadIds_withQuery, loadIds_withQuery, hobjects, orderProp_congr h, sort_congr h, hdesc, hdistinct]

theorem push_congr (c : MojDbSearchCursor) (hlimit : q.limit = q'.limit) (hpage : q.page = q'.page) :
    Immediate.push (withQuery q c) = Immediate.push (withQuery q' c) := by
  have hinit : initPage (withQuery q c) = initPage (withQuery q' c) := by
    change (if q.page = [] then [] else MojDbQuery.pageFromObject (MojDbSearchQuery.pageObject q.page) []) =
      if q'.page = [] then [] else MojDbQuery.pageFromObject (MojDbSearchQuery.pageObject q'.page) []
    rw [hpage]
  have hquery : (withQuery q c).query.limit = (withQuery q' c).query.limit := hlimit
  funext s id obj
  unfold Immediate.push
  rw [hinit, hquery]

theorem immediateLoop_congr (h : q.SameSearch q') (hlimit : q.limit = q'.limit) (hpage : q.page = q'.page) (store : Store)
    (c : MojDbSearchCursor) (fuel : Nat) (storageQuery : MojDbIsamQuery) (s : Immediate) :
    immediateLoop store (withQuery q c) fuel storageQuery s = immediateLoop store (withQuery q' c) fuel storageQuery s := by
  induction fuel generalizing storageQuery s with
  | zero => rfl
  | succ fuel ih =>
    have hgetId : getId store (withQuery q c) storageQuery = getId store (withQuery q' c) storageQuery := rfl
    have hgetById : getById store (withQuery q c) = getById store (withQuery q' c) := rfl
    rw [immediateLoop, immediateLoop, hgetId, hgetById, filtered_congr h, push_congr c hlimit hpage]
    simp only [ih]

/-- Queries that end at the same place, or both load everything. -/
theorem loadItems_congr (h : q.SameSearch q') (himmediate : isImmediate q = isImmediate q')
    (hends : isImmediate q = true → q.limit = q'.limit ∧ q.page = q'.page) (store : Store) (c : MojDbSearchCursor) :
    loadItems store (withQuery q c) = loadItems store (withQuery q' c) := by
  unfold loadItems
  change (if isImmediate q then _ else _) = if isImmediate q' then _ else _
  rw [← himmediate]
  cases hq : isImmediate q with
  | false => exact loadSorted_congr h store c
  | true =>
    obtain ⟨hlimit, hpage⟩ := hends hq
    have hcalls : calls store (withQuery q c) = calls store (withQuery q' c) := rfl
    have hquery : (withQuery q c).find.items.query = (withQuery q' c).find.items.query := rfl
    rw [if_pos rfl, if_pos rfl, loadWithImmediateReturn, loadWithImmediateReturn, hcalls, hquery,
      immediateLoop_congr h hlimit hpage]

end MojDbSearchCursor

namespace MojDbSearchQuery

open MojDbSearchCursor

variable {q q' : MojDbSearchQuery}

theorem resultIds_eq (h : q.SameSearch q') (himmediate : isImmediate q = isImmediate q')
    (hends : isImmediate q = true → q.limit = q'.limit ∧ q.page = q'.page) (store : Store) :
    q.resultIds store = q'.resultIds store := by
  unfold resultIds
  rw [findImpl_congr h]
  cases hfind : findImpl store.env q' with
  | error e => rfl
  | ok c =>
    have hsame : withQuery q' c = c := by
      rw [withQuery, ← query_of_findImpl hfind]
    change ((withQuery q c).loadItems store >>= _) = (c.loadItems store >>= _)
    rw [loadItems_congr h himmediate hends, hsame]

theorem SameWritten.sameSearch (h : q.SameWritten q') (hoptions : q.SameOptions q') : q.SameSearch q' where
  fromType := h.fromType
  whereClauses := h.whereClauses_eq hoptions.defined.1 hoptions.defined.2
  filterClauses := h.filterClauses_eq hoptions.defined.1 hoptions.defined.2
  orderProp := h.orderProp
  distinct := h.distinct
  desc := h.desc
  ignoreInactiveShards := hoptions.ignoreInactiveShards

/-- The order of the keys of queries is a strict weak order, with the equal keys as the ones of which neither is less; and
**queries with equal keys find the same ids** on every store, when what the key leaves out is the same. -/
theorem queryKeys_spec (q q' : MojDbSearchQuery) (rev : UInt32) :
    IsStrictWeakOrder {key : QueryKey // key.IsBuilt} (fun key rhsKey => key.1.less rhsKey.1 = true) ∧
      (∀ key rhsKey : {key : QueryKey // key.IsBuilt},
        ¬key.1.less rhsKey.1 = true ∧ ¬rhsKey.1.less key.1 = true ↔ key.1.equals rhsKey.1 = true) ∧
      (q.SameOptions q' → ∀ key rhsKey, QueryKey.fromQuery q rev = .ok key → QueryKey.fromQuery q' rev = .ok rhsKey →
        key.equals rhsKey = true → ∀ store, q.resultIds store = q'.resultIds store) := by
  refine ⟨QueryKey.isStrictWeakOrder_less, fun key rhsKey => QueryKey.not_less_iff key.2 rhsKey.2, ?_⟩
  intro hoptions key rhsKey hkey hrhsKey hequals store
  have hsame : QueryKey.fromQuery q rev = QueryKey.fromQuery q' rev := by
    rw [hkey, hrhsKey, QueryKey.equals_iff.mp hequals]
  exact resultIds_eq ((QueryKey.sameWritten_of_key hsame).sameSearch hoptions) hoptions.immediate hoptions.ends store

/-- All records of the table. -/
def tableQuery (ignoreInactiveShards : Bool) (limit : Nat) : MojDbSearchQuery :=
  { MojDbQuery.all with
    ignoreInactiveShards, limit
    fromType := MojDb.RevTimestampId
    selectProps := .empty
    immediateReturn := false
    filter_nodup := List.nodup_nil
    upper_none := fun _ hp => nomatch hp
    vals_ordered := fun _ hp => nomatch hp }

/-- A record on a medium that is not there, and its key in the index of the ids. -/
def absentRecord : MojObject :=
  .object [(MojDb.IdKey, .string MojDb.absentShardId), (MojDb.KindKey, .string MojDb.RevTimestampId)]

def absentStore : Store where
  env := MojDb.purgeEnv
  data :=
    { objs := fun idKey => if idKey = (MojObject.string MojDb.absentShardId).toBytes then some absentRecord else none
      contents := fun index shard =>
        if index = 3 ∧ shard = 8 then .singleton ((MojDb.idIndexOf 3).keyOf [.bool false, .string MojDb.absentShardId]) else .empty
      nextId := 10 }
  icu := MojDbQueryFilter.asciiIcu
  excludeKinds := []
  rand := fun _ => 0

/-- Two pages of a query are of different sizes. -/
theorem queryKeys_table :
    IsStrictWeakOrder {key : QueryKey // key.IsBuilt} (fun key rhsKey => key.1.less rhsKey.1 = true) ∧
      (∀ key rhsKey : {key : QueryKey // key.IsBuilt},
        ¬key.1.less rhsKey.1 = true ∧ ¬rhsKey.1.less key.1 = true ↔ key.1.equals rhsKey.1 = true) ∧
      ∀ store, (tableQuery true 5).resultIds store = (tableQuery true 7).resultIds store := by
  obtain ⟨horder, hequals, hids⟩ := queryKeys_spec (tableQuery true 5) (tableQuery true 7) 1
  have hkey := QueryKey.fromQuery_eq (tableQuery true 5) 1
  have hkey' : QueryKey.fromQuery (tableQuery true 7) 1 = QueryKey.fromQuery (tableQuery true 5) 1 := by decide +kernel
  refine ⟨horder, hequals, hids ?_ _ _ hkey (hkey'.trans hkey) (QueryKey.equals_iff.mpr rfl)⟩
  exact
    { ignoreInactiveShards := rfl
      immediate := rfl
      ends := fun h => by cases h
      defined := ⟨fun _ h => (by cases h), fun _ h => (by cases h)⟩ }

/-- The key does not tell whether the records of the inactive shard are ignored. -/
theorem not_sameIds_table : ¬ ∀ (q q' : MojDbSearchQuery) (rev : UInt32) (key rhsKey : QueryKey),
    QueryKey.fromQuery q rev = .ok key → QueryKey.fromQuery q' rev = .ok rhsKey → key.equals rhsKey = true →
      ∀ store, q.resultIds store = q'.resultIds store := by
  intro h
  have hkey := QueryKey.fromQuery_eq (tableQuery true 5) 1
  have hkey' : QueryKey.fromQuery (tableQuery false 5) 1 = QueryKey.fromQuery (tableQuery true 5) 1 := by decide +kernel
  have hsame := h (tableQuery true 5) (tableQuery false 5) 1 _ _ hkey (hkey'.trans hkey) (QueryKey.equals_iff.mpr rfl) absentStore
  have hignored : (tableQuery true 5).resultIds absentStore = .ok [] := by decide +kernel
  have hfound : (tableQuery false 5).resultIds absentStore = .ok [.string MojDb.absentShardId] := by decide +kernel
  rw [hignored, hfound] at hsame
  cases hsame

end MojDbSearchQuery

end Db8
