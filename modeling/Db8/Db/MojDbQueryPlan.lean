import Db8.Db.MojDbIndex

/-!
# Db.MojDbQueryPlan

The key ranges a find query scans on an index.

* `buildRanges`       — lower and upper key builders over the clauses of the leading properties.
* `rangesFromKeys`    — the ranges of one combination of bounds, by operator.
* `addRange`          — cuts a range at the page key, and drops it inside its predecessor.
* `rangesFromKeySets_spec` — which keys the ranges hold, in terms of the bounds.

The search operator, which `validateFind` refuses, has its own bounds and is not built here.
-/

namespace Db8

open Lib

namespace MojDbQueryPlan

/-! ## Bounds -/

def pushVal (text : MojDbText) (stack : List KeySet) (val : MojObject)
    (coll : Option MojDbCollationStrength) : List KeySet :=
  stack ++ [.ofList (val.alternatives.map (MojDbKey.assign text coll))]

structure Bounds where
  lowerBuilder : List KeySet
  upperBuilder : List KeySet
  prefixKeys : KeySet
  lastClause : Option WhereClause

def pushClause (text : MojDbText) (b : Bounds) (clause : WhereClause) : Bounds where
  lowerBuilder := pushVal text b.lowerBuilder clause.lowerVal clause.collation
  upperBuilder :=
    pushVal text b.upperBuilder
      (if clause.upperOp = .opNone then clause.lowerVal else clause.upperVal) clause.collation
  prefixKeys :=
    -- copy off the prefix before an inequality value is written
    if clause.lowerOp ≠ .opEq ∧ clause.lowerOp ≠ .opPrefix then
      let keys := MojDbKeyBuilder.keys b.lowerBuilder
      if keys.isEmpty then .singleton [] else keys
    else b.prefixKeys
  lastClause := some clause

/-- The clauses of the leading properties; the first property without a clause ends them. -/
def pushClauses (text : MojDbText) (whereMap : WhereMap) : List MojDbExtractor → Bounds → Bounds
  | [], b => b
  | prop :: props, b =>
    match WhereMap.find whereMap prop.name with
    | none => b
    | some clause => pushClauses text whereMap props (pushClause text b clause)

/-! ## Ranges -/

/-- The part of a range on the current page and after it. -/
def pageRange (query : MojDbQuery) (range : MojDbKeyRange) : Option MojDbKeyRange :=
  if query.page = [] then some range
  else
    let ub := range.key (!query.desc)
    if ub ≠ [] ∧ decide (query.page ≤ ub) = query.desc then none
    else
      let lb := range.key query.desc
      if lb = [] ∨ decide (query.page < lb) = query.desc then some (range.setKey query.desc query.page)
      else some range

def addRange (query : MojDbQuery) (ranges : List MojDbKeyRange) (lowerKey upperKey : MojDbKey) :
    List MojDbKeyRange :=
  match pageRange query ⟨lowerKey, upperKey, 0⟩ with
  | none => ranges
  | some range =>
    match ranges.getLast? with
    | none => [range]
    | some back => if back.containsRange range then ranges else ranges ++ [range]

/-- A string value ends with its terminator, which is no part of a prefix. -/
def trimPrefix (key : MojDbKey) : MojDbKey := if key.getLast? = some 0 then key.dropLast else key

def rangesFromKeys (query : MojDbQuery) (clause : Option WhereClause) (ranges : List MojDbKeyRange)
    (keys : MojDbKey × MojDbKey × MojDbKey) : List MojDbKeyRange :=
  let lowerKey := keys.1
  let pre := keys.2.2
  let lowerOp := (clause.map (·.lowerOp)).getD .opEq
  let upperOp := (clause.map (·.upperOp)).getD .opNone
  let upperKey :=
    match upperOp with
    | .opNone => MojDbKey.increment pre
    | .opLessThanEq => MojDbKey.increment keys.2.1
    | _ => keys.2.1
  match lowerOp with
  | .opNone => addRange query ranges lowerKey upperKey
  | .opPrefix => addRange query ranges lowerKey (MojDbKey.increment (trimPrefix pre))
  | .opEq => addRange query ranges lowerKey (MojDbKey.increment pre)
  | .opNotEq =>
    let ranges := addRange query ranges pre lowerKey
    addRange query ranges (MojDbKey.increment lowerKey) (MojDbKey.increment pre)
  | .opGreaterThan => addRange query ranges (MojDbKey.increment lowerKey) upperKey
  | .opGreaterThanEq => addRange query ranges lowerKey upperKey
  | _ => ranges

def rangesFromKeySets (query : MojDbQuery) (clause : Option WhereClause)
    (lowerKeys upperKeys prefixKeys : KeySet) : List MojDbKeyRange :=
  (lowerKeys.elems.zip (upperKeys.elems.zip prefixKeys.elems)).foldl (rangesFromKeys query clause) []

def buildRanges (index : MojDbIndex) (query : MojDbQuery) : List MojDbKeyRange :=
  let idBuilder := pushVal index.text [] (.int index.id) none
  let b := pushClauses index.text query.whereClauses index.props ⟨idBuilder, idBuilder, .empty, none⟩
  let lowerKeys := MojDbKeyBuilder.keys b.lowerBuilder
  let upperKeys := MojDbKeyBuilder.keys b.upperBuilder
  let prefixKeys := if b.prefixKeys.isEmpty then lowerKeys else b.prefixKeys
  rangesFromKeySets query b.lastClause lowerKeys upperKeys prefixKeys

/-- A query that says nothing about deleted objects leaves them out of an index that has them. -/
def effectiveQuery (index : MojDbIndex) (query : MojDbQuery) : Except MojErr MojDbQuery :=
  if index.includeDeleted ∧ WhereMap.contains query.whereClauses MojDb.DelKey = false then
    query.addWhere MojDb.DelKey .opEq (.bool false) none
  else .ok query

def init (index : MojDbIndex) (query : MojDbQuery) : Except MojErr (List MojDbKeyRange) := do
  let query ← effectiveQuery index query
  let ranges := buildRanges index query
  return if query.desc then ranges.reverse else ranges

/-! ## What the ranges hold -/

def Covered (ranges : List MojDbKeyRange) (key : MojDbKey) : Prop :=
  ∃ range ∈ ranges, range.contains key = true

/-- The key is on the page the query asks for, or after it. -/
def OnPage (query : MojDbQuery) (key : MojDbKey) : Prop :=
  query.page = [] ∨ if query.desc then key < query.page else query.page ≤ key

/-- Every range has an upper bound. The test for a range inside its predecessor relies on it: an
empty upper key counts as the least key there. -/
def Bounded (ranges : List MojDbKeyRange) : Prop := ∀ range ∈ ranges, range.upperKey ≠ []

theorem contains_iff_of_bounded {range : MojDbKeyRange} (h : range.upperKey ≠ []) {key : MojDbKey} :
    range.contains key = true ↔ range.lowerKey ≤ key ∧ key < range.upperKey := by
  rw [MojDbKeyRange.contains_iff, MojDbKey.Below]
  simp [h]

@[simp] theorem not_covered_nil (key : MojDbKey) : ¬ Covered [] key := by simp [Covered]

theorem covered_append {ranges : List MojDbKeyRange} {range : MojDbKeyRange} {key : MojDbKey} :
    Covered (ranges ++ [range]) key ↔ Covered ranges key ∨ range.contains key = true := by
  simp only [Covered, List.mem_append, List.mem_singleton]
  constructor
  · rintro ⟨r, hr | rfl, hc⟩
    exacts [.inl ⟨r, hr, hc⟩, .inr hc]
  · rintro (⟨r, hr, hc⟩ | hc)
    exacts [⟨r, .inl hr, hc⟩, ⟨range, .inr rfl, hc⟩]

theorem covered_reverse {ranges : List MojDbKeyRange} {key : MojDbKey} :
    Covered ranges.reverse key ↔ Covered ranges key := by
  simp [Covered]

/-- A range that is discarded has no key on the page. -/
theorem pageRange_none {query : MojDbQuery} {range : MojDbKeyRange}
    (h : pageRange query range = none) {key : MojDbKey} (hpage : OnPage query key) :
    ¬ (range.lowerKey ≤ key ∧ key < range.upperKey) := by
  rintro ⟨hlower, hupper⟩
  simp only [pageRange] at h
  split_ifs at h with hempty hdiscard
  have hside := hpage.resolve_left hempty
  cases hdesc : query.desc with
  | false =>
    simp only [hdesc, MojDbKeyRange.key, Bool.not_false, if_true, decide_eq_false_iff_not, not_le,
      Bool.false_eq_true, if_false] at hdiscard hside
    exact (hdiscard.2.trans_le hside).asymm hupper
  | true =>
    simp only [hdesc, MojDbKeyRange.key, Bool.not_true, Bool.false_eq_true, if_false,
      decide_eq_true_eq, if_true] at hdiscard hside
    exact (hdiscard.2.trans hlower).not_gt hside

/-- A range that is kept, cut or not, has just its keys on the page. -/
theorem pageRange_some {query : MojDbQuery} {range cut : MojDbKeyRange} (hu : range.upperKey ≠ [])
    (h : pageRange query range = some cut) :
    cut.upperKey ≠ [] ∧ ∀ key, cut.lowerKey ≤ key ∧ key < cut.upperKey ↔
      OnPage query key ∧ range.lowerKey ≤ key ∧ key < range.upperKey := by
  simp only [pageRange] at h
  split_ifs at h with hempty hdiscard hcut
  · cases h
    exact ⟨hu, fun key => by simp [OnPage, hempty]⟩
  · cases h
    cases hdesc : query.desc with
    | false =>
      simp only [hdesc, MojDbKeyRange.key, Bool.false_eq_true, if_false, decide_eq_false_iff_not,
        not_lt] at hcut
      have hle : range.lowerKey ≤ query.page := hcut.elim (fun h0 => h0 ▸ nil_le _) id
      refine ⟨by simpa [MojDbKeyRange.setKey] using hu, fun key => ?_⟩
      simp only [MojDbKeyRange.setKey, Bool.false_eq_true, if_false, OnPage, hempty, hdesc, false_or]
      exact ⟨fun ⟨hl, hr⟩ => ⟨hl, hle.trans hl, hr⟩, fun ⟨hl, _, hr⟩ => ⟨hl, hr⟩⟩
    | true =>
      simp only [hdesc, MojDbKeyRange.key, if_true, decide_eq_true_eq, hu, false_or] at hcut
      refine ⟨by simpa [MojDbKeyRange.setKey] using hempty, fun key => ?_⟩
      simp only [MojDbKeyRange.setKey, if_true, OnPage, hempty, hdesc, false_or]
      exact ⟨fun ⟨hl, hr⟩ => ⟨hr, hl, hr.trans hcut⟩, fun ⟨hr, hl, _⟩ => ⟨hl, hr⟩⟩
  · cases h
    refine ⟨hu, fun key => ?_⟩
    obtain ⟨hlb, hcut⟩ := not_or.mp hcut
    cases hdesc : query.desc with
    | false =>
      simp only [hdesc, MojDbKeyRange.key, Bool.false_eq_true, if_false, decide_eq_false_iff_not,
        not_not] at hcut
      simp only [OnPage, hempty, hdesc, false_or, Bool.false_eq_true, if_false]
      exact ⟨fun ⟨hl, hr⟩ => ⟨(hcut.trans_le hl).le, hl, hr⟩, fun ⟨_, hl, hr⟩ => ⟨hl, hr⟩⟩
    | true =>
      simp only [hdesc, MojDbKeyRange.key, if_true, decide_eq_true_eq, not_lt] at hcut
      simp only [OnPage, hempty, hdesc, false_or, if_true]
      exact ⟨fun ⟨hl, hr⟩ => ⟨hr.trans_le hcut, hl, hr⟩, fun ⟨_, hl, hr⟩ => ⟨hl, hr⟩⟩

/-- Dropping a range that falls inside its predecessor loses no key. -/
theorem addRange_spec {query : MojDbQuery} {ranges : List MojDbKeyRange} (hb : Bounded ranges)
    {lowerKey upperKey : MojDbKey} (hu : upperKey ≠ []) :
    Bounded (addRange query ranges lowerKey upperKey) ∧
      ∀ key, Covered (addRange query ranges lowerKey upperKey) key ↔
        Covered ranges key ∨ OnPage query key ∧ lowerKey ≤ key ∧ key < upperKey := by
  have hu' : (MojDbKeyRange.mk lowerKey upperKey 0).upperKey ≠ [] := hu
  unfold addRange
  cases hpage : pageRange query ⟨lowerKey, upperKey, 0⟩ with
  | none =>
    refine ⟨hb, fun key => ⟨.inl, ?_⟩⟩
    rintro (h | ⟨hon, h⟩)
    exacts [h, absurd h (pageRange_none hpage hon)]
  | some range =>
    obtain ⟨hbound, hrange⟩ := pageRange_some hu' hpage
    have hnew : ∀ key, range.contains key = true ↔
        OnPage query key ∧ lowerKey ≤ key ∧ key < upperKey := fun key => by
      rw [contains_iff_of_bounded hbound, hrange]
    dsimp only
    cases hback : ranges.getLast? with
    | none =>
      obtain rfl := List.getLast?_eq_none_iff.mp hback
      exact ⟨by simpa [Bounded] using hbound, fun key => by simp [Covered, hnew]⟩
    | some back =>
      have hmem := List.mem_of_getLast? hback
      dsimp only
      split_ifs with hinside
      · refine ⟨hb, fun key => ⟨.inl, ?_⟩⟩
        rintro (h | h)
        · exact h
        · have hkey := (contains_iff_of_bounded hbound).mp ((hnew key).mpr h)
          have hbackBound := hb back hmem
          simp only [MojDbKeyRange.containsRange, hbackBound, false_or, decide_eq_true_eq,
            contains_iff_of_bounded hbackBound] at hinside
          obtain ⟨⟨hlow, -⟩, hup⟩ := hinside
          exact ⟨back, hmem, (contains_iff_of_bounded hbackBound).mpr
            ⟨hlow.trans hkey.1, hkey.2.trans_le hup⟩⟩
      · refine ⟨?_, fun key => by rw [covered_append, hnew]⟩
        intro r hr
        rcases List.mem_append.mp hr with hr | hr
        · exact hb r hr
        · obtain rfl := List.mem_singleton.mp hr
          exact hbound

/-- The lower and upper keys `rangesFromKeys` hands to `addRange`, in order. -/
def spans (clause : Option WhereClause) (keys : MojDbKey × MojDbKey × MojDbKey) :
    List (MojDbKey × MojDbKey) :=
  let lowerKey := keys.1
  let pre := keys.2.2
  let upperKey :=
    match (clause.map (·.upperOp)).getD .opNone with
    | .opNone => MojDbKey.increment pre
    | .opLessThanEq => MojDbKey.increment keys.2.1
    | _ => keys.2.1
  match (clause.map (·.lowerOp)).getD .opEq with
  | .opNone => [(lowerKey, upperKey)]
  | .opPrefix => [(lowerKey, MojDbKey.increment (trimPrefix pre))]
  | .opEq => [(lowerKey, MojDbKey.increment pre)]
  | .opNotEq => [(pre, lowerKey), (MojDbKey.increment lowerKey, MojDbKey.increment pre)]
  | .opGreaterThan => [(MojDbKey.increment lowerKey, upperKey)]
  | .opGreaterThanEq => [(lowerKey, upperKey)]
  | _ => []

theorem rangesFromKeys_eq (query : MojDbQuery) (clause : Option WhereClause)
    (ranges : List MojDbKeyRange) (keys : MojDbKey × MojDbKey × MojDbKey) :
    rangesFromKeys query clause ranges keys =
      (spans clause keys).foldl (fun ranges span => addRange query ranges span.1 span.2) ranges := by
  unfold rangesFromKeys spans
  cases (clause.map (·.lowerOp)).getD .opEq <;> rfl

theorem foldl_addRange_spec {query : MojDbQuery} {spans : List (MojDbKey × MojDbKey)}
    (hspans : ∀ span ∈ spans, span.2 ≠ []) {ranges : List MojDbKeyRange} (hb : Bounded ranges) :
    Bounded (spans.foldl (fun ranges span => addRange query ranges span.1 span.2) ranges) ∧
      ∀ key, Covered (spans.foldl (fun ranges span => addRange query ranges span.1 span.2) ranges) key ↔
        Covered ranges key ∨ OnPage query key ∧ ∃ span ∈ spans, span.1 ≤ key ∧ key < span.2 := by
  induction spans generalizing ranges with
  | nil => exact ⟨hb, by simp⟩
  | cons span spans ih =>
    obtain ⟨hb', hadd⟩ := @addRange_spec query ranges hb span.1 span.2 (hspans span (by simp))
    obtain ⟨hb'', hrest⟩ := ih (fun sp hsp => hspans sp (by simp [hsp])) hb'
    refine ⟨hb'', fun key => ?_⟩
    rw [List.foldl_cons, hrest, hadd]
    simp only [List.mem_cons, exists_eq_or_imp]
    tauto

theorem rangesFromKeySets_eq (query : MojDbQuery) (clause : Option WhereClause)
    (lowerKeys upperKeys prefixKeys : KeySet) :
    rangesFromKeySets query clause lowerKeys upperKeys prefixKeys =
      ((lowerKeys.elems.zip (upperKeys.elems.zip prefixKeys.elems)).flatMap (spans clause)).foldl
        (fun ranges span => addRange query ranges span.1 span.2) [] := by
  rw [rangesFromKeySets, List.foldl_flatMap]
  congr 1
  funext ranges keys
  exact rangesFromKeys_eq query clause ranges keys

/-- The keys of the ranges are those on the page that lie in one of the spans. -/
theorem rangesFromKeySets_spec {query : MojDbQuery} {clause : Option WhereClause}
    {lowerKeys upperKeys prefixKeys : KeySet}
    (h : ∀ keys ∈ lowerKeys.elems.zip (upperKeys.elems.zip prefixKeys.elems),
      ∀ span ∈ spans clause keys, span.2 ≠ []) (key : MojDbKey) :
    Covered (rangesFromKeySets query clause lowerKeys upperKeys prefixKeys) key ↔
      OnPage query key ∧ ∃ keys ∈ lowerKeys.elems.zip (upperKeys.elems.zip prefixKeys.elems),
        ∃ span ∈ spans clause keys, span.1 ≤ key ∧ key < span.2 := by
  have hspans : ∀ span ∈ (lowerKeys.elems.zip (upperKeys.elems.zip prefixKeys.elems)).flatMap
      (spans clause), span.2 ≠ [] := by
    intro span hspan
    obtain ⟨keys, hkeys, hspan⟩ := List.mem_flatMap.mp hspan
    exact h keys hkeys span hspan
  rw [rangesFromKeySets_eq, (foldl_addRange_spec hspans (by simp [Bounded])).2]
  simp only [not_covered_nil, false_or, List.mem_flatMap]
  constructor
  · rintro ⟨hpage, span, ⟨keys, hkeys, hspan⟩, hin⟩
    exact ⟨hpage, keys, hkeys, span, hspan, hin⟩
  · rintro ⟨hpage, keys, hkeys, span, hspan, hin⟩
    exact ⟨hpage, span, ⟨keys, hkeys, hspan⟩, hin⟩

end MojDbQueryPlan

end Db8
