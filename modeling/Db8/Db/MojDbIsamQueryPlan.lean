import Db8.Db.MojDbIsamQuery
import Db8.Db.MojDbQueryOrder
import Db8.Db.MojDbQueryPlanAsserts

/-!
# Db.MojDbIsamQueryPlan

What a find query returns for the ranges its own plan builds.

* `ungrouped_buildRanges` — but for the groups of a search, the ranges are those of the spans, in order.
* `buildRanges_behind`    — for all operators, each range begins behind the one before it.
* `keysOf_planned`        — the keys in the ranges that are not of an inactive shard, each once, up to the limit.
-/

namespace Db8

open Lib

namespace MojDbQueryPlan

/-! ## Ranges without their groups -/

def ungrouped (ranges : List MojDbKeyRange) : List MojDbKeyRange := ranges.map fun r => { r with group := 0 }

theorem bounded_ungrouped {ranges : List MojDbKeyRange} : Bounded (ungrouped ranges) ↔ Bounded ranges := by
  simp [Bounded, ungrouped]

theorem behind_ungrouped {desc : Bool} {ranges : List MojDbKeyRange} :
    (ungrouped ranges).Pairwise (Behind desc) ↔ ranges.Pairwise (Behind desc) := by
  rw [ungrouped, List.pairwise_map]
  constructor
  · intro h
    exact h.imp fun hab => ⟨hab.apart, hab.start_le⟩
  · intro h
    exact h.imp fun hab => ⟨hab.apart, hab.start_le⟩

/-- The page cuts the bounds only. -/
theorem pageRange_ungrouped (query : MojDbQuery) (lowerKey upperKey : MojDbKey) (group : Nat) :
    (pageRange query ⟨lowerKey, upperKey, group⟩).map (fun r => { r with group := 0 }) =
      pageRange query ⟨lowerKey, upperKey, 0⟩ := by
  unfold pageRange MojDbKeyRange.key MojDbKeyRange.setKey
  dsimp only
  split_ifs <;> rfl

theorem ungrouped_addRange (query : MojDbQuery) (ranges : List MojDbKeyRange) (lowerKey upperKey : MojDbKey)
    (group : Nat) : ungrouped (Checked.addRange query ranges lowerKey upperKey group) =
      addRange query (ungrouped ranges) lowerKey upperKey := by
  have hpage := pageRange_ungrouped query lowerKey upperKey group
  have hlast : (ungrouped ranges).getLast? = ranges.getLast?.map fun r => { r with group := 0 } := List.getLast?_map
  unfold Checked.addRange addRange
  rw [← hpage, hlast]
  cases pageRange query ⟨lowerKey, upperKey, group⟩ with
  | none => rfl
  | some range =>
    cases ranges.getLast? with
    | none => rfl
    | some back =>
      simp only [Option.map_some]
      have hinside : MojDbKeyRange.containsRange { back with group := 0 } { range with group := 0 } =
          back.containsRange range := rfl
      rw [hinside]
      split_ifs
      · rfl
      · rw [ungrouped, List.map_append]
        rfl

/-- The lower and upper keys of one combination, also of a search. -/
def Checked.spans (clause : Option WhereClause) (keys : MojDbKey × MojDbKey × MojDbKey) : List (MojDbKey × MojDbKey) :=
  if (clause.map (·.lowerOp)).getD .opEq = .opSearch then [(keys.1, MojDbKey.increment (trimPrefix keys.2.2))]
  else MojDbQueryPlan.spans clause keys

/-- The upper bound is the one of the plan without assertions. -/
theorem upperBound_eq {lowerOp upperOp : CompOp} {upperKey pre bound : MojDbKey} :
    Checked.upperBound lowerOp upperOp upperKey pre = .ok bound →
      bound = match upperOp with
        | .opNone => MojDbKey.increment pre
        | .opLessThanEq => MojDbKey.increment upperKey
        | _ => upperKey := by
  intro h
  unfold Checked.upperBound at h
  cases upperOp with
  | opLessThanEq => exact (Except.ok.inj h).symm
  | _ =>
    obtain ⟨_, -, hret⟩ := bind_eq_ok.mp h
    exact (pure_eq_ok.mp hret).symm

theorem ungrouped_rangesFromKeys {query : MojDbQuery} {clause : Option WhereClause} {groupCount : Nat}
    {ranges ranges' : List MojDbKeyRange} {keys : (MojDbKey × MojDbKey × MojDbKey) × Nat}
    (h : Checked.rangesFromKeys query clause groupCount ranges keys = .ok ranges') :
    ungrouped ranges' =
      (Checked.spans clause keys.1).foldl (fun ranges span => addRange query ranges span.1 span.2) (ungrouped ranges) := by
  unfold Checked.rangesFromKeys at h
  obtain ⟨upperKey, hupper, h⟩ := bind_eq_ok.mp h
  obtain rfl := upperBound_eq hupper
  unfold Checked.spans MojDbQueryPlan.spans
  dsimp only at h ⊢
  cases hop : (clause.map (·.lowerOp)).getD CompOp.opEq with
  | opNone | opSearch | opPrefix =>
    rw [hop] at h
    obtain ⟨_, -, hret⟩ := bind_eq_ok.mp h
    rw [← pure_eq_ok.mp hret]
    exact ungrouped_addRange query ranges _ _ _
  | opNotEq =>
    rw [hop] at h
    rw [← pure_eq_ok.mp h, ungrouped_addRange, ungrouped_addRange]
    rfl
  | opEq | opGreaterThan | opGreaterThanEq =>
    rw [hop] at h
    rw [← pure_eq_ok.mp h]
    exact ungrouped_addRange query ranges _ _ _
  | opSubString | opLessThan | opLessThanEq =>
    rw [hop] at h
    cases h

theorem ungrouped_foldlM {query : MojDbQuery} {clause : Option WhereClause} {groupCount : Nat}
    {combinations : List ((MojDbKey × MojDbKey × MojDbKey) × Nat)} {ranges ranges' : List MojDbKeyRange}
    (h : combinations.foldlM (Checked.rangesFromKeys query clause groupCount) ranges = .ok ranges') :
    ungrouped ranges' = ((combinations.map Prod.fst).flatMap (Checked.spans clause)).foldl
      (fun ranges span => addRange query ranges span.1 span.2) (ungrouped ranges) := by
  induction combinations generalizing ranges with
  | nil => rw [pure_eq_ok.mp h]; rfl
  | cons keys combinations ih =>
    rw [List.foldlM_cons] at h
    obtain ⟨next, hnext, hrest⟩ := bind_eq_ok.mp h
    rw [ih hrest, ungrouped_rangesFromKeys hnext, List.map_cons, List.flatMap_cons, List.foldl_append]

theorem ungrouped_rangesFromKeySets {query : MojDbQuery} {clause : Option WhereClause} {groupCount : Nat}
    {lowerKeys upperKeys prefixKeys : KeySet} {ranges : List MojDbKeyRange}
    (h : Checked.rangesFromKeySets query clause groupCount lowerKeys upperKeys prefixKeys = .ok ranges) :
    ungrouped ranges = ((lowerKeys.elems.zip (upperKeys.elems.zip prefixKeys.elems)).flatMap (Checked.spans clause)).foldl
      (fun ranges span => addRange query ranges span.1 span.2) [] := by
  obtain ⟨_, -, hfold⟩ := bind_eq_ok.mp h
  rw [ungrouped_foldlM hfold, List.zipIdx_map_fst]
  rfl

/-! ## The ranges of a plan -/

variable {index : MojDbIndex} {query : MojDbQuery} {front back : List MojDbExtractor} {clauses init : List WhereClause}
  {ranges : List MojDbKeyRange}

/-- Without a search, the ranges are those of the plan without assertions. -/
theorem ungrouped_rangesFromBuilders {b : Checked.Building}
    (hop : (b.bounds.lastClause.map (·.lowerOp)).getD .opEq ≠ .opSearch)
    (h : Checked.rangesFromBuilders query b = .ok ranges) :
    ungrouped ranges = rangesFromKeySets query b.bounds.lastClause (MojDbKeyBuilder.keys b.bounds.lowerBuilder)
      (MojDbKeyBuilder.keys b.bounds.upperBuilder)
      (if b.bounds.prefixKeys.isEmpty then MojDbKeyBuilder.keys b.bounds.lowerBuilder else b.bounds.prefixKeys) := by
  have hspans : Checked.spans b.bounds.lastClause = MojDbQueryPlan.spans b.bounds.lastClause :=
    funext fun keys => if_neg hop
  rw [ungrouped_rangesFromKeySets h, rangesFromKeySets_eq, hspans]

theorem ungrouped_buildRanges (h : Answers index query.whereClauses front back clauses)
    (hsearch : ∀ c ∈ clauses, c.lowerOp ≠ .opSearch) (hranges : Checked.buildRanges index query = .ok ranges) :
    ungrouped ranges = buildRanges index query := by
  cases clauses.eq_nil_or_concat' with
  | inl hnil =>
    subst hnil
    rw [checked_buildRanges_eq h, List.foldlM_nil, pure_bind] at hranges
    have hnone : (Option.map (·.lowerOp) (none : Option WhereClause)).getD CompOp.opEq ≠ .opSearch := by decide
    rw [buildRanges_eq h rfl]
    exact @ungrouped_rangesFromBuilders query ranges (Checked.initial index) hnone hranges
  | inr hconcat =>
    obtain ⟨init, c, rfl⟩ := hconcat
    have hop : c.lowerOp ≠ .opSearch := hsearch c (List.mem_append_right init (List.mem_singleton_self c))
    have hinit : ∀ d ∈ init, d.lowerOp = .opEq := by simpa using h.eq_init
    obtain ⟨last, hbuild⟩ := checked_buildRanges_concat h
    obtain ⟨last', hb⟩ := foldl_pushClause_concat index hinit c
    rw [hbuild, Checked.pushClause, if_neg hop, ok_bind] at hranges
    rw [buildRanges_eq h hb]
    exact @ungrouped_rangesFromBuilders query ranges
      ⟨MojDbQueryPlan.pushClause index.text ⟨eqStack index init, eqStack index init, .empty, last⟩ c, 0⟩ hop hranges

/-- The spans of a search lie one behind the other, or inside the span of a shorter token. -/
theorem spans_search_precede {stack : List KeySet} (hstack : stack ≠ []) {toks : KeySet}
    (htoks : ∀ key ∈ toks, ∃ o : MojObject, key = o.toBytes) :
    let spans := (MojDbKeyBuilder.keys (stack ++ [toks])).elems.map fun k => (k, MojDbKey.increment (trimPrefix k))
    (∀ span ∈ spans, span.2 ≠ []) ∧ spans.Pairwise Precedes := by
  have htrim : ∀ k ∈ MojDbKeyBuilder.keys (stack ++ [toks]), MojDbKey.increment (trimPrefix k) ≠ [] := by
    intro k hk
    obtain ⟨p, -, part, hpart, rfl⟩ := (MojDbKeyBuilder.mem_keys_concat hstack).mp hk
    obtain ⟨o, rfl⟩ := htoks part hpart
    have hne := WhereClause.increment_trimPrefix_ne_nil o
    rw [trimPrefix_append (toBytes_ne_nil o), MojDbKey.increment_append hne]
    exact List.append_ne_nil_of_right_ne_nil p hne
  constructor
  · intro span hspan
    obtain ⟨k, hk, rfl⟩ := List.mem_map.mp hspan
    exact htrim k hk
  · rw [List.pairwise_map]
    refine (MojDbKeyBuilder.keys (stack ++ [toks])).sorted.imp_of_mem fun {k k'} hk hk' hlt => ?_
    exact precedes_of_trimPrefix (htrim k hk) (htrim k' hk') hlt

/-- **The ranges of a plan are apart, each behind the one before it**, whatever the operators. -/
theorem buildRanges_behind (h : Answers index query.whereClauses front back clauses)
    (hranges : Checked.buildRanges index query = .ok ranges) :
    ranges.Pairwise (Behind query.desc) ∧ Bounded ranges := by
  rw [← behind_ungrouped, ← bounded_ungrouped]
  by_cases hsearch : ∀ c ∈ clauses, c.lowerOp ≠ .opSearch
  · rw [ungrouped_buildRanges h hsearch hranges]
    exact buildRanges_ordered h
  -- only the last clause can be a search
  cases clauses.eq_nil_or_concat' with
  | inl hnil =>
    subst hnil
    exact absurd (fun c hc => nomatch hc) hsearch
  | inr hconcat =>
    obtain ⟨init, c, rfl⟩ := hconcat
    have hop : c.lowerOp = .opSearch := by
      by_contra hne
      refine hsearch fun d hd => ?_
      cases List.mem_append.mp hd with
      | inl hd =>
        have heq : d.lowerOp = .opEq := h.eq_init d (by simpa using hd)
        rw [heq]
        decide
      | inr hd => exact List.mem_singleton.mp hd ▸ hne
    obtain ⟨last, hbuild⟩ := checked_buildRanges_concat h
    obtain ⟨toks, htoks, hpush⟩ :=
      Checked.exists_pushSearch index.text ⟨⟨eqStack index init, eqStack index init, .empty, last⟩, 0⟩ c
    have hempty : (SortedSet.empty : KeySet).isEmpty = true := rfl
    have hspans : Checked.spans (some c) = fun keys => [(keys.1, MojDbKey.increment (trimPrefix keys.2.2))] :=
      funext fun keys => if_pos hop
    rw [hbuild, Checked.pushClause, if_pos hop, hpush, ok_bind] at hranges
    obtain ⟨hne, hprec⟩ := spans_search_precede (List.cons_ne_nil index.idSet (init.map (lowerSet index.text))) htoks
    rw [ungrouped_rangesFromKeySets hranges]
    simp only [if_pos hempty, zip_self, hspans, List.flatMap_map]
    rw [← List.map_eq_flatMap]
    exact ⟨foldl_addRange_apart hne hprec ⟨List.Pairwise.nil, by simp⟩,
      (foldl_addRange_spec hne (by simp [Bounded])).1⟩

end MojDbQueryPlan

namespace MojDbIsamQuery

open MojDbQueryPlan (Covered Bounded Behind effectiveQuery)

/-! ## The query on its plan -/

/-- The query as `MojDbIsamQuery::open` sets it up: descending, the last range of the plan comes first. -/
def planned (engine : Engine) (query : MojDbQuery) (ranges : List MojDbKeyRange) (keys : KeySet)
    (keys_ne_nil : ∀ key ∈ keys, key ≠ []) (checkShard : MojDbKey → Bool) : Source where
  engine
  keys
  ranges := if query.desc then ranges.reverse else ranges
  desc := query.desc
  limit := query.limit
  ignoreInactiveShards := query.ignoreInactiveShards
  checkShard
  keys_ne_nil

section Planned

variable (engine : Engine) {index : MojDbIndex} {query effective : MojDbQuery} {ranges : List MojDbKeyRange} (keys : KeySet)
  (hkeys : ∀ key ∈ keys, key ≠ []) (checkShard : MojDbKey → Bool)

theorem ordered_planned (hbehind : ranges.Pairwise (Behind query.desc)) (hbounded : Bounded ranges) :
    (planned engine query ranges keys hkeys checkShard).Ordered
      (planned engine query ranges keys hkeys checkShard).ranges := by
  unfold planned
  cases hdesc : query.desc with
  | false =>
    rw [hdesc] at hbehind
    refine ⟨hbounded, hbehind.imp fun {r t} hrt key hfrom => ?_⟩
    exact le_trans (hrt.start_le : r.lowerKey ≤ t.lowerKey) (hfrom : t.lowerKey ≤ key)
  | true =>
    rw [hdesc] at hbehind
    refine ⟨fun r hr => hbounded r (List.mem_reverse.mp hr), ?_⟩
    simp only [if_true]
    rw [List.pairwise_reverse]
    refine hbehind.imp fun {t r} htr key hfrom => ?_
    exact lt_of_lt_of_le (hfrom : key < t.upperKey) (htr.start_le : t.upperKey ≤ r.upperKey)

/-- At the start no key has been passed. -/
theorem rest_open (hbehind : ranges.Pairwise (Behind query.desc)) (hbounded : Bounded ranges) :
    Ok (planned engine query ranges keys hkeys checkShard) (open_ (planned engine query ranges keys hkeys checkShard)) ∧
      rest (planned engine query ranges keys hkeys checkShard)
          (open_ (planned engine query ranges keys hkeys checkShard)) =
        (keys.inOrder (!query.desc)).filter fun key =>
          Covered ranges key ∧ ¬(query.ignoreInactiveShards = true ∧ checkShard key = true) := by
  refine ⟨⟨ordered_planned engine keys hkeys checkShard hbehind hbounded, fun _ hne => absurd rfl hne, nofun⟩, ?_⟩
  refine List.filter_congr fun key _ => decide_eq_decide.mpr ?_
  have hcovered : Covered (if query.desc then ranges.reverse else ranges) key ↔ Covered ranges key := by
    split_ifs
    · exact MojDbQueryPlan.covered_reverse
    · exact Iff.rfl
  constructor
  · intro h
    exact ⟨hcovered.mp h.2.1, h.2.2⟩
  · intro h
    exact ⟨.inl rfl, hcovered.mpr h.1, h.2⟩

/-- **Successive calls return the keys in the ranges that are not passed over for an inactive shard**, in the order of
the query and each once, up to the limit. -/
theorem keysOf_planned (hanswer : index.canAnswer query = true) (heff : effectiveQuery index query = .ok effective)
    (hranges : MojDbQueryPlan.Checked.buildRanges index effective = .ok ranges) (calls : List Bool) :
    keysOf (planned engine effective ranges keys hkeys checkShard) calls
        (open_ (planned engine effective ranges keys hkeys checkShard)) =
      ((keys.inOrder (!effective.desc)).filter fun key =>
        Covered ranges key ∧ ¬(effective.ignoreInactiveShards = true ∧ checkShard key = true)).take
          (allowed effective.limit calls) := by
  obtain ⟨front, back, clauses, h⟩ := MojDbQueryPlan.answers_of_canAnswer hanswer heff
  obtain ⟨hbehind, hbounded⟩ := MojDbQueryPlan.buildRanges_behind h hranges
  obtain ⟨hok, hrest⟩ := rest_open engine keys hkeys checkShard hbehind hbounded
  rw [keysOf_eq_take hok, hrest]
  rfl

end Planned

/-! ### Two objects in an index on one property -/

open MojDbQueryPlan (fooIndex fooPrefixQuery)

/-- The key of an object with a `foo` of `abc`. -/
def keyAbc : MojDbKey := fooIndex.keyOf [.string ⟨[97, 98, 99], by decide⟩, .int 1]
/-- The key of an object with a `foo` of `ba`. -/
def keyBa : MojDbKey := fooIndex.keyOf [.string ⟨[98, 97], by decide⟩, .int 2]

theorem keys_ne_nil_abc_ba : ∀ key ∈ (.ofList [keyAbc, keyBa] : KeySet), key ≠ [] := by decide +kernel

/-- `foo % "ab"` -/
theorem keysOf_planned_foo :
    ∃ ranges, MojDbQueryPlan.Checked.buildRanges fooIndex (fooPrefixQuery (.string ⟨[97, 98], by decide⟩) rfl) = .ok ranges ∧
      keysOf (planned .sandwich (fooPrefixQuery (.string ⟨[97, 98], by decide⟩) rfl) ranges (.ofList [keyAbc, keyBa])
        keys_ne_nil_abc_ba fun _ => false) [true, true] (open_ (planned .sandwich
          (fooPrefixQuery (.string ⟨[97, 98], by decide⟩) rfl) ranges (.ofList [keyAbc, keyBa]) keys_ne_nil_abc_ba
          fun _ => false)) = [keyAbc] := by
  have hranges : MojDbQueryPlan.Checked.buildRanges fooIndex (fooPrefixQuery (.string ⟨[97, 98], by decide⟩) rfl) =
      .ok [⟨[11, 1, 4, 97, 98, 0], [11, 1, 4, 97, 99], 0⟩] := by decide +kernel
  refine ⟨_, hranges, ?_⟩
  rw [keysOf_planned .sandwich (.ofList [keyAbc, keyBa]) keys_ne_nil_abc_ba (fun _ => false) (by decide) rfl hranges]
  decide +kernel

/-- With the object in an inactive shard its key is in the range, and is not returned. -/
theorem keysOf_ne_covered :
    ∃ ranges, MojDbQueryPlan.Checked.buildRanges fooIndex (fooPrefixQuery (.string ⟨[97, 98], by decide⟩) rfl) = .ok ranges ∧
      keysOf (planned .sandwich (fooPrefixQuery (.string ⟨[97, 98], by decide⟩) rfl) ranges (.ofList [keyAbc, keyBa])
        keys_ne_nil_abc_ba fun _ => true) [true, true] (open_ (planned .sandwich
          (fooPrefixQuery (.string ⟨[97, 98], by decide⟩) rfl) ranges (.ofList [keyAbc, keyBa]) keys_ne_nil_abc_ba
          fun _ => true)) ≠
        (((.ofList [keyAbc, keyBa] : KeySet).inOrder true).filter fun key => Covered ranges key).take
          (allowed 4294967295 [true, true]) :=
  ⟨[⟨[11, 1, 4, 97, 98, 0], [11, 1, 4, 97, 99], 0⟩], by decide +kernel, by decide +kernel⟩

end MojDbIsamQuery

end Db8
