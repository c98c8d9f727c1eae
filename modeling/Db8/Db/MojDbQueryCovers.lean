import Db8.Db.MojDbQueryMatch

/-!
# Db.MojDbQueryCovers

The ranges of the plan against the where clauses, for an index that answers the query.

* `answers_of_canAnswer`  — the leading properties of the index are the properties of the query.
* `spans_iff`             — the spans of all combinations of bounds, in terms of the last clause.
* `covered_iff`           — a key is covered when its values match the clauses by key.
* `covered_iff_satisfies_iff` — the ranges cover exactly the matching keys, but for the keys that
  overmatch a prefix clause.
-/

namespace Db8

open Lib

/-! ## The properties an answering index has for a query -/

/-- The clauses of the query are those of the properties `front`, in index order, and only the last
of them has an operator other than `=`. -/
structure Answers (index : MojDbIndex) (whereMap : WhereMap) (front back : List MojDbExtractor)
    (clauses : List WhereClause) : Prop where
  props_eq : index.props = front ++ back
  found : List.Forall₂ (fun e c => WhereMap.find whereMap e.name = some c) front clauses
  keys_front : ∀ p ∈ whereMap, p.1 ∈ MojDbIndex.propNames front
  eq_init : ∀ c ∈ clauses.dropLast, c.lowerOp = .opEq

namespace MojDbIndex

theorem canAnswerLoop_spec {query : MojDbQuery} {props : List MojDbExtractor} {n : Nat}
    (h : canAnswerLoop query props n = true) (hn : 0 < n) :
    ∃ front back clauses, props = front ++ back ∧ front.length = n ∧
      List.Forall₂ (fun e c => WhereMap.find query.whereClauses e.name = some c) front clauses ∧
      ∀ c ∈ clauses.dropLast, c.lowerOp = .opEq := by
  induction props generalizing n with
  | nil => cases h
  | cons prop rest ih =>
    simp only [canAnswerLoop] at h
    split at h
    · cases h
    · rename_i clause hfind
      split_ifs at h with hop hcoll hlast
      · exact ⟨[prop], rest, [clause], rfl, by simpa using by omega, .cons hfind .nil, by simp⟩
      · obtain ⟨front, back, clauses, rfl, hlen, hfound, hinit⟩ := ih h (by omega)
        refine ⟨prop :: front, back, clause :: clauses, rfl, by simp only [List.length_cons]; omega,
          .cons hfind hfound, fun c hc => ?_⟩
        have hne : clauses ≠ [] := by
          rintro rfl
          rw [List.forall₂_nil_right_iff.mp hfound] at hlen
          simp only [List.length_nil] at hlen
          omega
        rw [List.dropLast_cons_of_ne_nil hne] at hc
        rcases List.mem_cons.mp hc with rfl | hc
        · by_contra hne'
          exact hop ⟨by omega, hne'⟩
        · exact hinit c hc

/-- A property of the index is known by its name. -/
theorem props_getElem_inj (index : MojDbIndex) {i j : Nat} (hi : i < index.props.length)
    (hj : j < index.props.length) (h : index.props[i].name = index.props[j].name) : i = j := by
  have hlen : (propNames index.props).length = index.props.length := List.length_map _
  have hget : ∀ {k : Nat} (hk : k < index.props.length),
      (propNames index.props)[k] = index.props[k].name := fun _ => List.getElem_map _
  exact (List.Nodup.getElem_inj_iff index.names_nodup).mp ((hget hi).trans (h.trans (hget hj).symm))

theorem nodup_front {index : MojDbIndex} {front back : List MojDbExtractor}
    (h : index.props = front ++ back) : (propNames front).Nodup := by
  have hnodup := index.names_nodup
  rw [h, propNames, List.map_append] at hnodup
  exact hnodup.of_append_left

/-- Each of the leading properties has a clause, and there are as many of them as clauses. -/
theorem keys_front_of_found {whereMap : WhereMap} {front : List MojDbExtractor}
    {clauses : List WhereClause} (hnodup : (propNames front).Nodup)
    (hfound : List.Forall₂ (fun e c => WhereMap.find whereMap e.name = some c) front clauses)
    (hlen : front.length = whereMap.length) : ∀ p ∈ whereMap, p.1 ∈ propNames front := by
  have hsub : propNames front ⊆ whereMap.map Prod.fst := by
    intro name hname
    obtain ⟨e, he, rfl⟩ := List.mem_map.mp hname
    obtain ⟨c, hc⟩ : ∃ c, WhereMap.find whereMap e.name = some c := by
      obtain ⟨i, hi, rfl⟩ := List.mem_iff_getElem.mp he
      exact ⟨_, hfound.get hi (hfound.length_eq ▸ hi)⟩
    exact List.mem_map.mpr ⟨_, WhereMap.mem_of_find_eq_some hc, rfl⟩
  have hperm : (propNames front).Perm (whereMap.map Prod.fst) :=
    (hnodup.subperm hsub).perm_of_length_le (by simp [propNames, hlen])
  exact fun p hp => hperm.mem_iff.mpr (List.mem_map.mpr ⟨p, hp, rfl⟩)

end MojDbIndex

theorem WhereMap.find_concat_of_ne {map : WhereMap} {k name : MojString} {c : WhereClause}
    (h : name ≠ k) : find (map ++ [(k, c)]) name = find map name := by
  induction map with
  | nil => simp [find, h.symm]
  | cons p map ih =>
    obtain ⟨k', c'⟩ := p
    simp only [List.cons_append, find, ih]

theorem WhereMap.find_concat_self {map : WhereMap} {k : MojString} {c : WhereClause}
    (h : find map k = none) : find (map ++ [(k, c)]) k = some c := by
  induction map with
  | nil => simp [find]
  | cons p map ih =>
    obtain ⟨k', c'⟩ := p
    simp only [find] at h
    split_ifs at h with hk
    simp [find, hk, ih h]

namespace MojDbQueryPlan

variable {index : MojDbIndex} {query effective : MojDbQuery}

/-- `_del = false` -/
def delClause : WhereClause :=
  MojDbQuery.createClause .opEq (.bool false) none (by decide) fun h => absurd h (by decide)

theorem effectiveQuery_of_silent (hinc : index.includeDeleted = true)
    (hnone : WhereMap.find query.whereClauses MojDb.DelKey = none) :
    ∃ effective, effectiveQuery index query = .ok effective ∧
      effective.whereClauses = query.whereClauses ++ [(MojDb.DelKey, delClause)] ∧
      effective.desc = query.desc ∧ effective.page = query.page := by
  have hadd : MojDbQuery.addClause query.whereClauses MojDb.DelKey .opEq (.bool false) none =
      .ok (query.whereClauses ++ [(MojDb.DelKey, delClause)]) := by
    have harr : ¬ ((MojObject.bool false).isArray = true ∧
        ¬ (CompOp.opEq = .opEq ∨ CompOp.opEq = .opPrefix ∨ CompOp.opEq = .opSubString)) := by decide
    rw [MojDbQuery.addClause, dif_neg (by decide), dif_neg harr]
    simp only [hnone]
    rfl
  unfold effectiveQuery
  rw [if_pos ⟨hinc, by simp [WhereMap.contains, hnone]⟩]
  unfold MojDbQuery.addWhere
  split
  · rename_i map hmap
    rw [hadd] at hmap
    exact ⟨_, rfl, (Except.ok.inj hmap).symm, rfl, rfl⟩
  · rename_i err herr
    rw [hadd] at herr
    cases herr

/-- The plan's query is the client's, or that with a condition on the deleted flag. -/
theorem effectiveQuery_cases (h : effectiveQuery index query = .ok effective) :
    effective = query ∧
        ¬ (index.includeDeleted = true ∧ WhereMap.contains query.whereClauses MojDb.DelKey = false) ∨
      (index.includeDeleted = true ∧ WhereMap.find query.whereClauses MojDb.DelKey = none ∧
        effective.whereClauses = query.whereClauses ++ [(MojDb.DelKey, delClause)] ∧
        effective.desc = query.desc ∧ effective.page = query.page) := by
  by_cases hdel : index.includeDeleted = true ∧ WhereMap.contains query.whereClauses MojDb.DelKey = false
  · have hnone : WhereMap.find query.whereClauses MojDb.DelKey = none := by
      simpa [WhereMap.contains] using hdel.2
    obtain ⟨effective', heff, hfields⟩ := effectiveQuery_of_silent hdel.1 hnone
    obtain rfl := Except.ok.inj (h.symm.trans heff)
    exact .inr ⟨hdel.1, hnone, hfields⟩
  · rw [effectiveQuery, if_neg hdel] at h
    exact .inl ⟨(Except.ok.inj h).symm, hdel⟩

theorem effectiveQuery_desc (h : effectiveQuery index query = .ok effective) :
    effective.desc = query.desc := by
  obtain ⟨rfl, _⟩ | ⟨_, _, _, hdesc, _⟩ := effectiveQuery_cases h
  · rfl
  · exact hdesc

theorem effectiveQuery_page (h : effectiveQuery index query = .ok effective) :
    effective.page = query.page := by
  obtain ⟨rfl, _⟩ | ⟨_, _, _, _, hpage⟩ := effectiveQuery_cases h
  · rfl
  · exact hpage

/-- There is always a plan. -/
theorem exists_effectiveQuery (index : MojDbIndex) (query : MojDbQuery) :
    ∃ effective, effectiveQuery index query = .ok effective := by
  by_cases hdel : index.includeDeleted = true ∧ WhereMap.contains query.whereClauses MojDb.DelKey = false
  · obtain ⟨effective, heff, _⟩ := @effectiveQuery_of_silent index query hdel.1
      (by simpa [WhereMap.contains] using hdel.2)
    exact ⟨effective, heff⟩
  · exact ⟨query, if_neg hdel⟩

theorem front_of_canAnswer (h : index.canAnswer query = true) :
    ∃ front back clauses,
      (if index.includeDeleted ∧ !WhereMap.contains query.whereClauses MojDb.DelKey then index.props.tail
        else index.props) = front ++ back ∧ front.length = query.whereClauses.length ∧
      List.Forall₂ (fun e c => WhereMap.find query.whereClauses e.name = some c) front clauses ∧
      ∀ c ∈ clauses.dropLast, c.lowerOp = .opEq := by
  rw [MojDbIndex.canAnswer] at h
  rcases Nat.eq_zero_or_pos query.whereClauses.length with hzero | hpos
  · exact ⟨[], _, [], rfl, hzero.symm, .nil, by simp⟩
  · have hne : query.whereClauses.length ≠ 0 := by omega
    by_cases hready : (!index.ready) = true
    · simp [hready] at h
    · by_cases hlen : query.whereClauses.length > index.props.length
      · simp [hlen] at h
      · simp only [hready, hlen, hne, if_false] at h
        exact MojDbIndex.canAnswerLoop_spec h hpos

/-- **What `canAnswer` gives the plan.** -/
theorem answers_of_canAnswer (hanswer : index.canAnswer query = true)
    (heff : effectiveQuery index query = .ok effective) :
    ∃ front back clauses, Answers index effective.whereClauses front back clauses := by
  obtain ⟨front, back, clauses, hprops, hlen, hfound, hinit⟩ := front_of_canAnswer hanswer
  rcases effectiveQuery_cases heff with ⟨rfl, hkept⟩ | ⟨hinc, hnone, hwhere, _, _⟩
  · rw [if_neg (by simpa using hkept)] at hprops
    exact ⟨front, back, clauses, hprops, hfound,
      MojDbIndex.keys_front_of_found (MojDbIndex.nodup_front hprops) hfound hlen, hinit⟩
  · -- the deleted flag opens the key, and its clause comes before the clauses of the query
    obtain ⟨del, tail, htail, hdel⟩ : ∃ del tail, index.props = del :: tail ∧ del.name = MojDb.DelKey := by
      have hfront := index.del_front hinc
      cases hp : index.props with
      | nil => simp [hp, MojDbIndex.propNames] at hfront
      | cons del tail => exact ⟨del, tail, rfl, by simpa [hp, MojDbIndex.propNames] using hfront⟩
    rw [if_pos ⟨hinc, by simp [WhereMap.contains, hnone]⟩, htail, List.tail_cons] at hprops
    subst hprops
    have hfound' : List.Forall₂ (fun e d => WhereMap.find effective.whereClauses e.name = some d)
        (del :: front) (delClause :: clauses) := by
      rw [hwhere]
      refine .cons (hdel ▸ WhereMap.find_concat_self (hdel ▸ hnone)) (hfound.imp fun e d hfind => ?_)
      rw [WhereMap.find_concat_of_ne, hfind]
      intro he
      rw [he, hnone] at hfind
      cases hfind
    have hfront : index.props = (del :: front) ++ back := htail
    refine ⟨del :: front, back, delClause :: clauses, hfront, hfound',
      MojDbIndex.keys_front_of_found (MojDbIndex.nodup_front hfront) hfound'
        (by simp [hwhere, hlen]), fun d hd => ?_⟩
    cases hclauses : clauses with
    | nil => simp [hclauses] at hd
    | cons c' rest =>
      rw [hclauses, List.dropLast_cons_of_ne_nil (List.cons_ne_nil c' rest)] at hd
      rcases List.mem_cons.mp hd with rfl | hd
      exacts [rfl, hinit d (hclauses ▸ hd)]

/-! ## The bounds of the clauses -/

/-- The key parts of the lower value of a clause. -/
def lowerSet (text : MojDbText) (c : WhereClause) : KeySet :=
  .ofList (c.lowerVal.alternatives.map (MojDbKey.assign text c.collation))

theorem mem_lowerSet {text : MojDbText} {c : WhereClause} {part : MojDbKey} :
    part ∈ lowerSet text c ↔ ∃ alt ∈ c.lowerOperands text, part = alt.toBytes := by
  rw [lowerSet, SortedSet.mem_ofList, WhereClause.lowerOperands, List.mem_map]
  constructor
  · rintro ⟨val, hval, rfl⟩
    exact ⟨_, List.mem_map.mpr ⟨val, hval, rfl⟩, (WhereClause.operand_toBytes text c val).symm⟩
  · rintro ⟨alt, halt, rfl⟩
    obtain ⟨val, hval, rfl⟩ := List.mem_map.mp halt
    exact ⟨val, hval, (WhereClause.operand_toBytes text c val).symm⟩

theorem idBuilder_eq (index : MojDbIndex) :
    pushVal index.text [] (.int index.id) none = [index.idSet] := rfl

theorem pushClauses_eq {text : MojDbText} {whereMap : WhereMap} {front back : List MojDbExtractor}
    {clauses : List WhereClause}
    (hfound : List.Forall₂ (fun e c => WhereMap.find whereMap e.name = some c) front clauses)
    (hback : ∀ e ∈ back, WhereMap.find whereMap e.name = none) (b : Bounds) :
    pushClauses text whereMap (front ++ back) b = clauses.foldl (pushClause text) b := by
  induction hfound generalizing b with
  | nil =>
    cases back with
    | nil => rfl
    | cons e back => simp [pushClauses, hback e (by simp)]
  | cons hfind _ ih => simp only [List.cons_append, pushClauses, hfind, List.foldl_cons, ih]

theorem upperOp_of_eq {c : WhereClause} (h : c.lowerOp = .opEq ∨ c.lowerOp = .opPrefix) :
    c.upperOp = .opNone := by
  by_contra hne
  have := c.valid.combination hne
  rcases h with h | h <;> simp [h] at this

/-- Equal conditions push the same values on both builders, and copy no prefix off. -/
theorem foldl_pushClause_eq (text : MojDbText) {clauses : List WhereClause}
    (heq : ∀ c ∈ clauses, c.lowerOp = .opEq) (stack : List KeySet) (last : Option WhereClause) :
    ∃ last', clauses.foldl (pushClause text) ⟨stack, stack, .empty, last⟩ =
      ⟨stack ++ clauses.map (lowerSet text), stack ++ clauses.map (lowerSet text), .empty, last'⟩ := by
  induction clauses generalizing stack last with
  | nil => exact ⟨last, by simp⟩
  | cons c clauses ih =>
    have hc := heq c (by simp)
    have hpush : pushClause text ⟨stack, stack, .empty, last⟩ c =
        ⟨stack ++ [lowerSet text c], stack ++ [lowerSet text c], .empty, some c⟩ := by
      simp [pushClause, upperOp_of_eq (.inl hc), hc, pushVal, lowerSet]
    obtain ⟨last', hrest⟩ := ih (fun d hd => heq d (by simp [hd])) (stack ++ [lowerSet text c]) (some c)
    exact ⟨last', by rw [List.foldl_cons, hpush, hrest]; simp⟩

/-- The combinations of lower key, upper key and prefix the ranges are made from. -/
def Bounds.combinations (b : Bounds) : List (MojDbKey × MojDbKey × MojDbKey) :=
  let lowerKeys := MojDbKeyBuilder.keys b.lowerBuilder
  let upperKeys := MojDbKeyBuilder.keys b.upperBuilder
  let prefixKeys := if b.prefixKeys.isEmpty then lowerKeys else b.prefixKeys
  lowerKeys.elems.zip (upperKeys.elems.zip prefixKeys.elems)

theorem zip_self (keys : List MojDbKey) : keys.zip (keys.zip keys) = keys.map fun k => (k, k, k) := by
  induction keys with
  | nil => rfl
  | cons k keys ih => simp [ih]

theorem zip_map (keys : List MojDbKey) (f g : MojDbKey → MojDbKey) :
    (keys.map f).zip ((keys.map g).zip keys) = keys.map fun k => (f k, g k, k) := by
  induction keys with
  | nil => rfl
  | cons k keys ih => simp [ih]

section LastClause

variable {text : MojDbText} {stack : List KeySet} {c : WhereClause} {last : Option WhereClause}

theorem combinations_eq (hop : c.lowerOp = .opEq ∨ c.lowerOp = .opPrefix) :
    (pushClause text ⟨stack, stack, .empty, last⟩ c).combinations =
      (MojDbKeyBuilder.keys (stack ++ [lowerSet text c])).elems.map fun k => (k, k, k) := by
  have hupper := upperOp_of_eq hop
  have hkeep : ¬ (c.lowerOp ≠ .opEq ∧ c.lowerOp ≠ .opPrefix) := by tauto
  simp only [Bounds.combinations, pushClause, if_pos hupper, if_neg hkeep, pushVal]
  exact zip_self _

/-- The value of the upper builder: without an upper part it is the lower value. -/
def upperOperand (text : MojDbText) (c : WhereClause) : MojObject :=
  c.operand text (if c.upperOp = .opNone then c.lowerVal else c.upperVal)

theorem alternatives_of_not_array {o : MojObject} (h : o.isArray = false) : o.alternatives = [o] := by
  cases o with
  | array vec => simp [MojObject.isArray, MojObject.type] at h
  | _ => rfl

theorem combinations_ne (hstack : stack ≠ [])
    (hcoded : ∀ vals ∈ stack, ∀ part ∈ vals, ∃ o : MojObject, part = o.toBytes)
    (hop : c.lowerOp ≠ .opEq ∧ c.lowerOp ≠ .opPrefix) (hsub : c.lowerOp ≠ .opSubString) :
    (pushClause text ⟨stack, stack, .empty, last⟩ c).combinations =
      (MojDbKeyBuilder.keys stack).elems.map fun p =>
        (p ++ (c.operand text c.lowerVal).toBytes, p ++ (upperOperand text c).toBytes, p) := by
  have hlower : c.lowerVal.isArray = false := by
    by_contra h
    have := c.valid.lower_array (by simpa using h)
    tauto
  have hupper : (if c.upperOp = .opNone then c.lowerVal else c.upperVal).isArray = false := by
    split_ifs
    exacts [hlower, c.valid.upper_array]
  simp only [Bounds.combinations, pushClause, if_pos hop, pushVal, alternatives_of_not_array hlower,
    alternatives_of_not_array hupper, List.map_cons, List.map_nil,
    MojDbKeyBuilder.keys_concat_singleton hstack hcoded, ← WhereClause.operand_toBytes, upperOperand]
  rcases hkeys : (MojDbKeyBuilder.keys stack).isEmpty with _ | _
  · simp only [hkeys, Bool.false_eq_true, if_false]
    exact zip_map _ _ _
  · have hnil : (MojDbKeyBuilder.keys stack).elems = [] := List.isEmpty_iff.mp hkeys
    simp [hnil]

/-! ## The spans of all combinations -/

theorem between_increment_self {v rest : MojDbKey} (hv : MojDbKey.increment v ≠ []) :
    v ≤ rest ∧ rest < MojDbKey.increment v ↔ v <+: rest := by
  rw [MojDbKey.prefix_iff, MojDbKey.Below]
  simp [hv]

theorem trimPrefix_append {p v : MojDbKey} (hv : v ≠ []) : trimPrefix (p ++ v) = p ++ trimPrefix v := by
  unfold trimPrefix
  rw [List.getLast?_append_of_ne_nil _ hv]
  split_ifs
  · exact List.dropLast_append_of_ne_nil hv
  · rfl

theorem toBytes_ne_nil (o : MojObject) : o.toBytes ≠ [] := by
  obtain ⟨x, u, hx, -⟩ := MojObject.toBytes_first o
  simp [hx]

/-- The keys a list of spans holds. -/
def InSpans (spans : List (MojDbKey × MojDbKey)) (key : MojDbKey) : Prop :=
  ∃ span ∈ spans, span.1 ≤ key ∧ key < span.2

/-- The spans of an alternative of `=` or `%`, behind the combination `p` of equal values. -/
theorem spans_eq_iff (hop : c.lowerOp = .opEq ∨ c.lowerOp = .opPrefix) (p : MojDbKey) (alt : MojObject) :
    (∀ span ∈ spans (some c) (p ++ alt.toBytes, p ++ alt.toBytes, p ++ alt.toBytes), span.2 ≠ []) ∧
    ∀ key, InSpans (spans (some c) (p ++ alt.toBytes, p ++ alt.toBytes, p ++ alt.toBytes)) key ↔
      ∃ rest, key = p ++ rest ∧
        if c.lowerOp = .opEq then alt.toBytes <+: rest
        else alt.toBytes ≤ rest ∧ rest < MojDbKey.increment (trimPrefix alt.toBytes) := by
  rcases hop with hop | hop
  · have hinc := MojDbKey.increment_toBytes_ne_nil alt
    simp only [spans, hop, InSpans, Option.map_some, Option.getD_some, List.mem_singleton, forall_eq,
      exists_eq_left, MojDbKey.increment_append hinc, if_true, between_append_iff,
      between_increment_self hinc, implies_true, and_true]
    exact List.append_ne_nil_of_right_ne_nil _ hinc
  · have hinc := WhereClause.increment_trimPrefix_ne_nil alt
    simp only [spans, hop, InSpans, Option.map_some, Option.getD_some, List.mem_singleton, forall_eq,
      exists_eq_left, trimPrefix_append (toBytes_ne_nil alt), MojDbKey.increment_append hinc,
      reduceCtorEq, if_false, between_append_iff, implies_true, and_true]
    exact List.append_ne_nil_of_right_ne_nil _ hinc

/-- The upper key of an inequality behind the combination `p`. -/
def upperKey (text : MojDbText) (c : WhereClause) (p : MojDbKey) : MojDbKey :=
  match c.upperOp with
  | .opNone => MojDbKey.increment p
  | .opLessThanEq => MojDbKey.increment (p ++ (upperOperand text c).toBytes)
  | _ => p ++ (upperOperand text c).toBytes

theorem upperKey_ne_nil {p : MojDbKey} (hp : MojDbKey.increment p ≠ []) : upperKey text c p ≠ [] := by
  have hinc := MojDbKey.increment_toBytes_ne_nil (upperOperand text c)
  unfold upperKey
  split
  · exact hp
  · rw [MojDbKey.increment_append hinc]
    exact List.append_ne_nil_of_right_ne_nil _ hinc
  · exact List.append_ne_nil_of_right_ne_nil _ (toBytes_ne_nil _)

/-- A range that starts behind `p` ends where the upper part ends. -/
theorem between_upperKey_iff {p : MojDbKey} (hp : MojDbKey.increment p ≠ []) (x key : MojDbKey) :
    p ++ x ≤ key ∧ key < upperKey text c p ↔
      ∃ rest, key = p ++ rest ∧ x ≤ rest ∧ c.UpperRest text rest := by
  have hinc := MojDbKey.increment_toBytes_ne_nil (upperOperand text c)
  rcases c.valid.upper_lt with hop | hop | hop
  · simp only [upperKey, hop, MojDbKey.between_increment_iff hp, WhereClause.UpperRest, and_true]
  · simp only [upperKey, hop, between_append_iff, WhereClause.UpperRest, upperOperand, reduceCtorEq,
      if_false]
  · have hoperand : upperOperand text c = c.operand text c.upperVal := by simp [upperOperand, hop]
    rw [hoperand] at hinc
    simp only [upperKey, hop, hoperand, MojDbKey.increment_append hinc, between_append_iff,
      WhereClause.UpperRest]

/-- The spans of an inequality behind the combination `p` of equal values. -/
theorem spans_ne_eq (hop : c.lowerOp ≠ .opEq ∧ c.lowerOp ≠ .opPrefix) (p : MojDbKey) :
    spans (some c) (p ++ (c.operand text c.lowerVal).toBytes, p ++ (upperOperand text c).toBytes, p) =
      match c.lowerOp with
      | .opNone | .opGreaterThanEq => [(p ++ (c.operand text c.lowerVal).toBytes, upperKey text c p)]
      | .opGreaterThan =>
        [(p ++ MojDbKey.increment (c.operand text c.lowerVal).toBytes, upperKey text c p)]
      | .opNotEq =>
        [(p ++ [], p ++ (c.operand text c.lowerVal).toBytes),
          (p ++ MojDbKey.increment (c.operand text c.lowerVal).toBytes, MojDbKey.increment p)]
      | _ => [] := by
  have hinc := MojDbKey.increment_append (p := p)
    (MojDbKey.increment_toBytes_ne_nil (c.operand text c.lowerVal))
  simp only [spans, Option.map_some, Option.getD_some, hinc, List.append_nil]
  cases hlower : c.lowerOp <;> simp_all <;> rfl

theorem spans_ne_iff (hop : c.lowerOp ≠ .opEq ∧ c.lowerOp ≠ .opPrefix) {p : MojDbKey}
    (hp : MojDbKey.increment p ≠ []) :
    (∀ span ∈ spans (some c) (p ++ (c.operand text c.lowerVal).toBytes,
        p ++ (upperOperand text c).toBytes, p), span.2 ≠ []) ∧
    ∀ key, InSpans (spans (some c) (p ++ (c.operand text c.lowerVal).toBytes,
        p ++ (upperOperand text c).toBytes, p)) key ↔
      ∃ rest, key = p ++ rest ∧ c.LowerRest text rest ∧ c.UpperRest text rest := by
  have hupper : upperKey text c p ≠ [] := upperKey_ne_nil hp
  rw [spans_ne_eq hop]
  cases hlower : c.lowerOp with
  | opNone | opGreaterThanEq | opGreaterThan =>
    simp only [InSpans, List.mem_singleton, forall_eq, exists_eq_left, between_upperKey_iff hp,
      WhereClause.LowerRest, hlower]
    exact ⟨hupper, fun _ => trivial⟩
  | opNotEq =>
    have hnone : c.upperOp = .opNone := by
      by_contra hne
      have := c.valid.combination hne
      simp [hlower] at this
    refine ⟨?_, fun key => ?_⟩
    · simp only [List.mem_cons, List.not_mem_nil, or_false, forall_eq_or_imp, forall_eq]
      exact ⟨List.append_ne_nil_of_right_ne_nil _ (toBytes_ne_nil _), hp⟩
    · simp only [InSpans, List.mem_cons, List.not_mem_nil, or_false, exists_eq_or_imp, exists_eq_left,
        between_append_iff, MojDbKey.between_increment_iff hp, WhereClause.LowerRest, hlower,
        WhereClause.UpperRest, hnone, nil_le, true_and, and_true]
      constructor
      · rintro (⟨rest, rfl, h⟩ | ⟨rest, rfl, h⟩)
        exacts [⟨rest, rfl, .inl h⟩, ⟨rest, rfl, .inr h⟩]
      · rintro ⟨rest, rfl, h | h⟩
        exacts [.inl ⟨rest, rfl, h⟩, .inr ⟨rest, rfl, h⟩]
  | opEq => exact absurd hlower hop.1
  | opPrefix => exact absurd hlower hop.2
  | opLessThan => exact absurd hlower c.valid.lower_not_lt.1
  | opLessThanEq => exact absurd hlower c.valid.lower_not_lt.2
  | opSearch | opSubString => simp [InSpans, WhereClause.LowerRest, hlower]

/-- The keys of the equal conditions and an alternative of the last clause. -/
theorem mem_lower_keys (hstack : stack ≠ []) {k : MojDbKey} :
    k ∈ MojDbKeyBuilder.keys (stack ++ [lowerSet text c]) ↔
      ∃ p ∈ MojDbKeyBuilder.keys stack, ∃ alt ∈ c.lowerOperands text, k = p ++ alt.toBytes := by
  rw [MojDbKeyBuilder.mem_keys_concat hstack]
  simp only [mem_lowerSet]
  constructor
  · rintro ⟨p, hp, _, ⟨alt, halt, rfl⟩, rfl⟩
    exact ⟨p, hp, alt, halt, rfl⟩
  · rintro ⟨p, hp, alt, halt, rfl⟩
    exact ⟨p, hp, _, ⟨alt, halt, rfl⟩, rfl⟩

/-- **The spans of all combinations**: a combination of equal values, then the last clause. -/
theorem combinations_iff (hstack : stack ≠ [])
    (hcoded : ∀ vals ∈ stack, ∀ part ∈ vals, ∃ o : MojObject, part = o.toBytes)
    (hinc : ∀ p ∈ MojDbKeyBuilder.keys stack, MojDbKey.increment p ≠ []) :
    (∀ keys ∈ (pushClause text ⟨stack, stack, .empty, last⟩ c).combinations,
      ∀ span ∈ spans (some c) keys, span.2 ≠ []) ∧
    ∀ key, (∃ keys ∈ (pushClause text ⟨stack, stack, .empty, last⟩ c).combinations,
        InSpans (spans (some c) keys) key) ↔
      ∃ p ∈ MojDbKeyBuilder.keys stack, ∃ rest, key = p ++ rest ∧
        c.LowerRest text rest ∧ c.UpperRest text rest := by
  by_cases hop : c.lowerOp = .opEq ∨ c.lowerOp = .opPrefix
  · have hrest : ∀ rest, c.LowerRest text rest ∧ c.UpperRest text rest ↔
        ∃ alt ∈ c.lowerOperands text, if c.lowerOp = .opEq then alt.toBytes <+: rest
          else alt.toBytes ≤ rest ∧ rest < MojDbKey.increment (trimPrefix alt.toBytes) := by
      intro rest
      have hupper := upperOp_of_eq hop
      rcases hop with h | h <;> simp [WhereClause.LowerRest, WhereClause.UpperRest, hupper, h]
    rw [combinations_eq hop]
    simp only [List.mem_map, ← SortedSet.mem_def, mem_lower_keys hstack, hrest]
    constructor
    · rintro _ ⟨_, ⟨p, -, alt, -, rfl⟩, rfl⟩
      exact (spans_eq_iff hop p alt).1
    · intro key
      constructor
      · rintro ⟨_, ⟨_, ⟨p, hp, alt, halt, rfl⟩, rfl⟩, hspan⟩
        obtain ⟨rest, hkey, h⟩ := ((spans_eq_iff hop p alt).2 key).mp hspan
        exact ⟨p, hp, rest, hkey, alt, halt, h⟩
      · rintro ⟨p, hp, rest, hkey, alt, halt, h⟩
        exact ⟨_, ⟨_, ⟨p, hp, alt, halt, rfl⟩, rfl⟩,
          ((spans_eq_iff hop p alt).2 key).mpr ⟨rest, hkey, h⟩⟩
  · by_cases hsub : c.lowerOp = .opSubString
    · have hnone : ∀ keys, spans (some c) keys = [] := fun keys => by simp [spans, hsub]
      simp [hnone, InSpans, WhereClause.LowerRest, hsub]
    · rw [combinations_ne hstack hcoded (not_or.mp hop) hsub]
      simp only [List.mem_map, ← SortedSet.mem_def]
      constructor
      · rintro _ ⟨p, hp, rfl⟩
        exact (spans_ne_iff (not_or.mp hop) (hinc p hp)).1
      · intro key
        constructor
        · rintro ⟨_, ⟨p, hp, rfl⟩, hspan⟩
          exact ⟨p, hp, ((spans_ne_iff (not_or.mp hop) (hinc p hp)).2 key).mp hspan⟩
        · rintro ⟨p, hp, h⟩
          exact ⟨_, ⟨p, hp, rfl⟩, ((spans_ne_iff (not_or.mp hop) (hinc p hp)).2 key).mpr h⟩

end LastClause

/-! ## Keys with decoded values -/

end MojDbQueryPlan

/-- The key of the index with the given property values. -/
def MojDbIndex.keyOf (index : MojDbIndex) (vals : List MojObject) : MojDbKey :=
  index.idKey ++ (vals.map MojObject.toBytes).flatten

namespace MojDbQueryPlan

variable {index : MojDbIndex} {query effective : MojDbQuery} {front back : List MojDbExtractor}
  {clauses : List WhereClause}

/-- The parts of the object id and of equal conditions. -/
def eqStack (index : MojDbIndex) (clauses : List WhereClause) : List KeySet :=
  index.idSet :: clauses.map (lowerSet index.text)

theorem eqStack_coded {index : MojDbIndex} {clauses : List WhereClause} :
    ∀ vals ∈ eqStack index clauses, ∀ part ∈ vals, ∃ o : MojObject, part = o.toBytes := by
  intro vals hvals part hpart
  rcases List.mem_cons.mp hvals with rfl | hvals
  · exact ⟨_, SortedSet.mem_singleton.mp hpart⟩
  · obtain ⟨c, -, rfl⟩ := List.mem_map.mp hvals
    obtain ⟨alt, -, rfl⟩ := mem_lowerSet.mp hpart
    exact ⟨alt, rfl⟩

theorem mem_eqStack_keys {index : MojDbIndex} {clauses : List WhereClause} {p : MojDbKey} :
    p ∈ MojDbKeyBuilder.keys (eqStack index clauses) ↔
      ∃ parts, List.Forall₂ (· ∈ ·) parts (clauses.map (lowerSet index.text)) ∧
        p = index.idKey ++ parts.flatten := by
  rw [eqStack, MojDbKeyBuilder.mem_keys (List.cons_ne_nil _ _)]
  constructor
  · rintro ⟨all, hall, rfl⟩
    obtain ⟨idPart, parts, hid, hparts, rfl⟩ := List.forall₂_cons_right_iff.mp hall
    exact ⟨parts, hparts, by rw [SortedSet.mem_singleton.mp hid, List.flatten_cons]⟩
  · rintro ⟨parts, hparts, rfl⟩
    exact ⟨index.idKey :: parts, .cons (SortedSet.mem_singleton.mpr rfl) hparts, rfl⟩

theorem increment_idKey_append (index : MojDbIndex) (k : MojDbKey) :
    MojDbKey.increment (index.idKey ++ k) ≠ [] := by
  have hmax : ∀ t, (MojObject.firstMarkers t).2 < 255 := by intro t; cases t <;> decide
  obtain ⟨x, u, hx, -, hhi⟩ := MojObject.toBytes_first (.int index.id)
  rw [MojDbIndex.idKey, hx, List.cons_append]
  exact MojDbKey.increment_ne_nil (hhi.trans_lt (hmax _))

theorem eqStack_increment {index : MojDbIndex} {clauses : List WhereClause} :
    ∀ p ∈ MojDbKeyBuilder.keys (eqStack index clauses), MojDbKey.increment p ≠ [] := by
  intro p hp
  obtain ⟨parts, -, rfl⟩ := mem_eqStack_keys.mp hp
  exact increment_idKey_append index _

theorem toBytes_mem_lowerSet {text : MojDbText} {c : WhereClause} {v : MojObject}
    (hv : v.isDefined = true) : v.toBytes ∈ lowerSet text c ↔ v ∈ c.lowerOperands text := by
  rw [mem_lowerSet]
  constructor
  · rintro ⟨alt, halt, h⟩
    have hpre : alt.toBytes <+: v.toBytes ++ [] := by simp [h]
    exact (WhereClause.toBytes_prefix_iff hv
      (WhereClause.isDefined_of_mem_lowerOperands halt) []).mp hpre ▸ halt
  · intro h
    exact ⟨v, h, rfl⟩

theorem forall₂_toBytes_mem {text : MojDbText} {vs : List MojObject}
    (hdef : ∀ v ∈ vs, v.isDefined = true) {clauses : List WhereClause} :
    List.Forall₂ (· ∈ ·) (vs.map MojObject.toBytes) (clauses.map (lowerSet text)) ↔
      List.Forall₂ (fun c v => v ∈ WhereClause.lowerOperands text c) clauses vs := by
  induction vs generalizing clauses with
  | nil => cases clauses <;> simp
  | cons v vs ih =>
    cases clauses with
    | nil => simp
    | cons c clauses =>
      simp only [List.map_cons, List.forall₂_cons, toBytes_mem_lowerSet (hdef v (by simp)),
        ih (fun w hw => hdef w (by simp [hw]))]

/-- A key begins with a combination of equal values exactly when its values are among them. -/
theorem eqStack_iff {index : MojDbIndex} {vs : List MojObject}
    (hdef : ∀ v ∈ vs, v.isDefined = true) (hlen : vs.length = clauses.length)
    (tail : List MojByte) (P : List MojByte → Prop) :
    (∃ p ∈ MojDbKeyBuilder.keys (eqStack index clauses), ∃ rest,
        index.idKey ++ ((vs.map MojObject.toBytes).flatten ++ tail) = p ++ rest ∧ P rest) ↔
      List.Forall₂ (fun c v => v ∈ c.lowerOperands index.text) clauses vs ∧ P tail := by
  rw [← forall₂_toBytes_mem hdef]
  constructor
  · rintro ⟨p, hp, rest, heq, hrest⟩
    obtain ⟨parts, hparts, rfl⟩ := mem_eqStack_keys.mp hp
    rw [List.append_assoc, List.append_cancel_left_eq] at heq
    have hcoded : ∀ part ∈ parts, ∃ o : MojObject, part = o.toBytes :=
      MojDbKeyBuilder.forall₂_coded
        (fun vals hvals => @eqStack_coded index clauses vals (List.mem_cons_of_mem _ hvals)) hparts
    have hcoded' : ∀ part ∈ vs.map MojObject.toBytes, ∃ o : MojObject, part = o.toBytes := by
      intro part hpart
      obtain ⟨v, -, rfl⟩ := List.mem_map.mp hpart
      exact ⟨v, rfl⟩
    have hlen' : (vs.map MojObject.toBytes).length = parts.length := by
      rw [List.length_map, hlen, hparts.length_eq, List.length_map]
    obtain ⟨rfl, rfl⟩ := MojDbKeyBuilder.flatten_inj_of_coded hcoded' hcoded hlen' heq
    exact ⟨hparts, hrest⟩
  · rintro ⟨hparts, htail⟩
    exact ⟨_, mem_eqStack_keys.mpr ⟨_, hparts, rfl⟩, tail, by rw [List.append_assoc], htail⟩


/-- The properties behind the last clause have no clause. -/
theorem find_back (h : Answers index query.whereClauses front back clauses) :
    ∀ e ∈ back, WhereMap.find query.whereClauses e.name = none := by
  intro e he
  by_contra hne
  obtain ⟨c, hc⟩ := Option.ne_none_iff_exists'.mp hne
  have hfront := h.keys_front _ (WhereMap.mem_of_find_eq_some hc)
  have hnodup := index.names_nodup
  rw [h.props_eq, MojDbIndex.propNames, List.map_append] at hnodup
  exact (List.nodup_append.mp hnodup).2.2 _ hfront _ (List.mem_map.mpr ⟨e, he, rfl⟩) rfl

/-- The ranges are added one by one from the spans of all combinations. -/
theorem buildRanges_eq (h : Answers index query.whereClauses front back clauses) {b : Bounds}
    (hb : clauses.foldl (pushClause index.text) ⟨[index.idSet], [index.idSet], .empty, none⟩ = b) :
    buildRanges index query = rangesFromKeySets query b.lastClause
      (MojDbKeyBuilder.keys b.lowerBuilder) (MojDbKeyBuilder.keys b.upperBuilder)
      (if b.prefixKeys.isEmpty then MojDbKeyBuilder.keys b.lowerBuilder else b.prefixKeys) := by
  have hpush : pushClauses index.text query.whereClauses index.props
      ⟨[index.idSet], [index.idSet], .empty, none⟩ = b := by
    rw [h.props_eq, pushClauses_eq h.found (find_back h), hb]
  rw [buildRanges, idBuilder_eq, hpush]

theorem covered_buildRanges (h : Answers index query.whereClauses front back clauses) {b : Bounds}
    (hb : clauses.foldl (pushClause index.text) ⟨[index.idSet], [index.idSet], .empty, none⟩ = b)
    (hne : ∀ keys ∈ b.combinations, ∀ span ∈ spans b.lastClause keys, span.2 ≠ []) (key : MojDbKey) :
    Covered (buildRanges index query) key ↔
      OnPage query key ∧ ∃ keys ∈ b.combinations, InSpans (spans b.lastClause keys) key := by
  rw [buildRanges_eq h hb]
  exact rangesFromKeySets_spec hne key

/-- Without a clause the index id is the only bound. -/
theorem noClause_combinations (index : MojDbIndex) :
    (Bounds.mk [index.idSet] [index.idSet] .empty none).combinations =
      [(index.idKey, index.idKey, index.idKey)] := by
  have hkeys : MojDbKeyBuilder.keys [index.idSet] = index.idSet := by
    ext key
    rw [MojDbKeyBuilder.mem_keys (List.cons_ne_nil _ _)]
    simp [List.forall₂_cons_right_iff]
  have hempty : (SortedSet.empty : KeySet).isEmpty = true := rfl
  simp only [Bounds.combinations, hkeys, hempty, if_true, zip_self]
  rfl

theorem foldl_pushClause_concat (index : MojDbIndex) {init : List WhereClause}
    (hinit : ∀ d ∈ init, d.lowerOp = .opEq)
    (c : WhereClause) :
    ∃ last, (init ++ [c]).foldl (pushClause index.text) ⟨[index.idSet], [index.idSet], .empty, none⟩ =
      pushClause index.text ⟨eqStack index init, eqStack index init, .empty, last⟩ c := by
  obtain ⟨last, hfold⟩ := foldl_pushClause_eq index.text hinit [index.idSet] none
  refine ⟨last, ?_⟩
  rw [List.foldl_append, hfold]
  rfl

theorem spans_none_iff (k key : MojDbKey) (hk : MojDbKey.increment k ≠ []) :
    InSpans (spans none (k, k, k)) key ↔ k <+: key := by
  simp [InSpans, spans, between_increment_self hk]

theorem keyMatches_of_eq {text : MojDbText} {c : WhereClause} (hop : c.lowerOp = .opEq)
    (v : MojObject) : v ∈ c.lowerOperands text ↔ c.KeyMatches text v := by
  have hupper := upperOp_of_eq (.inl hop)
  simp [WhereClause.KeyMatches, WhereClause.Matches, WhereClause.LowerMatches,
    WhereClause.UpperMatches, hop, hupper]

theorem keyMatches_concat {text : MojDbText} {init : List WhereClause}
    (hinit : ∀ d ∈ init, d.lowerOp = .opEq) {vs : List MojObject} (hlen : vs.length = init.length)
    (c : WhereClause) (v : MojObject) :
    List.Forall₂ (fun c v => v ∈ WhereClause.lowerOperands text c) init vs ∧ c.KeyMatches text v ↔
      List.Forall₂ (fun c v => WhereClause.KeyMatches text c v) (init ++ [c]) (vs ++ [v]) := by
  induction init generalizing vs with
  | nil =>
    obtain rfl := List.length_eq_zero_iff.mp hlen
    simp
  | cons d init ih =>
    cases vs with
    | nil => simp at hlen
    | cons w vs =>
      rw [List.cons_append, List.cons_append, List.forall₂_cons, List.forall₂_cons,
        ← ih (fun e he => hinit e (by simp [he])) (by simpa using hlen),
        keyMatches_of_eq (hinit d (by simp)), and_assoc]

/-- **A key is covered when it is on the page and its values match the clauses by key.** -/
theorem covered_iff (h : Answers index query.whereClauses front back clauses) {vals : List MojObject}
    (hdef : ∀ v ∈ vals, v.isDefined = true) (hlen : vals.length = index.props.length) :
    Covered (buildRanges index query) (index.keyOf vals) ↔
      OnPage query (index.keyOf vals) ∧
        List.Forall₂ (fun c v => c.KeyMatches index.text v) clauses (vals.take clauses.length) := by
  rcases clauses.eq_nil_or_concat' with rfl | ⟨init, c, rfl⟩
  · have hid : MojDbKey.increment index.idKey ≠ [] := by simpa using increment_idKey_append index []
    have hcomb := noClause_combinations index
    have hcov := covered_buildRanges h (b := ⟨[index.idSet], [index.idSet], .empty, none⟩) rfl
      (by simp [hcomb, spans, hid]) (index.keyOf vals)
    rw [hcov, hcomb]
    simp [spans_none_iff _ _ hid, MojDbIndex.keyOf]
  · have hinit : ∀ d ∈ init, d.lowerOp = .opEq := by simpa using h.eq_init
    obtain ⟨last, hb⟩ := foldl_pushClause_concat index hinit c
    obtain ⟨hne, hiff⟩ := @combinations_iff index.text (eqStack index init) c last
      (List.cons_ne_nil _ _) eqStack_coded eqStack_increment
    rw [covered_buildRanges h hb hne]
    refine and_congr_right fun _ => ?_
    -- the values of the equal conditions, that of the last clause, the others
    have hfront : (init ++ [c]).length ≤ vals.length := by
      rw [hlen, h.props_eq, ← h.found.length_eq]
      simp
    obtain ⟨vs, v, ws, rfl, hvs⟩ : ∃ vs v ws, vals = vs ++ v :: ws ∧ vs.length = init.length := by
      rw [List.length_append, List.length_singleton] at hfront
      refine ⟨vals.take init.length, vals[init.length], vals.drop (init.length + 1), ?_, ?_⟩
      · rw [List.getElem_cons_drop, List.take_append_drop]
      · rw [List.length_take]
        omega
    have hkey : index.keyOf (vs ++ v :: ws) = index.idKey ++ ((vs.map MojObject.toBytes).flatten ++
        (v.toBytes ++ (ws.map MojObject.toBytes).flatten)) := by
      simp [MojDbIndex.keyOf]
    have htake : (vs ++ v :: ws).take (init ++ [c]).length = vs ++ [v] := by
      rw [List.length_append, ← hvs, List.take_length_add_append]
      rfl
    have hlast : (pushClause index.text ⟨eqStack index init, eqStack index init, .empty, last⟩ c).lastClause =
        some c := rfl
    rw [hlast, hiff, hkey, htake, eqStack_iff (fun w hw => hdef w (by simp [hw])) hvs,
      WhereClause.rest_iff (hdef v (by simp))]
    exact keyMatches_concat hinit hvs c v

/-! ## Matching keys -/

/-- Every clause, read as `M`, accepts the value of its property. -/
def Satisfies (M : WhereClause → MojObject → Prop) (index : MojDbIndex) (whereMap : WhereMap)
    (vals : List MojObject) : Prop :=
  ∀ p ∈ whereMap, ∃ e v, (e, v) ∈ index.props.zip vals ∧ e.name = p.1 ∧ M p.2 v

theorem satisfies_iff (h : Answers index query.whereClauses front back clauses) {vals : List MojObject}
    (hlen : vals.length = index.props.length) (M : WhereClause → MojObject → Prop) :
    Satisfies M index query.whereClauses vals ↔
      List.Forall₂ M clauses (vals.take clauses.length) := by
  have hfront := h.found.length_eq
  have hle : clauses.length ≤ vals.length := by
    rw [hlen, h.props_eq, List.length_append]
    omega
  have hfind : ∀ (i : Nat) (hi : i < clauses.length), ∃ hp : i < index.props.length,
      WhereMap.find query.whereClauses (index.props[i]).name = some clauses[i] := by
    intro i hi
    have hp : i < index.props.length := by omega
    refine ⟨hp, ?_⟩
    have hprop : index.props[i] = front[i] := by
      simp only [h.props_eq]
      rw [List.getElem_append_left]
    rw [hprop]
    exact h.found.get (by omega) hi
  rw [List.forall₂_iff_get]
  constructor
  · intro hsat
    refine ⟨by simp [hle], fun i hi hi' => ?_⟩
    obtain ⟨hp, hc⟩ := hfind i hi
    obtain ⟨e, v, hmem, hname, hM⟩ := hsat _ (WhereMap.mem_of_find_eq_some hc)
    obtain ⟨j, hj, hget⟩ := List.mem_iff_getElem.mp hmem
    rw [List.getElem_zip, Prod.mk.injEq] at hget
    obtain ⟨rfl, rfl⟩ := hget
    have hij : j = i :=
      index.props_getElem_inj (List.lt_length_left_of_zip hj) hp hname
    subst hij
    simpa using hM
  · rintro ⟨-, hM⟩ p hp
    obtain ⟨e, he, hname⟩ := List.mem_map.mp (h.keys_front p hp)
    obtain ⟨i, hi, rfl⟩ := List.mem_iff_getElem.mp he
    obtain ⟨hprops, hc⟩ := hfind i (by omega)
    have hprop : index.props[i] = front[i] := by
      simp only [h.props_eq]
      rw [List.getElem_append_left]
    have hclause : clauses[i] = p.2 := by
      rw [hprop, hname, WhereMap.find_eq_some_of_mem query.where_nodup hp] at hc
      exact (Option.some.inj hc).symm
    refine ⟨index.props[i], vals[i], ?_, hprop ▸ hname, ?_⟩
    · exact List.mem_iff_getElem.mpr ⟨i, by simp; omega, by simp⟩
    · have := hM i (by omega) (by simp; omega)
      simpa [hclause] using this

end MojDbQueryPlan

namespace MojDbIndex

/-- The values are those of a key the index takes from some object. -/
structure CanHold (index : MojDbIndex) (vals : List MojObject) : Prop where
  defined : ∀ v ∈ vals, v.isDefined = true
  length_eq : vals.length = index.props.length
  mem : ∃ obj, index.keyOf vals ∈ index.getKeys obj

/-- The parts of a key, decoded. -/
theorem exists_vals_of_parts {index : MojDbIndex} {obj : MojObject} {props : List MojDbExtractor}
    {parts : List MojDbKey}
    (h : List.Forall₂ (fun part e => part ∈ MojDbExtractor.vals index.text obj e) parts props) :
    ∃ vals : List MojObject, (∀ v ∈ vals, v.isDefined = true) ∧ vals.length = props.length ∧
      vals.map MojObject.toBytes = parts := by
  induction h with
  | nil => exact ⟨[], by simp, rfl, rfl⟩
  | cons hpart _ ih =>
    obtain ⟨vals, hdef, hlen, hmap⟩ := ih
    obtain ⟨o, rfl⟩ := MojDbExtractor.vals_coded hpart
    refine ⟨o.written :: vals, ?_, by simp [hlen], by simp [MojObject.written_toBytes, hmap]⟩
    intro v hv
    rcases List.mem_cons.mp hv with rfl | hv
    exacts [MojObject.isDefined_written o, hdef v hv]

/-- Every key of an object has decoded values. -/
theorem exists_canHold {index : MojDbIndex} {obj : MojObject} {key : MojDbKey}
    (h : key ∈ index.getKeys obj) : ∃ vals, index.CanHold vals ∧ key = index.keyOf vals := by
  obtain ⟨parts, hparts, rfl⟩ := (mem_getKeys index).mp h
  obtain ⟨vals, hdef, hlen, rfl⟩ := exists_vals_of_parts hparts
  exact ⟨vals, ⟨hdef, hlen, obj, h⟩, rfl⟩

end MojDbIndex

namespace MojDbQueryPlan

variable {index : MojDbIndex} {query effective : MojDbQuery}

/-- The ranges cover the keys on the page whose values satisfy every clause, and no others. -/
def CoversExactly (index : MojDbIndex) (query : MojDbQuery) : Prop :=
  ∀ vals, index.CanHold vals →
    (Covered (buildRanges index query) (index.keyOf vals) ↔
      OnPage query (index.keyOf vals) ∧
        Satisfies (·.Matches index.text) index query.whereClauses vals)

/-- The clauses look for the bytes of the values, and at a prefix clause the value begins with an
alternative that is no string without matching. -/
def Overmatched (index : MojDbIndex) (query : MojDbQuery) (vals : List MojObject) : Prop :=
  OnPage query (index.keyOf vals) ∧
    Satisfies (·.KeyMatches index.text) index query.whereClauses vals ∧
    ∃ p ∈ query.whereClauses, ∃ e v, (e, v) ∈ index.props.zip vals ∧ e.name = p.1 ∧
      p.2.Overmatches index.text v

theorem covered_iff_satisfies {vals : List MojObject} (hvals : index.CanHold vals)
    (hanswer : index.canAnswer query = true) (heff : effectiveQuery index query = .ok effective) :
    Covered (buildRanges index effective) (index.keyOf vals) ↔
      OnPage effective (index.keyOf vals) ∧
        Satisfies (·.KeyMatches index.text) index effective.whereClauses vals := by
  obtain ⟨front, back, clauses, h⟩ := answers_of_canAnswer hanswer heff
  rw [covered_iff h hvals.defined hvals.length_eq, satisfies_iff h hvals.length_eq]

theorem zip_val_unique {vals : List MojObject} {e e' : MojDbExtractor} {v v' : MojObject}
    (h : (e, v) ∈ index.props.zip vals) (h' : (e', v') ∈ index.props.zip vals)
    (hname : e.name = e'.name) : v = v' := by
  obtain ⟨i, hi, hget⟩ := List.mem_iff_getElem.mp h
  obtain ⟨j, hj, hget'⟩ := List.mem_iff_getElem.mp h'
  rw [List.getElem_zip, Prod.mk.injEq] at hget hget'
  obtain ⟨rfl, rfl⟩ := hget
  obtain ⟨rfl, rfl⟩ := hget'
  have hij : i = j :=
    index.props_getElem_inj (List.lt_length_left_of_zip hi) (List.lt_length_left_of_zip hj) hname
  subst hij
  rfl

/-- **The ranges cover exactly the matching keys**, unless the index can hold a key whose value begins
with an alternative of a prefix clause that is no string. -/
theorem coversExactly_iff (hanswer : index.canAnswer query = true)
    (heff : effectiveQuery index query = .ok effective) :
    CoversExactly index effective ↔ ¬ ∃ vals, index.CanHold vals ∧ Overmatched index effective vals := by
  constructor
  · rintro hexact ⟨vals, hvals, hpage, hkey, p, hp, e, v, hmem, hname, -, hnot, -⟩
    have hcovered := (covered_iff_satisfies hvals hanswer heff).mpr ⟨hpage, hkey⟩
    obtain ⟨e', v', hmem', hname', hmatch⟩ := ((hexact vals hvals).mp hcovered).2 p hp
    have hv := zip_val_unique hmem hmem' (hname.trans hname'.symm)
    exact hnot (hv ▸ hmatch)
  · intro hnone vals hvals
    rw [covered_iff_satisfies hvals hanswer heff]
    refine and_congr_right fun hpage => ⟨fun hkey p hp => ?_, fun hmatch p hp => ?_⟩
    · obtain ⟨e, v, hmem, hname, hM⟩ := hkey p hp
      have hdef := hvals.defined v (List.of_mem_zip hmem).2
      rcases (WhereClause.keyMatches_iff hdef).mp hM with h | h
      · exact ⟨e, v, hmem, hname, h⟩
      · exact absurd ⟨vals, hvals, hpage, hkey, p, hp, e, v, hmem, hname, h⟩ hnone
    · obtain ⟨e, v, hmem, hname, hM⟩ := hmatch p hp
      have hdef := hvals.defined v (List.of_mem_zip hmem).2
      exact ⟨e, v, hmem, hname, (WhereClause.keyMatches_iff hdef).mpr (.inl hM)⟩

/-- Without an alternative that is no string no value overmatches. -/
theorem not_overmatched_of_string {vals : List MojObject}
    (hstring : ∀ p ∈ query.whereClauses, p.2.lowerOp = .opPrefix →
      ∀ alt ∈ p.2.lowerOperands index.text, alt.type = .typeString) : ¬ Overmatched index query vals := by
  rintro ⟨-, -, p, hp, e, v, -, -, hop, -, alt, halt, htype, -⟩
  exact htype (hstring p hp hop alt halt)

/-! ### Prefix conditions on one property -/

/-- `foo` -/
def foo : MojString := ⟨[102, 111, 111], by decide⟩

/-- An index on `foo`. -/
def fooIndex : MojDbIndex where
  id := 1
  text := ⟨fun _ s => s, fun s => [s]⟩
  includeDeleted := false
  ready := true
  props :=
    [.prop
      { name := foo, collation := none, tokenizer := false, default := .empty
        prop_ne_nil := by decide
        default_coded := MojDbPropExtractor.empty_coded },
      MojDbIndex.idProp]
  names_nodup := by decide
  id_mem := by decide
  del_front := by decide

/-- `foo % val` -/
def fooPrefixQuery (val : MojObject) (hval : val.isArray = false) : MojDbQuery where
  whereClauses :=
    [(foo, MojDbQuery.createClause .opPrefix val none (by decide) fun h => by simp [hval] at h)]
  filterClauses := []
  orderProp := MojString.empty
  distinct := MojString.empty
  desc := false
  limit := 4294967295
  page := []
  ignoreInactiveShards := true
  where_nodup := by simp

/-- `foo % "ab"` -/
theorem coversExactly_foo_ab :
    CoversExactly fooIndex (fooPrefixQuery (.string ⟨[97, 98], by decide⟩) rfl) := by
  refine (@coversExactly_iff fooIndex (fooPrefixQuery (.string ⟨[97, 98], by decide⟩) rfl) _
    (by decide) rfl).mpr ?_
  rintro ⟨vals, -, hover⟩
  refine not_overmatched_of_string (fun p hp _ alt halt => ?_) hover
  obtain rfl := List.mem_singleton.mp hp
  obtain rfl := List.mem_singleton.mp halt
  rfl

/-- `foo % 256` finds `300`: the last byte of 256 is taken for a terminator. -/
theorem not_coversExactly_foo_256 :
    ∃ (index : MojDbIndex) (query effective : MojDbQuery), query.validate = .ok () ∧
      query.validateFind = .ok () ∧ index.canAnswer query = true ∧
      effectiveQuery index query = .ok effective ∧ ¬ CoversExactly index effective := by
  refine ⟨fooIndex, fooPrefixQuery (.int 256) rfl, fooPrefixQuery (.int 256) rfl, by decide,
    by decide, by decide, rfl, fun hexact => ?_⟩
  have hhold : fooIndex.CanHold [.int 300, .int 1] :=
    { defined := by decide
      length_eq := rfl
      mem := ⟨.object [(MojDb.IdKey, .int 1), (foo, .int 300)], by decide +kernel⟩ }
  have hcovered : Covered (buildRanges fooIndex (fooPrefixQuery (.int 256) rfl))
      (fooIndex.keyOf [.int 300, .int 1]) := by
    unfold Covered
    decide +kernel
  obtain ⟨e, v, hmem, hname, hmatch, -⟩ := ((hexact _ hhold).mp hcovered).2 _ (List.mem_singleton.mpr rfl)
  have hv : v = .int 300 := by
    rcases List.mem_cons.mp hmem with h | h
    · exact (Prod.mk.inj h).2
    · obtain ⟨rfl, -⟩ := Prod.mk.inj (List.mem_singleton.mp h)
      exact absurd hname (by decide)
  subst hv
  obtain ⟨alt, halt, hprefix⟩ := hmatch
  obtain rfl := List.mem_singleton.mp halt
  have hne : MojObject.int 300 ≠ .int 256 := by decide
  exact hne hprefix

end MojDbQueryPlan

end Db8
