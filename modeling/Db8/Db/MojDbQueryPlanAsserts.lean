import Db8.Core.MojJsonWriter
import Db8.Db.MojDbIndexForQuery

/-!
# Db.MojDbQueryPlanAsserts

The plan with its assertions, for all operators.

* `Checked.buildRanges`   — the source's function; the first assertion that does not hold ends it.
* `Buildable`             — no `%%` clause, and no empty array next to an inequality.
* `meets_iff`             — on an index that answers the query the assertions hold just for those queries.
-/

namespace Db8

open Lib

namespace MojDbQueryPlan

/-- The assertions of the plan. -/
inductive Assertion where
  | noProps | gap | keySetSizes | noOperator | upperOperator | emptyPrefix | notReached | emptyToken | tokenNotFound
  deriving DecidableEq

def MojAssert (cond : Prop) [Decidable cond] (a : Assertion) : Except Assertion Unit :=
  if cond then .ok () else .error a

@[simp] theorem mojAssert_pos {cond : Prop} [Decidable cond] (h : cond) (a : Assertion) : MojAssert cond a = .ok () :=
  if_pos h

theorem mojAssert_eq_ok {cond : Prop} [Decidable cond] {a : Assertion} {u : Unit} : MojAssert cond a = .ok u ↔ cond := by
  unfold MojAssert
  split_ifs with h
  · exact ⟨fun _ => h, fun _ => rfl⟩
  · exact ⟨nofun, fun hcond => absurd hcond h⟩

namespace Checked

/-! ## Search -/

/-- The terminator of the first key is not compared. -/
def stringPrefixOf (key other : MojDbKey) : Bool := key.length ≤ other.length ∧ key.dropLast <+: other

/-- A token that begins the next one is taken out. -/
def removePrefixes : Option MojDbKey → List MojDbKey → KeySet → Except Assertion KeySet
  | _, [], toks => .ok toks
  | none, i :: rest, toks => removePrefixes (some i) rest toks
  | some prev, i :: rest, toks => do
    MojAssert (prev ≠ []) .emptyToken
    if stringPrefixOf prev i then
      MojAssert (prev ∈ toks) .tokenNotFound
      removePrefixes (some i) rest (toks.del prev)
    else removePrefixes (some i) rest toks

/-- `MojDbTextTokenizer::tokenize`. -/
def tokenize (text : MojDbText) (coll : Option MojDbCollationStrength) (val : MojString) : KeySet :=
  .ofList ((text.words val).map fun w => MojDbKey.assign text coll (.string w))

structure Building where
  bounds : Bounds
  groupCount : Nat

def pushSearch (text : MojDbText) (b : Building) (clause : WhereClause) : Except Assertion Building := do
  let toks := tokenize text clause.collation clause.lowerVal.stringValue
  let toks ← removePrefixes none toks.elems toks
  return {
    bounds := { b.bounds with
      lowerBuilder := b.bounds.lowerBuilder ++ [toks]
      upperBuilder := b.bounds.upperBuilder ++ [toks]
      lastClause := some clause }
    groupCount := toks.size }

/-! ## Ranges -/

def pushClause (text : MojDbText) (b : Building) (clause : WhereClause) : Except Assertion Building :=
  if clause.lowerOp = .opSearch then pushSearch text b clause
  else .ok { b with bounds := MojDbQueryPlan.pushClause text b.bounds clause }

/-- `i` counts the properties before. -/
def pushClauses (text : MojDbText) (whereMap : WhereMap) : Nat → List MojDbExtractor → Building → Except Assertion Building
  | _, [], b => .ok b
  | i, prop :: props, b =>
    match WhereMap.find whereMap prop.name with
    | none => do
      MojAssert (i = whereMap.length) .gap
      return b
    | some clause => do
      let b ← pushClause text b clause
      pushClauses text whereMap (i + 1) props b

def addRange (query : MojDbQuery) (ranges : List MojDbKeyRange) (lowerKey upperKey : MojDbKey) (group : Nat) :
    List MojDbKeyRange :=
  match pageRange query ⟨lowerKey, upperKey, group⟩ with
  | none => ranges
  | some range =>
    match ranges.getLast? with
    | none => [range]
    | some back => if back.containsRange range then ranges else ranges ++ [range]

/-- The upper bound: the end of the prefix where the clause has no upper part. -/
def upperBound (lowerOp upperOp : CompOp) (upperKey pre : MojDbKey) : Except Assertion MojDbKey :=
  match upperOp with
  | .opNone => do
    MojAssert (lowerOp ≠ .opNone) .noOperator
    return MojDbKey.increment pre
  | .opLessThanEq => .ok (MojDbKey.increment upperKey)
  | _ => do
    MojAssert (upperOp = .opLessThan) .upperOperator
    return upperKey

/-- `keys` are a lower key, an upper key and a prefix, with their position among the combinations. -/
def rangesFromKeys (query : MojDbQuery) (clause : Option WhereClause) (groupCount : Nat) (ranges : List MojDbKeyRange)
    (keys : (MojDbKey × MojDbKey × MojDbKey) × Nat) : Except Assertion (List MojDbKeyRange) := do
  let lowerKey := keys.1.1
  let pre := keys.1.2.2
  let lowerOp := (clause.map (·.lowerOp)).getD .opEq
  let upperOp := (clause.map (·.upperOp)).getD .opNone
  let upperKey ← upperBound lowerOp upperOp keys.1.2.1 pre
  match lowerOp with
  | .opNone =>
    MojAssert (upperOp ≠ .opNone) .noOperator
    return addRange query ranges lowerKey upperKey 0
  | .opSearch =>
    MojAssert (pre ≠ []) .emptyPrefix
    return addRange query ranges lowerKey (MojDbKey.increment (trimPrefix pre)) (keys.2 % groupCount)
  | .opPrefix =>
    MojAssert (pre ≠ []) .emptyPrefix
    return addRange query ranges lowerKey (MojDbKey.increment (trimPrefix pre)) 0
  | .opEq => return addRange query ranges lowerKey (MojDbKey.increment pre) 0
  | .opNotEq =>
    let ranges := addRange query ranges pre lowerKey 0
    return addRange query ranges (MojDbKey.increment lowerKey) (MojDbKey.increment pre) 0
  | .opGreaterThan => return addRange query ranges (MojDbKey.increment lowerKey) upperKey 0
  | .opGreaterThanEq => return addRange query ranges lowerKey upperKey 0
  | _ => .error .notReached

def rangesFromKeySets (query : MojDbQuery) (clause : Option WhereClause) (groupCount : Nat)
    (lowerKeys upperKeys prefixKeys : KeySet) : Except Assertion (List MojDbKeyRange) := do
  MojAssert (lowerKeys.size = upperKeys.size ∧ lowerKeys.size = prefixKeys.size) .keySetSizes
  (lowerKeys.elems.zip (upperKeys.elems.zip prefixKeys.elems)).zipIdx.foldlM (rangesFromKeys query clause groupCount) []

/-- From the builders to the ranges. -/
def rangesFromBuilders (query : MojDbQuery) (b : Building) : Except Assertion (List MojDbKeyRange) :=
  let lowerKeys := MojDbKeyBuilder.keys b.bounds.lowerBuilder
  let upperKeys := MojDbKeyBuilder.keys b.bounds.upperBuilder
  let prefixKeys := if b.bounds.prefixKeys.isEmpty then lowerKeys else b.bounds.prefixKeys
  rangesFromKeySets query b.bounds.lastClause b.groupCount lowerKeys upperKeys prefixKeys

def initial (index : MojDbIndex) : Building :=
  let idBuilder := pushVal index.text [] (.int index.id) none
  ⟨⟨idBuilder, idBuilder, .empty, none⟩, 0⟩

def buildRanges (index : MojDbIndex) (query : MojDbQuery) : Except Assertion (List MojDbKeyRange) := do
  MojAssert (index.props ≠ []) .noProps
  let b ← pushClauses index.text query.whereClauses 0 index.props (initial index)
  rangesFromBuilders query b

/-! ## What the assertions ask for -/

/-- Only tokens that are there are taken out, and no others are put in. -/
theorem exists_removePrefixes {prev : Option MojDbKey} {rest : List MojDbKey} {toks : KeySet}
    (hprev : ∀ key ∈ prev, key ≠ [] ∧ key ∈ toks ∧ key ∉ rest) (hrest : ∀ key ∈ rest, key ≠ [] ∧ key ∈ toks)
    (hnodup : rest.Nodup) : ∃ toks', removePrefixes prev rest toks = .ok toks' ∧ ∀ key ∈ toks', key ∈ toks := by
  induction rest generalizing prev toks with
  | nil => exact ⟨toks, by simp only [removePrefixes], fun _ h => h⟩
  | cons i rest ih =>
    obtain ⟨hi, hnodup⟩ := List.nodup_cons.mp hnodup
    have hthis := hrest i List.mem_cons_self
    have hnext : ∀ key ∈ rest, key ≠ [] ∧ key ∈ toks := fun key hkey => hrest key (List.mem_cons_of_mem i hkey)
    have hkept : ∀ key ∈ some i, key ≠ [] ∧ key ∈ toks ∧ key ∉ rest := by
      intro key hkey
      obtain rfl := Option.mem_some.mp hkey
      exact ⟨hthis.1, hthis.2, hi⟩
    cases prev with
    | none => exact ih hkept hnext hnodup
    | some prev =>
      obtain ⟨hne, hmem, hnot⟩ := hprev prev rfl
      simp only [removePrefixes, mojAssert_pos hne, mojAssert_pos hmem, ok_bind]
      split_ifs
      · have hkept' : ∀ key ∈ some i, key ≠ [] ∧ key ∈ toks.del prev ∧ key ∉ rest := by
          intro key hkey
          obtain rfl := Option.mem_some.mp hkey
          exact ⟨hthis.1, SortedSet.mem_del.mpr ⟨hthis.2, fun he => hnot (he ▸ List.mem_cons_self)⟩, hi⟩
        have hnext' : ∀ key ∈ rest, key ≠ [] ∧ key ∈ toks.del prev := by
          intro key hkey
          refine ⟨(hnext key hkey).1, SortedSet.mem_del.mpr ⟨(hnext key hkey).2, fun he => ?_⟩⟩
          exact hnot (he ▸ List.mem_cons_of_mem i hkey)
        obtain ⟨toks', hok, hsub⟩ := ih hkept' hnext' hnodup
        exact ⟨toks', hok, fun key hkey => (SortedSet.mem_del.mp (hsub key hkey)).1⟩
      · exact ih hkept hnext hnodup

theorem exists_pushSearch (text : MojDbText) (b : Building) (clause : WhereClause) :
    ∃ toks : KeySet, (∀ key ∈ toks, ∃ o : MojObject, key = o.toBytes) ∧ pushSearch text b clause = .ok
      ⟨{ b.bounds with
          lowerBuilder := b.bounds.lowerBuilder ++ [toks]
          upperBuilder := b.bounds.upperBuilder ++ [toks]
          lastClause := some clause }, toks.size⟩ := by
  have hcoded : ∀ key ∈ tokenize text clause.collation clause.lowerVal.stringValue, ∃ o : MojObject, key = o.toBytes := by
    intro key hkey
    obtain ⟨w, -, hw⟩ := List.mem_map.mp (SortedSet.mem_ofList.mp hkey)
    exact ⟨_, hw.symm⟩
  have htoks : ∀ key ∈ (tokenize text clause.collation clause.lowerVal.stringValue).elems,
      key ≠ [] ∧ key ∈ tokenize text clause.collation clause.lowerVal.stringValue := by
    intro key hkey
    obtain ⟨o, ho⟩ := hcoded key hkey
    exact ⟨ho ▸ toBytes_ne_nil o, hkey⟩
  have hnodup := (tokenize text clause.collation clause.lowerVal.stringValue).sorted.imp ne_of_lt
  obtain ⟨toks, hremove, hsub⟩ := @exists_removePrefixes none _ _ (fun _ h => nomatch h) htoks hnodup
  exact ⟨toks, fun key hkey => hcoded key (hsub key hkey), by simp only [pushSearch, hremove, ok_bind]; rfl⟩

/-- Every clause before the last is an equality, and after the last there is none. -/
theorem pushClauses_eq {text : MojDbText} {whereMap : WhereMap} {front back : List MojDbExtractor}
    {clauses : List WhereClause}
    (hfound : List.Forall₂ (fun e c => WhereMap.find whereMap e.name = some c) front clauses)
    (hback : ∀ e ∈ back, WhereMap.find whereMap e.name = none) (i : Nat) (hlen : i + front.length = whereMap.length)
    (b : Building) : pushClauses text whereMap i (front ++ back) b = clauses.foldlM (pushClause text) b := by
  induction hfound generalizing i b with
  | nil =>
    cases back with
    | nil => rfl
    | cons e back =>
      rw [List.nil_append, pushClauses, hback e List.mem_cons_self]
      dsimp only
      rw [mojAssert_pos (by simpa using hlen)]
      rfl
  | @cons e c front clauses hfind _ ih =>
    rw [List.cons_append, pushClauses, hfind, List.foldlM_cons]
    dsimp only
    congr 1
    funext b
    rw [List.length_cons] at hlen
    exact ih (i + 1) (by omega) b

theorem foldlM_pushClause_eq {text : MojDbText} {clauses : List WhereClause} (heq : ∀ c ∈ clauses, c.lowerOp = .opEq)
    (b : Building) : clauses.foldlM (pushClause text) b =
      .ok { b with bounds := clauses.foldl (MojDbQueryPlan.pushClause text) b.bounds } := by
  induction clauses generalizing b with
  | nil => rfl
  | cons c clauses ih =>
    have hne : c.lowerOp ≠ .opSearch := by
      rw [heq c List.mem_cons_self]
      decide
    rw [List.foldlM_cons, pushClause, if_neg hne, ok_bind, ih fun d hd => heq d (List.mem_cons_of_mem c hd)]
    rfl

/-- The range operators ask for a prefix and a value, and the end of the switch is not reached. -/
theorem exists_rangesFromKeys {clause : WhereClause} (hop : clause.lowerOp ≠ .opSubString) (query : MojDbQuery)
    (groupCount : Nat) (ranges : List MojDbKeyRange) {keys : (MojDbKey × MojDbKey × MojDbKey) × Nat}
    (hpre : clause.lowerOp = .opPrefix ∨ clause.lowerOp = .opSearch → keys.1.2.2 ≠ []) :
    ∃ ranges', rangesFromKeys query (some clause) groupCount ranges keys = .ok ranges' := by
  have hupper : ∃ upperKey, upperBound clause.lowerOp clause.upperOp keys.1.2.1 keys.1.2.2 = .ok upperKey := by
    have hsome := clause.valid.some_op
    cases hu : clause.upperOp with
    | opNone =>
      have hne : clause.lowerOp ≠ .opNone := hsome.resolve_right fun h => h hu
      exact ⟨_, by simp only [upperBound, mojAssert_pos hne, ok_bind]; rfl⟩
    | opLessThanEq => exact ⟨_, rfl⟩
    | opLessThan => exact ⟨_, rfl⟩
    | _ =>
      have hlt := clause.valid.upper_lt
      rw [hu] at hlt
      exact absurd hlt (by decide)
  obtain ⟨upperKey, hupper⟩ := hupper
  simp only [rangesFromKeys, Option.map_some, Option.getD_some, hupper, ok_bind]
  cases hl : clause.lowerOp with
  | opNone =>
    have hne : clause.upperOp ≠ .opNone := clause.valid.some_op.resolve_left fun h => h hl
    exact ⟨_, by simp only [mojAssert_pos hne, ok_bind]; rfl⟩
  | opSearch => exact ⟨_, by simp only [mojAssert_pos (hpre (.inr hl)), ok_bind]; rfl⟩
  | opPrefix => exact ⟨_, by simp only [mojAssert_pos (hpre (.inl hl)), ok_bind]; rfl⟩
  | opEq => exact ⟨_, rfl⟩
  | opNotEq => exact ⟨_, rfl⟩
  | opGreaterThan => exact ⟨_, rfl⟩
  | opGreaterThanEq => exact ⟨_, rfl⟩
  | opSubString => exact absurd hl hop
  | opLessThan => exact absurd hl clause.valid.lower_not_lt.1
  | opLessThanEq => exact absurd hl clause.valid.lower_not_lt.2

theorem rangesFromKeys_subString {clause : WhereClause} (hop : clause.lowerOp = .opSubString) (query : MojDbQuery)
    (groupCount : Nat) (ranges : List MojDbKeyRange) (keys : (MojDbKey × MojDbKey × MojDbKey) × Nat) :
    rangesFromKeys query (some clause) groupCount ranges keys = .error .notReached := by
  have hupper : clause.upperOp = .opNone := by
    by_contra hne
    have hcomb := clause.valid.combination hne
    rw [hop] at hcomb
    exact absurd hcomb (by decide)
  simp only [rangesFromKeys, Option.map_some, Option.getD_some, hop, hupper, upperBound]
  rfl

/-- There are combinations when each part has a value. -/
theorem exists_mem_keys_iff {stack : List KeySet} (hstack : stack ≠ []) :
    (∃ key, key ∈ MojDbKeyBuilder.keys stack) ↔ ∀ vals ∈ stack, ∃ part, part ∈ vals := by
  constructor
  · intro h vals hvals
    obtain ⟨key, hkey⟩ := h
    obtain ⟨parts, hparts, -⟩ := (MojDbKeyBuilder.mem_keys hstack).mp hkey
    obtain ⟨i, hi, rfl⟩ := List.mem_iff_getElem.mp hvals
    exact ⟨parts.get ⟨i, hparts.length_eq ▸ hi⟩, hparts.get (hparts.length_eq ▸ hi) hi⟩
  · intro h
    obtain ⟨parts, hparts⟩ := exists_forall₂ h
    exact ⟨parts.flatten, (MojDbKeyBuilder.mem_keys hstack).mpr ⟨parts, hparts, rfl⟩⟩

theorem exists_mem_lowerSet_iff {text : MojDbText} {c : WhereClause} :
    (∃ part, part ∈ lowerSet text c) ↔ c.lowerVal.alternatives ≠ [] := by
  unfold lowerSet
  constructor
  · intro h hnil
    obtain ⟨part, hpart⟩ := h
    rw [SortedSet.mem_ofList, hnil] at hpart
    cases hpart
  · intro h
    obtain ⟨val, hval⟩ := List.exists_mem_of_ne_nil _ h
    exact ⟨_, SortedSet.mem_ofList.mpr (List.mem_map_of_mem hval)⟩

end Checked

/-- The prefix is copied off before the value of such a clause. -/
def CopiesPrefix (c : WhereClause) : Prop := c.lowerOp ≠ .opEq ∧ c.lowerOp ≠ .opPrefix ∧ c.lowerOp ≠ .opSearch

/-- No `%%` clause, and no empty array next to a clause that copies the prefix off. -/
def Buildable (clauses : List WhereClause) : Prop :=
  ∀ c ∈ clauses, c.lowerOp ≠ .opSubString ∧ (CopiesPrefix c → ∀ d ∈ clauses, d.lowerVal.alternatives ≠ [])

/-- The assertions of `buildRanges` hold, and equality conditions are on the properties before a constrained one. -/
structure MeetsAssertions (index : MojDbIndex) (query : MojDbQuery) : Prop where
  returns : ∃ ranges, Checked.buildRanges index query = .ok ranges
  equality_before : ∀ front e back c, index.props = front ++ e :: back →
    WhereMap.find query.whereClauses e.name = some c →
    ∀ e' ∈ front, ∃ c', WhereMap.find query.whereClauses e'.name = some c' ∧ c'.lowerOp = .opEq

section Returns

variable {index : MojDbIndex} {query : MojDbQuery} {front back : List MojDbExtractor} {clauses init : List WhereClause}

/-- There are as many properties with a clause as clauses. -/
theorem length_front (h : Answers index query.whereClauses front back clauses) :
    front.length = query.whereClauses.length := by
  have hnodup : (MojDbIndex.propNames front).Nodup := by
    have hprops := index.names_nodup
    rw [h.props_eq, MojDbIndex.propNames, List.map_append] at hprops
    exact hprops.of_append_left
  have hperm : (MojDbIndex.propNames front).Perm (query.whereClauses.map Prod.fst) := by
    refine (List.perm_ext_iff_of_nodup hnodup query.where_nodup).mpr fun name => ?_
    constructor
    · intro hname
      obtain ⟨e, he, rfl⟩ := List.mem_map.mp hname
      obtain ⟨i, hi, rfl⟩ := List.mem_iff_getElem.mp he
      have hfind := h.found.get hi (h.found.length_eq ▸ hi)
      exact List.mem_map.mpr ⟨_, WhereMap.mem_of_find_eq_some hfind, rfl⟩
    · intro hname
      obtain ⟨p, hp, rfl⟩ := List.mem_map.mp hname
      exact h.keys_front p hp
  simpa [MojDbIndex.propNames] using hperm.length_eq

theorem mem_clauses_iff (h : Answers index query.whereClauses front back clauses) {c : WhereClause} :
    c ∈ clauses ↔ c ∈ query.whereClauses.map Prod.snd := by
  constructor
  · intro hc
    obtain ⟨i, hi, rfl⟩ := List.mem_iff_getElem.mp hc
    have hfind := h.found.get (h.found.length_eq ▸ hi) hi
    exact List.mem_map.mpr ⟨_, WhereMap.mem_of_find_eq_some hfind, rfl⟩
  · intro hc
    obtain ⟨p, hp, rfl⟩ := List.mem_map.mp hc
    obtain ⟨e, he, hname⟩ := List.mem_map.mp (h.keys_front p hp)
    obtain ⟨i, hi, rfl⟩ := List.mem_iff_getElem.mp he
    have hi' : i < clauses.length := h.found.length_eq ▸ hi
    have hfind : WhereMap.find query.whereClauses front[i].name = some clauses[i] :=
      h.found.get hi hi'
    rw [hname, WhereMap.find_eq_some_of_mem query.where_nodup (show (p.1, p.2) ∈ _ from hp)] at hfind
    exact Option.some.inj hfind ▸ List.getElem_mem _

/-- The builders after all clauses, and then the ranges. -/
theorem checked_buildRanges_eq (h : Answers index query.whereClauses front back clauses) :
    Checked.buildRanges index query = (do
      let b ← clauses.foldlM (Checked.pushClause index.text) (Checked.initial index)
      Checked.rangesFromBuilders query b) := by
  have hprops : index.props ≠ [] := by
    intro hnil
    have hid := index.id_mem
    rw [hnil] at hid
    cases hid
  rw [Checked.buildRanges, mojAssert_pos hprops, ok_bind, h.props_eq,
    Checked.pushClauses_eq h.found (find_back h) 0 (by rw [Nat.zero_add, length_front h])]

/-- The builders before the last clause. -/
theorem checked_buildRanges_concat {c : WhereClause} (h : Answers index query.whereClauses front back (init ++ [c])) :
    ∃ last, Checked.buildRanges index query = (do
      let b ← Checked.pushClause index.text ⟨⟨eqStack index init, eqStack index init, .empty, last⟩, 0⟩ c
      Checked.rangesFromBuilders query b) := by
  have hinit : ∀ d ∈ init, d.lowerOp = .opEq := by simpa using h.eq_init
  obtain ⟨last, hfold⟩ := foldl_pushClause_eq index.text hinit [index.idSet] none
  refine ⟨last, ?_⟩
  rw [checked_buildRanges_eq h, List.foldlM_append, Checked.foldlM_pushClause_eq hinit, Checked.initial, idBuilder_eq, hfold,
    ok_bind, List.foldlM_cons]
  simp only [List.foldlM_nil, bind_pure]
  rfl

theorem exists_rangesFromKeySets {clause : WhereClause} (hop : clause.lowerOp ≠ .opSubString) (groupCount : Nat)
    {lowerKeys upperKeys prefixKeys : KeySet}
    (hsize : lowerKeys.size = upperKeys.size ∧ lowerKeys.size = prefixKeys.size)
    (hpre : clause.lowerOp = .opPrefix ∨ clause.lowerOp = .opSearch → ∀ key ∈ prefixKeys, key ≠ []) :
    ∃ ranges, Checked.rangesFromKeySets query (some clause) groupCount lowerKeys upperKeys prefixKeys = .ok ranges := by
  rw [Checked.rangesFromKeySets, mojAssert_pos hsize, ok_bind]
  refine exists_foldlM (fun ranges keys hkeys => ?_) []
  refine Checked.exists_rangesFromKeys hop query groupCount ranges fun hmatch => ?_
  have hmem := (List.of_mem_zip (List.of_mem_zip (List.fst_mem_of_mem_zipIdx hkeys)).2).2
  exact hpre hmatch _ hmem

theorem idKey_ne_nil (index : MojDbIndex) : index.idKey ≠ [] := toBytes_ne_nil _

theorem ne_nil_of_mem_keys {stack : List KeySet} {key : MojDbKey}
    (h : key ∈ MojDbKeyBuilder.keys (index.idSet :: stack)) : key ≠ [] := by
  obtain ⟨parts, hparts, rfl⟩ := (MojDbKeyBuilder.mem_keys (List.cons_ne_nil _ _)).mp h
  obtain ⟨idPart, rest, hid, -, rfl⟩ := List.forall₂_cons_right_iff.mp hparts
  rw [SortedSet.mem_singleton.mp hid, List.flatten_cons]
  exact List.append_ne_nil_of_left_ne_nil (idKey_ne_nil index) _

theorem exists_mem_eqStack_iff : (∃ key, key ∈ MojDbKeyBuilder.keys (eqStack index init)) ↔
    ∀ d ∈ init, d.lowerVal.alternatives ≠ [] := by
  rw [eqStack, Checked.exists_mem_keys_iff (List.cons_ne_nil _ _), List.forall_mem_cons, List.forall_mem_map]
  constructor
  · intro h d hd
    exact Checked.exists_mem_lowerSet_iff.mp (h.2 d hd)
  · intro h
    exact ⟨⟨_, SortedSet.mem_singleton.mpr rfl⟩, fun d hd => Checked.exists_mem_lowerSet_iff.mpr (h d hd)⟩

section LastClause

variable {last : Option WhereClause} {c : WhereClause}

/-- `=` and `%` leave the prefix to the lower keys. -/
theorem returns_of_kept (hop : c.lowerOp = .opEq ∨ c.lowerOp = .opPrefix) :
    ∃ ranges, (do
      let b ← Checked.pushClause index.text ⟨⟨eqStack index init, eqStack index init, .empty, last⟩, 0⟩ c
      Checked.rangesFromBuilders query b) = .ok ranges := by
  have hsearch : c.lowerOp ≠ .opSearch := by
    intro he
    rw [he] at hop
    exact absurd hop (by decide)
  have hsub : c.lowerOp ≠ .opSubString := by
    intro he
    rw [he] at hop
    exact absurd hop (by decide)
  have hkeep : ¬(c.lowerOp ≠ .opEq ∧ c.lowerOp ≠ .opPrefix) := by tauto
  have hempty : (SortedSet.empty : KeySet).isEmpty = true := rfl
  rw [Checked.pushClause, if_neg hsearch, ok_bind]
  simp only [Checked.rangesFromBuilders, pushClause, if_pos (upperOp_of_eq hop), if_neg hkeep, if_pos hempty]
  exact exists_rangesFromKeySets hsub _ ⟨rfl, rfl⟩ fun _ key hkey => ne_nil_of_mem_keys hkey

/-- The tokens are in both builders, and no prefix is copied off. -/
theorem returns_of_search (hop : c.lowerOp = .opSearch) :
    ∃ ranges, (do
      let b ← Checked.pushClause index.text ⟨⟨eqStack index init, eqStack index init, .empty, last⟩, 0⟩ c
      Checked.rangesFromBuilders query b) = .ok ranges := by
  have hsub : c.lowerOp ≠ .opSubString := by
    rw [hop]
    decide
  have hempty : (SortedSet.empty : KeySet).isEmpty = true := rfl
  obtain ⟨toks, -, hpush⟩ := Checked.exists_pushSearch index.text ⟨⟨eqStack index init, eqStack index init, .empty, last⟩, 0⟩ c
  rw [Checked.pushClause, if_pos hop, hpush, ok_bind]
  simp only [Checked.rangesFromBuilders, if_pos hempty]
  exact exists_rangesFromKeySets hsub _ ⟨rfl, rfl⟩ fun _ key hkey => ne_nil_of_mem_keys hkey

/-- A prefix that is copied off is there. -/
theorem isEmpty_copied (stack : List KeySet) :
    (if (MojDbKeyBuilder.keys stack).isEmpty then .singleton [] else MojDbKeyBuilder.keys stack : KeySet).isEmpty =
      false := by
  split_ifs with h
  · rfl
  · simpa using h

theorem size_copied (stack : List KeySet) :
    (if (MojDbKeyBuilder.keys stack).isEmpty then .singleton [] else MojDbKeyBuilder.keys stack : KeySet).size =
      (MojDbKeyBuilder.keys stack).size ↔ ∃ key, key ∈ MojDbKeyBuilder.keys stack := by
  cases hkeys : (MojDbKeyBuilder.keys stack).elems with
  | nil =>
    constructor
    · intro h
      simp [SortedSet.isEmpty, SortedSet.size, SortedSet.singleton, hkeys] at h
    · intro h
      obtain ⟨key, hkey⟩ := h
      rw [SortedSet.mem_def, hkeys] at hkey
      cases hkey
  | cons key rest =>
    constructor
    · intro _
      exact ⟨key, by rw [SortedSet.mem_def, hkeys]; exact List.mem_cons_self⟩
    · intro _
      simp [SortedSet.isEmpty, hkeys]

/-- An inequality has one value on each side, so that there must be a prefix for it. -/
theorem returns_of_inequality (hcopies : CopiesPrefix c) (hsub : c.lowerOp ≠ .opSubString) :
    (∃ ranges, (do
      let b ← Checked.pushClause index.text ⟨⟨eqStack index init, eqStack index init, .empty, last⟩, 0⟩ c
      Checked.rangesFromBuilders query b) = .ok ranges) ↔ ∀ d ∈ init, d.lowerVal.alternatives ≠ [] := by
  obtain ⟨heq, hpre, hsearch⟩ := hcopies
  have hstack : eqStack index init ≠ [] := List.cons_ne_nil _ _
  have hlower : c.lowerVal.isArray = false := by
    by_contra h
    have harr := c.valid.lower_array (by simpa using h)
    tauto
  have hupper : (if c.upperOp = .opNone then c.lowerVal else c.upperVal).isArray = false := by
    split_ifs
    · exact hlower
    · exact c.valid.upper_array
  have hne := isEmpty_copied (eqStack index init)
  rw [← exists_mem_eqStack_iff, ← size_copied, Checked.pushClause, if_neg hsearch, ok_bind]
  simp only [Checked.rangesFromBuilders, pushClause, if_pos (And.intro heq hpre), pushVal, hne, Bool.false_eq_true,
    if_false, alternatives_of_not_array hlower, alternatives_of_not_array hupper, List.map_cons, List.map_nil]
  have hsizes : ∀ val, (MojDbKeyBuilder.keys (eqStack index init ++ [.ofList [val]])).size =
      (MojDbKeyBuilder.keys (eqStack index init)).size := by
    intro val
    rw [SortedSet.size, MojDbKeyBuilder.keys_concat_singleton hstack eqStack_coded, List.length_map, SortedSet.size]
  constructor
  · intro h
    obtain ⟨ranges, h⟩ := h
    rw [Checked.rangesFromKeySets] at h
    obtain ⟨_, hassert, -⟩ := bind_eq_ok.mp h
    have hsize := mojAssert_eq_ok.mp hassert
    exact hsize.2.symm.trans (hsizes _)
  · intro h
    refine exists_rangesFromKeySets hsub _ ⟨(hsizes _).trans (hsizes _).symm, (hsizes _).trans h.symm⟩ fun hmatch => ?_
    exact absurd hmatch (not_or.mpr ⟨hpre, hsearch⟩)

/-- At the first combination the end of the switch is reached. -/
theorem not_rangesFromKeySets_subString (hop : c.lowerOp = .opSubString) (groupCount : Nat)
    {lowerKeys upperKeys prefixKeys : KeySet} (hcopied : prefixKeys.isEmpty = false) :
    ¬∃ ranges, Checked.rangesFromKeySets query (some c) groupCount lowerKeys upperKeys prefixKeys = .ok ranges := by
  intro h
  obtain ⟨ranges, h⟩ := h
  rw [Checked.rangesFromKeySets] at h
  obtain ⟨_, hassert, h⟩ := bind_eq_ok.mp h
  have hsize := mojAssert_eq_ok.mp hassert
  obtain ⟨_ | ⟨lowerKey, lowers⟩, hl⟩ := lowerKeys
  · have hnil : prefixKeys.elems = [] := List.length_eq_zero_iff.mp hsize.2.symm
    simp [SortedSet.isEmpty, hnil] at hcopied
  obtain ⟨_ | ⟨upperKey, uppers⟩, hu⟩ := upperKeys
  · exact absurd hsize.1 (by simp [SortedSet.size])
  obtain ⟨_ | ⟨pre, pres⟩, hp⟩ := prefixKeys
  · cases hcopied
  rw [List.zip_cons_cons, List.zip_cons_cons, List.zipIdx_cons, List.foldlM_cons, Checked.rangesFromKeys_subString hop,
    error_bind] at h
  cases h

theorem not_returns_of_subString (hop : c.lowerOp = .opSubString) :
    ¬∃ ranges, (do
      let b ← Checked.pushClause index.text ⟨⟨eqStack index init, eqStack index init, .empty, last⟩, 0⟩ c
      Checked.rangesFromBuilders query b) = .ok ranges := by
  have hsearch : c.lowerOp ≠ .opSearch := by
    rw [hop]
    decide
  have hcopies : c.lowerOp ≠ .opEq ∧ c.lowerOp ≠ .opPrefix := by
    rw [hop]
    decide
  rw [Checked.pushClause, if_neg hsearch, ok_bind]
  simp only [Checked.rangesFromBuilders, pushClause, if_pos hcopies, isEmpty_copied, Bool.false_eq_true, if_false]
  exact not_rangesFromKeySets_subString hop _ (isEmpty_copied (eqStack index init))

end LastClause

/-- The assertions hold for the clauses of an answering index when there is no `%%` clause and no empty array next to
an inequality. -/
theorem returns_iff (h : Answers index query.whereClauses front back clauses) :
    (∃ ranges, Checked.buildRanges index query = .ok ranges) ↔ Buildable clauses := by
  cases clauses.eq_nil_or_concat' with
  | inl hnil =>
    subst hnil
    have hempty : (SortedSet.empty : KeySet).isEmpty = true := rfl
    rw [checked_buildRanges_eq h, List.foldlM_nil]
    refine iff_of_true ?_ nofun
    simp only [pure_bind, Checked.rangesFromBuilders, Checked.initial, if_pos hempty]
    rw [Checked.rangesFromKeySets, mojAssert_pos ⟨rfl, rfl⟩, ok_bind]
    exact exists_foldlM (fun ranges keys _ => ⟨_, rfl⟩) []
  | inr hconcat =>
    obtain ⟨init, c, rfl⟩ := hconcat
    have hinit : ∀ d ∈ init, d.lowerOp = .opEq := by simpa using h.eq_init
    obtain ⟨last, hbuild⟩ := checked_buildRanges_concat h
    rw [hbuild]
    -- only the last clause can be another than an equality
    have hbuildable : Buildable (init ++ [c]) ↔ c.lowerOp ≠ .opSubString ∧
        (CopiesPrefix c → ∀ d ∈ init ++ [c], d.lowerVal.alternatives ≠ []) := by
      constructor
      · intro hb
        exact hb c (List.mem_append_right init (List.mem_singleton_self c))
      · intro hb d hd
        cases List.mem_append.mp hd with
        | inl hd =>
          rw [CopiesPrefix, hinit d hd]
          exact ⟨by decide, fun hcopies => absurd rfl hcopies.1⟩
        | inr hd => exact List.mem_singleton.mp hd ▸ hb
    rw [hbuildable]
    by_cases hsub : c.lowerOp = .opSubString
    · exact iff_of_false (not_returns_of_subString hsub) fun hb => hb.1 hsub
    by_cases hcopies : CopiesPrefix c
    · rw [returns_of_inequality hcopies hsub]
      have hlower : c.lowerVal.isArray = false := by
        by_contra harr
        have hop := c.valid.lower_array (by simpa using harr)
        obtain ⟨heq, hpre, -⟩ := hcopies
        tauto
      constructor
      · intro hne
        refine ⟨hsub, fun _ d hd => ?_⟩
        cases List.mem_append.mp hd with
        | inl hd => exact hne d hd
        | inr hd =>
          rw [List.mem_singleton.mp hd, alternatives_of_not_array hlower]
          exact List.cons_ne_nil _ _
      · intro hb d hd
        exact hb.2 hcopies d (List.mem_append_left [c] hd)
    · refine iff_of_true ?_ ⟨hsub, fun h => absurd h hcopies⟩
      by_cases hsearch : c.lowerOp = .opSearch
      · exact returns_of_search hsearch
      · refine returns_of_kept ?_
        by_contra hop
        obtain ⟨heq, hpre⟩ := not_or.mp hop
        exact hcopies ⟨heq, hpre, hsearch⟩

end Returns

/-- The condition on the deleted flag that the plan adds is an equality with one value. -/
theorem buildable_effective {index : MojDbIndex} {query effective : MojDbQuery}
    (heff : effectiveQuery index query = .ok effective) :
    Buildable (effective.whereClauses.map Prod.snd) ↔ Buildable (query.whereClauses.map Prod.snd) := by
  obtain ⟨rfl, -⟩ | ⟨-, -, hwhere, -, -⟩ := effectiveQuery_cases heff
  · exact Iff.rfl
  rw [hwhere, List.map_append]
  constructor
  · intro h c hc
    refine ⟨(h c (List.mem_append_left _ hc)).1, fun hcopies d hd => ?_⟩
    exact (h c (List.mem_append_left _ hc)).2 hcopies d (List.mem_append_left _ hd)
  · intro h c hc
    cases List.mem_append.mp hc with
    | inl hc =>
      refine ⟨(h c hc).1, fun hcopies d hd => ?_⟩
      cases List.mem_append.mp hd with
      | inl hd => exact (h c hc).2 hcopies d hd
      | inr hd =>
        rw [List.mem_singleton.mp hd]
        exact List.cons_ne_nil _ _
    | inr hc =>
      rw [List.mem_singleton.mp hc]
      exact ⟨by decide, fun hcopies => absurd rfl hcopies.1⟩

/-- Before a property with a clause there are equality conditions only. -/
theorem equality_before {index : MojDbIndex} {query : MojDbQuery} {front back : List MojDbExtractor}
    {clauses : List WhereClause} (h : Answers index query.whereClauses front back clauses)
    {before after : List MojDbExtractor} {e e' : MojDbExtractor} {c : WhereClause}
    (hprops : index.props = before ++ e :: after) (hfind : WhereMap.find query.whereClauses e.name = some c)
    (he' : e' ∈ before) : ∃ c', WhereMap.find query.whereClauses e'.name = some c' ∧ c'.lowerOp = .opEq := by
  have hlen := h.found.length_eq
  have hsplit : front ++ back = before ++ e :: after := h.props_eq.symm.trans hprops
  have hlt : before.length < front.length := by
    by_contra hge
    have hmem : e ∈ back := by
      have hget : (front ++ back)[before.length]? = some e := by
        rw [hsplit, List.getElem?_append_right (le_refl _), Nat.sub_self]
        rfl
      rw [List.getElem?_append_right (by omega)] at hget
      exact List.mem_of_getElem? hget
    rw [find_back h e hmem] at hfind
    cases hfind
  obtain ⟨j, hj, hget⟩ := List.mem_iff_getElem.mp he'
  have hfront : front[j]? = some e' := by
    have hat : (front ++ back)[j]? = some e' := by
      rw [hsplit, List.getElem?_append_left hj, List.getElem?_eq_getElem hj, hget]
    rwa [List.getElem?_append_left (by omega)] at hat
  have hfound : WhereMap.find query.whereClauses front[j].name = some clauses[j] :=
    h.found.get (by omega) (by omega)
  rw [List.getElem?_eq_getElem (by omega), Option.some.injEq] at hfront
  rw [hfront] at hfound
  have hlast : j < clauses.dropLast.length := by
    rw [List.length_dropLast]
    omega
  have hmem : clauses[j] ∈ clauses.dropLast := by
    rw [← List.getElem_dropLast hlast]
    exact List.getElem_mem hlast
  exact ⟨_, hfound, h.eq_init _ hmem⟩

/-- **The plan meets its assertions** for just the queries without a `%%` clause and without an empty array next to
an inequality. -/
theorem meetsAssertions_iff {index : MojDbIndex} {query effective : MojDbQuery}
    (hanswer : index.canAnswer query = true) (heff : effectiveQuery index query = .ok effective) :
    MeetsAssertions index effective ↔ Buildable (query.whereClauses.map Prod.snd) := by
  obtain ⟨front, back, clauses, h⟩ := answers_of_canAnswer hanswer heff
  have hbuildable : Buildable clauses ↔ Buildable (effective.whereClauses.map Prod.snd) := by
    have hmem : ∀ c, c ∈ clauses ↔ c ∈ effective.whereClauses.map Prod.snd := fun c => mem_clauses_iff h
    simp only [Buildable, hmem]
  rw [← buildable_effective heff, ← hbuildable, ← returns_iff h]
  constructor
  · intro hmeets
    exact hmeets.returns
  · intro hreturns
    exact ⟨hreturns, fun _ _ _ _ hprops hfind _ he' => equality_before h hprops hfind he'⟩

/-! ### Queries on two properties -/

open MojDbIndex (bar fooBarIndex opEq_ne_opNone)

/-- `foo = val`, `bar > 1` -/
def fooBarQuery (val : MojObject) : MojDbQuery where
  whereClauses :=
    [(foo, MojDbQuery.createClause .opEq val none opEq_ne_opNone fun _ => .inl rfl),
      (bar, MojDbQuery.createClause .opGreaterThan (.int 1) none (by decide) fun h => by cases h)]
  filterClauses := []
  orderProp := MojString.empty
  distinct := MojString.empty
  desc := false
  limit := 4294967295
  page := []
  ignoreInactiveShards := true
  where_nodup := by simp [foo, bar]

/-- `foo = [1, 2]`, `bar > 1` -/
theorem meetsAssertions_fooBar : MeetsAssertions fooBarIndex (fooBarQuery (.array [.int 1, .int 2])) := by
  refine (@meetsAssertions_iff _ (fooBarQuery (.array [.int 1, .int 2])) _ (by decide) rfl).mpr ?_
  unfold Buildable CopiesPrefix
  decide

/-- With `foo = []` there is no lower and no upper key, but an empty prefix. -/
theorem not_meetsAssertions_fooBar :
    ∃ (index : MojDbIndex) (query effective : MojDbQuery), query.validate = .ok () ∧
      query.validateFind = .ok () ∧ index.canAnswer query = true ∧
      effectiveQuery index query = .ok effective ∧ ¬MeetsAssertions index effective := by
  refine ⟨fooBarIndex, fooBarQuery (.array []), fooBarQuery (.array []), by decide, by decide, by decide, rfl,
    fun hmeets => ?_⟩
  obtain ⟨ranges, hreturns⟩ := hmeets.returns
  have hfails : Checked.buildRanges fooBarIndex (fooBarQuery (.array [])) = .error .keySetSizes := by decide +kernel
  rw [hfails] at hreturns
  cases hreturns

end MojDbQueryPlan

end Db8
