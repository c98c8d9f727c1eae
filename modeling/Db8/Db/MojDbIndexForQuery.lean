import Db8.Db.MojDbQueryCovers

/-!
# Db.MojDbIndexForQuery

The objects a query finds on an index, and how far they depend on which index of the kind answers it.

* `indexForQuery`      — the first index of the kind that answers the query.
* `Delivers`           — the first of the objects that a query comes to, as many as its limit.
* `reaches_iff`        — what a query comes to, property by property.
* `Agree`              — two indexes take the same values from an object, as far as the query asks.
* `delivered_eq`       — of the objects both indexes have keys for, they deliver the same, unless the limit
  cuts them off.
-/

namespace Db8

open Lib

/-- `MojDbKind::indexForQuery`. -/
def indexForQuery (indexes : List MojDbIndex) (query : MojDbQuery) : Option MojDbIndex :=
  indexes.find? (·.canAnswer query)

namespace MojDbIndex

/-- The index keeps a key of the object. -/
def HasKeyOf (index : MojDbIndex) (obj : MojObject) : Prop :=
  index.includeObj (some obj) = true ∧ ∃ key, key ∈ index.getKeys obj

/-- The query, run on the index, comes to this key of the object. -/
def ReachesAt (index : MojDbIndex) (query : MojDbQuery) (obj : MojObject) (key : MojDbKey) : Prop :=
  ∃ ranges, MojDbQueryPlan.init index query = .ok ranges ∧ key ∈ index.getKeys obj ∧ MojDbQueryPlan.Covered ranges key

/-- The query, run on the index, comes to a key of the object. -/
def Reaches (index : MojDbIndex) (query : MojDbQuery) (obj : MojObject) : Prop :=
  index.includeObj (some obj) = true ∧ ∃ key, index.ReachesAt query obj key

theorem Reaches.hasKeyOf {index : MojDbIndex} {query : MojDbQuery} {obj : MojObject}
    (h : index.Reaches query obj) : index.HasKeyOf obj := by
  obtain ⟨hinc, key, _, _, hkey, _⟩ := h
  exact ⟨hinc, key, hkey⟩

/-- Of the stored objects, those that the query comes to; it passes over the objects of inactive shards. -/
def found (index : MojDbIndex) (query : MojDbQuery) (inactive : MojObject → Prop) (objs : Set MojObject) : Set MojObject :=
  {obj | obj ∈ objs ∧ index.Reaches query obj ∧ ¬(query.ignoreInactiveShards = true ∧ inactive obj)}

/-- The query comes to a key of one object before any key of the other. -/
def Before (index : MojDbIndex) (query : MojDbQuery) (obj obj' : MojObject) : Prop :=
  ∃ key, index.ReachesAt query obj key ∧
    ∀ key', index.ReachesAt query obj' key' → if query.desc then key' < key else key < key'

/-- `getImpl` and `limitEnforced`: each object comes up at the first of its keys, until there are as many as the
limit allows. A query with a distinct property passes over more. -/
def Delivers (index : MojDbIndex) (query : MojDbQuery) (inactive : MojObject → Prop) (objs : Set MojObject)
    (obj : MojObject) : Prop :=
  obj ∈ index.found query inactive objs ∧
    {before ∈ index.found query inactive objs | index.Before query before obj}.encard < query.limit

theorem not_before_self {index : MojDbIndex} {query : MojDbQuery} {obj : MojObject} : ¬index.Before query obj obj := by
  intro ⟨key, hkey, hfirst⟩
  have hlt := hfirst key hkey
  split_ifs at hlt
  · exact lt_irrefl key hlt
  · exact lt_irrefl key hlt

/-- A limit that is large enough cuts nothing off. -/
theorem delivers_of_limit {index : MojDbIndex} {query : MojDbQuery} {inactive : MojObject → Prop} {objs : Set MojObject}
    (hlimit : (index.found query inactive objs).encard ≤ query.limit) {obj : MojObject} :
    index.Delivers query inactive objs obj ↔ obj ∈ index.found query inactive objs := by
  refine and_iff_left_of_imp fun hobj => ?_
  have hfinite : (index.found query inactive objs).Finite := Set.finite_of_encard_le_coe hlimit
  refine lt_of_lt_of_le (Set.Finite.encard_lt_encard (hfinite.subset (Set.sep_subset _ _)) ?_) hlimit
  refine (Set.ssubset_iff_of_subset (Set.sep_subset _ _)).mpr ⟨obj, hobj, ?_⟩
  intro hbefore
  exact not_before_self hbefore.2

/-- The keys of an object, with their parts decoded. -/
theorem mem_getKeys_vals {index : MojDbIndex} {obj : MojObject} {key : MojDbKey} :
    key ∈ index.getKeys obj ↔ ∃ vals : List MojObject, (∀ v ∈ vals, v.isDefined = true) ∧
      List.Forall₂ (fun v e => v.toBytes ∈ MojDbExtractor.vals index.text obj e) vals index.props ∧
      key = index.keyOf vals := by
  rw [mem_getKeys]
  constructor
  · intro ⟨parts, hparts, hkey⟩
    obtain ⟨vals, hdef, _, hmap⟩ := exists_vals_of_parts hparts
    subst hmap
    exact ⟨vals, hdef, List.forall₂_map_left_iff.mp hparts, hkey⟩
  · intro ⟨vals, _, hvals, hkey⟩
    exact ⟨vals.map MojObject.toBytes, List.forall₂_map_left_iff.mpr hvals, hkey⟩

theorem eq_of_name_eq {index : MojDbIndex} {e e' : MojDbExtractor} (he : e ∈ index.props)
    (he' : e' ∈ index.props) (hname : e.name = e'.name) : e = e' :=
  List.inj_on_of_nodup_map index.names_nodup he he' hname

end MojDbIndex

namespace MojDbQueryPlan

variable {index : MojDbIndex} {query effective : MojDbQuery} {obj : MojObject}

/-- A value among the parts is where the plan looks for the clause. -/
def Finds (text : MojDbText) (c : WhereClause) (parts : KeySet) : Prop :=
  ∃ v : MojObject, v.isDefined = true ∧ v.toBytes ∈ parts ∧ c.KeyMatches text v

/-- Every property of the query is a property of an index that answers it. -/
theorem exists_prop (hanswer : index.canAnswer query = true) (heff : effectiveQuery index query = .ok effective)
    {p : MojString × WhereClause} (hp : p ∈ effective.whereClauses) : ∃ e ∈ index.props, e.name = p.1 := by
  obtain ⟨front, back, clauses, h⟩ := answers_of_canAnswer hanswer heff
  obtain ⟨e, he, hname⟩ := List.mem_map.mp (h.keys_front p hp)
  exact ⟨e, h.props_eq ▸ List.mem_append_left back he, hname⟩

theorem exists_forall₂ {α β : Type*} {R : β → α → Prop} {xs : List α} (h : ∀ x ∈ xs, ∃ y, R y x) :
    ∃ ys, List.Forall₂ R ys xs := by
  induction xs with
  | nil => exact ⟨[], .nil⟩
  | cons x xs ih =>
    obtain ⟨y, hy⟩ := h x List.mem_cons_self
    obtain ⟨ys, hys⟩ := ih fun z hz => h z (List.mem_cons_of_mem x hz)
    exact ⟨y :: ys, .cons hy hys⟩

/-- Conditions on several properties are met by one key when each is met by some value: the keys of an
object combine the values of its properties freely. -/
theorem exists_covered_iff (hanswer : index.canAnswer query = true)
    (heff : effectiveQuery index query = .ok effective) (hpage : query.page = [])
    (hkeys : ∃ key, key ∈ index.getKeys obj) :
    (∃ key ∈ index.getKeys obj, Covered (buildRanges index effective) key) ↔
      ∀ p ∈ effective.whereClauses, ∃ e ∈ index.props, e.name = p.1 ∧
        Finds index.text p.2 (e.vals index.text obj) := by
  have honpage : ∀ key, OnPage effective key := fun key => .inl ((effectiveQuery_page heff).trans hpage)
  constructor
  · intro ⟨key, hkey, hcovered⟩ p hp
    obtain ⟨vals, hdef, hvals, rfl⟩ := MojDbIndex.mem_getKeys_vals.mp hkey
    have hhold : index.CanHold vals := ⟨hdef, hvals.length_eq, obj, hkey⟩
    obtain ⟨_, hsat⟩ := (covered_iff_satisfies hhold hanswer heff).mp hcovered
    obtain ⟨e, v, hmem, hname, hmatch⟩ := hsat p hp
    have hpart : v.toBytes ∈ MojDbExtractor.vals index.text obj e :=
      (List.forall₂_iff_zip.mp hvals.flip).2 hmem
    exact ⟨e, (List.of_mem_zip hmem).1, hname, v, hdef v (List.of_mem_zip hmem).2, hpart, hmatch⟩
  · intro h
    obtain ⟨key, hkey⟩ := hkeys
    obtain ⟨anyVals, hanyDef, hany, _⟩ := MojDbIndex.mem_getKeys_vals.mp hkey
    -- a property with a clause takes a value the clause finds, the others take any
    have hchoice : ∀ e ∈ index.props, ∃ v : MojObject, v.isDefined = true ∧
        v.toBytes ∈ MojDbExtractor.vals index.text obj e ∧
        ∀ p ∈ effective.whereClauses, p.1 = e.name → p.2.KeyMatches index.text v := by
      intro e he
      by_cases hclause : ∃ p ∈ effective.whereClauses, p.1 = e.name
      · obtain ⟨p, hp, hpe⟩ := hclause
        obtain ⟨e', he', hname, v, hdef, hpart, hmatch⟩ := h p hp
        obtain rfl := MojDbIndex.eq_of_name_eq he' he (hname.trans hpe)
        refine ⟨v, hdef, hpart, fun q hq hqe => ?_⟩
        obtain rfl : q = p := List.inj_on_of_nodup_map effective.where_nodup hq hp (hqe.trans hpe.symm)
        exact hmatch
      · obtain ⟨i, hi, rfl⟩ := List.mem_iff_getElem.mp he
        have hlen := hany.length_eq
        refine ⟨anyVals[i], hanyDef _ (List.getElem_mem _), hany.get (by omega) hi, fun p hp hpe => ?_⟩
        exact absurd ⟨p, hp, hpe⟩ hclause
    obtain ⟨vals, hvals⟩ := exists_forall₂ hchoice
    have hzip := List.forall₂_iff_zip.mp hvals.flip
    have hdef : ∀ v ∈ vals, v.isDefined = true := by
      intro v hv
      obtain ⟨i, hi, rfl⟩ := List.mem_iff_getElem.mp hv
      exact (hvals.get hi (hvals.length_eq ▸ hi)).1
    have hmem : index.keyOf vals ∈ index.getKeys obj :=
      MojDbIndex.mem_getKeys_vals.mpr ⟨vals, hdef, hvals.imp fun _ _ hv => hv.2.1, rfl⟩
    have hhold : index.CanHold vals := ⟨hdef, hvals.length_eq, obj, hmem⟩
    refine ⟨_, hmem, (covered_iff_satisfies hhold hanswer heff).mpr ⟨honpage _, fun p hp => ?_⟩⟩
    obtain ⟨e, he, hname, _⟩ := h p hp
    obtain ⟨i, hi, rfl⟩ := List.mem_iff_getElem.mp he
    have hlen := hvals.length_eq
    have hpair : (index.props[i], vals[i]) ∈ index.props.zip vals :=
      List.mem_iff_getElem.mpr ⟨i, by rw [List.length_zip]; omega, List.getElem_zip⟩
    exact ⟨index.props[i], vals[i], hpair, hname, (hzip.2 hpair).2.2 p hp hname.symm⟩

end MojDbQueryPlan

/-! ## The deleted flag -/

namespace MojDbIndex

variable {index : MojDbIndex} {query : MojDbQuery} {obj : MojObject}

/-- The property for the deleted flag reads the flag. -/
def ReadsFlag (index : MojDbIndex) (obj : MojObject) : Prop :=
  ∀ e ∈ index.props, e.name = MojDb.DelKey →
    e.vals index.text obj = .singleton (MojObject.bool obj.isDeleted).toBytes

/-- The built-in property does, for an object whose flag is a boolean or absent. -/
theorem readsFlag_of_builtin (hprop : delProp ∈ index.props)
    (hbool : ∀ del, obj.get MojDb.DelKey = some del → ∃ b, del = .bool b) : index.ReadsFlag obj := by
  intro e he hname
  obtain rfl := eq_of_name_eq he hprop hname
  have hpath : (MojDb.DelKey.split MojDbPropExtractor.PropComponentSeparator) = [MojDb.DelKey] := by
    decide
  have hwild : MojDb.DelKey ≠ MojDbPropExtractor.WildcardKey := by
    decide
  ext part
  rw [SortedSet.mem_singleton]
  change part ∈ SortedSet.ofList (MojDbPropExtractor.handleVal index.text _ (MojDb.DelKey.split _) obj) ↔ _
  rw [SortedSet.mem_ofList, hpath, MojDbPropExtractor.handleVal, if_neg hwild]
  cases hdel : obj.get MojDb.DelKey with
  | none =>
    simp only [MojObject.isDeleted, hdel]
    exact List.mem_singleton
  | some del =>
    obtain ⟨b, rfl⟩ := hbool del hdel
    simp only [MojObject.isDeleted, hdel]
    exact List.mem_singleton

theorem includeObj_of_isDeleted (h : index.includeObj (some obj) = true) (hdel : obj.isDeleted = true) :
    index.includeDeleted = true := by
  unfold includeObj at h
  unfold MojObject.isDeleted at hdel
  split_ifs at h with hinc
  · exact hinc
  · cases hget : obj.get MojDb.DelKey <;> simp_all

end MojDbIndex

namespace MojDbQueryPlan

variable {index : MojDbIndex} {query effective : MojDbQuery} {obj : MojObject}

theorem finds_delClause {text : MojDbText} {b : Bool} :
    Finds text delClause (.singleton (MojObject.bool b).toBytes) ↔ b = false := by
  have hoperand : WhereClause.lowerOperands text delClause = [.bool false] := rfl
  constructor
  · intro ⟨v, hdef, hpart, hmatch⟩
    have hv : v = .bool false := by
      have hmem : v ∈ delClause.lowerOperands text := (keyMatches_of_eq rfl v).mpr hmatch
      simpa [hoperand] using hmem
    rw [hv, SortedSet.mem_singleton] at hpart
    cases b with
    | false => rfl
    | true => exact absurd hpart (by decide)
  · intro hb
    subst hb
    exact ⟨.bool false, rfl, SortedSet.mem_singleton.mpr rfl, (keyMatches_of_eq rfl _).mp (by simp [hoperand])⟩

/-- What a query comes to, property by property: the values each clause asks for, and no deleted object unless
the query asks for the deleted flag. -/
theorem reaches_iff (hanswer : index.canAnswer query = true) (hpage : query.page = []) (hkeyOf : index.HasKeyOf obj)
    (hflag : index.includeDeleted = true → WhereMap.find query.whereClauses MojDb.DelKey = none →
      index.ReadsFlag obj) :
    index.Reaches query obj ↔
      (∀ p ∈ query.whereClauses, ∃ e ∈ index.props, e.name = p.1 ∧
        Finds index.text p.2 (e.vals index.text obj)) ∧
      (WhereMap.find query.whereClauses MojDb.DelKey = none → obj.isDeleted = false) := by
  obtain ⟨effective, heff⟩ := exists_effectiveQuery index query
  have hreaches : index.Reaches query obj ↔
      ∃ key ∈ index.getKeys obj, Covered (buildRanges index effective) key := by
    have hinit : init index query = .ok (if effective.desc then (buildRanges index effective).reverse
        else buildRanges index effective) := by
      rw [init, heff]
      rfl
    have hcovered : ∀ key, Covered (if effective.desc then (buildRanges index effective).reverse
        else buildRanges index effective) key ↔ Covered (buildRanges index effective) key := by
      intro key
      split_ifs
      exacts [covered_reverse, Iff.rfl]
    constructor
    · intro h
      obtain ⟨-, key, ranges, hranges, hkey, hcov⟩ := h
      obtain rfl := Except.ok.inj (hinit.symm.trans hranges)
      exact ⟨key, hkey, (hcovered key).mp hcov⟩
    · intro h
      obtain ⟨key, hkey, hcov⟩ := h
      exact ⟨hkeyOf.1, key, _, hinit, hkey, (hcovered key).mpr hcov⟩
  rw [hreaches, exists_covered_iff hanswer heff hpage hkeyOf.2]
  obtain ⟨rfl, hkept⟩ | ⟨hinc, hnone, hwhere, _, _⟩ := effectiveQuery_cases heff
  · refine ⟨fun h => ⟨h, fun hnone => ?_⟩, And.left⟩
    -- an index without deleted objects holds none
    by_contra hdel
    rw [Bool.not_eq_false] at hdel
    exact hkept ⟨MojDbIndex.includeObj_of_isDeleted hkeyOf.1 hdel, by simp [WhereMap.contains, hnone]⟩
  · rw [hwhere]
    have hread := hflag hinc hnone
    constructor
    · intro h
      refine ⟨fun p hp => h p (List.mem_append_left _ hp), fun _ => ?_⟩
      obtain ⟨e, he, hname, hfinds⟩ := h (MojDb.DelKey, delClause) (by simp)
      rw [hread e he hname] at hfinds
      exact finds_delClause.mp hfinds
    · intro hfinds p hp
      obtain ⟨h, hdel⟩ := hfinds
      rw [List.mem_append, List.mem_singleton] at hp
      cases hp with
      | inl hp => exact h p hp
      | inr hp =>
        subst hp
        have hmem : (MojDb.DelKey, delClause) ∈ effective.whereClauses := by
          rw [hwhere]
          exact List.mem_append_right _ List.mem_cons_self
        obtain ⟨e, he, hname⟩ := exists_prop hanswer heff hmem
        refine ⟨e, he, hname, ?_⟩
        rw [hread e he hname]
        exact finds_delClause.mpr (hdel hnone)

end MojDbQueryPlan

/-! ## Two indexes -/

namespace MojDbIndex

/-- For the properties of the query both indexes take the same values from the object; and where the query
leaves deleted objects out, each reads the deleted flag. -/
structure Agree (i j : MojDbIndex) (query : MojDbQuery) (obj : MojObject) : Prop where
  vals_eq : ∀ p ∈ query.whereClauses, ∀ e ∈ i.props, ∀ e' ∈ j.props, e.name = p.1 → e'.name = p.1 →
    e.vals i.text obj = e'.vals j.text obj
  left_flag : i.includeDeleted = true → WhereMap.find query.whereClauses MojDb.DelKey = none → i.ReadsFlag obj
  right_flag : j.includeDeleted = true → WhereMap.find query.whereClauses MojDb.DelKey = none → j.ReadsFlag obj

variable {i j : MojDbIndex} {query : MojDbQuery} {obj : MojObject}

theorem Agree.symm (h : Agree i j query obj) : Agree j i query obj :=
  ⟨fun p hp e he e' he' hname hname' => (h.vals_eq p hp e' he' e he hname' hname).symm, h.right_flag, h.left_flag⟩

/-- Indexes that share the property definitions of the query agree on every object with a boolean flag. -/
theorem agree_of_shared (htext : i.text = j.text)
    (hshared : ∀ p ∈ query.whereClauses, ∃ e, e ∈ i.props ∧ e ∈ j.props ∧ e.name = p.1)
    (hi : i.includeDeleted = true → delProp ∈ i.props) (hj : j.includeDeleted = true → delProp ∈ j.props)
    (hbool : ∀ del, obj.get MojDb.DelKey = some del → ∃ b, del = .bool b) : i.Agree j query obj := by
  refine ⟨fun p hp e he e' he' hname hname' => ?_, fun hinc _ => readsFlag_of_builtin (hi hinc) hbool,
    fun hinc _ => readsFlag_of_builtin (hj hinc) hbool⟩
  obtain ⟨d, hd, hd', hdname⟩ := hshared p hp
  rw [eq_of_name_eq he hd (hname.trans hdname.symm), eq_of_name_eq he' hd' (hname'.trans hdname.symm), htext]

theorem exists_prop_of_canAnswer (h : i.canAnswer query = true) {p : MojString × WhereClause}
    (hp : p ∈ query.whereClauses) : ∃ e ∈ i.props, e.name = p.1 := by
  obtain ⟨effective, heff⟩ := MojDbQueryPlan.exists_effectiveQuery i query
  refine MojDbQueryPlan.exists_prop h heff ?_
  obtain ⟨rfl, _⟩ | ⟨_, _, hwhere, _⟩ := MojDbQueryPlan.effectiveQuery_cases heff
  · exact hp
  · rw [hwhere]
    exact List.mem_append_left _ hp

theorem reaches_of_agree (htext : i.text = j.text) (hi : i.canAnswer query = true)
    (hj : j.canAnswer query = true) (hpage : query.page = []) (hagree : Agree i j query obj)
    (hkeyOf : i.HasKeyOf obj) (hkeyOf' : j.HasKeyOf obj) (h : i.Reaches query obj) : j.Reaches query obj := by
  rw [MojDbQueryPlan.reaches_iff hi hpage hkeyOf hagree.left_flag] at h
  refine (MojDbQueryPlan.reaches_iff hj hpage hkeyOf' hagree.right_flag).mpr ⟨fun p hp => ?_, h.2⟩
  obtain ⟨e, he, hname, hfinds⟩ := h.1 p hp
  obtain ⟨e', he', hname'⟩ := exists_prop_of_canAnswer hj hp
  refine ⟨e', he', hname', ?_⟩
  rwa [← hagree.vals_eq p hp e he e' he' hname hname', ← htext]

/-- An object that one index finds is found by the other one as well, if that has a key of it. -/
theorem found_of_agree {inactive : MojObject → Prop} {objs : Set MojObject} (htext : i.text = j.text)
    (hi : i.canAnswer query = true) (hj : j.canAnswer query = true) (hpage : query.page = []) (hagree : Agree i j query obj)
    (hkeyOf : j.HasKeyOf obj) (h : obj ∈ i.found query inactive objs) : obj ∈ j.found query inactive objs :=
  ⟨h.1, reaches_of_agree htext hi hj hpage hagree h.2.1.hasKeyOf hkeyOf h.2.1, h.2.2⟩

end MojDbIndex

/-- The objects a query on the kind delivers, of those stored. -/
def delivered (indexes : List MojDbIndex) (query : MojDbQuery) (inactive : MojObject → Prop) (objs : Set MojObject) :
    Set MojObject :=
  {obj | ∃ index, indexForQuery indexes query = some index ∧ index.Delivers query inactive objs obj}

theorem delivered_of_indexForQuery {indexes : List MojDbIndex} {query : MojDbQuery} {index : MojDbIndex}
    (h : indexForQuery indexes query = some index) (inactive : MojObject → Prop) (objs : Set MojObject) :
    delivered indexes query inactive objs = {obj | index.Delivers query inactive objs obj} := by
  ext obj
  refine ⟨fun ⟨index', hindex', hdelivers⟩ => ?_, fun hdelivers => ⟨index, h, hdelivers⟩⟩
  obtain rfl := Option.some.inj (h.symm.trans hindex')
  exact hdelivers

namespace MojDbIndex

open MojDbQueryPlan (foo fooIndex)

/-- `bar` -/
def bar : MojString := ⟨[98, 97, 114], by decide⟩

/-- The definition `{"name": "bar"}`. -/
def barProp : MojDbExtractor :=
  .prop
    { name := bar, collation := none, tokenizer := false, default := .empty
      prop_ne_nil := by decide
      default_coded := MojDbPropExtractor.empty_coded }

/-- An index on `foo` and `bar`. -/
def fooBarIndex : MojDbIndex where
  id := 2
  text := fooIndex.text
  includeDeleted := false
  ready := true
  props := [fooIndex.props[0], barProp, idProp]
  names_nodup := by decide
  id_mem := by decide
  del_front := by decide

theorem opEq_ne_opNone : CompOp.opEq ≠ .opNone := by decide

/-- `foo = 1` -/
def fooQuery : MojDbQuery where
  whereClauses := [(foo, MojDbQuery.createClause .opEq (.int 1) none opEq_ne_opNone fun h => absurd h (by decide))]
  filterClauses := []
  orderProp := MojString.empty
  distinct := MojString.empty
  desc := false
  limit := 4294967295
  page := []
  ignoreInactiveShards := true
  where_nodup := by simp

theorem shared_foo : ∀ p ∈ fooQuery.whereClauses, ∃ e, e ∈ fooIndex.props ∧ e ∈ fooBarIndex.props ∧ e.name = p.1 := by
  intro p hp
  obtain rfl := List.mem_singleton.mp hp
  exact ⟨fooIndex.props[0], List.mem_cons_self, List.mem_cons_self, rfl⟩

/-- `{"_id":1,"foo":1}` and `{"_id":2,"foo":1,"bar":2}` -/
def fooObj : MojObject := .object [(MojDb.IdKey, .int 1), (foo, .int 1)]
def fooBarObj : MojObject := .object [(MojDb.IdKey, .int 2), (foo, .int 1), (bar, .int 2)]

theorem encard_found_le (index : MojDbIndex) (inactive : MojObject → Prop) :
    (index.found fooQuery inactive {fooObj, fooBarObj}).encard ≤ fooQuery.limit := by
  have hpair : (index.found fooQuery inactive {fooObj, fooBarObj}).encard ≤ 2 :=
    (Set.encard_le_encard fun _ h => h.1).trans
      ((Set.encard_insert_le _ _).trans (by rw [Set.encard_singleton]; rfl))
  refine hpair.trans ?_
  norm_num [fooQuery]

/-- `foo = 1`, one object. -/
def fooOneQuery : MojDbQuery := { fooQuery with limit := 1 }

/-- `{"_id":1,"foo":1,"bar":2}` and `{"_id":2,"foo":1,"bar":1}` -/
def barTwoObj : MojObject := .object [(MojDb.IdKey, .int 1), (foo, .int 1), (bar, .int 2)]
def barOneObj : MojObject := .object [(MojDb.IdKey, .int 2), (foo, .int 1), (bar, .int 1)]

/-- An object with one key, which the query comes to. -/
theorem reachesAt_iff {index : MojDbIndex} {query : MojDbQuery} {ranges : List MojDbKeyRange} {obj : MojObject}
    {key : MojDbKey} (hranges : MojDbQueryPlan.init index query = .ok ranges) (hkeys : index.getKeys obj = .singleton key)
    (hcovered : MojDbQueryPlan.Covered ranges key) (key' : MojDbKey) : index.ReachesAt query obj key' ↔ key' = key := by
  rw [ReachesAt, hkeys]
  constructor
  · intro ⟨_, _, hkey, _⟩
    exact SortedSet.mem_singleton.mp hkey
  · intro hkey
    exact ⟨ranges, hranges, SortedSet.mem_singleton.mpr hkey, hkey ▸ hcovered⟩

theorem reachesAt_foo : (∀ key, fooIndex.ReachesAt fooOneQuery barTwoObj key ↔ key = fooIndex.keyOf [.int 1, .int 1]) ∧
    ∀ key, fooIndex.ReachesAt fooOneQuery barOneObj key ↔ key = fooIndex.keyOf [.int 1, .int 2] := by
  constructor
  · exact reachesAt_iff rfl (by decide +kernel) (by unfold MojDbQueryPlan.Covered; decide +kernel)
  · exact reachesAt_iff rfl (by decide +kernel) (by unfold MojDbQueryPlan.Covered; decide +kernel)

theorem reachesAt_foo_bar :
    (∀ key, fooBarIndex.ReachesAt fooOneQuery barTwoObj key ↔ key = fooBarIndex.keyOf [.int 1, .int 2, .int 1]) ∧
      ∀ key, fooBarIndex.ReachesAt fooOneQuery barOneObj key ↔ key = fooBarIndex.keyOf [.int 1, .int 1, .int 2] := by
  constructor
  · exact reachesAt_iff rfl (by decide +kernel) (by unfold MojDbQueryPlan.Covered; decide +kernel)
  · exact reachesAt_iff rfl (by decide +kernel) (by unfold MojDbQueryPlan.Covered; decide +kernel)

/-- The indexes come to two objects in different orders, and the limit cuts off the last of them. -/
theorem delivers_limit_one :
    fooIndex.Delivers fooOneQuery (fun _ => False) {barTwoObj, barOneObj} barTwoObj ∧ fooBarIndex.HasKeyOf barTwoObj ∧
      ¬ fooBarIndex.Delivers fooOneQuery (fun _ => False) {barTwoObj, barOneObj} barTwoObj := by
  have hreaches : fooBarIndex.Reaches fooOneQuery barTwoObj := ⟨by decide, _, (reachesAt_foo_bar.1 _).mpr rfl⟩
  refine ⟨⟨⟨.inl rfl, ⟨by decide, _, (reachesAt_foo.1 _).mpr rfl⟩, fun h => h.2⟩, ?_⟩, hreaches.hasKeyOf, fun hdelivers => ?_⟩
  · have hnone : {before ∈ fooIndex.found fooOneQuery (fun _ => False) {barTwoObj, barOneObj} |
        fooIndex.Before fooOneQuery before barTwoObj} = ∅ := by
      refine Set.eq_empty_iff_forall_notMem.mpr fun before hbefore => ?_
      obtain ⟨⟨hobj, -, -⟩, key, hkey, hfirst⟩ := hbefore
      have hlt := hfirst _ ((reachesAt_foo.1 _).mpr rfl)
      rcases hobj with rfl | rfl
      · rw [(reachesAt_foo.1 _).mp hkey] at hlt
        exact absurd hlt (by decide +kernel)
      · rw [(reachesAt_foo.2 _).mp hkey] at hlt
        exact absurd hlt (by decide +kernel)
    rw [hnone, Set.encard_empty]
    norm_num [fooOneQuery]
  · have hfirst : barOneObj ∈ {before ∈ fooBarIndex.found fooOneQuery (fun _ => False) {barTwoObj, barOneObj} |
        fooBarIndex.Before fooOneQuery before barTwoObj} := by
      refine ⟨⟨.inr rfl, ⟨by decide, _, (reachesAt_foo_bar.2 _).mpr rfl⟩, fun h => h.2⟩, _, (reachesAt_foo_bar.2 _).mpr rfl,
        fun key hkey => ?_⟩
      rw [(reachesAt_foo_bar.1 _).mp hkey]
      decide +kernel
    have hone := Set.one_le_encard_iff_nonempty.mpr ⟨_, hfirst⟩
    exact absurd hdelivers.2 (not_lt.mpr hone)

end MojDbIndex

end Db8
