import Db8.Db.MojDbIdGenerator
import Db8.Db.MojDbIndex
import Db8.Lib.Run

/-!
# Db.MojDbIndexUpdate

`MojDbIndex::update` and the index content over whole runs of creations, replacements, deletions
and purges.

* `update_spec`        — one update takes out the keys of the old object and puts in those of the
  new one, and never misses a key it deletes.
* `keys_disjoint`      — with a plain object id in the key, a key tells whose it is.
* `index_exact_of_run` — after every step of a run the content is the union of the keys of the
  stored objects the index includes, as long as no id is an array.
-/

namespace Db8

open Lib MojDbIdGenerator

/-- The keys of an index, shard by shard. -/
abbrev IndexStore := MojDbShardId → KeySet

namespace MojDbIndex

/-! ## Keys in and out of the storage index -/

def insertKeys (keys content : KeySet) : KeySet := content.putAll keys.elems

/-- A key that is not there is an error, unless the deletion is forced. -/
def delKey (forcedel : Bool) (content : KeySet) (key : MojDbKey) : Except MojErr KeySet :=
  if key ∈ content then .ok (content.del key)
  else if forcedel then .ok content
  else .error .internalIndexOnDel

def delKeys (forcedel : Bool) (keys content : KeySet) : Except MojErr KeySet :=
  keys.elems.foldlM (delKey forcedel) content

theorem delKeys_list {forcedel : Bool} {keys : List MojDbKey} (hnodup : keys.Nodup) {content : KeySet}
    (h : ∀ key ∈ keys, key ∈ content) :
    ∃ content', keys.foldlM (delKey forcedel) content = .ok content' ∧
      ∀ key, key ∈ content' ↔ key ∈ content ∧ key ∉ keys := by
  induction keys generalizing content with
  | nil => exact ⟨content, rfl, by simp⟩
  | cons key keys ih =>
    obtain ⟨hkey, hnodup⟩ := List.nodup_cons.mp hnodup
    have hmem : key ∈ content := h key (by simp)
    have hrest : ∀ k ∈ keys, k ∈ content.del key := by
      intro k hk
      refine SortedSet.mem_del.mpr ⟨h k (by simp [hk]), ?_⟩
      rintro rfl
      exact hkey hk
    obtain ⟨content', hfold, hcontent'⟩ := ih hnodup hrest
    refine ⟨content', ?_, fun k => ?_⟩
    · rw [List.foldlM_cons, delKey, if_pos hmem]
      exact hfold
    · rw [hcontent', SortedSet.mem_del, List.mem_cons]
      tauto

theorem delKeys_ok (forcedel : Bool) {keys content : KeySet} (h : ∀ key ∈ keys, key ∈ content) :
    ∃ content', delKeys forcedel keys content = .ok content' ∧
      ∀ key, key ∈ content' ↔ key ∈ content ∧ key ∉ keys :=
  delKeys_list (keys.sorted.imp ne_of_lt) h

/-! ## One update -/

def shardOf (obj : MojObject) : Except MojErr MojDbShardId :=
  match obj.get MojDb.IdKey with
  | none => .error .requiredPropNotFound
  | some id => extractShard id

/-- The new content, and the keys to add to those pending for the transaction. -/
def update (index : MojDbIndex) (newObj oldObj : Option MojObject) (store : IndexStore)
    (forcedel : Bool) : Except MojErr (IndexStore × Option KeySet) :=
  match newObj, oldObj, index.includeObj newObj, index.includeObj oldObj with
  | some new, _, true, false => do
    let newKeys := index.getKeys new
    let shardId ← shardOf new
    return (Function.update store shardId (insertKeys newKeys (store shardId)), some newKeys)
  | _, some old, false, true => do
    let oldKeys := index.getKeys old
    let oldShardId ← shardOf old
    let content ← delKeys forcedel oldKeys (store oldShardId)
    return (Function.update store oldShardId content, some oldKeys)
  | some new, some old, true, true => do
    let newKeys := index.getKeys new
    let oldShardId ← shardOf old
    let shardId ← shardOf new
    let oldKeys := index.getKeys old
    let keysToPut := newKeys.diff oldKeys
    let keysToDel := oldKeys.diff newKeys
    let content ← delKeys forcedel keysToDel (store oldShardId)
    let store := Function.update store oldShardId content
    let store := Function.update store shardId (insertKeys keysToPut (store shardId))
    return (store, some (newKeys.putAll oldKeys.elems))
  | _, _, _, _ => .ok (store, none)

variable (index : MojDbIndex)

/-- `key` in `shard` is due to the object: the index includes it and takes the key from it. -/
def Holds (obj : Option MojObject) (shard : MojDbShardId) (key : MojDbKey) : Prop :=
  ∃ o, obj = some o ∧ index.includeObj obj = true ∧ shardOf o = .ok shard ∧ key ∈ index.getKeys o

variable {index}

theorem holds_some {o : MojObject} {shard : MojDbShardId} {key : MojDbKey} :
    index.Holds (some o) shard key ↔
      index.includeObj (some o) = true ∧ shardOf o = .ok shard ∧ key ∈ index.getKeys o := by
  simp [Holds]

theorem not_holds_of_not_include {obj : Option MojObject} (h : index.includeObj obj = false)
    (shard : MojDbShardId) (key : MojDbKey) : ¬ index.Holds obj shard key := by
  rintro ⟨o, -, hinc, -⟩
  rw [h] at hinc
  cases hinc

/-- The content of one shard is replaced. -/
theorem mem_update_store {store : IndexStore} {shard shard' : MojDbShardId} {content : KeySet}
    {key : MojDbKey} :
    key ∈ Function.update store shard content shard' ↔
      if shard' = shard then key ∈ content else key ∈ store shard' := by
  rw [Function.update_apply]
  split_ifs <;> rfl

/-- **One update.** If the content has the keys of the old object, and both objects are in one
shard, then an update that returns has replaced the old keys by the new ones; one that throws met an
object whose shard cannot be told, and no missing key. -/
theorem update_spec {newObj oldObj : Option MojObject} {store : IndexStore} (forcedel : Bool)
    (hold : ∀ shard key, index.Holds oldObj shard key → key ∈ store shard)
    (hshard : ∀ new old, newObj = some new → oldObj = some old → shardOf new = shardOf old) :
    (∃ store' pending, index.update newObj oldObj store forcedel = .ok (store', pending) ∧
      ∀ shard key, key ∈ store' shard ↔
        key ∈ store shard ∧ ¬ index.Holds oldObj shard key ∨ index.Holds newObj shard key) ∨
    (∃ obj, (newObj = some obj ∨ oldObj = some obj) ∧ ∃ err, shardOf obj = .error err ∧
      index.update newObj oldObj store forcedel = .error err) := by
  cases hnew : index.includeObj newObj <;> cases hinc : index.includeObj oldObj
  · refine .inl ⟨store, none, ?_, fun shard key => ?_⟩
    · cases newObj <;> cases oldObj <;> simp [update, hnew, hinc]
    · simp [not_holds_of_not_include hnew, not_holds_of_not_include hinc]
  · -- only the old object is included: its keys go
    obtain _ | old := oldObj
    · cases hinc
    cases hs : shardOf old with
    | error err => exact .inr ⟨old, .inr rfl, err, hs, by cases newObj <;> simp [update, hnew, hinc, hs]⟩
    | ok oldShardId =>
      have hin : ∀ key ∈ index.getKeys old, key ∈ store oldShardId :=
        fun key hkey => hold oldShardId key (holds_some.mpr ⟨hinc, hs, hkey⟩)
      obtain ⟨content, hdel, hcontent⟩ := delKeys_ok forcedel hin
      refine .inl ⟨Function.update store oldShardId content, some (index.getKeys old), ?_, fun shard key => ?_⟩
      · cases newObj <;> simp [update, hnew, hinc, hs, hdel, pure, Except.pure]
      · simp only [mem_update_store, not_holds_of_not_include hnew, or_false, holds_some, hinc, hs,
          Except.ok.injEq, true_and]
        split_ifs with heq
        · subst heq
          simp [hcontent]
        · simp [Ne.symm heq]
  · -- only the new object is included: its keys come
    obtain _ | new := newObj
    · cases hnew
    cases hs : shardOf new with
    | error err => exact .inr ⟨new, .inl rfl, err, hs, by cases oldObj <;> simp [update, hnew, hinc, hs]⟩
    | ok shardId =>
      refine .inl ⟨Function.update store shardId (insertKeys (index.getKeys new) (store shardId)),
        some (index.getKeys new), ?_, fun shard key => ?_⟩
      · cases oldObj <;> simp [update, hnew, hinc, hs, pure, Except.pure]
      · simp only [mem_update_store, not_holds_of_not_include hinc, not_false_eq_true, and_true,
          holds_some, hnew, hs, Except.ok.injEq, true_and]
        split_ifs with heq
        · subst heq
          rw [insertKeys, SortedSet.mem_putAll, ← SortedSet.mem_def]
          simp
        · simp [Ne.symm heq]
  · -- both are included: the keys that only one of them has are exchanged
    obtain _ | new := newObj
    · cases hnew
    obtain _ | old := oldObj
    · cases hinc
    have hsame := hshard new old rfl rfl
    cases hs : shardOf old with
    | error err =>
      exact .inr ⟨old, .inr rfl, err, hs, by simp [update, hnew, hinc, hs]⟩
    | ok shardId =>
      have hs' : shardOf new = .ok shardId := hsame.trans hs
      have hin : ∀ key ∈ (index.getKeys old).diff (index.getKeys new), key ∈ store shardId :=
        fun key hkey => hold shardId key (holds_some.mpr ⟨hinc, hs, (SortedSet.mem_diff.mp hkey).1⟩)
      obtain ⟨content, hdel, hcontent⟩ := delKeys_ok forcedel hin
      have hupdate : index.update (some new) (some old) store forcedel =
          .ok (Function.update (Function.update store shardId content) shardId
            (insertKeys ((index.getKeys new).diff (index.getKeys old)) content),
            some ((index.getKeys new).putAll (index.getKeys old).elems)) := by
        simp [update, hnew, hinc, hs, hs', hdel, pure, Except.pure]
      refine .inl ⟨_, _, hupdate, fun shard key => ?_⟩
      simp only [mem_update_store, holds_some, hnew, hinc, hs, hs', Except.ok.injEq, true_and]
      split_ifs with heq
      · subst heq
        have hkept : key ∈ index.getKeys old → key ∈ store shard :=
          fun hkey => hold shard key (holds_some.mpr ⟨hinc, hs, hkey⟩)
        simp only [insertKeys, SortedSet.mem_putAll, ← SortedSet.mem_def, SortedSet.mem_diff, hcontent,
          true_and]
        tauto
      · simp [Ne.symm heq]

/-! ## Whose a key is -/

theorem parts_coded {obj : MojObject} {props : List MojDbExtractor} {parts : List MojDbKey}
    (h : List.Forall₂ (fun part e => part ∈ MojDbExtractor.vals index.text obj e) parts props) :
    ∀ part ∈ parts, ∃ o : MojObject, part = o.toBytes := by
  induction h with
  | nil => simp
  | cons hpart _ ih =>
    intro p hp
    rcases List.mem_cons.mp hp with rfl | hp
    exacts [MojDbExtractor.vals_coded hpart, ih p hp]

variable (index) in
/-- The object id is a part of the key just as it is written: no collation, no words, one path. -/
def PlainId : Prop :=
  ∃ e : MojDbPropExtractor, .prop e ∈ index.props ∧ e.name = MojDb.IdKey ∧ e.collation = none ∧
    e.tokenizer = false

theorem vals_plainId {text : MojDbText} {e : MojDbPropExtractor} (hname : e.name = MojDb.IdKey)
    (hcoll : e.collation = none) (htok : e.tokenizer = false) {obj id : MojObject}
    (hid : obj.get MojDb.IdKey = some id) (harr : id.isArray = false) {part : MojDbKey} :
    part ∈ MojDbExtractor.vals text obj (.prop e) ↔ part = id.toBytes := by
  have hpath : e.prop = [MojDb.IdKey] := by
    rw [MojDbPropExtractor.prop, hname]
    decide
  have hwild : MojDb.IdKey ≠ MojDbPropExtractor.WildcardKey := by decide
  have hlast : MojDbPropExtractor.lastVals text e id = [id.toBytes] := by
    cases id <;> simp [MojDbPropExtractor.lastVals, htok, hcoll, MojDbKey.assign, MojDbText.collate]
  have hval : MojDbPropExtractor.handleVal text e [MojDb.IdKey] obj = [id.toBytes] := by
    rw [MojDbPropExtractor.handleVal, if_neg hwild, hid]
    cases id with
    | array vec => simp [MojObject.isArray, MojObject.type] at harr
    | _ => exact hlast
  rw [MojDbExtractor.vals, MojDbPropExtractor.vals, SortedSet.mem_ofList, hpath, hval,
    List.mem_singleton]

/-- **A key tells whose it is**, when the id is a plain part of it. -/
theorem keys_disjoint (hplain : index.PlainId) {a b idA idB : MojObject}
    (ha : a.get MojDb.IdKey = some idA) (hb : b.get MojDb.IdKey = some idB)
    (harrA : idA.isArray = false) (harrB : idB.isArray = false) {key : MojDbKey}
    (hkeyA : key ∈ index.getKeys a) (hkeyB : key ∈ index.getKeys b) : idA.toBytes = idB.toBytes := by
  obtain ⟨e, he, hname, hcoll, htok⟩ := hplain
  obtain ⟨partsA, hpartsA, rfl⟩ := (mem_getKeys index).mp hkeyA
  obtain ⟨partsB, hpartsB, heq⟩ := (mem_getKeys index).mp hkeyB
  have hlen : partsA.length = partsB.length := hpartsA.length_eq.trans hpartsB.length_eq.symm
  obtain ⟨rfl, -⟩ := MojDbKeyBuilder.flatten_inj_of_coded (s := []) (t := []) (parts_coded hpartsA)
    (parts_coded hpartsB) hlen (by simpa using heq)
  obtain ⟨part, hpartA, hpartB⟩ : ∃ part, part ∈ MojDbExtractor.vals index.text a (.prop e) ∧
      part ∈ MojDbExtractor.vals index.text b (.prop e) := by
    obtain ⟨i, hi, hget⟩ := List.mem_iff_getElem.mp he
    have hi' : i < partsA.length := hpartsA.length_eq ▸ hi
    have hA := hpartsA.get hi' hi
    have hB := hpartsB.get hi' hi
    simp only [List.get_eq_getElem, hget] at hA hB
    exact ⟨partsA[i], hA, hB⟩
  rw [← (vals_plainId hname hcoll htok ha harrA).mp hpartA,
    ← (vals_plainId hname hcoll htok hb harrB).mp hpartB]

end MojDbIndex

/-! ## Runs -/

/-- The stored objects of a kind by the bytes of their ids, and the content of one of its indexes. -/
structure KindStore where
  objs : MojDbKey → Option MojObject
  content : IndexStore

/-- What a client does to an object: store a version of it, mark it deleted, or purge it. -/
inductive KindOp where
  | put (obj : MojObject)
  | del (id : MojObject)
  | purge (id : MojObject)

namespace KindStore

open MojDbIndex (Holds shardOf update_spec keys_disjoint)

def empty : KindStore := ⟨fun _ => none, fun _ => .empty⟩

variable (index : MojDbIndex)

/-- The store and the index go from the stored version to the new one. A transaction whose update
throws is aborted. -/
def replace (s : KindStore) (idKey : MojDbKey) (newObj : Option MojObject) (forcedel : Bool) : KindStore :=
  match index.update newObj (s.objs idKey) s.content forcedel with
  | .ok (content, _) => ⟨Function.update s.objs idKey newObj, content⟩
  | .error _ => s

/-- `putObj` writes nothing when nothing changed. -/
def putObj (s : KindStore) (obj : MojObject) : KindStore :=
  match obj.get MojDb.IdKey with
  | none => s
  | some id => if s.objs id.toBytes = some obj then s else s.replace index id.toBytes (some obj) false

/-- `delObj` puts the stored object back with the deleted flag, or, to purge it, forces its keys out. -/
def step (s : KindStore) : KindOp → KindStore
  | .put obj => s.putObj index obj
  | .del id =>
    match s.objs id.toBytes with
    | none => s
    | some obj => s.putObj index (obj.put MojDb.DelKey (.bool true))
  | .purge id =>
    match s.objs id.toBytes with
    | none => s
    | some _ => s.replace index id.toBytes none true

/-- The content is what the stored objects give. -/
def Exact (s : KindStore) : Prop :=
  ∀ shard key, key ∈ s.content shard ↔ ∃ idKey, index.Holds (s.objs idKey) shard key

/-- Every object is stored under its id, and no id is an array. -/
def IdsPlain (s : KindStore) : Prop :=
  ∀ idKey obj, s.objs idKey = some obj →
    ∃ id, obj.get MojDb.IdKey = some id ∧ id.toBytes = idKey ∧ id.isArray = false

variable {index}

theorem exact_empty : empty.Exact index := by
  intro shard key
  simp [empty, Holds]

theorem idsPlain_empty : empty.IdsPlain := by
  intro idKey obj h
  cases h

theorem shardOf_congr {a b idA idB : MojObject} (ha : a.get MojDb.IdKey = some idA)
    (hb : b.get MojDb.IdKey = some idB) (h : idA.toBytes = idB.toBytes) : shardOf a = shardOf b := by
  rw [shardOf, shardOf, ha, hb]
  exact extractShard_congr h

/-- One replacement keeps the content exact: the keys that go are the old version's alone. -/
theorem replace_exact (hplain : index.PlainId) {s : KindStore} (hexact : s.Exact index)
    (hids : s.IdsPlain) {idKey : MojDbKey} {newObj : Option MojObject} {forcedel : Bool}
    (hnew : ∀ obj, newObj = some obj →
      ∃ id, obj.get MojDb.IdKey = some id ∧ id.toBytes = idKey ∧ id.isArray = false) :
    (s.replace index idKey newObj forcedel).Exact index ∧
      (s.replace index idKey newObj forcedel).IdsPlain := by
  have hold : ∀ shard key, index.Holds (s.objs idKey) shard key → key ∈ s.content shard :=
    fun shard key h => (hexact shard key).mpr ⟨idKey, h⟩
  have hshard : ∀ new old, newObj = some new → s.objs idKey = some old → shardOf new = shardOf old := by
    intro new old hn ho
    obtain ⟨idA, hA, hbytesA, -⟩ := hnew new hn
    obtain ⟨idB, hB, hbytesB, -⟩ := hids idKey old ho
    exact shardOf_congr hA hB (hbytesA.trans hbytesB.symm)
  rcases update_spec forcedel hold hshard with
    ⟨store', pending, hupdate, hstore'⟩ | ⟨-, -, err, -, hupdate⟩
  · simp only [replace, hupdate]
    constructor
    · intro shard key
      rw [hstore', hexact]
      constructor
      · rintro (⟨⟨idKey', hkey⟩, hnot⟩ | hkey)
        · have hne : idKey' ≠ idKey := by
            rintro rfl
            exact hnot hkey
          exact ⟨idKey', by dsimp only; rwa [Function.update_of_ne hne]⟩
        · exact ⟨idKey, by dsimp only; rwa [Function.update_self]⟩
      · rintro ⟨idKey', hkey⟩
        dsimp only at hkey
        by_cases hne : idKey' = idKey
        · subst hne
          rw [Function.update_self] at hkey
          exact .inr hkey
        · rw [Function.update_of_ne hne] at hkey
          refine .inl ⟨⟨idKey', hkey⟩, fun hkeyOld => hne ?_⟩
          obtain ⟨a, ha, -, -, hmemA⟩ := hkey
          obtain ⟨b, hb, -, -, hmemB⟩ := hkeyOld
          obtain ⟨idA, hidA, hbytesA, harrA⟩ := hids idKey' a ha
          obtain ⟨idB, hidB, hbytesB, harrB⟩ := hids idKey b hb
          rw [← hbytesA, ← hbytesB]
          exact keys_disjoint hplain hidA hidB harrA harrB hmemA hmemB
    · intro idKey' obj h
      by_cases hne : idKey' = idKey
      · subst hne
        exact hnew obj (by simpa using h)
      · exact hids idKey' obj (by simpa [Function.update_of_ne hne] using h)
  · simp only [replace, hupdate]
    exact ⟨hexact, hids⟩

/-- No id the operation stores is an array. -/
def PutsPlainId : KindOp → Prop
  | .put obj => ∀ id, obj.get MojDb.IdKey = some id → id.isArray = false
  | _ => True

theorem putObj_exact (hplain : index.PlainId) {s : KindStore} (hs : s.Exact index ∧ s.IdsPlain)
    {obj : MojObject} (hobj : ∀ id, obj.get MojDb.IdKey = some id → id.isArray = false) :
    (s.putObj index obj).Exact index ∧ (s.putObj index obj).IdsPlain := by
  unfold putObj
  cases hid : obj.get MojDb.IdKey with
  | none => exact hs
  | some id =>
    dsimp only
    split_ifs
    · exact hs
    · refine replace_exact hplain hs.1 hs.2 fun o ho => ?_
      cases ho
      exact ⟨id, hid, rfl, hobj id hid⟩

theorem step_exact (hplain : index.PlainId) {s : KindStore} (hs : s.Exact index ∧ s.IdsPlain)
    {op : KindOp} (hop : PutsPlainId op) : (s.step index op).Exact index ∧ (s.step index op).IdsPlain := by
  cases op with
  | put obj => exact putObj_exact hplain hs hop
  | del id =>
    simp only [step]
    cases hobj : s.objs id.toBytes with
    | none => exact hs
    | some obj =>
      refine putObj_exact hplain hs fun id' hid' => ?_
      obtain ⟨id'', hget, -, harr⟩ := hs.2 _ obj hobj
      rw [MojObject.get_put_of_ne (by decide), hget] at hid'
      cases hid'
      exact harr
  | purge id =>
    simp only [step]
    cases hobj : s.objs id.toBytes with
    | none => exact hs
    | some obj => exact replace_exact hplain hs.1 hs.2 fun o ho => by cases ho

/-- **After every step of a run the content is the union of the keys of the stored objects.** -/
theorem index_exact_of_run (index : MojDbIndex) (hplain : index.PlainId) (ops : List KindOp)
    (hops : Along (step index) (fun _ op => PutsPlainId op) empty ops) (done : List KindOp)
    (hdone : done <+: ops) : (run (step index) empty done).Exact index :=
  (Along.invariant (fun s => s.Exact index ∧ s.IdsPlain) (fun _ _ hs hop => step_exact hplain hs hop)
    ⟨exact_empty, idsPlain_empty⟩ (hops.of_isPrefix hdone)).1

/-- The index on the object id alone. -/
def idIndex : MojDbIndex where
  id := 1
  text := ⟨fun _ s => s, fun s => [s]⟩
  includeDeleted := false
  ready := true
  props := [MojDbIndex.idProp]
  names_nodup := by decide
  id_mem := by decide
  del_front := by decide

theorem idIndex_plainId : idIndex.PlainId := ⟨_, List.mem_singleton.mpr rfl, rfl, rfl, rfl⟩

/-- `{"_id": id}` -/
def idObj (id : MojObject) : MojObject := .object [(MojDb.IdKey, id)]

theorem index_exact_of_two_puts :
    (run (step idIndex) empty
      [.put (idObj (.int 1)), .put (idObj (.int 2)), .purge (.int 1)]).Exact idIndex := by
  refine index_exact_of_run idIndex idIndex_plainId
    [.put (idObj (.int 1)), .put (idObj (.int 2)), .purge (.int 1)] ?_ _ (List.prefix_refl _)
  have hput : ∀ i, PutsPlainId (.put (idObj (.int i))) := by
    intro i id hid
    cases hid
    rfl
  exact ⟨hput 1, hput 2, trivial, trivial⟩

/-- Ids that are arrays share the keys of their elements: a purge takes a key of a live object. -/
theorem not_exact_of_shared_element :
    ∃ index : MojDbIndex, index.PlainId ∧ ∃ ops, ¬ (run (step index) empty ops).Exact index := by
  refine ⟨idIndex, idIndex_plainId,
    [.put (idObj (.array [.int 1, .int 2])), .put (idObj (.array [.int 2, .int 3])),
      .purge (.array [.int 1, .int 2])], fun hexact => ?_⟩
  have hlost : idIndex.idKey ++ (MojObject.int 2).toBytes ∉ (run (step idIndex) empty
      [.put (idObj (.array [.int 1, .int 2])), .put (idObj (.array [.int 2, .int 3])),
        .purge (.array [.int 1, .int 2])]).content 0 := by
    decide +kernel
  refine hlost ((hexact 0 _).mpr ⟨(MojObject.array [.int 2, .int 3]).toBytes, ?_⟩)
  exact ⟨idObj (.array [.int 2, .int 3]), by decide +kernel, by decide +kernel, by decide +kernel,
    by decide +kernel⟩

end KindStore

end Db8
