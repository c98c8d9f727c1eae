import Db8.Db.MojDbIndexUpdate
import Db8.Db.MojDbIsamQueryItem
import Db8.Db.MojDbRevisionSetRun
import Db8.Db.MojDbShardPaths

/-!
# Db.MojDbData

The objects of the database with all its indexes.

* `MojDbEnv`         — the kinds, their indexes, and the parts of the storage.
* `update`           — `MojDbKindEngine::update`: the indexes of the kind and of its supers.
* `request`          — a put, a merge, a deletion or a purge of one object.
* `Valid`            — each index has the keys of its objects; `replace_valid`: a request keeps it so.
-/

namespace Db8

open Lib MojObject MojDb MojDbIdGenerator
open MojDbIndex (Holds shardOf update_spec)

/-- An index with the kind it is of. -/
structure MojDbKindIndex where
  kindId : MojString
  index : MojDbIndex

structure MojDbEnv where
  kinds : RevKinds
  /-- The kinds whose indexes an object is in: its kind and the supers of that. -/
  updates : MojString → List MojString
  indexes : List MojDbKindIndex
  /-- The shards that have a part in the storage. -/
  shards : List MojDbShardId
  shardEngine : MojDbShardEngine
  engine : MojDbIsamQuery.Engine
  ids_nodup : (indexes.map (·.index.id)).Nodup

/-- The objects by the bytes of their ids, the keys of the indexes by their ids, and the next number of the sequence. -/
structure MojDbData where
  objs : MojDbKey → Option MojObject
  contents : Int64 → IndexStore
  nextId : Int64

namespace MojDbEnv

variable (env : MojDbEnv)

/-! ## Updates -/

/-- The update of one index: of a kind that the object is not in, nothing is written. -/
def updateIndex (kindIds : List MojString) (newObj oldObj : Option MojObject) (forcedel : Bool) (ki : MojDbKindIndex)
    (content : IndexStore) : Except MojErr IndexStore :=
  if ki.kindId ∈ kindIds then (ki.index.update newObj oldObj content forcedel).map Prod.fst else .ok content

/-- `MojDbKind::updateIndexes`. -/
def updateIndexes (kindIds : List MojString) (newObj oldObj : Option MojObject) (forcedel : Bool)
    (contents : Int64 → IndexStore) : Except MojErr (Int64 → IndexStore) :=
  env.indexes.foldlM (fun contents ki =>
    (updateIndex kindIds newObj oldObj forcedel ki (contents ki.index.id)).map
      (Function.update contents ki.index.id)) contents

/-- `MojDbKindEngine::update`: from a kind to another the object is removed and added. -/
def update (newObj oldObj : Option MojObject) (forcedel : Bool) (contents : Int64 → IndexStore) :
    Except MojErr (Int64 → IndexStore) :=
  match newObj, oldObj with
  | none, none => .ok contents
  | some new, none => do
    let kind ← env.kinds.getKind new
    env.updateIndexes (env.updates kind.1) (some new) none forcedel contents
  | none, some old => do
    let kind ← env.kinds.getKind old
    env.updateIndexes (env.updates kind.1) none (some old) forcedel contents
  | some new, some old => do
    let oldKind ← env.kinds.getKind old
    let kind ← env.kinds.getKind new
    if oldKind.1 ≠ kind.1 then do
      let contents ← env.updateIndexes (env.updates oldKind.1) none (some old) forcedel contents
      env.updateIndexes (env.updates kind.1) (some new) none forcedel contents
    else env.updateIndexes (env.updates kind.1) (some new) (some old) forcedel contents

/-- The index is one of the kind of the object or of a super. -/
def covers (ki : MojDbKindIndex) (obj : MojObject) : Bool :=
  match env.kinds.getKind obj with
  | .ok kind => ki.kindId ∈ env.updates kind.1
  | .error _ => false

end MojDbEnv

namespace MojDbData

variable (env : MojDbEnv) (d : MojDbData)

def replace (idKey : MojDbKey) (newObj : Option MojObject) (forcedel : Bool) : Except MojErr MojDbData := do
  let contents ← env.update newObj (d.objs idKey) forcedel d.contents
  return { d with objs := Function.update d.objs idKey newObj, contents }

/-- A request for the object of an id; `forcedel` is its `fixmode`. -/
def request (putId : MojObject) (step : RevKinds.Step) (forcedel : Bool) : Except MojErr MojDbData :=
  match env.kinds.apply putId step (d.objs putId.toBytes) with
  | .error err => .error err
  | .ok .unchanged => .ok d
  | .ok (.stored obj _) => d.replace env putId.toBytes (some obj) forcedel
  | .ok .removed => d.replace env putId.toBytes none true

/-! ## What an index holds -/

/-- The objects of an index. -/
def view (ki : MojDbKindIndex) : KindStore := ⟨fun idKey => (d.objs idKey).filter (env.covers ki), d.contents ki.index.id⟩

/-- An object as it is stored under an id. -/
structure SoundObj (env : MojDbEnv) (idKey : MojDbKey) (obj : MojObject) : Prop where
  id : ∃ id, obj.get IdKey = some id ∧ id.toBytes = idKey ∧ id.isArray = false ∧ id.isDefined = true ∧ id.isOrdered = true
  shard : ∃ shard ∈ env.shards, shardOf obj = .ok shard
  kind : ∃ kind, env.kinds.getKind obj = .ok kind
  rev : ∃ rev, obj.get RevKey = some (.int rev)

structure Valid (env : MojDbEnv) (d : MojDbData) : Prop where
  exact : ∀ ki ∈ env.indexes, (d.view env ki).Exact ki.index
  sound : ∀ idKey obj, d.objs idKey = some obj → SoundObj env idKey obj

variable {env d}

theorem covers_of_getKind {ki : MojDbKindIndex} {obj : MojObject} {kind : MojString × RevKind}
    (h : env.kinds.getKind obj = .ok kind) : env.covers ki obj = decide (ki.kindId ∈ env.updates kind.1) := by
  unfold MojDbEnv.covers
  rw [h]

theorem idsPlain_view (h : Valid env d) (ki : MojDbKindIndex) : (d.view env ki).IdsPlain := by
  intro idKey obj hobj
  obtain ⟨hobj, _⟩ := Option.filter_eq_some_iff.mp hobj
  obtain ⟨id, hid, hbytes, harray, _⟩ := (h.sound idKey obj hobj).id
  exact ⟨id, hid, hbytes, harray⟩

/-- The same kind, before and after. -/
def SameKind (env : MojDbEnv) (d : MojDbData) (idKey : MojDbKey) (newObj : Option MojObject) : Prop :=
  ∀ new old, newObj = some new → d.objs idKey = some old → env.kinds.getKind new = env.kinds.getKind old

theorem view_replace {ki : MojDbKindIndex} {idKey : MojDbKey} {newObj : Option MojObject} :
    (fun k => (Function.update d.objs idKey newObj k).filter (env.covers ki)) =
      Function.update (d.view env ki).objs idKey (newObj.filter (env.covers ki)) := by
  funext k
  by_cases hk : k = idKey
  · rw [hk, Function.update_self, Function.update_self]
  · rw [Function.update_of_ne hk, Function.update_of_ne hk]
    rfl

/-- The kinds are those of an object: the indexes of these are the ones it is in. -/
def KindsOf (env : MojDbEnv) (kindIds : List MojString) (obj : Option MojObject) : Prop :=
  ∀ o, obj = some o → ∀ ki, env.covers ki o = decide (ki.kindId ∈ kindIds)

theorem filter_of_kindsOf {kindIds : List MojString} {obj : Option MojObject} (h : KindsOf env kindIds obj)
    (ki : MojDbKindIndex) : obj.filter (env.covers ki) = if ki.kindId ∈ kindIds then obj else none := by
  cases obj with
  | none => simp
  | some o =>
    rw [Option.filter_some, h o rfl ki]
    simp

theorem updateIndexes_exact (hplain : ∀ ki ∈ env.indexes, ki.index.PlainId) (h : Valid env d) {idKey : MojDbKey}
    {newObj : Option MojObject} (forcedel : Bool) (hsound : ∀ new, newObj = some new → SoundObj env idKey new)
    {kindIds : List MojString} (hnew : KindsOf env kindIds newObj) (hold : KindsOf env kindIds (d.objs idKey)) :
    ∃ contents, env.updateIndexes kindIds newObj (d.objs idKey) forcedel d.contents = .ok contents ∧
      ∀ ki ∈ env.indexes,
        (KindStore.mk (Function.update (d.view env ki).objs idKey (newObj.filter (env.covers ki)))
          (contents ki.index.id)).Exact ki.index := by
  suffices hentry : ∀ ki ∈ env.indexes, ∃ content,
      MojDbEnv.updateIndex kindIds newObj (d.objs idKey) forcedel ki (d.contents ki.index.id) = .ok content ∧
        (KindStore.mk (Function.update (d.view env ki).objs idKey (newObj.filter (env.covers ki))) content).Exact ki.index by
    obtain ⟨contents, hfold, hexact, _⟩ := exists_foldlM_update env.ids_nodup hentry
    exact ⟨contents, hfold, hexact⟩
  intro ki hki
  have hview : (d.view env ki).objs idKey = if ki.kindId ∈ kindIds then d.objs idKey else none :=
    filter_of_kindsOf hold ki
  have hids := idsPlain_view h ki
  rw [filter_of_kindsOf hnew ki, MojDbEnv.updateIndex]
  by_cases hin : ki.kindId ∈ kindIds
  · rw [if_pos hin] at hview
    rw [if_pos hin, if_pos hin]
    have hnewId : ∀ obj, newObj = some obj → ∃ id, obj.get IdKey = some id ∧ id.toBytes = idKey ∧ id.isArray = false := by
      intro obj hobj
      obtain ⟨id, hid, hbytes, harray, _⟩ := (hsound obj hobj).id
      exact ⟨id, hid, hbytes, harray⟩
    have hreplace := @KindStore.replace_exact ki.index (hplain ki hki) (d.view env ki) (h.exact ki hki) hids idKey newObj forcedel hnewId
    rw [KindStore.replace, hview] at hreplace
    have hheld : ∀ shard key, ki.index.Holds (d.objs idKey) shard key → key ∈ d.contents ki.index.id shard := by
      intro shard key hholds
      refine (h.exact ki hki shard key).mpr ⟨idKey, ?_⟩
      rw [hview]
      exact hholds
    have hshard : ∀ new old, newObj = some new → d.objs idKey = some old → shardOf new = shardOf old := by
      intro new old hn ho
      obtain ⟨idA, hA, hbytesA, _⟩ := (hsound new hn).id
      obtain ⟨idB, hB, hbytesB, _⟩ := (h.sound idKey old ho).id
      exact KindStore.shardOf_congr hA hB (hbytesA.trans hbytesB.symm)
    cases update_spec forcedel hheld hshard with
    | inl hok =>
      obtain ⟨content, pending, hupdate, _⟩ := hok
      have hcontents : (d.view env ki).content = d.contents ki.index.id := rfl
      rw [hcontents, hupdate] at hreplace
      rw [hupdate]
      exact ⟨content, rfl, hreplace.1⟩
    | inr herror =>
      -- an object whose shard cannot be told is not stored
      obtain ⟨obj, hobj, err, hshardErr, _⟩ := herror
      have hsoundObj : SoundObj env idKey obj := by
        cases hobj with
        | inl hn => exact hsound obj hn
        | inr ho => exact h.sound idKey obj ho
      obtain ⟨shard, _, hok⟩ := hsoundObj.shard
      rw [hok] at hshardErr
      cases hshardErr
  · rw [if_neg hin] at hview
    rw [if_neg hin, if_neg hin, ← hview, Function.update_eq_self]
    exact ⟨_, rfl, h.exact ki hki⟩

/-- **A write of one object keeps the indexes as they should be.** -/
theorem replace_valid (hplain : ∀ ki ∈ env.indexes, ki.index.PlainId) (h : Valid env d) {idKey : MojDbKey}
    {newObj : Option MojObject} (forcedel : Bool) (hsound : ∀ new, newObj = some new → SoundObj env idKey new)
    (hkind : SameKind env d idKey newObj) :
    ∃ d', d.replace env idKey newObj forcedel = .ok d' ∧ d'.objs = Function.update d.objs idKey newObj ∧
      d'.nextId = d.nextId ∧ Valid env d' := by
  have hkindsOf : ∀ obj kind, env.kinds.getKind obj = .ok kind → KindsOf env (env.updates kind.1) (some obj) := by
    intro obj kind hobj o ho ki
    obtain rfl := Option.some.inj ho
    exact covers_of_getKind hobj
  have hnone : ∀ kindIds, KindsOf env kindIds none := fun _ _ ho => by cases ho
  have hupdate : ∃ contents, env.update newObj (d.objs idKey) forcedel d.contents = .ok contents ∧
      ∀ ki ∈ env.indexes,
        (KindStore.mk (Function.update (d.view env ki).objs idKey (newObj.filter (env.covers ki)))
          (contents ki.index.id)).Exact ki.index := by
    cases hold : d.objs idKey with
    | none =>
      cases hnew : newObj with
      | none =>
        refine ⟨d.contents, rfl, fun ki hki => ?_⟩
        have hview : (d.view env ki).objs idKey = none := by
          change (d.objs idKey).filter _ = none
          rw [hold]
          rfl
        rw [Option.filter_none, ← hview, Function.update_eq_self]
        exact h.exact ki hki
      | some new =>
        obtain ⟨kind, hgetKind⟩ := (hsound new hnew).kind
        obtain ⟨contents, hcontents, hexact⟩ := updateIndexes_exact hplain h forcedel hsound
          (hnew ▸ hkindsOf new kind hgetKind) (hold ▸ hnone _)
        rw [hold, hnew] at hcontents
        rw [hnew] at hexact
        refine ⟨contents, ?_, hexact⟩
        rw [MojDbEnv.update, hgetKind, ok_bind]
        exact hcontents
    | some old =>
      obtain ⟨kind, hgetKind⟩ := (h.sound idKey old hold).kind
      cases hnew : newObj with
      | none =>
        obtain ⟨contents, hcontents, hexact⟩ := updateIndexes_exact hplain h forcedel hsound
          (hnew ▸ hnone _) (hold ▸ hkindsOf old kind hgetKind)
        rw [hold, hnew] at hcontents
        rw [hnew] at hexact
        refine ⟨contents, ?_, hexact⟩
        rw [MojDbEnv.update, hgetKind, ok_bind]
        exact hcontents
      | some new =>
        have hsame := (hkind new old hnew hold).trans hgetKind
        obtain ⟨contents, hcontents, hexact⟩ := updateIndexes_exact hplain h forcedel hsound
          (hnew ▸ hkindsOf new kind hsame) (hold ▸ hkindsOf old kind hgetKind)
        rw [hold, hnew] at hcontents
        rw [hnew] at hexact
        refine ⟨contents, ?_, hexact⟩
        rw [MojDbEnv.update, hgetKind, ok_bind, hsame, ok_bind, if_neg (not_not.mpr rfl)]
        exact hcontents
  obtain ⟨contents, hcontents, hexact⟩ := hupdate
  refine ⟨{ d with objs := Function.update d.objs idKey newObj, contents }, ?_, rfl, rfl, ?_, ?_⟩
  · rw [replace, hcontents, ok_bind]
    rfl
  · intro ki hki
    have hview := hexact ki hki
    rw [← view_replace] at hview
    exact hview
  · intro k obj hobj
    by_cases hk : k = idKey
    · subst hk
      refine hsound obj ?_
      simpa using hobj
    · refine h.sound k obj ?_
      simpa [Function.update_of_ne hk] using hobj

end MojDbData

end Db8
