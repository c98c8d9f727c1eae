import Db8.Db.MojDbKindConfig
import Db8.Lib.Run

/-!
# Db.MojDbKindIds

The ids of the indexes and the tokens of the kinds: in the database, in the open kinds, and in what is stored under them.

* `id`, `dropIndex`   — an id is looked up or taken from the sequence, an index is dropped with its entries.
* `configure`         — the token and the indexes of a kind that is put.
* `putKind`, `delKind`, `reloadKind` — with what a request that aborts leaves.
* `Touches`           — what a step for one kind leaves as it was.
-/

namespace Db8

open Lib

namespace MojDbKindIds

/-- A definition of an index under its lower-case name. -/
structure IndexObject where
  name : MojString
  object : MojObject
  deriving DecidableEq

def idIndex : IndexObject := ⟨MojDb.IdKey, MojDbKind.idIndex⟩

/-- An object of a kind whose index names do not repeat; `other` is the rest of it. -/
structure KindObj where
  indexes : List IndexObject
  other : MojObject
  nodup : ((idIndex :: indexes).map IndexObject.name).Nodup
  deriving DecidableEq

/-- `IndexIdsKey` and `KindTokensKey`. -/
inductive IdsKey where
  | indexIds | kindTokens
  deriving DecidableEq

/-- A name in one of the two maps that the index id database has for a kind. -/
structure IdName where
  kindId : MojString
  key : IdsKey
  name : MojString
  deriving DecidableEq

def indexName (kindId name : MojString) : IdName := ⟨kindId, .indexIds, name⟩

def tokenName (kindId : MojString) : IdName := ⟨kindId, .kindTokens, kindId⟩

/-- An object with the kind token in its header. -/
structure StoredObj where
  id : Nat
  kindId : MojString
  token : Int

/-- A key of an index of a kind; `indexId` is what it begins with. -/
structure IndexEntry where
  indexId : Int
  kindId : MojString
  index : MojString
  objId : Nat
  shardId : Nat

/-- `kinds` are the stored kind objects. -/
structure Store where
  ids : IdName → Option Int
  kinds : List (MojString × KindObj)
  objects : List StoredObj
  entries : List IndexEntry

/-- `taken` is what the values of the sequence have been taken for, the first of them first. A transaction that aborts
does not give them back. -/
structure Txn where
  store : Store
  taken : List IdName

/-- `m_kindToken`, and the indexes with the ids they were opened with. -/
structure OpenKind where
  token : Int
  indexes : List (IndexObject × Int)

/-- The kind map and the token map of the kind engine. -/
structure Memory where
  kinds : MojString → Option OpenKind
  tokens : Int → Option MojString

def lookupKind (kindId : MojString) (kinds : List (MojString × KindObj)) : Option KindObj :=
  (kinds.find? fun p => p.1 = kindId).map Prod.snd

def setKind (kindId : MojString) (obj : KindObj) (kinds : List (MojString × KindObj)) : List (MojString × KindObj) :=
  kinds.filter (fun p => p.1 ≠ kindId) ++ [(kindId, obj)]

section

-- the values that the sequence gives, and the kinds that are not stored
variable (seq : Nat → Int) (builtin : List (MojString × KindObj))

def id (n : IdName) (t : Txn) : Int × Txn :=
  match t.store.ids n with
  | some id => (id, t)
  | none =>
    let id := seq t.taken.length
    (id, ⟨{ t.store with ids := Function.update t.store.ids n (some id) }, t.taken ++ [n]⟩)

/-- `MojDbKind::dropIndex`. Entries are deleted in the main shard only. -/
def dropIndex (kindId : MojString) (t : Txn) (index : IndexObject × Int) : Txn :=
  { t with
    store :=
      { t.store with
        ids := Function.update t.store.ids (indexName kindId index.1.name) none
        entries := t.store.entries.filter fun e => ¬(e.indexId = index.2 ∧ e.shardId = 0) } }

/-- `MojDbKind::openIndex` for each of them. -/
def openIndexes (kindId : MojString) : List IndexObject → Txn → List (IndexObject × Int) × Txn
  | [], t => ([], t)
  | o :: objs, t =>
    let (indexId, t) := id seq (indexName kindId o.name) t
    let (indexes, t) := openIndexes kindId objs t
    ((o, indexId) :: indexes, t)

def configureIndexes (kindId : MojString) (indexes : List (IndexObject × Int)) (obj : KindObj) (t : Txn) :
    List (IndexObject × Int) × Txn :=
  let newIndexObjects := idIndex :: obj.indexes
  let toDrop := indexes.filter fun index => index.1 ∉ newIndexObjects
  let toAdd := newIndexObjects.filter fun o => o ∉ indexes.map Prod.fst
  let t := toDrop.foldl (dropIndex kindId) t
  let (added, t) := openIndexes seq kindId toAdd t
  (indexes.filter (fun index => index.1 ∈ newIndexObjects) ++ added, t)

/-- `MojDbKind::configure`, of a kind with these indexes. -/
def configure (kindId : MojString) (indexes : List (IndexObject × Int)) (obj : KindObj) (t : Txn) : OpenKind × Txn :=
  let (token, t) := id seq (tokenName kindId) t
  let (indexes, t) := configureIndexes seq kindId indexes obj t
  (⟨token, indexes⟩, t)

/-- `MojDbKindEngine::putKind`: only a kind that is created is put in the token map. -/
def enginePutKind (kindId : MojString) (obj : KindObj) (m : Memory) (t : Txn) : Memory × Txn :=
  match m.kinds kindId with
  | none =>
    let (kind, t) := configure seq kindId [] obj t
    (⟨Function.update m.kinds kindId (some kind), Function.update m.tokens kind.token (some kindId)⟩, t)
  | some old =>
    let (kind, t) := configure seq kindId old.indexes obj t
    ({ m with kinds := Function.update m.kinds kindId (some kind) }, t)

/-- `MojDbKindEngine::delKind`. -/
def engineDelKind (kindId : MojString) (m : Memory) (t : Txn) : Memory × Txn :=
  match m.kinds kindId with
  | none => (m, t)
  | some kind =>
    ({ m with kinds := Function.update m.kinds kindId none }, kind.indexes.foldl (dropIndex kindId) t)

/-- `loadKinds`: a kind that fails is left out. -/
def loadKinds (fails : MojString → Bool) : List (MojString × KindObj) → Memory × Txn → Memory × Txn
  | [], mt => mt
  | (kindId, obj) :: kinds, (m, t) =>
    if fails kindId then loadKinds fails kinds (m, t)
    else loadKinds fails kinds (enginePutKind seq kindId obj m t)

end

/-- How `reloadKind` fails. `before`: nothing has been done to the kind yet. `engine`: the kind engine has taken values of the
sequence for `used` and throws; a stored kind has been taken out by then, and `left` is what a drop leaves of another one.
`late`: something fails after the kind engine, the commit for example. -/
inductive ReloadFault where
  | before
  | engine (used : List IdName) (left : Option OpenKind)
  | late

/-- The kind engine throws after it has taken values of the sequence for `used`, and `left` is then in the kind map; or
something fails after it, the commit for example. `reload` is how `reloadKind` fails too. -/
inductive Fault where
  | engine (used : List IdName) (left : Option OpenKind) (reload : Option ReloadFault)
  | later (reload : Option ReloadFault)

end MojDbKindIds

open MojDbKindIds

/-- `working` is the store as the open request, if there is one, sees it. -/
structure MojDbKindIds where
  committed : Store
  working : Option Store
  taken : List IdName
  memory : Memory

namespace MojDbKindIds

section

variable (seq : Nat → Int) (builtin : List (MojString × KindObj))

def init : MojDbKindIds := ⟨⟨fun _ => none, [], [], []⟩, none, [], ⟨fun _ => none, fun _ => none⟩⟩

def view (sys : MojDbKindIds) : Store := sys.working.getD sys.committed

/-- A request of its own commits. -/
def write (sys : MojDbKindIds) (t : Txn) (memory : Memory) : MojDbKindIds :=
  match sys.working with
  | some _ => ⟨sys.committed, some t.store, t.taken, memory⟩
  | none => ⟨t.store, none, t.taken, memory⟩

/-- What a request that aborts leaves, whoever began it. -/
def aborted (sys : MojDbKindIds) (taken : List IdName) (memory : Memory) : MojDbKindIds :=
  ⟨sys.committed, none, taken, memory⟩

def removeKind (memory : Memory) (kindId : MojString) : Memory :=
  { memory with kinds := Function.update memory.kinds kindId none }

/-- What is left of a kind is in the map. -/
def leaveKind (memory : Memory) (kindId : MojString) (left : Option OpenKind) : Memory :=
  { memory with kinds := Function.update memory.kinds kindId left }

/-- `MojDb::reloadKind`, in a request of its own. -/
def reloadKind (sys : MojDbKindIds) (kindId : MojString) (fault : Option ReloadFault) : MojDbKindIds :=
  match lookupKind kindId sys.committed.kinds with
  | some obj =>
    let put := enginePutKind seq kindId obj (removeKind sys.memory kindId) ⟨sys.committed, sys.taken⟩
    match fault with
    | none => ⟨put.2.store, none, put.2.taken, put.1⟩
    | some .before => sys
    | some (.engine used _) => sys.aborted (sys.taken ++ used) (removeKind sys.memory kindId)
    | some .late => sys.aborted put.2.taken put.1
  | none =>
    let del := engineDelKind kindId sys.memory ⟨sys.committed, sys.taken⟩
    match fault with
    | none => ⟨del.2.store, none, del.2.taken, del.1⟩
    | some .before => sys
    | some (.engine used left) => sys.aborted (sys.taken ++ used) (leaveKind sys.memory kindId left)
    | some .late => sys.aborted del.2.taken del.1

def withKind (s : Store) (kindId : MojString) (obj : KindObj) : Store := { s with kinds := setKind kindId obj s.kinds }

/-- `MojDb::putKind` with `commitKind`: what fails aborts the request and reloads this kind. -/
def putKind (sys : MojDbKindIds) (kindId : MojString) (obj : KindObj) (fault : Option Fault) : MojDbKindIds :=
  -- checkSameKind
  if (sys.memory.kinds kindId).isSome ∧ lookupKind kindId sys.view.kinds = some obj then sys
  else
    let put := enginePutKind seq kindId obj sys.memory ⟨withKind sys.view kindId obj, sys.taken⟩
    match fault with
    | none => sys.write put.2 put.1
    | some (.engine used left reload) =>
      reloadKind seq (sys.aborted (sys.taken ++ used) (leaveKind sys.memory kindId left)) kindId reload
    | some (.later reload) => reloadKind seq (sys.aborted put.2.taken put.1) kindId reload

/-- The kind object, and the objects of the kind that are `reached`, those in active shards, with their entries. -/
def withoutKind (s : Store) (kindId : MojString) (reached : Nat → Bool) : Store :=
  { s with
    kinds := s.kinds.filter fun p => p.1 ≠ kindId
    objects := s.objects.filter fun o => ¬(o.kindId = kindId ∧ reached o.id)
    entries := s.entries.filter fun e => !s.objects.any fun o => o.kindId = kindId ∧ reached o.id ∧ o.id = e.objId }

/-- `MojDb::delKind` with `commitKind`. -/
def delKind (sys : MojDbKindIds) (kindId : MojString) (reached : Nat → Bool) (fault : Option Fault) : MojDbKindIds :=
  if (sys.memory.kinds kindId).isNone ∨ (lookupKind kindId sys.view.kinds).isNone then sys
  else
    let del := engineDelKind kindId sys.memory ⟨withoutKind sys.view kindId reached, sys.taken⟩
    match fault with
    | none => sys.write del.2 del.1
    | some (.engine used left reload) =>
      reloadKind seq (sys.aborted (sys.taken ++ used) (leaveKind sys.memory kindId left)) kindId reload
    | some (.later reload) => reloadKind seq (sys.aborted del.2.taken del.1) kindId reload

/-- What an object adds to the indexes of a kind that is open. -/
def entriesOf (m : Memory) (objId shardId : Nat) (kindId : MojString) : List IndexEntry :=
  match m.kinds kindId with
  | none => []
  | some kind => kind.indexes.map fun index => ⟨index.2, kindId, index.1.name, objId, shardId⟩

/-- An object is put, with entries in the indexes of its kind and of the kinds above it. -/
def putObj (sys : MojDbKindIds) (objId shardId : Nat) (kindId : MojString) (supers : List MojString) :
    MojDbKindIds :=
  match sys.memory.kinds kindId with
  | none => sys
  | some kind =>
    let store :=
      { sys.view with
        objects := sys.view.objects.filter (fun o => o.id ≠ objId) ++ [⟨objId, kindId, kind.token⟩]
        entries := sys.view.entries.filter (fun e => e.objId ≠ objId) ++
          (kindId :: supers).flatMap (entriesOf sys.memory objId shardId) }
    sys.write ⟨store, sys.taken⟩ sys.memory

/-- The database is closed, whatever request is open, and opened. -/
def reopen (sys : MojDbKindIds) (fails : MojString → Bool) : MojDbKindIds :=
  let loaded := loadKinds seq fails (builtin ++ sys.committed.kinds)
    (⟨fun _ => none, fun _ => none⟩, ⟨sys.committed, sys.taken⟩)
  ⟨loaded.2.store, none, loaded.2.taken, loaded.1⟩

inductive Action where
  | putKind (kindId : MojString) (obj : KindObj) (fault : Option Fault)
  | delKind (kindId : MojString) (reached : Nat → Bool) (fault : Option Fault)
  | putObj (objId shardId : Nat) (kindId : MojString) (supers : List MojString)
  | begin
  /-- The open request commits, or it aborts or its commit fails. -/
  | finish (commits : Bool)
  | reopen (fails : MojString → Bool)

def step (sys : MojDbKindIds) : Action → MojDbKindIds
  | .putKind kindId obj fault => sys.putKind seq kindId obj fault
  | .delKind kindId reached fault => sys.delKind seq kindId reached fault
  | .putObj objId shardId kindId supers => sys.putObj objId shardId kindId supers
  | .begin => { sys with working := some sys.view }
  | .finish commits => { sys with committed := if commits then sys.view else sys.committed, working := none }
  | .reopen fails => sys.reopen seq builtin fails

end

/-! ## What a step for one kind leaves as it was -/

variable {seq : Nat → Int}

/-- The id is a value of the sequence that was taken for the name. -/
def Owned (seq : Nat → Int) (taken : List IdName) (n : IdName) (v : Int) : Prop := ∃ i, taken[i]? = some n ∧ seq i = v

theorem Owned.mono {taken taken' : List IdName} {n : IdName} {v : Int} (h : Owned seq taken n v)
    (hpre : taken <+: taken') : Owned seq taken' n v := by
  obtain ⟨i, hi, hv⟩ := h
  obtain ⟨rest, rfl⟩ := hpre
  have hlt := (List.getElem?_eq_some_iff.mp hi).1
  exact ⟨i, (List.getElem?_append_left hlt).trans hi, hv⟩

/-- A value is taken for one name only. -/
theorem Owned.unique (hseq : Function.Injective seq) {taken : List IdName} {n m : IdName} {v : Int}
    (hn : Owned seq taken n v) (hm : Owned seq taken m v) : n = m := by
  obtain ⟨i, hi, hv⟩ := hn
  obtain ⟨j, hj, hw⟩ := hm
  obtain rfl := hseq (hv.trans hw.symm)
  exact Option.some.inj (hi.symm.trans hj)

structure Touches (seq : Nat → Int) (kindId : MojString) (t t' : Txn) : Prop where
  owned : (∀ n v, t.store.ids n = some v → Owned seq t.taken n v) →
    ∀ n v, t'.store.ids n = some v → Owned seq t'.taken n v
  other : ∀ n : IdName, n.kindId ≠ kindId → t'.store.ids n = t.store.ids n
  token : ∀ v, t.store.ids (tokenName kindId) = some v → t'.store.ids (tokenName kindId) = some v
  taken : t.taken <+: t'.taken
  kinds : t'.store.kinds = t.store.kinds
  objects : t'.store.objects = t.store.objects
  entries : ∀ e ∈ t'.store.entries, e ∈ t.store.entries

variable {kindId : MojString} {t t' t'' : Txn} {n : IdName}

namespace Touches

theorem refl (t : Txn) : Touches seq kindId t t :=
  ⟨fun h => h, fun _ _ => rfl, fun _ h => h, List.prefix_rfl, rfl, rfl, fun _ h => h⟩

theorem trans (h : Touches seq kindId t t') (h' : Touches seq kindId t' t'') : Touches seq kindId t t'' where
  owned ho := h'.owned (h.owned ho)
  other n hn := (h'.other n hn).trans (h.other n hn)
  token v hv := h'.token v (h.token v hv)
  taken := h.taken.trans h'.taken
  kinds := h'.kinds.trans h.kinds
  objects := h'.objects.trans h.objects
  entries e he := h.entries e (h'.entries e he)

end Touches

/-! ## Ids -/

theorem id_get (n : IdName) (t : Txn) : (id seq n t).2.store.ids n = some (id seq n t).1 := by
  unfold id
  split
  · assumption
  · exact Function.update_self _ _ _

theorem id_known {v : Int} (h : t.store.ids n = some v) : id seq n t = (v, t) := by
  unfold id
  rw [h]

/-- No id is lost, and no other name gets one. -/
theorem id_keeps {m : IdName} {v : Int} (h : t.store.ids m = some v) : (id seq n t).2.store.ids m = some v := by
  unfold id
  split
  · exact h
  · next hnone =>
    have hne : m ≠ n := by
      intro he
      rw [he, hnone] at h
      cases h
    exact (Function.update_of_ne hne _ _).trans h

theorem touches_id (hn : n.kindId = kindId) (t : Txn) : Touches seq kindId t (id seq n t).2 := by
  cases hget : t.store.ids n with
  | some v =>
    rw [id_known hget]
    exact .refl t
  | none =>
    have hid : (id seq n t).2 =
        ⟨{ t.store with ids := Function.update t.store.ids n (some (seq t.taken.length)) }, t.taken ++ [n]⟩ := by
      unfold id
      rw [hget]
    rw [hid]
    refine ⟨fun h m v hm => ?_, fun m hm => ?_, fun v hv => ?_, List.prefix_append _ _, rfl, rfl, fun _ he => he⟩
    · by_cases hmn : m = n
      · subst hmn
        refine ⟨t.taken.length, List.getElem?_concat_length, ?_⟩
        exact Option.some.inj ((Function.update_self m _ t.store.ids).symm.trans hm)
      · exact (h m v ((Function.update_of_ne hmn _ _).symm.trans hm)).mono (List.prefix_append _ _)
    · have hne : m ≠ n := fun he => hm (he ▸ hn)
      exact Function.update_of_ne hne _ _
    · rw [← hid]
      exact id_keeps hv

theorem openIndexes_keeps {m : IdName} {v : Int} (objs : List IndexObject) (h : t.store.ids m = some v) :
    (openIndexes seq kindId objs t).2.store.ids m = some v := by
  induction objs generalizing t with
  | nil => exact h
  | cons o objs ih => exact ih (id_keeps h)

theorem openIndexes_fst (objs : List IndexObject) (t : Txn) :
    (openIndexes seq kindId objs t).1.map Prod.fst = objs := by
  induction objs generalizing t with
  | nil => rfl
  | cons o objs ih => exact congrArg (o :: ·) (ih _)

theorem openIndexes_get (objs : List IndexObject) (t : Txn) :
    ∀ index ∈ (openIndexes seq kindId objs t).1,
      (openIndexes seq kindId objs t).2.store.ids (indexName kindId index.1.name) = some index.2 := by
  induction objs generalizing t with
  | nil =>
    intro index hindex
    cases hindex
  | cons o objs ih =>
    intro index hindex
    cases List.mem_cons.mp hindex with
    | inl he =>
      subst he
      exact openIndexes_keeps objs (id_get (indexName kindId o.name) t)
    | inr hmem => exact ih _ index hmem

theorem touches_openIndexes (objs : List IndexObject) (t : Txn) :
    Touches seq kindId t (openIndexes seq kindId objs t).2 := by
  induction objs generalizing t with
  | nil => exact .refl t
  | cons o objs ih => exact (touches_id (n := indexName kindId o.name) rfl t).trans (ih _)

theorem touches_dropIndex (index : IndexObject × Int) (t : Txn) : Touches seq kindId t (dropIndex kindId t index) := by
  have hids : ∀ m, m ≠ indexName kindId index.1.name → (dropIndex kindId t index).store.ids m = t.store.ids m :=
    fun m hm => Function.update_of_ne hm _ _
  refine ⟨fun h m v hm => ?_, fun m hm => ?_, fun v hv => ?_, List.prefix_rfl, rfl, rfl, fun e he => ?_⟩
  · by_cases hmn : m = indexName kindId index.1.name
    · have hnone : (dropIndex kindId t index).store.ids m = none := hmn ▸ Function.update_self _ _ _
      cases hnone.symm.trans hm
    · exact h m v ((hids m hmn).symm.trans hm)
  · exact hids m fun he => hm (he ▸ rfl)
  · have hkey : tokenName kindId ≠ indexName kindId index.1.name := by
      intro he
      cases congrArg IdName.key he
    exact (hids _ hkey).trans hv
  · exact (List.mem_filter.mp he).1

theorem touches_dropIndexes (indexes : List (IndexObject × Int)) (t : Txn) :
    Touches seq kindId t (indexes.foldl (dropIndex kindId) t) := by
  induction indexes generalizing t with
  | nil => exact .refl t
  | cons index indexes ih => exact (touches_dropIndex index t).trans (ih _)

/-- The names that are not dropped keep their ids. -/
theorem dropIndexes_keeps {m : IdName} {v : Int} {indexes : List (IndexObject × Int)}
    (hm : ∀ index ∈ indexes, m ≠ indexName kindId index.1.name) (h : t.store.ids m = some v) :
    (indexes.foldl (dropIndex kindId) t).store.ids m = some v := by
  induction indexes generalizing t with
  | nil => exact h
  | cons index indexes ih =>
    have hfirst := hm index List.mem_cons_self
    exact ih (fun i hi => hm i (List.mem_cons_of_mem _ hi)) ((Function.update_of_ne hfirst _ _).trans h)

/-! ## A kind that is open -/

/-- The token and the ids of an open kind are those of the database. -/
structure OpenOk (s : Store) (kindId : MojString) (kind : OpenKind) : Prop where
  token : s.ids (tokenName kindId) = some kind.token
  index : ∀ index ∈ kind.indexes, s.ids (indexName kindId index.1.name) = some index.2
  nodup : (kind.indexes.map fun index => index.1.name).Nodup

/-- It does not depend on the ids of another kind. -/
theorem OpenOk.congr {s s' : Store} {kind : OpenKind} (h : OpenOk s kindId kind)
    (hids : ∀ n : IdName, n.kindId = kindId → s'.ids n = s.ids n) : OpenOk s' kindId kind where
  token := (hids _ rfl).trans h.token
  index i hi := (hids _ rfl).trans (h.index i hi)
  nodup := h.nodup

theorem touches_configure (indexes : List (IndexObject × Int)) (obj : KindObj) (t : Txn) :
    Touches seq kindId t (configure seq kindId indexes obj t).2 :=
  (touches_id (n := tokenName kindId) rfl t).trans
    ((touches_dropIndexes _ _).trans (touches_openIndexes _ _))

/-- The kept indexes and those that are added have different names. -/
theorem nodup_configure {indexes : List (IndexObject × Int)} {obj : KindObj}
    (hnodup : (indexes.map fun index => index.1.name).Nodup) {added : List (IndexObject × Int)}
    (hadded : added.map Prod.fst = (idIndex :: obj.indexes).filter fun o => o ∉ indexes.map Prod.fst) :
    ((indexes.filter (fun index => index.1 ∈ idIndex :: obj.indexes) ++ added).map fun index => index.1.name).Nodup := by
  have hnames : added.map (fun index => index.1.name) =
      ((idIndex :: obj.indexes).filter fun o => o ∉ indexes.map Prod.fst).map IndexObject.name := by
    rw [← hadded, List.map_map]
    rfl
  rw [List.map_append, List.nodup_append']
  refine ⟨hnodup.sublist (List.filter_sublist.map _), ?_, ?_⟩
  · rw [hnames]
    exact obj.nodup.sublist (List.filter_sublist.map _)
  · rw [hnames]
    intro name hkept hnew
    obtain ⟨index, hindex, rfl⟩ := List.mem_map.mp hkept
    obtain ⟨o, ho, he⟩ := List.mem_map.mp hnew
    obtain ⟨hindex, hin⟩ := List.mem_filter.mp hindex
    obtain ⟨ho, hout⟩ := List.mem_filter.mp ho
    -- two definitions of one name in the new object are the same
    have hsame : o = index.1 := List.inj_on_of_nodup_map obj.nodup ho (of_decide_eq_true hin) he
    exact of_decide_eq_true hout (hsame ▸ List.mem_map_of_mem hindex)

theorem openOk_configure {indexes : List (IndexObject × Int)}
    (hindexes : ∀ index ∈ indexes, t.store.ids (indexName kindId index.1.name) = some index.2)
    (hnodup : (indexes.map fun index => index.1.name).Nodup) (obj : KindObj) :
    OpenOk (configure seq kindId indexes obj t).2.store kindId (configure seq kindId indexes obj t).1 where
  token := by
    have hget : (id seq (tokenName kindId) t).2.store.ids _ = some _ := id_get (tokenName kindId) t
    exact ((touches_dropIndexes _ _).trans (touches_openIndexes _ _)).token _ hget
  index index hindex := by
    cases List.mem_append.mp hindex with
    | inl hkept =>
      obtain ⟨hmem, hin⟩ := List.mem_filter.mp hkept
      refine openIndexes_keeps _ (dropIndexes_keeps (fun i hi he => ?_) (id_keeps (hindexes index hmem)))
      obtain ⟨hi, hout⟩ := List.mem_filter.mp hi
      have hname : index.1.name = i.1.name := congrArg IdName.name he
      have hsame : index = i := List.inj_on_of_nodup_map hnodup hmem hi hname
      exact of_decide_eq_true hout (hsame ▸ of_decide_eq_true hin)
    | inr hadded => exact openIndexes_get _ _ index hadded
  nodup := nodup_configure hnodup (openIndexes_fst _ _)

end MojDbKindIds

end Db8
