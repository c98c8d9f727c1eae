import Db8.Db.MojDbKindConfig
import Db8.Db.MojDbMerge
import Db8.Db.MojDbObjectHeader
import Db8.Db.MojDbPut
import Db8.Db.MojDbRevisionSet
import Db8.Lib.Run

/-!
# Db.MojDbRevisionSetRun

Runs of puts, merges and deletions of one object, with the revision sets of its kind.

* `putImpl`, `delObj`, `apply` — what a request makes of the stored object.
* `versions`                   — the objects stored since the object came to its kind, newest first.
* `latest`                     — the revision of the last change of a set's values among them.
* `Carries`                    — requests that hand on what is stored under the set's name.
* `latest_of_run`              — after a run of such requests it is the revision of the last change.
-/

namespace Db8

open Lib MojObject MojDb

/-- The registered kinds; each id has passed `MojDbKind::init`. -/
structure RevKinds where
  text : MojDbText
  kinds : List (MojString × RevKind)
  isKindId : ∀ k ∈ kinds, MojDbKind.isKindId k.1 = true

namespace RevKinds

def KindKindIdPrefix : MojString := ⟨[75, 105, 110, 100, 58], by decide⟩

structure PutFlags where
  merge : Bool
  force : Bool
  ignoreMissing : Bool

inductive Request where
  | put (flags : PutFlags) (obj : MojObject)
  /-- `MojDb::merge` of properties into what a query finds. -/
  | mergeProps (props : MojObject)
  | del (purge : Bool)

/-- A request with the revision the sequence gives it and the ids for the objects in arrays. -/
structure Step where
  request : Request
  rev : Int64
  ids : Nat → MojString

/-- `MojDbKindEngine::getKind`. -/
def getKind (env : RevKinds) (obj : MojObject) : Except MojErr (MojString × RevKind) :=
  match obj.get KindKey with
  | none => .error .dbKindNotSpecified
  | some id =>
    match env.kinds.find? fun k => k.1 = id.stringValue with
    | none => .error .dbKindNotRegistered
    | some k => .ok k

/-- What the kind engine's `update` is given. -/
structure Given where
  obj : MojObject
  kind : RevKind
  /-- The old object, if it is of the kind too. -/
  oldObj : Option MojObject

/-- A new object is put under the generated id. -/
def withId (putId obj : MojObject) : MojObject := if obj.get IdKey = none then obj.put IdKey putId else obj

/-- Ids for the objects in arrays, where the kind assigns them; kinds themselves get none. -/
def withIds (k : MojString × RevKind) (ids : Nat → MojString) (obj : MojObject) : MojObject :=
  if !KindKindIdPrefix.chars.isPrefixOf k.1.chars && k.2.assignId then assignIds ids obj else obj

/-- `_sync`, where the kind is backed up. -/
def withSync (k : MojString × RevKind) (obj : MojObject) : MojObject :=
  if k.2.backup && (obj.get KindContext.ObjectSyncKey).isNone then obj.put KindContext.ObjectSyncKey (.bool true)
  else obj

/-- `MojDb::putObj` up to the revision sets: the revision and what else is added; in another kind than that of the
old object the new one is created. -/
def prepare (env : RevKinds) (putId : MojObject) (step : Step) (obj : MojObject) (prev : Option MojObject) :
    Except MojErr Given := do
  let obj := withId putId (obj.put RevKey (.int step.rev))
  let k ← env.getKind obj
  let obj := withSync k (withIds k step.ids obj)
  match prev with
  | none => return ⟨obj, k.2, none⟩
  | some old =>
    let oldKind ← env.getKind old
    return ⟨obj, k.2, if oldKind.1 = k.1 then some old else none⟩

/-- What a request does to the stored object. -/
inductive Outcome where
  | unchanged
  | stored (obj : MojObject) (created : Bool)
  | removed

/-- `MojDb::putObj`. -/
def putObj (env : RevKinds) (putId : MojObject) (step : Step) (obj : MojObject) (prev : Option MojObject) :
    Except MojErr Outcome :=
  if prev = some obj then .ok .unchanged
  else do
    let given ← env.prepare putId step obj prev
    let obj ← given.kind.preUpdate env.text given.oldObj given.obj
    return .stored (obj.put IdKey putId) given.oldObj.isNone

/-- The object a request puts: `none` where it puts none. -/
def requested (request : Request) (prev : Option MojObject) : Except MojErr (Option MojObject) :=
  match request, prev with
  | .put flags obj, none => .ok (if flags.ignoreMissing && flags.merge then none else some obj)
  | .put flags obj, some prev =>
    let obj' := if flags.merge then mergeInto obj prev .undefined else obj
    if !flags.merge && !flags.force && (obj'.get RevKey).isNone && !prev.isDeleted then .error .dbRevNotSpecified
    else
      match obj'.get RevKey, prev.get RevKey with
      | none, _ => .ok (some obj')
      | some _, none => .error .requiredPropNotFound
      | some newRev, some oldRev =>
        if !flags.force && newRev.intValue ≠ oldRev.intValue then .error .dbRevisionMismatch else .ok (some obj')
  | .mergeProps _, none => .ok none
  | .mergeProps props, some prev => .ok (some (mergeInto props prev .undefined))
  | .del _, none => .ok none
  | .del purge, some prev => .ok (if purge then none else some (prev.put DelKey (.bool true)))

/-- A request that puts nothing: a purge, or one that has nothing to do. -/
def withoutPut : Request → Option MojObject → Outcome
  | .del _, some _ => .removed
  | _, _ => .unchanged

def apply (env : RevKinds) (putId : MojObject) (step : Step) (prev : Option MojObject) : Except MojErr Outcome :=
  match requested step.request prev with
  | .error err => .error err
  | .ok (some obj) => env.putObj putId step obj prev
  | .ok none => .ok (withoutPut step.request prev)

/-! ## Runs -/

/-- The objects stored under the id with their revisions, newest first, since the object came to its kind. Only
the newest is in the store. -/
abbrev Versions := List (Int64 × MojObject)

/-- A request that fails leaves the store as it is. -/
def advance (env : RevKinds) (putId : MojObject) (versions : Versions) (step : Step) : Versions :=
  match env.apply putId step (versions.head?.map Prod.snd) with
  | .error _ => versions
  | .ok .unchanged => versions
  | .ok (.stored obj created) => (step.rev, obj) :: if created then [] else versions
  | .ok .removed => []

/-- The revision of the last version that has other values than the one before it, or of the first. -/
def latest (set : MojDbRevisionSet) : Int64 × MojObject → Versions → Int64
  | v, [] => v.1
  | v, w :: vs => if set.SameValues v.2 w.2 then latest set w vs else v.1

/-- A set finds out that the values have changed, and where they have not, the new object has under its name what
the old one has. -/
def Carried (text : MojDbText) (set : MojDbRevisionSet) (newObj oldObj : MojObject) : Prop :=
  if set.SameValues newObj oldObj then newObj.get set.name = oldObj.get set.name
  else set.differ text newObj oldObj = true

instance (text : MojDbText) (set : MojDbRevisionSet) (newObj oldObj : MojObject) :
    Decidable (Carried text set newObj oldObj) :=
  if h : set.SameValues newObj oldObj then
    decidable_of_iff (newObj.get set.name = oldObj.get set.name) (by rw [Carried, if_pos h])
  else decidable_of_iff (set.differ text newObj oldObj = true) (by rw [Carried, if_neg h])

/-- Where the request puts an object that is not the stored one, its kind has sets apart and, over an object of
the kind, it carries what is stored for them. -/
def Carries (env : RevKinds) (putId : MojObject) (versions : Versions) (step : Step) : Prop :=
  ∀ obj given, requested step.request (versions.head?.map Prod.snd) = .ok (some obj) →
    versions.head?.map Prod.snd ≠ some obj →
    env.prepare putId step obj (versions.head?.map Prod.snd) = .ok given →
    Apart given.kind.allRevSets ∧
      ∀ oldObj, given.oldObj = some oldObj → ∀ set ∈ given.kind.allRevSets, Carried env.text set given.obj oldObj

/-! ## The object given to the sets -/

/-- A value without arrays or objects in it keeps its place among the ids. -/
theorem getProp_assignIdsProps {ids : Nat → MojString} {key : MojString} {val : MojObject}
    (hval : ∀ n, assignIdsVal ids val n = (val, n)) {ps : List (MojString × MojObject)} {n : Nat}
    (h : getProp key ps = some val) : getProp key (assignIdsProps ids ps n).1 = some val := by
  induction ps generalizing n with
  | nil => cases h
  | cons p ps ih =>
    obtain ⟨k, a⟩ := p
    rw [getProp] at h
    rw [assignIdsProps, getProp]
    split_ifs at h ⊢ with hk
    · obtain rfl := Option.some.inj h
      rw [hval]
    · exact ih h

theorem get_assignIds {ids : Nat → MojString} {key : MojString} {val : MojObject}
    (hval : ∀ n, assignIdsVal ids val n = (val, n)) {obj : MojObject} (h : obj.get key = some val) :
    (assignIds ids obj).get key = some val := by
  cases obj with
  | object ps =>
    rw [assignIds]
    exact getProp_assignIdsProps hval h
  | _ => cases h

theorem getKind_eq_ok {env : RevKinds} {obj : MojObject} {k : MojString × RevKind} (h : env.getKind obj = .ok k) :
    obj.get KindKey = some (.string k.1) ∧ env.kinds.find? (fun l => l.1 = k.1) = some k := by
  rw [getKind] at h
  cases hid : obj.get KindKey with
  | none =>
    rw [hid] at h
    cases h
  | some id =>
    cases hfind : env.kinds.find? fun l => l.1 = id.stringValue with
    | none =>
      rw [hid] at h
      simp only [hfind] at h
      cases h
    | some l =>
      rw [hid] at h
      simp only [hfind] at h
      obtain rfl := Except.ok.inj h
      have hname : l.1 = id.stringValue := by simpa using List.find?_some hfind
      have hstring := MojDbKind.eq_string_of_isKindId (hname ▸ env.isKindId l (List.mem_of_find?_eq_some hfind))
      rw [hname]
      exact ⟨congrArg some hstring, hfind⟩

/-- The kind hangs on the id under `_kind` alone. -/
theorem getKind_of_get {env : RevKinds} {obj obj' : MojObject} {k : MojString × RevKind} (h : env.getKind obj = .ok k)
    (hget : obj'.get KindKey = some (.string k.1)) : env.getKind obj' = .ok k := by
  have hfind := (getKind_eq_ok h).2
  rw [getKind, hget]
  change (match env.kinds.find? fun l => l.1 = k.1 with
    | none => Except.error MojErr.dbKindNotRegistered
    | some k => .ok k) = _
  rw [hfind]

/-- What is given to the sets: the revision, the kind, and an old object of that kind. -/
structure Prepared (env : RevKinds) (step : Step) (prev : Option MojObject) (given : Given) (kindId : MojString) :
    Prop where
  rev : given.obj.get RevKey = some (.int step.rev)
  kindKey : given.obj.get KindKey = some (.string kindId)
  kind : env.getKind given.obj = .ok (kindId, given.kind)
  old : ∀ oldObj, given.oldObj = some oldObj → prev = some oldObj ∧ ∃ oldKind, env.getKind oldObj = .ok (kindId, oldKind)

theorem get_withId {putId obj : MojObject} {key : MojString} (hne : key ≠ IdKey) :
    (withId putId obj).get key = obj.get key := by
  rw [withId]
  split_ifs
  · exact get_put_of_ne hne obj putId
  · rfl

theorem get_withIds {k : MojString × RevKind} {ids : Nat → MojString} {obj val : MojObject} {key : MojString}
    (hval : ∀ n, assignIdsVal ids val n = (val, n)) (h : obj.get key = some val) :
    (withIds k ids obj).get key = some val := by
  rw [withIds]
  split_ifs
  · exact get_assignIds hval h
  · exact h

theorem get_withSync {k : MojString × RevKind} {obj : MojObject} {key : MojString}
    (hne : key ≠ KindContext.ObjectSyncKey) : (withSync k obj).get key = obj.get key := by
  rw [withSync]
  split_ifs
  · exact get_put_of_ne hne obj _
  · rfl

theorem prepared {env : RevKinds} {putId obj : MojObject} {step : Step} {prev : Option MojObject} {given : Given}
    (h : env.prepare putId step obj prev = .ok given) : ∃ kindId, Prepared env step prev given kindId := by
  unfold prepare at h
  obtain ⟨k, hkind, h⟩ := bind_eq_ok.mp h
  have hrev : (withId putId (obj.put RevKey (.int step.rev))).get RevKey = some (.int step.rev) := by
    rw [get_withId (by decide), get_put_self]
  have hkey := (getKind_eq_ok hkind).1
  have hobj : ∀ key val, key ≠ KindContext.ObjectSyncKey → (∀ n, assignIdsVal step.ids val n = (val, n)) →
      (withId putId (obj.put RevKey (.int step.rev))).get key = some val →
      (withSync k (withIds k step.ids (withId putId (obj.put RevKey (.int step.rev))))).get key = some val := by
    intro key val hne hval hget
    rw [get_withSync hne, get_withIds hval hget]
  have hkindKey := hobj KindKey _ (by decide) (fun _ => rfl) hkey
  have hgiven : given.obj = withSync k (withIds k step.ids (withId putId (obj.put RevKey (.int step.rev)))) ∧
      given.kind = k.2 ∧ ∀ oldObj, given.oldObj = some oldObj →
        prev = some oldObj ∧ ∃ oldKind, env.getKind oldObj = .ok (k.1, oldKind) := by
    cases prev with
    | none =>
      obtain rfl := pure_eq_ok.mp h
      exact ⟨rfl, rfl, fun _ ho => by cases ho⟩
    | some old =>
      obtain ⟨oldKind, hold, h⟩ := bind_eq_ok.mp h
      obtain rfl := pure_eq_ok.mp h
      refine ⟨rfl, rfl, fun oldObj ho => ?_⟩
      have hsame : oldKind.1 = k.1 := by
        by_contra hne
        rw [if_neg hne] at ho
        cases ho
      rw [if_pos hsame] at ho
      obtain rfl := Option.some.inj ho
      exact ⟨rfl, oldKind.2, by rw [hold, ← hsame]⟩
  refine ⟨k.1, ⟨?_, ?_, ?_, hgiven.2.2⟩⟩
  · rw [hgiven.1]
    exact hobj RevKey _ (by decide) (fun _ => rfl) hrev
  · rw [hgiven.1]
    exact hkindKey
  · rw [hgiven.1, hgiven.2.1]
    exact getKind_of_get hkind hkindKey

/-! ## The object that is stored -/

/-- What a put that returns has stored, if it has stored anything. -/
theorem putObj_stored {env : RevKinds} {putId obj stored : MojObject} {step : Step} {prev : Option MojObject}
    {created : Bool} (h : env.putObj putId step obj prev = .ok (.stored stored created)) :
    prev ≠ some obj ∧ ∃ given updated, env.prepare putId step obj prev = .ok given ∧
      given.kind.preUpdate env.text given.oldObj given.obj = .ok updated ∧
      stored = updated.put IdKey putId ∧ created = given.oldObj.isNone := by
  rw [putObj] at h
  split_ifs at h with hsame
  · cases h
  · obtain ⟨given, hgiven, h⟩ := bind_eq_ok.mp h
    obtain ⟨updated, hupdated, h⟩ := bind_eq_ok.mp h
    obtain ⟨rfl, rfl⟩ := Outcome.stored.inj (pure_eq_ok.mp h)
    exact ⟨hsame, given, updated, hgiven, hupdated, rfl, rfl⟩

theorem valuesAt_congr {path : List MojString} {obj obj' : MojObject} (hpath : path ≠ [])
    (hwild : path.head? ≠ some MojDbPropExtractor.WildcardKey)
    (h : ∀ key, path.head? = some key → obj.get key = obj'.get key) :
    MojDbPropExtractor.valuesAt path obj = MojDbPropExtractor.valuesAt path obj' := by
  obtain ⟨propKey, rest, rfl⟩ := List.exists_cons_of_ne_nil hpath
  rw [List.head?_cons] at hwild
  have hwild' : propKey ≠ MojDbPropExtractor.WildcardKey := fun he => hwild (congrArg some he)
  rw [MojDbPropExtractor.valuesAt, MojDbPropExtractor.valuesAt, if_neg hwild', if_neg hwild', h propKey rfl]

/-- The sets watch nothing that is written after the object was given to them. -/
theorem sameValues_stored {text : MojDbText} {sets : List MojDbRevisionSet} (h : Apart sets) {obj rev updated putId : MojObject}
    {oldObj : Option MojObject} (hupdated : RevKind.Updated text sets obj oldObj rev updated)
    {set : MojDbRevisionSet} (hset : set ∈ sets) (old : MojObject) :
    set.SameValues (updated.put IdKey putId) old ↔ set.SameValues obj old := by
  rw [(h.ignoresId set hset).sameValues_put]
  refine forall₂_congr fun e he => ?_
  have hvalues : MojDbPropExtractor.valuesAt e.prop updated = MojDbPropExtractor.valuesAt e.prop obj := by
    refine valuesAt_congr e.prop_ne_nil (h.ignoresId set hset e he).2 fun key hkey => ?_
    refine hupdated.others key fun set' hset' hname => ?_
    exact (h.ignores set hset set' hset' e he).1 (hname ▸ hkey)
  rw [hvalues]

/-! ## The invariant -/

/-- Under the name of each set of its kind the newest object has the revision of the last change. -/
def Holds (env : RevKinds) (versions : Versions) : Prop :=
  match versions with
  | [] => True
  | v :: vs => ∀ kindId kind, env.getKind v.2 = .ok (kindId, kind) → ∀ set ∈ kind.allRevSets,
      v.2.get set.name = some (.int (latest set v vs))

theorem holds_stored {env : RevKinds} {putId : MojObject} {versions : Versions} {step : Step} {obj stored : MojObject}
    {created : Bool} (hholds : env.Holds versions) (hcarries : env.Carries putId versions step)
    (hrequested : requested step.request (versions.head?.map Prod.snd) = .ok (some obj))
    (hstored : env.putObj putId step obj (versions.head?.map Prod.snd) = .ok (.stored stored created)) :
    env.Holds ((step.rev, stored) :: if created then [] else versions) := by
  obtain ⟨hne, given, updated, hgiven, hupdated, rfl, rfl⟩ := putObj_stored hstored
  obtain ⟨hapart, hcarried⟩ := hcarries obj given hrequested hne hgiven
  obtain ⟨kindId, hprep⟩ := prepared hgiven
  obtain ⟨updated', hok, hspec⟩ := @RevKind.preUpdate_spec env.text given.oldObj _ _ hapart _ hprep.rev
  obtain rfl : updated' = updated := Except.ok.inj (hok.symm.trans hupdated)
  intro id kind hkind set hset
  have hkindKey : (updated'.put IdKey putId).get KindKey = some (.string kindId) := by
    rw [get_put_of_ne (by decide), hspec.others KindKey fun set hset => (hapart.header set hset).2.1, hprep.kindKey]
  obtain ⟨rfl, rfl⟩ : id = kindId ∧ kind = given.kind :=
    Prod.mk.inj (Except.ok.inj (hkind.symm.trans (getKind_of_get hprep.kind hkindKey)))
  have hname : (updated'.put IdKey putId).get set.name = updated'.get set.name :=
    get_put_of_ne (hapart.header set hset).1 _ _
  change (updated'.put IdKey putId).get set.name = _
  rw [hname, hspec.written set hset]
  cases hold : given.oldObj with
  | none => rfl
  | some oldObj =>
    obtain ⟨hprev, oldKind, holdKind⟩ := hprep.old oldObj hold
    cases versions with
    | nil => cases hprev
    | cons w vs =>
      obtain rfl : w.2 = oldObj := Option.some.inj hprev
      have hfind := (getKind_eq_ok hprep.kind).2.symm.trans (getKind_eq_ok holdKind).2
      obtain rfl : given.kind = oldKind := (Prod.mk.inj (Option.some.inj hfind)).2
      have hcarry := hcarried w.2 hold set hset
      have hsame : set.SameValues (updated'.put IdKey putId) w.2 ↔ set.SameValues given.obj w.2 :=
        sameValues_stored hapart hspec hset w.2
      change (if set.differ env.text given.obj w.2 then some (MojObject.int step.rev) else given.obj.get set.name) =
        some (MojObject.int (if set.SameValues (updated'.put IdKey putId) w.2 then latest set w vs else step.rev))
      rw [Carried] at hcarry
      by_cases h : set.SameValues given.obj w.2
      · rw [if_pos h] at hcarry
        rw [if_pos (hsame.mpr h), MojDbRevisionSet.differ_eq_false h, hcarry]
        exact hholds _ _ holdKind set hset
      · rw [if_neg h] at hcarry
        rw [if_neg (fun hs => h (hsame.mp hs)), hcarry]
        rfl

theorem holds_advance {env : RevKinds} {putId : MojObject} {versions : Versions} {step : Step}
    (hholds : env.Holds versions) (hcarries : env.Carries putId versions step) :
    env.Holds (env.advance putId versions step) := by
  rw [advance]
  cases happly : env.apply putId step (versions.head?.map Prod.snd) with
  | error err => exact hholds
  | ok outcome =>
    cases outcome with
    | unchanged => exact hholds
    | removed => trivial
    | stored obj created =>
      rw [apply] at happly
      cases hrequested : requested step.request (versions.head?.map Prod.snd) with
      | error err =>
        rw [hrequested] at happly
        cases happly
      | ok requested =>
        rw [hrequested] at happly
        cases requested with
        | some requested => exact holds_stored hholds hcarries hrequested happly
        | none =>
          have hnot : withoutPut step.request (versions.head?.map Prod.snd) ≠ .stored obj created := by
            rw [withoutPut.eq_def]
            split <;> intro he <;> cases he
          exact absurd (Except.ok.inj happly) hnot

/-- **The revision of the last change.** After every run of puts, merges and deletions of an object whose puts
carry what is stored for the revision sets of its kind, the property of each set is there and is the revision of
the last version that changed one of the values the set watches, or of the first. -/
theorem latest_of_run {env : RevKinds} {putId : MojObject} {steps : List Step}
    (h : Along (env.advance putId) (env.Carries putId) [] steps) {v : Int64 × MojObject} {vs : Versions}
    (hrun : run (env.advance putId) [] steps = v :: vs) {kindId : MojString} {kind : RevKind}
    (hkind : env.getKind v.2 = .ok (kindId, kind)) {set : MojDbRevisionSet} (hset : set ∈ kind.allRevSets) :
    v.2.get set.name = some (.int (latest set v vs)) := by
  have hholds := h.invariant env.Holds (fun _ _ hs hc => holds_advance hs hc) (show env.Holds [] from trivial)
  rw [hrun] at hholds
  exact hholds kindId kind hkind set hset

/-! ## A set that watches `w` -/

/-- `revW`. -/
def revWName : MojString := ⟨[114, 101, 118, 87], by decide⟩

/-- `w`. -/
def watchedName : MojString := ⟨[119], by decide⟩

def revW : MojDbRevisionSet :=
  ⟨revWName, [⟨watchedName, none, false, .empty, by decide, MojDbPropExtractor.empty_coded⟩]⟩

/-- `K:1`. -/
def watchKindId : MojString := ⟨[75, 58, 49], by decide⟩

def watchKind : RevKind := ⟨[], [revW], false, false⟩

def watchKinds : RevKinds := ⟨⟨fun _ s => s, fun s => [s]⟩, [(watchKindId, watchKind)], by decide⟩

/-- `++0`. -/
def watchId : MojObject := .string ⟨[43, 43, 48], by decide⟩

def putStep (flags : PutFlags) (obj : MojObject) (rev : Int64) : Step := ⟨.put flags obj, rev, fun _ => MojString.empty⟩

/-- A new object with a value for `w`. -/
def clientObject : MojObject := .object [(KindKey, .string watchKindId), (watchedName, .int 7)]

def createStep : Step := putStep ⟨false, false, false⟩ clientObject 1

/-- The object replaced by one with the same value, as a client writes it that does not know of the set. -/
def replaceStep : Step :=
  putStep ⟨false, false, false⟩
    (.object [(IdKey, watchId), (KindKey, .string watchKindId), (RevKey, .int 1), (watchedName, .int 7)]) 2

/-- Another property merged into it. -/
def mergeStep : Step := putStep ⟨true, false, false⟩ (.object [(IdKey, watchId), (⟨[120], by decide⟩, .null)]) 2

def createdObject : MojObject :=
  .object [(IdKey, watchId), (KindKey, .string watchKindId), (RevKey, .int 1), (revWName, .int 1), (watchedName, .int 7)]

theorem run_create : run (watchKinds.advance watchId) [] [createStep] = [(1, createdObject)] := by
  decide +kernel

/-- The merged object, before and after it is stored. -/
def mergedObject (rev : Int64) : MojObject :=
  .object [(IdKey, watchId), (KindKey, .string watchKindId), (RevKey, .int rev), (revWName, .int 1),
    (watchedName, .int 7), (⟨[120], by decide⟩, .null)]

theorem run_merge :
    run (watchKinds.advance watchId) [] [createStep, mergeStep] = [(2, mergedObject 2), (1, createdObject)] := by
  decide +kernel

theorem apart_revW : Apart watchKind.allRevSets := by
  have hsets : ∀ set ∈ watchKind.allRevSets, set = revW := fun set hset => List.mem_singleton.mp hset
  refine ⟨fun set hs set' hs' _ => by rw [hsets set hs, hsets set' hs'], fun set hs => ?_, fun set hs set' hs' => ?_,
    fun set hs => ?_⟩
  · rw [hsets set hs]
    decide
  · rw [hsets set hs, hsets set' hs']
    decide
  · rw [hsets set hs]
    decide

theorem carries_create : watchKinds.Carries watchId [] createStep := by
  intro obj given hrequested _ hprepared
  obtain rfl := Option.some.inj (Except.ok.inj hrequested)
  have hgiven : watchKinds.prepare watchId createStep clientObject none = .ok
      ⟨.object [(IdKey, watchId), (KindKey, .string watchKindId), (RevKey, .int 1), (watchedName, .int 7)],
        watchKind, none⟩ := rfl
  obtain rfl := Except.ok.inj (hgiven.symm.trans hprepared)
  exact ⟨apart_revW, fun _ ho => by cases ho⟩

theorem carries_merge : watchKinds.Carries watchId [(1, createdObject)] mergeStep := by
  intro obj given hrequested _ hprepared
  have hmerged : requested mergeStep.request (some createdObject) = .ok (some (mergedObject 1)) := rfl
  obtain rfl := Option.some.inj (Except.ok.inj (hmerged.symm.trans hrequested))
  have hgiven : watchKinds.prepare watchId mergeStep (mergedObject 1) (some createdObject) =
      .ok ⟨mergedObject 2, watchKind, some createdObject⟩ := rfl
  obtain rfl := Except.ok.inj (hgiven.symm.trans hprepared)
  refine ⟨apart_revW, fun oldObj ho set hset => ?_⟩
  obtain rfl := Option.some.inj ho
  obtain rfl : set = revW := List.mem_singleton.mp hset
  decide +kernel

theorem carries_create_merge :
    Along (watchKinds.advance watchId) (watchKinds.Carries watchId) [] [createStep, mergeStep] := by
  have hcreate : watchKinds.advance watchId [] createStep = [(1, createdObject)] := run_create
  refine ⟨carries_create, ?_, trivial⟩
  rw [hcreate]
  exact carries_merge

theorem latest_of_run_sample :
    (mergedObject 2).get revWName = some (.int (latest revW (2, mergedObject 2) [(1, createdObject)])) :=
  @latest_of_run watchKinds watchId [createStep, mergeStep] carries_create_merge (2, mergedObject 2)
    [(1, createdObject)] run_merge watchKindId watchKind rfl revW (List.mem_singleton.mpr rfl)

/-- The replacement stores an object without the property of the set. -/
theorem replace_loses_revW :
    ((run (watchKinds.advance watchId) [] [createStep, replaceStep]).head?.map fun v => v.2.get revWName) =
      some none := by
  decide +kernel

end RevKinds

end Db8
