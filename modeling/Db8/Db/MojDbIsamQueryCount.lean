import Db8.Db.MojDbPermissionEngine
import Db8.Db.MojDbIsamQueryItem
import Mathlib.Data.List.Destutter

/-!
# Db.MojDbIsamQueryCount

The objects of a find query on the storage: `getImpl`, and the loops of `get` and `count` around it.

* `getImpl`        — one key and its object, with the reasons to pass it over, to fail and to use an item that is not there.
* `walk`           — what successive calls return, as one pass over the keys to come.
* `getMany_spec`, `count_spec` — both loops are that pass.
* `found`, `objects` — the objects of keys, from the store alone.
* `counts_iff`     — the loops agree, and no missing item is used, unless the object of an excluded kind comes up.
-/

namespace Db8

open Lib

/-- An object in the storage: its id, the kind id in its header, and the whole of it. -/
structure MojDbStorageItem where
  id : MojObject
  kindId : Except MojErr MojString
  toObject : Except MojErr MojObject
  deriving DecidableEq

/-- `MojDbObjectItem`, an item for an object in memory. -/
def MojDbObjectItem (obj : MojObject) : MojDbStorageItem where
  id := (obj.get MojDb.IdKey).getD .undefined
  kindId := obj.getRequiredString MojDb.KindKey
  toObject := .ok obj

/-- What a query reads besides the keys of its index. -/
structure MojDbIsamStore where
  idIndex : Nat
  /-- The item of an id in the primary database. -/
  primary : MojObject → Except MojErr (Option MojDbStorageItem)
  excludeKinds : List MojString
  distinct : MojString
  verify : Bool

/-- What a query keeps of the objects before. -/
structure MojDbIsamSeen where
  insertedIds : List MojObject
  lastItem : Option MojObject

namespace MojDbIsamQuery

/-- Why a call does not return: an error, or `itemOut->id()` where `itemOut` is NULL. -/
inductive Fault where
  | err (e : MojErr)
  | nullItem
  deriving DecidableEq

/-- `MojUInt32Max`, the limit while the objects are counted. -/
def countLimit : Nat := 4294967295

section Item

variable (st : MojDbIsamStore)

def checkExclude (item : MojDbStorageItem) : Except MojErr Bool :=
  if st.excludeKinds = [] then .ok false
  else do
    let kindId ← item.kindId
    return decide (kindId ∈ st.excludeKinds)

/-- The item of the id; `none` is a NULL item. -/
def getById (id : MojObject) : Except MojErr (Option MojDbStorageItem) := do
  let found ← st.primary id
  match found with
  | none => .error .internalIndexOnFind
  | some item =>
    let exclude ← checkExclude st { item with id }
    return if exclude then none else some { item with id }

def getVal (keyData : MojDbKey) : Except MojErr (Option MojDbStorageItem) := do
  let id ← parseId st.idIndex keyData
  getById st id

/-- Whether the item has the value of the last kept element, and the object of the item. -/
def distinct (lastItem : Option MojObject) (item : MojDbStorageItem) : Except MojErr (Bool × MojObject) := do
  let obj ← item.toObject
  let destObj ← obj.getRequired st.distinct
  match lastItem with
  | none => return (false, obj)
  | some compObj =>
    let distinctObj ← compObj.getRequired st.distinct
    return (decide (distinctObj = destObj), obj)

/-- `getImpl` from the key on: the item to be counted, if there is one. -/
def itemAt (seen : MojDbIsamSeen) (keyData : MojDbKey) : Except Fault (Option MojDbStorageItem) × MojDbIsamSeen :=
  match getVal st keyData with
  | .error e => (.error (.err e), seen)
  | .ok none => (.error .nullItem, seen)
  | .ok (some item) =>
    if item.id ∈ seen.insertedIds then (.ok none, seen)
    else
      let seen := { seen with insertedIds := item.id :: seen.insertedIds }
      if st.distinct.chars = [] then (.ok (some item), seen)
      else
        match distinct st seen.lastItem item with
        | .error e => (.error (.err e), seen)
        | .ok (true, _) => (.ok none, seen)
        | .ok (false, obj) => (.ok (some (MojDbObjectItem obj)), { seen with lastItem := some obj })

end Item

end MojDbIsamQuery

open MojDbIsamQuery (Source Fault countLimit)

/-- The query as it runs, with the objects it has seen. -/
structure MojDbIsamReads where
  query : MojDbIsamQuery
  seen : MojDbIsamSeen

namespace MojDbIsamReads

open MojDbIsamQuery (open_ itemAt)

variable (src : Source) (st : MojDbIsamStore)

/-- The query after `open`. -/
def ofOpen : MojDbIsamReads := ⟨open_ src, ⟨[], none⟩⟩

/-- The item with the found flag; both callers ask for the item. -/
def getImpl (r : MojDbIsamReads) : Except Fault (Option MojDbStorageItem × Bool) × MojDbIsamReads :=
  match r.query.getKey src with
  | (none, q) => (.ok (none, false), { r with query := q })
  | (some (key, _), q) =>
    match itemAt st r.seen key with
    | (.error fault, seen) => (.error fault, ⟨q, seen⟩)
    | (.ok none, seen) => (.ok (none, true), ⟨q, seen⟩)
    | (.ok (some item), seen) => (.ok (some item, true), ⟨q.incrementCount src, seen⟩)

/-- The loop of `get`. An index key without an object is passed over, unless the index is being verified. -/
def getLoop : Nat → MojDbIsamReads → Except Fault (Option MojDbStorageItem) × MojDbIsamReads
  | 0, r => (.ok none, r)
  | fuel + 1, r =>
    match r.getImpl src st with
    | (.error fault, r) =>
      if fault = .err .internalIndexOnFind ∧ st.verify = false then getLoop fuel r else (.error fault, r)
    | (.ok (none, true), r) => getLoop fuel r
    | (.ok (none, false), r) => (.ok none, r)
    | (.ok (some item, _), r) => (.ok (some item), r)

/-- Each round of the loop passes a key. -/
def get (r : MojDbIsamReads) : Except Fault (Option MojDbStorageItem) × MojDbIsamReads :=
  getLoop src st (src.keys.size + 1) r

/-- The loop of `count`. -/
def countLoop : Nat → MojDbIsamReads → Except Fault Nat × MojDbIsamReads
  | 0, r => (.ok r.query.count, r)
  | fuel + 1, r =>
    match r.getImpl src st with
    | (.error fault, r) => if fault = .err .internalIndexOnFind then countLoop fuel r else (.error fault, r)
    | (.ok (_, true), r) => countLoop fuel r
    | (.ok (_, false), r) => (.ok r.query.count, r)

def count (r : MojDbIsamReads) : Except Fault Nat × MojDbIsamReads :=
  countLoop { src with limit := countLimit } st (src.keys.size + 1) r

/-- Successive calls of `get`, and the items they return. As in `MojDbCursor::visit`, an index key without an object is
no reason to stop. -/
def getMany : Nat → MojDbIsamReads → Except Fault (List MojDbStorageItem) × MojDbIsamReads
  | 0, r => (.ok [], r)
  | calls + 1, r =>
    match r.get src st with
    | (.error fault, r) => if fault = .err .internalIndexOnFind then getMany calls r else (.error fault, r)
    | (.ok none, r) => getMany calls r
    | (.ok (some item), r) =>
      let (items, r) := getMany calls r
      (items.map (item :: ·), r)

end MojDbIsamReads

/-! ## One pass over the keys -/

namespace MojDbIsamQuery

/-- The items that calls return, with room for so many, for the keys to come. -/
def walk (st : MojDbIsamStore) : Nat → MojDbIsamSeen → List MojDbKey → Except Fault (List MojDbStorageItem)
  | _, _, [] => .ok []
  | 0, _, _ :: _ => .ok []
  | room + 1, seen, key :: keys =>
    match itemAt st seen key with
    | (.error fault, seen) => if fault = .err .internalIndexOnFind then walk st (room + 1) seen keys else .error fault
    | (.ok none, seen) => walk st (room + 1) seen keys
    | (.ok (some item), seen) => (walk st room seen keys).map (item :: ·)

theorem walk_zero (st : MojDbIsamStore) (seen : MojDbIsamSeen) (keys : List MojDbKey) : walk st 0 seen keys = .ok [] := by
  cases keys with
  | nil => rfl
  | cons key keys => rfl

end MojDbIsamQuery

namespace MojDbIsamReads

open MojDbIsamQuery (Ok rest open_ itemAt walk walk_zero getKey_spec incrementCount_eq)

variable {src : Source} {st : MojDbIsamStore}

/-- What the calls to come return under the limit. -/
def toCome (src : Source) (st : MojDbIsamStore) (limit : Nat) (r : MojDbIsamReads) :
    Except Fault (List MojDbStorageItem) :=
  walk st (limit - r.query.count) r.seen (rest src r.query)

/-- What a call of `getImpl` does: it is at the end, or it takes the next key. -/
inductive Steps (src : Source) (st : MojDbIsamStore) (r : MojDbIsamReads) :
    Except Fault (Option MojDbStorageItem × Bool) × MojDbIsamReads → Prop where
  | ended {q : MojDbIsamQuery} (ok : Ok src q) (count : q.count = r.query.count)
      (rest_eq : rest src q = rest src r.query) (ends : src.limit ≤ r.query.count ∨ rest src r.query = []) :
      Steps src st r (.ok (none, false), ⟨q, r.seen⟩)
  | failed {q : MojDbIsamQuery} {key : MojDbKey} {fault : Fault} {seen : MojDbIsamSeen}
      (ok : Ok src q) (count : q.count = r.query.count) (within : r.query.count < src.limit)
      (rest_eq : rest src r.query = key :: rest src q)
      (item : itemAt st r.seen key = (.error fault, seen)) :
      Steps src st r (.error fault, ⟨q, seen⟩)
  | passed {q : MojDbIsamQuery} {key : MojDbKey} {seen : MojDbIsamSeen}
      (ok : Ok src q) (count : q.count = r.query.count) (within : r.query.count < src.limit)
      (rest_eq : rest src r.query = key :: rest src q)
      (item : itemAt st r.seen key = (.ok none, seen)) :
      Steps src st r (.ok (none, true), ⟨q, seen⟩)
  | found {q : MojDbIsamQuery} {key : MojDbKey} {found : MojDbStorageItem} {seen : MojDbIsamSeen}
      (ok : Ok src q) (count : q.count = r.query.count + 1) (within : r.query.count < src.limit)
      (rest_eq : rest src r.query = key :: rest src q)
      (item : itemAt st r.seen key = (.ok (some found), seen)) :
      Steps src st r (.ok (some found, true), ⟨q, seen⟩)

theorem getImpl_spec {r : MojDbIsamReads} (h : Ok src r.query) : Steps src st r (r.getImpl src st) := by
  obtain ⟨hok, hcount, hstop, hgo⟩ := getKey_spec h
  rw [getImpl]
  cases hget : r.query.getKey src with
  | mk found q =>
    rw [hget] at hok hcount hstop hgo
    dsimp only at hok hcount hstop hgo
    by_cases hlimit : src.limit ≤ r.query.count
    · obtain ⟨rfl, hrest⟩ := hstop hlimit
      exact .ended hok hcount hrest (.inl hlimit)
    · have hwithin := Nat.lt_of_not_le hlimit
      obtain ⟨hkey, hrest⟩ := hgo hwithin
      cases found with
      | none =>
        have hnil : rest src r.query = [] := List.head?_eq_none_iff.mp hkey.symm
        refine .ended hok hcount ?_ (.inr hnil)
        rw [hrest, hnil, List.tail_nil]
      | some kg =>
        obtain ⟨key, group⟩ := kg
        have hcons : rest src r.query = key :: rest src q := by
          rw [hrest]
          exact (List.cons_head?_tail hkey.symm).symm
        dsimp only
        cases hitem : itemAt st r.seen key with
        | mk result seen =>
          cases result with
          | error fault => exact .failed hok hcount hwithin hcons hitem
          | ok item =>
            cases item with
            | none => exact .passed hok hcount hwithin hcons hitem
            | some item =>
              obtain ⟨endKey, hinc⟩ := incrementCount_eq src q
              refine .found ?_ ?_ hwithin ?_ hitem
              · rw [hinc]
                exact ⟨hok.ordered, hok.at_key, hok.in_range⟩
              · rw [hinc]
                exact congrArg (· + 1) hcount
              · rw [hinc, hcons]
                rfl

section Limit

variable {limit : Nat} (hlimit : src.limit ≤ limit)

include hlimit

/-- What is left after a key has been taken. -/
theorem toCome_cons {r : MojDbIsamReads} {key : MojDbKey} {keys : List MojDbKey} (within : r.query.count < src.limit)
    (rest_eq : rest src r.query = key :: keys) :
    toCome src st limit r =
      match itemAt st r.seen key with
      | (.error fault, seen) =>
        if fault = .err .internalIndexOnFind then walk st (limit - r.query.count) seen keys else .error fault
      | (.ok none, seen) => walk st (limit - r.query.count) seen keys
      | (.ok (some item), seen) => (walk st (limit - (r.query.count + 1)) seen keys).map (item :: ·) := by
  obtain ⟨room, hroom⟩ : ∃ room, limit - r.query.count = room + 1 := ⟨limit - r.query.count - 1, by omega⟩
  have hless : limit - (r.query.count + 1) = room := by omega
  rw [toCome, rest_eq, hroom, hless, walk]

theorem toCome_failed {r : MojDbIsamReads} {q : MojDbIsamQuery} {key : MojDbKey} {fault : Fault} {seen : MojDbIsamSeen}
    (count : q.count = r.query.count) (within : r.query.count < src.limit)
    (rest_eq : rest src r.query = key :: rest src q) (item : itemAt st r.seen key = (.error fault, seen)) :
    toCome src st limit r =
      if fault = .err .internalIndexOnFind then toCome src st limit ⟨q, seen⟩ else .error fault := by
  rw [toCome_cons hlimit within rest_eq, item, toCome, count]

theorem toCome_passed {r : MojDbIsamReads} {q : MojDbIsamQuery} {key : MojDbKey} {seen : MojDbIsamSeen}
    (count : q.count = r.query.count) (within : r.query.count < src.limit)
    (rest_eq : rest src r.query = key :: rest src q) (item : itemAt st r.seen key = (.ok none, seen)) :
    toCome src st limit r = toCome src st limit ⟨q, seen⟩ := by
  rw [toCome_cons hlimit within rest_eq, item, toCome, count]

theorem toCome_found {r : MojDbIsamReads} {q : MojDbIsamQuery} {key : MojDbKey} {found : MojDbStorageItem}
    {seen : MojDbIsamSeen} (count : q.count = r.query.count + 1) (within : r.query.count < src.limit)
    (rest_eq : rest src r.query = key :: rest src q) (item : itemAt st r.seen key = (.ok (some found), seen)) :
    toCome src st limit r = (toCome src st limit ⟨q, seen⟩).map (found :: ·) := by
  rw [toCome_cons hlimit within rest_eq, item, toCome, count]

end Limit

/-- What a call of `get` returns and leaves to come, under its own limit and under any wider one. -/
inductive Got (src : Source) (st : MojDbIsamStore) (r : MojDbIsamReads) :
    Except Fault (Option MojDbStorageItem) × MojDbIsamReads → Prop where
  | none {r' : MojDbIsamReads} (ok : Ok src r'.query) (count : r'.query.count = r.query.count)
      (ends : toCome src st src.limit r' = .ok [])
      (toCome_eq : ∀ limit, src.limit ≤ limit → toCome src st limit r = toCome src st limit r')
      (rest_le : (rest src r'.query).length ≤ (rest src r.query).length) :
      Got src st r (.ok none, r')
  | fault {r' : MojDbIsamReads} {fault : Fault} (ok : Ok src r'.query) (count : r'.query.count = r.query.count)
      (toCome_eq : ∀ limit, src.limit ≤ limit →
        toCome src st limit r = if fault = .err .internalIndexOnFind then toCome src st limit r' else .error fault)
      (rest_lt : (rest src r'.query).length < (rest src r.query).length) :
      Got src st r (.error fault, r')
  | item {r' : MojDbIsamReads} {item : MojDbStorageItem} (ok : Ok src r'.query)
      (count : r'.query.count = r.query.count + 1)
      (toCome_eq : ∀ limit, src.limit ≤ limit → toCome src st limit r = (toCome src st limit r').map (item :: ·))
      (rest_lt : (rest src r'.query).length < (rest src r.query).length) :
      Got src st r (.ok (some item), r')

/-- A key that is passed over changes nothing of what a call returns. -/
theorem Got.of_passed {r r₁ : MojDbIsamReads} {res : Except Fault (Option MojDbStorageItem) × MojDbIsamReads}
    (count : r₁.query.count = r.query.count)
    (toCome_eq : ∀ limit, src.limit ≤ limit → toCome src st limit r = toCome src st limit r₁)
    (rest_lt : (rest src r₁.query).length < (rest src r.query).length) (h : Got src st r₁ res) : Got src st r res := by
  cases h with
  | none ok count' ends toCome_eq' rest_le =>
    exact .none ok (count'.trans count) ends (fun limit hl => (toCome_eq limit hl).trans (toCome_eq' limit hl))
      (rest_le.trans rest_lt.le)
  | fault ok count' toCome_eq' rest_lt' =>
    exact .fault ok (count'.trans count) (fun limit hl => (toCome_eq limit hl).trans (toCome_eq' limit hl))
      (rest_lt'.trans rest_lt)
  | item ok count' toCome_eq' rest_lt' =>
    exact .item ok (count'.trans (congrArg (· + 1) count))
      (fun limit hl => (toCome_eq limit hl).trans (toCome_eq' limit hl)) (rest_lt'.trans rest_lt)

theorem getLoop_spec {fuel : Nat} {r : MojDbIsamReads} (h : Ok src r.query)
    (hfuel : (rest src r.query).length < fuel) : Got src st r (getLoop src st fuel r) := by
  induction fuel generalizing r with
  | zero => exact absurd hfuel (Nat.not_lt_zero _)
  | succ fuel ih =>
    have hshorter : ∀ {key : MojDbKey} {q : MojDbIsamQuery}, rest src r.query = key :: rest src q →
        (rest src q).length < (rest src r.query).length := by
      intro key q hrest
      rw [hrest, List.length_cons]
      exact Nat.lt_succ_self _
    rw [getLoop]
    have hstep := @getImpl_spec src st r h
    generalize hget : r.getImpl src st = got at hstep ⊢
    cases hstep with
    | ended ok count rest_eq ends =>
      refine .none ok count ?_ (fun limit _ => ?_) (le_of_eq (congrArg List.length rest_eq))
      · change walk st (src.limit - _) r.seen (rest src _) = .ok []
        rw [rest_eq, count]
        cases ends with
        | inl hle => rw [Nat.sub_eq_zero_of_le hle, walk_zero]
        | inr hnil => rw [hnil, walk]
      · rw [toCome, toCome, rest_eq, count]
    | failed ok count within rest_eq item =>
      dsimp only
      split_ifs with hsoft
      · refine .of_passed count (fun limit hl => ?_) (hshorter rest_eq) (ih ok ?_)
        · rw [toCome_failed hl count within rest_eq item, if_pos hsoft.1]
        · exact Nat.lt_of_lt_of_le (hshorter rest_eq) (Nat.le_of_lt_succ hfuel)
      · exact .fault ok count (fun limit hl => toCome_failed hl count within rest_eq item) (hshorter rest_eq)
    | passed ok count within rest_eq item =>
      refine .of_passed count (fun limit hl => ?_) (hshorter rest_eq) (ih ok ?_)
      · exact toCome_passed hl count within rest_eq item
      · exact Nat.lt_of_lt_of_le (hshorter rest_eq) (Nat.le_of_lt_succ hfuel)
    | found ok count within rest_eq item =>
      exact .item ok count (fun limit hl => toCome_found hl count within rest_eq item) (hshorter rest_eq)

theorem get_spec {r : MojDbIsamReads} (h : Ok src r.query) : Got src st r (r.get src st) :=
  getLoop_spec h (Nat.lt_succ_of_le (MojDbIsamQuery.length_rest_le src r.query))

/-! ## The loops -/

/-- **Successive calls of `get` are one pass over the keys**, the first part of that under any wider limit. -/
theorem getMany_spec {calls : Nat} {r : MojDbIsamReads} (h : Ok src r.query) :
    match getMany src st calls r with
    | (.error fault, _) => ∀ limit, src.limit ≤ limit → toCome src st limit r = .error fault
    | (.ok items, r') => Ok src r'.query ∧ r'.query.count = r.query.count + items.length ∧
        (∀ limit, src.limit ≤ limit → toCome src st limit r = (toCome src st limit r').map (items ++ ·)) ∧
        ((rest src r.query).length < calls → toCome src st src.limit r' = .ok []) := by
  induction calls generalizing r with
  | zero =>
    refine ⟨h, rfl, fun limit _ => ?_, nofun⟩
    cases toCome src st limit r with
    | error fault => rfl
    | ok items => rfl
  | succ calls ih =>
    rw [getMany]
    have hgot := @get_spec src st r h
    generalize hget : r.get src st = got at hgot ⊢
    cases hgot with
    | @none r' ok count ends toCome_eq rest_le =>
      dsimp only
      have hmany := ih ok
      generalize getMany src st calls r' = many at hmany ⊢
      obtain ⟨res, r''⟩ := many
      cases res with
      | error fault => exact fun limit hl => (toCome_eq limit hl).trans (hmany limit hl)
      | ok items =>
        obtain ⟨hok, hcount, heq, -⟩ := hmany
        refine ⟨hok, by rw [hcount, count], fun limit hl => (toCome_eq limit hl).trans (heq limit hl), fun _ => ?_⟩
        -- nothing was to come before the last calls either
        have hnil := heq src.limit le_rfl
        rw [ends] at hnil
        cases hcome : toCome src st src.limit r'' with
        | error fault =>
          rw [hcome] at hnil
          cases hnil
        | ok left =>
          rw [hcome] at hnil
          have happ : items ++ left = [] := (Except.ok.inj hnil).symm
          rw [(List.append_eq_nil_iff.mp happ).2]
    | @fault r' fault ok count toCome_eq rest_lt =>
      dsimp only
      split_ifs with hsoft
      · have hmany := ih ok
        generalize getMany src st calls r' = many at hmany ⊢
        obtain ⟨res, r''⟩ := many
        have hsame : ∀ limit, src.limit ≤ limit → toCome src st limit r = toCome src st limit r' := fun limit hl => by
          rw [toCome_eq limit hl, if_pos hsoft]
        cases res with
        | error fault => exact fun limit hl => (hsame limit hl).trans (hmany limit hl)
        | ok items =>
          obtain ⟨hok, hcount, heq, hend⟩ := hmany
          exact ⟨hok, by rw [hcount, count], fun limit hl => (hsame limit hl).trans (heq limit hl), fun hlen =>
            hend (by omega)⟩
      · intro limit hl
        rw [toCome_eq limit hl, if_neg hsoft]
    | @item r' item ok count toCome_eq rest_lt =>
      dsimp only
      have hmany := ih ok
      generalize getMany src st calls r' = many at hmany ⊢
      obtain ⟨res, r''⟩ := many
      cases res with
      | error fault =>
        intro limit hl
        rw [toCome_eq limit hl, hmany limit hl]
        rfl
      | ok items =>
        obtain ⟨hok, hcount, heq, hend⟩ := hmany
        refine ⟨hok, ?_, fun limit hl => ?_, fun hlen => hend (by omega)⟩
        · rw [hcount, count, List.length_cons]
          omega
        · rw [toCome_eq limit hl, heq limit hl]
          cases toCome src st limit r'' with
          | error fault => rfl
          | ok left => rfl

theorem ok_setLimit {q : MojDbIsamQuery} (h : Ok src q) (limit : Nat) : Ok { src with limit } q :=
  ⟨⟨h.ordered.bounded, h.ordered.pairwise⟩, h.at_key, h.in_range⟩

theorem countLoop_spec {fuel : Nat} {r : MojDbIsamReads} (h : Ok src r.query)
    (hfuel : (rest src r.query).length < fuel) :
    (countLoop src st fuel r).1 = (toCome src st src.limit r).map fun items => r.query.count + items.length := by
  induction fuel generalizing r with
  | zero => exact absurd hfuel (Nat.not_lt_zero _)
  | succ fuel ih =>
    have hfuel' : ∀ {key : MojDbKey} {q : MojDbIsamQuery}, rest src r.query = key :: rest src q →
        (rest src q).length < fuel := by
      intro key q hrest
      rw [hrest, List.length_cons] at hfuel
      exact Nat.lt_of_succ_lt_succ hfuel
    rw [countLoop]
    have hstep := @getImpl_spec src st r h
    generalize hget : r.getImpl src st = got at hstep ⊢
    cases hstep with
    | ended ok count rest_eq ends =>
      have hnil : toCome src st src.limit r = .ok [] := by
        rw [toCome]
        cases ends with
        | inl hle => rw [Nat.sub_eq_zero_of_le hle, walk_zero]
        | inr hnil => rw [hnil, walk]
      rw [hnil]
      exact congrArg Except.ok count
    | failed ok count within rest_eq item =>
      dsimp only
      rw [toCome_failed le_rfl count within rest_eq item]
      split_ifs with hsoft
      · rw [ih ok (hfuel' rest_eq), count]
      · rfl
    | passed ok count within rest_eq item =>
      dsimp only
      rw [ih ok (hfuel' rest_eq), toCome_passed le_rfl count within rest_eq item, count]
    | @found q key found seen ok count within rest_eq item =>
      dsimp only
      rw [ih ok (hfuel' rest_eq), toCome_found le_rfl count within rest_eq item, count]
      cases toCome src st src.limit ⟨q, seen⟩ with
      | error fault => rfl
      | ok items =>
        change Except.ok (r.query.count + 1 + items.length) = .ok (r.query.count + (items.length + 1))
        rw [Nat.add_assoc, Nat.add_comm 1]

/-- **`count` is the same pass**, without the limit of the query, on top of what was read before. -/
theorem count_spec {r : MojDbIsamReads} (h : Ok src r.query) :
    (r.count src st).1 = (toCome src st countLimit r).map fun items => r.query.count + items.length :=
  @countLoop_spec { src with limit := countLimit } st _ r (ok_setLimit h countLimit)
    (Nat.lt_succ_of_le (MojDbIsamQuery.length_rest_le src r.query))

end MojDbIsamReads

/-! ## The objects of the keys -/

namespace MojDbIsamQuery

section Objects

variable (st : MojDbIsamStore)

/-- What is compared for the object of an id: the distinct property, or else the id itself. There is nothing for an object
of an excluded kind. -/
def readId (id : MojObject) : Except MojErr (Option MojObject) := do
  let item ← getById st id
  match item with
  | none => return none
  | some item =>
    if st.distinct.chars = [] then return some id
    else do
      let obj ← item.toObject
      let val ← obj.getRequired st.distinct
      return some val

def reading (key : MojDbKey) : Except MojErr (Option (MojObject × MojObject)) := do
  let id ← parseId st.idIndex key
  let val ← readId st id
  return val.map (id, ·)

/-- The object of the key is there, and is of an excluded kind. -/
def Excluded (key : MojDbKey) : Prop := getVal st key = .ok none

/-- The ids of the objects with what is compared for them, each id once and the last one first. -/
def found (keys : List MojDbKey) : List (MojObject × MojObject) :=
  (keys.reverse.filterMap fun key => (reading st key).toOption.join).dedup

/-- How many objects there are among the keys, of neighbours with one value the first. -/
def objects (keys : List MojDbKey) : Nat := (((found st keys).map Prod.snd).destutter (· ≠ ·)).length

variable {st}

theorem found_concat (keys : List MojDbKey) (key : MojDbKey) :
    found st (keys ++ [key]) =
      match (reading st key).toOption.join with
      | none => found st keys
      | some p => if p ∈ found st keys then found st keys else p :: found st keys := by
  unfold found
  rw [List.reverse_append, List.reverse_singleton, List.singleton_append, List.filterMap_cons]
  cases (reading st key).toOption.join with
  | none => rfl
  | some p =>
    dsimp only
    simp only [List.mem_dedup]
    split_ifs with hp
    · exact List.dedup_cons_of_mem hp
    · exact List.dedup_cons_of_notMem hp

theorem readId_of_mem_found {keys : List MojDbKey} {p : MojObject × MojObject} (h : p ∈ found st keys) :
    readId st p.1 = .ok (some p.2) := by
  rw [found, List.mem_dedup, List.mem_filterMap] at h
  obtain ⟨key, -, hp⟩ := h
  unfold reading at hp
  cases hid : parseId st.idIndex key with
  | error e =>
    rw [hid] at hp
    cases hp
  | ok id =>
    rw [hid, ok_bind] at hp
    cases hval : readId st id with
    | error e =>
      rw [hval] at hp
      cases hp
    | ok val =>
      rw [hval, ok_bind] at hp
      cases val with
      | none => cases hp
      | some val =>
        cases hp
        exact hval

/-- A value before others is one more, unless it is that of its neighbour. -/
theorem length_destutter_cons (v : MojObject) (vs : List MojObject) :
    ((v :: vs).destutter (· ≠ ·)).length =
      if vs.head? = some v then (vs.destutter (· ≠ ·)).length else (vs.destutter (· ≠ ·)).length + 1 := by
  cases vs with
  | nil => rfl
  | cons w vs =>
    rw [List.destutter_cons_cons, List.head?_cons]
    by_cases heq : w = v
    · rw [if_neg (not_not.mpr heq.symm), if_pos (congrArg some heq), heq]
      rfl
    · rw [if_pos (Ne.symm heq), if_neg (fun hsome => heq (Option.some.inj hsome)), List.length_cons]
      rfl

/-- What the query keeps after the keys. -/
structure Inv (st : MojDbIsamStore) (keys : List MojDbKey) (seen : MojDbIsamSeen) : Prop where
  found_inserted : ∀ p ∈ found st keys, p.1 ∈ seen.insertedIds
  inserted_found : ∀ id ∈ seen.insertedIds,
    (∃ val, readId st id = .ok (some val) ∧ (id, val) ∈ found st keys) ∨ ∃ e, readId st id = .error e
  last : st.distinct.chars ≠ [] →
    seen.lastItem.map (·.getRequired st.distinct) = (found st keys).head?.map fun p => .ok p.2

theorem inv_nil : Inv st [] ⟨[], none⟩ where
  found_inserted := List.forall_mem_nil _
  inserted_found := List.forall_mem_nil _
  last _ := rfl

/-- An object that was not there before. -/
theorem Inv.insert {keys : List MojDbKey} {key : MojDbKey} {seen : MojDbIsamSeen} {id val : MojObject}
    {lastItem : Option MojObject} (h : Inv st keys seen) (hread : readId st id = .ok (some val))
    (hnew : found st (keys ++ [key]) = (id, val) :: found st keys)
    (hlast : st.distinct.chars ≠ [] → lastItem.map (·.getRequired st.distinct) = some (.ok val)) :
    Inv st (keys ++ [key]) ⟨id :: seen.insertedIds, lastItem⟩ where
  found_inserted := by
    rw [hnew]
    exact List.forall_mem_cons.mpr ⟨List.mem_cons_self, fun p hp => List.mem_cons_of_mem id (h.found_inserted p hp)⟩
  inserted_found := by
    rw [hnew]
    refine List.forall_mem_cons.mpr ⟨.inl ⟨val, hread, List.mem_cons_self⟩, fun i hi => ?_⟩
    cases h.inserted_found i hi with
    | inl hval =>
      obtain ⟨v, hv, hmem⟩ := hval
      exact .inl ⟨v, hv, List.mem_cons_of_mem (id, val) hmem⟩
    | inr herror => exact .inr herror
  last hdistinct := by
    rw [hnew]
    exact hlast hdistinct

/-- An object that was there, but could not be read. -/
theorem Inv.insert_unread {keys : List MojDbKey} {key : MojDbKey} {seen : MojDbIsamSeen} {id : MojObject} {e : MojErr}
    (h : Inv st keys seen) (hread : readId st id = .error e)
    (hsame : found st (keys ++ [key]) = found st keys) :
    Inv st (keys ++ [key]) { seen with insertedIds := id :: seen.insertedIds } where
  found_inserted p hp := List.mem_cons_of_mem id (h.found_inserted p (hsame ▸ hp))
  inserted_found := by
    rw [hsame]
    exact List.forall_mem_cons.mpr ⟨.inr ⟨e, hread⟩, h.inserted_found⟩
  last := hsame ▸ h.last

/-- A key that adds no object. -/
theorem Inv.concat_same {keys : List MojDbKey} {key : MojDbKey} {seen : MojDbIsamSeen} (h : Inv st keys seen)
    (hsame : found st (keys ++ [key]) = found st keys) : Inv st (keys ++ [key]) seen where
  found_inserted := hsame ▸ h.found_inserted
  inserted_found := hsame ▸ h.inserted_found
  last := hsame ▸ h.last

theorem objects_same {keys : List MojDbKey} {key : MojDbKey} (hsame : found st (keys ++ [key]) = found st keys) :
    objects st (keys ++ [key]) = objects st keys := by
  rw [objects, objects, hsame]

theorem getById_id {id : MojObject} {item : MojDbStorageItem} (h : getById st id = .ok (some item)) : item.id = id := by
  unfold getById at h
  obtain ⟨found, -, h⟩ := bind_eq_ok.mp h
  cases found with
  | none => cases h
  | some stored =>
    obtain ⟨exclude, -, h⟩ := bind_eq_ok.mp h
    cases exclude with
    | true => cases h
    | false =>
      cases h
      rfl

/-- What a key does to the query and to the objects so far. -/
inductive Takes (st : MojDbIsamStore) (keys : List MojDbKey) (key : MojDbKey) :
    Except Fault (Option MojDbStorageItem) × MojDbIsamSeen → Prop where
  | excluded {seen : MojDbIsamSeen} (excluded : Excluded st key) (inv : Inv st (keys ++ [key]) seen)
      (objects_eq : objects st (keys ++ [key]) = objects st keys) : Takes st keys key (.error .nullItem, seen)
  | failed {seen : MojDbIsamSeen} {e : MojErr} (notExcluded : ¬Excluded st key) (inv : Inv st (keys ++ [key]) seen)
      (objects_eq : objects st (keys ++ [key]) = objects st keys) : Takes st keys key (.error (.err e), seen)
  | passed {seen : MojDbIsamSeen} (notExcluded : ¬Excluded st key) (inv : Inv st (keys ++ [key]) seen)
      (objects_eq : objects st (keys ++ [key]) = objects st keys) : Takes st keys key (.ok none, seen)
  | item {seen : MojDbIsamSeen} {item : MojDbStorageItem} (notExcluded : ¬Excluded st key)
      (inv : Inv st (keys ++ [key]) seen) (objects_eq : objects st (keys ++ [key]) = objects st keys + 1) :
      Takes st keys key (.ok (some item), seen)

/-- A key whose object is read, by its id. -/
theorem reading_of_parseId {key : MojDbKey} {id : MojObject} (h : parseId st.idIndex key = .ok id) :
    reading st key = (readId st id).map fun val => val.map (id, ·) := by
  rw [reading, h, ok_bind]
  cases readId st id with
  | error e => rfl
  | ok val => rfl

theorem reading_of_error {key : MojDbKey} {e : MojErr} (h : getVal st key = .error e) : reading st key = .error e := by
  rw [getVal] at h
  rw [reading]
  cases hid : parseId st.idIndex key with
  | error e' =>
    rw [hid, error_bind] at h
    rw [error_bind]
    exact congrArg Except.error (Except.error.inj h)
  | ok id =>
    rw [hid, ok_bind] at h
    rw [ok_bind, readId, h]
    rfl

theorem not_excluded_of_nil (h : st.excludeKinds = []) (key : MojDbKey) : ¬Excluded st key := by
  intro hex
  obtain ⟨id, -, hget⟩ := bind_eq_ok.mp hex
  unfold getById at hget
  obtain ⟨found, -, hget⟩ := bind_eq_ok.mp hget
  cases found with
  | none => cases hget
  | some item =>
    dsimp only at hget
    rw [checkExclude, if_pos h, ok_bind] at hget
    cases hget

theorem reading_of_excluded {key : MojDbKey} (h : Excluded st key) : reading st key = .ok none := by
  obtain ⟨id, hid, hget⟩ := bind_eq_ok.mp h
  rw [reading, hid, ok_bind, readId, hget]
  rfl

/-- What is compared for an item, if there is a distinct property. -/
theorem readId_of_getById {id : MojObject} {item : MojDbStorageItem} (h : getById st id = .ok (some item)) :
    readId st id =
      if st.distinct.chars = [] then .ok (some id)
      else (item.toObject >>= (·.getRequired st.distinct)).map some := by
  rw [readId, h, ok_bind]
  dsimp only
  split_ifs with hplain
  · rfl
  · cases item.toObject with
    | error e => rfl
    | ok obj =>
      rw [ok_bind, ok_bind]
      cases obj.getRequired st.distinct with
      | error e => rfl
      | ok val => rfl

theorem found_of_error {keys : List MojDbKey} {key : MojDbKey} {e : MojErr} (h : reading st key = .error e) :
    found st (keys ++ [key]) = found st keys := by
  rw [found_concat, h]
  rfl

theorem found_of_ok {keys : List MojDbKey} {key : MojDbKey} {p : MojObject × MojObject}
    (h : reading st key = .ok (some p)) :
    found st (keys ++ [key]) = if p ∈ found st keys then found st keys else p :: found st keys := by
  rw [found_concat, h]
  rfl

/-- An object that has been seen. -/
theorem takes_inserted {keys : List MojDbKey} {key : MojDbKey} {seen : MojDbIsamSeen} {id : MojObject}
    (h : Inv st keys seen) (hnot : ¬Excluded st key) (hid : parseId st.idIndex key = .ok id)
    (hinserted : id ∈ seen.insertedIds) : Takes st keys key (.ok none, seen) := by
  have hreading := reading_of_parseId hid
  have hsame : found st (keys ++ [key]) = found st keys := by
    cases h.inserted_found id hinserted with
    | inl hval =>
      obtain ⟨val, hread, hmem⟩ := hval
      rw [hread] at hreading
      rw [found_of_ok hreading, if_pos hmem]
    | inr herror =>
      obtain ⟨e, hread⟩ := herror
      rw [hread] at hreading
      exact found_of_error hreading
  exact .passed hnot (h.concat_same hsame) (objects_same hsame)

/-- An object whose distinct property cannot be read. -/
theorem takes_unread {keys : List MojDbKey} {key : MojDbKey} {seen : MojDbIsamSeen} {id : MojObject} {e : MojErr}
    (h : Inv st keys seen) (hnot : ¬Excluded st key) (hid : parseId st.idIndex key = .ok id)
    (hread : readId st id = .error e) :
    Takes st keys key (.error (.err e), { seen with insertedIds := id :: seen.insertedIds }) := by
  have hreading := reading_of_parseId hid
  rw [hread] at hreading
  have hsame : found st (keys ++ [key]) = found st keys := found_of_error hreading
  exact .failed hnot (h.insert_unread hread hsame) (objects_same hsame)

section New

variable {keys : List MojDbKey} {key : MojDbKey} {seen : MojDbIsamSeen} {id val : MojObject}

theorem found_new (h : Inv st keys seen) (hid : parseId st.idIndex key = .ok id) (hnew : id ∉ seen.insertedIds)
    (hread : readId st id = .ok (some val)) : found st (keys ++ [key]) = (id, val) :: found st keys := by
  have hreading := reading_of_parseId hid
  rw [hread] at hreading
  rw [found_of_ok hreading, if_neg fun hmem => hnew (h.found_inserted (id, val) hmem)]

/-- A new object with another value than the one before. -/
theorem takes_item {lastItem : Option MojObject} {item : MojDbStorageItem} (h : Inv st keys seen)
    (hnot : ¬Excluded st key) (hid : parseId st.idIndex key = .ok id) (hnew : id ∉ seen.insertedIds)
    (hread : readId st id = .ok (some val)) (hother : (found st keys).head?.map Prod.snd ≠ some val)
    (hlast : st.distinct.chars ≠ [] → lastItem.map (·.getRequired st.distinct) = some (.ok val)) :
    Takes st keys key (.ok (some item), ⟨id :: seen.insertedIds, lastItem⟩) := by
  have hfound := found_new h hid hnew hread
  refine .item hnot (h.insert hread hfound hlast) ?_
  rw [objects, objects, hfound, List.map_cons, length_destutter_cons, List.head?_map, if_neg hother]

/-- A new object with the value of the one before. -/
theorem takes_repeated (h : Inv st keys seen)
    (hnot : ¬Excluded st key) (hid : parseId st.idIndex key = .ok id) (hnew : id ∉ seen.insertedIds)
    (hread : readId st id = .ok (some val)) (hsame : (found st keys).head?.map Prod.snd = some val)
    (hlast : st.distinct.chars ≠ [] → seen.lastItem.map (·.getRequired st.distinct) = some (.ok val)) :
    Takes st keys key (.ok none, { seen with insertedIds := id :: seen.insertedIds }) := by
  have hfound := found_new h hid hnew hread
  refine .passed hnot (h.insert hread hfound hlast) ?_
  rw [objects, objects, hfound, List.map_cons, length_destutter_cons, List.head?_map, if_pos hsame]

end New

theorem itemAt_spec {keys : List MojDbKey} {seen : MojDbIsamSeen} (h : Inv st keys seen) (key : MojDbKey) :
    Takes st keys key (itemAt st seen key) := by
  unfold itemAt
  cases hval : getVal st key with
  | error e =>
    have hnot : ¬Excluded st key := by
      intro hex
      rw [Excluded, hval] at hex
      cases hex
    have hsame : found st (keys ++ [key]) = found st keys := found_of_error (reading_of_error hval)
    exact .failed hnot (h.concat_same hsame) (objects_same hsame)
  | ok item =>
    cases item with
    | none =>
      have hsame : found st (keys ++ [key]) = found st keys := by
        rw [found_concat, reading_of_excluded hval]
        rfl
      exact .excluded hval (h.concat_same hsame) (objects_same hsame)
    | some item =>
      have hnot : ¬Excluded st key := by
        intro hex
        rw [Excluded, hval] at hex
        cases hex
      obtain ⟨id, hid, hget⟩ := bind_eq_ok.mp hval
      have hread := readId_of_getById hget
      dsimp only
      rw [getById_id hget]
      split_ifs with hinserted hplain
      · exact takes_inserted h hnot hid hinserted
      · -- the ids are compared, and this one is new
        rw [if_pos hplain] at hread
        refine takes_item h hnot hid hinserted hread ?_ (fun hne => absurd hplain hne)
        intro hhead
        obtain ⟨p, hp, hpid⟩ := Option.map_eq_some_iff.mp hhead
        have hmem : p ∈ found st keys := List.mem_of_head? hp
        have hp1 := readId_of_mem_found hmem
        obtain ⟨item', hget'⟩ : ∃ item', getById st p.1 = .ok (some item') := by
          rw [readId] at hp1
          obtain ⟨found, hfound, hrest⟩ := bind_eq_ok.mp hp1
          cases found with
          | none => cases hrest
          | some item' => exact ⟨item', hfound⟩
        rw [readId_of_getById hget', if_pos hplain] at hp1
        have heq : p.1 = id := (Option.some.inj (Except.ok.inj hp1)).trans hpid
        exact hinserted (heq ▸ h.found_inserted p hmem)
      · rw [if_neg hplain] at hread
        unfold distinct
        cases hobj : item.toObject with
        | error e =>
          rw [hobj] at hread
          exact takes_unread h hnot hid hread
        | ok obj =>
          rw [hobj, ok_bind] at hread
          rw [ok_bind]
          cases hdest : obj.getRequired st.distinct with
          | error e =>
            rw [hdest] at hread
            exact takes_unread h hnot hid hread
          | ok destObj =>
            rw [hdest] at hread
            rw [ok_bind]
            have hlast := h.last hplain
            have hobjlast : (some obj).map (·.getRequired st.distinct) = some (.ok destObj) := by
              rw [Option.map_some, hdest]
            cases hseen : seen.lastItem with
            | none =>
              rw [hseen] at hlast
              refine takes_item h hnot hid hinserted hread ?_ (fun _ => hobjlast)
              rw [Option.map_eq_none_iff.mp hlast.symm]
              nofun
            | some compObj =>
              rw [hseen] at hlast
              obtain ⟨p, hp, hcomp⟩ := Option.map_eq_some_iff.mp hlast.symm
              have hdistinct : compObj.getRequired st.distinct = .ok p.2 := hcomp.symm
              dsimp only
              rw [hdistinct, ok_bind]
              by_cases heq : p.2 = destObj
              · have hdec : decide (p.2 = destObj) = true := decide_eq_true heq
                have hhead : (found st keys).head?.map Prod.snd = some destObj := by
                  rw [hp, ← heq]
                  rfl
                have hkept : seen.lastItem.map (·.getRequired st.distinct) = some (.ok destObj) := by
                  rw [hseen, Option.map_some, hdistinct, heq]
                have htakes := takes_repeated h hnot hid hinserted hread hhead fun _ => hkept
                rw [hseen] at htakes
                rw [hdec]
                exact htakes
              · have hdec : decide (p.2 = destObj) = false := decide_eq_false heq
                rw [hdec]
                refine takes_item h hnot hid hinserted hread ?_ (fun _ => hobjlast)
                rw [hp]
                exact fun hsome => heq (Option.some.inj hsome)

theorem objects_concat_le (keys : List MojDbKey) (key : MojDbKey) : objects st keys ≤ objects st (keys ++ [key]) := by
  unfold objects
  rw [found_concat]
  cases (reading st key).toOption.join with
  | none => exact le_rfl
  | some p =>
    dsimp only
    split_ifs with hp
    · exact le_rfl
    · rw [List.map_cons, length_destutter_cons]
      split_ifs
      · exact le_rfl
      · exact Nat.le_succ _

theorem objects_append_le (keys pre : List MojDbKey) : objects st keys ≤ objects st (keys ++ pre) := by
  induction pre generalizing keys with
  | nil => rw [List.append_nil]
  | cons key pre ih =>
    have hrest := ih (keys ++ [key])
    rw [List.append_assoc, List.singleton_append] at hrest
    exact (objects_concat_le keys key).trans hrest

end Objects

end MojDbIsamQuery

namespace MojDbIsamReads

open MojDbIsamQuery (Ok rest open_ Inv inv_nil itemAt_spec objects objects_append_le Excluded not_excluded_of_nil planned)

/-! ## Counting -/

/-- The query after so many calls of `getImpl`, each under its limit, whatever they returned. -/
def after (src : Source) (st : MojDbIsamStore) : List Nat → MojDbIsamReads
  | [] => ofOpen src
  | limit :: limits => (getImpl { src with limit } st (after src st limits)).2

/-- Whatever was read before under whatever limit, `count` yields how many objects successive calls of `get` return on a
fresh query without a limit; and no call of `getImpl` uses an item that is not there. -/
structure Counts (src : Source) (st : MojDbIsamStore) : Prop where
  agrees : ∀ limit ≤ countLimit, ∀ (calls : Nat) (items : List MojDbStorageItem) (r : MojDbIsamReads),
    getMany { src with limit } st calls (ofOpen src) = (.ok items, r) →
      ∀ all > src.keys.size, (r.count src st).1 =
        (getMany { src with limit := countLimit } st all (ofOpen src)).1.map List.length
  safe : ∀ limits : List Nat, (∀ limit ∈ limits, limit ≤ countLimit) → ∀ limit ≤ countLimit,
    (getImpl { src with limit } st (after src st limits)).1 ≠ .error .nullItem

section Counting

variable {src : Source} {st : MojDbIsamStore}

theorem count_eq_length_getMany (h : Ok src (open_ src)) {limit : Nat} (hlimit : limit ≤ countLimit) {calls : Nat}
    {items : List MojDbStorageItem} {r : MojDbIsamReads}
    (hreads : getMany { src with limit } st calls (ofOpen src) = (.ok items, r)) {all : Nat}
    (hall : src.keys.size < all) :
    (r.count src st).1 = (getMany { src with limit := countLimit } st all (ofOpen src)).1.map List.length := by
  have hread := @getMany_spec { src with limit } st calls (ofOpen src) (ok_setLimit h limit)
  rw [hreads] at hread
  obtain ⟨hok, hcount, htoCome, -⟩ := hread
  have hleft : toCome src st countLimit (ofOpen src) = (toCome src st countLimit r).map (items ++ ·) :=
    htoCome countLimit hlimit
  have hcount : r.query.count = items.length := hcount.trans (Nat.zero_add _)
  rw [@count_spec src st r ⟨⟨hok.ordered.bounded, hok.ordered.pairwise⟩, hok.at_key, hok.in_range⟩, hcount]
  have hfresh := @getMany_spec { src with limit := countLimit } st all (ofOpen src) (ok_setLimit h countLimit)
  have hpass : (getMany { src with limit := countLimit } st all (ofOpen src)).1 = toCome src st countLimit (ofOpen src) := by
    generalize getMany { src with limit := countLimit } st all (ofOpen src) = many at hfresh ⊢
    obtain ⟨res, r'⟩ := many
    cases res with
    | error fault => exact (hfresh countLimit le_rfl).symm
    | ok items' =>
      obtain ⟨-, -, heq, hend⟩ := hfresh
      have hnil := hend ((MojDbIsamQuery.length_rest_le src (open_ src)).trans_lt hall)
      have hall' : toCome src st countLimit (ofOpen src) = (toCome src st countLimit r').map (items' ++ ·) :=
        heq countLimit le_rfl
      have hnil' : toCome src st countLimit r' = .ok [] := hnil
      rw [hall', hnil']
      exact congrArg Except.ok (List.append_nil items').symm
  rw [hpass, hleft]
  cases toCome src st countLimit r with
  | error fault => rfl
  | ok left => exact congrArg Except.ok List.length_append.symm

/-- The query has passed these of its keys. -/
structure Passed (src : Source) (st : MojDbIsamStore) (done : List MojDbKey) (r : MojDbIsamReads) : Prop where
  ok : Ok src r.query
  keys : rest src (open_ src) = done ++ rest src r.query
  inv : Inv st done r.seen
  count : r.query.count = objects st done

/-- A call of `getImpl` is at the end and passes no key, or passes the next one. -/
theorem getImpl_passed {r : MojDbIsamReads} {done : List MojDbKey} (h : Passed src st done r) (limit : Nat) :
    (((getImpl { src with limit } st r).1 = .ok (none, false) ∧ Passed src st done (getImpl { src with limit } st r).2) ∧
      (limit ≤ r.query.count ∨ rest src r.query = [])) ∨
    ∃ key keys, rest src r.query = key :: keys ∧ r.query.count < limit ∧
      Passed src st (done ++ [key]) (getImpl { src with limit } st r).2 ∧
      ((getImpl { src with limit } st r).1 = .error .nullItem ↔ Excluded st key) := by
  have hstep := @getImpl_spec { src with limit } st r (ok_setLimit h.ok limit)
  have hback : ∀ {q : MojDbIsamQuery}, Ok { src with limit } q → Ok src q := fun hok =>
    ⟨⟨hok.ordered.bounded, hok.ordered.pairwise⟩, hok.at_key, hok.in_range⟩
  have hkeys : ∀ {key : MojDbKey} {q : MojDbIsamQuery}, rest src r.query = key :: rest src q →
      rest src (open_ src) = done ++ [key] ++ rest src q := by
    intro key q hrest
    rw [h.keys, hrest, List.append_assoc, List.singleton_append]
  generalize getImpl { src with limit } st r = res at hstep ⊢
  cases hstep with
  | ended ok count rest_eq ends =>
    exact .inl ⟨⟨rfl, hback ok, h.keys.trans (congrArg (done ++ ·) rest_eq.symm), h.inv, count.trans h.count⟩, ends⟩
  | @failed q key fault seen ok count within rest_eq item =>
    have htakes := itemAt_spec h.inv key
    rw [item] at htakes
    refine .inr ⟨key, _, rest_eq, within, ?_⟩
    cases htakes with
    | excluded excluded inv objects_eq =>
      exact ⟨⟨hback ok, hkeys rest_eq, inv, by rw [count, h.count, objects_eq]⟩, iff_of_true rfl excluded⟩
    | failed notExcluded inv objects_eq =>
      exact ⟨⟨hback ok, hkeys rest_eq, inv, by rw [count, h.count, objects_eq]⟩, iff_of_false nofun notExcluded⟩
  | @passed q key seen ok count within rest_eq item =>
    have htakes := itemAt_spec h.inv key
    rw [item] at htakes
    refine .inr ⟨key, _, rest_eq, within, ?_⟩
    cases htakes with
    | passed notExcluded inv objects_eq =>
      exact ⟨⟨hback ok, hkeys rest_eq, inv, by rw [count, h.count, objects_eq]⟩, iff_of_false nofun notExcluded⟩
  | @found q key found seen ok count within rest_eq item =>
    have htakes := itemAt_spec h.inv key
    rw [item] at htakes
    refine .inr ⟨key, _, rest_eq, within, ?_⟩
    cases htakes with
    | item notExcluded inv objects_eq =>
      exact ⟨⟨hback ok, hkeys rest_eq, inv, by rw [count, h.count, objects_eq]⟩, iff_of_false nofun notExcluded⟩

theorem passed_open (h : Ok src (open_ src)) : Passed src st [] (ofOpen src) := ⟨h, rfl, inv_nil, rfl⟩

theorem exists_passed (h : Ok src (open_ src)) (limits : List Nat) : ∃ done, Passed src st done (after src st limits) := by
  induction limits with
  | nil => exact ⟨[], passed_open h⟩
  | cons limit limits ih =>
    obtain ⟨done, hpassed⟩ := ih
    cases getImpl_passed hpassed limit with
    | inl hend => exact ⟨done, hend.1.2⟩
    | inr hnext =>
      obtain ⟨key, -, -, -, hpassed', -⟩ := hnext
      exact ⟨done ++ [key], hpassed'⟩

/-- While there is room the keys are passed one with each call. -/
theorem passed_replicate (h : Ok src (open_ src)) {pre post : List MojDbKey} (hkeys : rest src (open_ src) = pre ++ post)
    (hroom : objects st pre < countLimit) :
    Passed src st pre (after src st (List.replicate pre.length countLimit)) := by
  induction pre using List.reverseRecOn generalizing post with
  | nil => exact passed_open h
  | append_singleton pre key ih =>
    have hpre : objects st pre < countLimit := (objects_append_le pre [key]).trans_lt hroom
    rw [List.append_assoc, List.singleton_append] at hkeys
    have hpassed := ih hkeys hpre
    have hrest : rest src (after src st (List.replicate pre.length countLimit)).query = key :: post :=
      List.append_cancel_left (hpassed.keys.symm.trans hkeys)
    rw [List.length_append, List.length_singleton, List.replicate_succ, after]
    cases getImpl_passed hpassed countLimit with
    | inl hend =>
      cases hend.2 with
      | inl hle => exact absurd (hpassed.count ▸ hle) (Nat.not_le_of_lt hpre)
      | inr hnil =>
        rw [hnil] at hrest
        cases hrest
    | inr hnext =>
      obtain ⟨k, keys, hcons, -, hpassed', -⟩ := hnext
      rw [hrest] at hcons
      rw [(List.cons.inj hcons).1]
      exact hpassed'

/-- No missing item is used exactly if no object of an excluded kind comes up. -/
theorem safe_iff (h : Ok src (open_ src)) :
    (∀ limits : List Nat, (∀ limit ∈ limits, limit ≤ countLimit) → ∀ limit ≤ countLimit,
      (getImpl { src with limit } st (after src st limits)).1 ≠ .error .nullItem) ↔
    ∀ pre key post, rest src (open_ src) = pre ++ key :: post → objects st pre < countLimit → ¬Excluded st key := by
  constructor
  · intro hsafe pre key post hkeys hroom hexcluded
    have hpassed := passed_replicate h hkeys hroom
    have hrest : rest src (after src st (List.replicate pre.length countLimit)).query = key :: post :=
      List.append_cancel_left (hpassed.keys.symm.trans hkeys)
    have hlimits : ∀ limit ∈ List.replicate pre.length countLimit, limit ≤ countLimit := fun limit hmem =>
      le_of_eq (List.eq_of_mem_replicate hmem)
    cases getImpl_passed hpassed countLimit with
    | inl hend =>
      cases hend.2 with
      | inl hle => exact absurd (hpassed.count ▸ hle) (Nat.not_le_of_lt hroom)
      | inr hnil =>
        rw [hnil] at hrest
        cases hrest
    | inr hnext =>
      obtain ⟨k, keys, hcons, -, -, hnull⟩ := hnext
      rw [hrest] at hcons
      rw [← (List.cons.inj hcons).1] at hnull
      exact hsafe _ hlimits countLimit le_rfl (hnull.mpr hexcluded)
  · intro hnone limits hlimits limit hlimit hnull
    obtain ⟨done, hpassed⟩ := exists_passed h limits
    cases getImpl_passed hpassed limit with
    | inl hend =>
      rw [hend.1.1] at hnull
      cases hnull
    | inr hnext =>
      obtain ⟨key, keys, hrest, hwithin, -, hiff⟩ := hnext
      have hkeys := hpassed.keys
      rw [hrest] at hkeys
      refine hnone done key keys hkeys ?_ (hiff.mp hnull)
      rw [← hpassed.count]
      exact hwithin.trans_le hlimit

end Counting

section Planned

open MojDbQueryPlan (effectiveQuery Covered)

variable (engine : MojDbIsamQuery.Engine) {index : MojDbIndex} {query effective : MojDbQuery} {ranges : List MojDbKeyRange}
  (keys : KeySet) (hkeys : ∀ key ∈ keys, key ≠ []) (checkShard : MojDbKey → Bool) (st : MojDbIsamStore)

/-- **`count` agrees with `get` and uses no missing item exactly if no key in the ranges has the object of an excluded
kind**, except behind more objects than can be counted. -/
theorem counts_iff (hanswer : index.canAnswer query = true) (heff : effectiveQuery index query = .ok effective)
    (hranges : MojDbQueryPlan.Checked.buildRanges index effective = .ok ranges) :
    Counts (planned engine effective ranges keys hkeys checkShard) st ↔
      ∀ pre key post,
        ((keys.inOrder (!effective.desc)).filter fun key =>
          Covered ranges key ∧ ¬(effective.ignoreInactiveShards = true ∧ checkShard key = true)) = pre ++ key :: post →
        objects st pre < countLimit → ¬Excluded st key := by
  obtain ⟨front, back, clauses, h⟩ := MojDbQueryPlan.answers_of_canAnswer hanswer heff
  obtain ⟨hbehind, hbounded⟩ := MojDbQueryPlan.buildRanges_behind h hranges
  obtain ⟨hok, hrest⟩ := MojDbIsamQuery.rest_open engine keys hkeys checkShard hbehind hbounded
  have hsafe := @safe_iff _ st hok
  rw [hrest] at hsafe
  rw [← hsafe]
  constructor
  · intro hcounts
    exact hcounts.safe
  · intro hsafe
    exact ⟨fun limit hlimit calls items r hreads all hall => count_eq_length_getMany hok hlimit hreads hall, hsafe⟩

end Planned

/-! ### An object of an excluded kind -/

open MojDbQueryPlan (fooIndex fooPrefixQuery)
open MojDbIsamQuery (keyAbc keyBa keys_ne_nil_abc_ba)

def SecretKind : MojString := ⟨[115, 101, 99, 58, 49], by decide⟩

/-- The object of `keyAbc`, of the secret kind. -/
def secretItem : MojDbStorageItem where
  id := .int 1
  kindId := .ok SecretKind
  toObject := .ok (.object [(MojDb.IdKey, .int 1), (MojDb.KindKey, .string SecretKind)])

/-- The store with that object, and the kinds that are excluded. -/
def secretStore (excludeKinds : List MojString) : MojDbIsamStore where
  idIndex := fooIndex.idIndex
  primary id := .ok (if id = .int 1 then some secretItem else none)
  excludeKinds
  distinct := MojString.empty
  verify := false

theorem counts_secret :
    ∃ ranges, MojDbQueryPlan.Checked.buildRanges fooIndex (fooPrefixQuery (.string ⟨[97, 98], by decide⟩) rfl) = .ok ranges ∧
      Counts (planned .sandwich (fooPrefixQuery (.string ⟨[97, 98], by decide⟩) rfl) ranges (.ofList [keyAbc, keyBa])
        keys_ne_nil_abc_ba fun _ => false) (secretStore []) := by
  have hranges : MojDbQueryPlan.Checked.buildRanges fooIndex (fooPrefixQuery (.string ⟨[97, 98], by decide⟩) rfl) =
      .ok [⟨[11, 1, 4, 97, 98, 0], [11, 1, 4, 97, 99], 0⟩] := by decide +kernel
  refine ⟨_, hranges, ?_⟩
  exact (counts_iff .sandwich (.ofList [keyAbc, keyBa]) keys_ne_nil_abc_ba (fun _ => false) (secretStore [])
    (by decide) rfl hranges).mpr fun pre key post _ _ => not_excluded_of_nil rfl key

/-- With the kind of its object excluded, the first key has no item, and its id is asked for. -/
theorem not_counts_secret :
    ∃ ranges, MojDbQueryPlan.Checked.buildRanges fooIndex (fooPrefixQuery (.string ⟨[97, 98], by decide⟩) rfl) = .ok ranges ∧
      ¬Counts (planned .sandwich (fooPrefixQuery (.string ⟨[97, 98], by decide⟩) rfl) ranges (.ofList [keyAbc, keyBa])
        keys_ne_nil_abc_ba fun _ => false) (secretStore [SecretKind]) := by
  refine ⟨[⟨[11, 1, 4, 97, 98, 0], [11, 1, 4, 97, 99], 0⟩], by decide +kernel, fun hcounts => ?_⟩
  refine hcounts.safe [] (List.forall_mem_nil _) countLimit le_rfl ?_
  decide +kernel

end MojDbIsamReads

end Db8
