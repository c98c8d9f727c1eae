import Db8.Core.MojObjectSerialization
import Db8.Db.MojDbIsamQueryPlan

/-!
# Db.MojDbIsamQueryItem

From a key of an index to the id in it, and to the object of that id.

* `parseId`          — reads the id out of the key; `parseId_keyOf`: it is the value of the id property.
* `getItem`          — `MojDbIsamQuery::get`: the next object, no id twice, keys without an object passed over.
* `getItem_spec`     — an object of a key to come, or the limit is reached, or no key to come has an object left.
-/

namespace Db8

open Lib

namespace MojDbIndex

/-- The place of the id in a key, behind the id of the index. -/
def idIndex (index : MojDbIndex) : Nat := (propNames index.props).idxOf MojDb.IdKey + 1

end MojDbIndex

namespace MojDbIsamQuery

/-! ## The id in a key -/

/-- The values before the id are read into a `MojObjectEater`. -/
def eatObjects : Nat → MojObjectReader → Except MojErr MojObjectReader
  | 0, reader => .ok reader
  | n + 1, reader => do
    let (_, reader) ← reader.nextObject
    eatObjects n reader

def parseId (idIndex : Nat) (keyData : MojDbKey) : Except MojErr MojObject := do
  let reader ← eatObjects idIndex (MojObjectReader.ofBytes keyData none)
  let (vs, _) ← reader.nextObject
  return MojObjectBuilder.build vs

theorem nextObject_toBytes (o : MojObject) (rest : List MojByte) :
    (MojObjectReader.ofBytes (o.toBytes ++ rest) none).nextObject = .ok (o.visit, MojObjectReader.ofBytes rest none) := by
  obtain ⟨bss, hbuf, hspells⟩ := o.serialize_spells none false
  rw [MojObject.serialize_none] at hbuf hspells
  rw [show o.toBytes = bss.flatten from hbuf]
  exact MojObjectReader.nextObject_spells hspells rest

theorem eatObjects_toBytes (os : List MojObject) (rest : List MojByte) :
    eatObjects os.length (MojObjectReader.ofBytes (os.flatMap MojObject.toBytes ++ rest) none) =
      .ok (MojObjectReader.ofBytes rest none) := by
  induction os with
  | nil => rfl
  | cons o os ih =>
    rw [List.length_cons, eatObjects, List.flatMap_cons, List.append_assoc, nextObject_toBytes, ok_bind]
    exact ih

/-- **The id is read out of a key** as it went into it. -/
theorem parseId_keyOf (index : MojDbIndex) {vals : List MojObject} {i : Nat} (hi : i < vals.length)
    (hdef : vals[i].isDefined = true) (hord : vals[i].isOrdered = true) :
    parseId (i + 1) (index.keyOf vals) = .ok vals[i] := by
  have hsplit : index.keyOf vals =
      (.int index.id :: vals.take i).flatMap MojObject.toBytes ++ (vals[i].toBytes ++ (vals.drop (i + 1)).flatMap
        MojObject.toBytes) := by
    rw [MojDbIndex.keyOf, List.flatMap_cons, List.append_assoc, MojDbIndex.idKey]
    congr 1
    rw [← List.flatMap_cons, ← List.flatMap_append, List.cons_getElem_drop_succ, List.take_append_drop,
      List.flatMap_def]
  have hlen : (MojObject.int index.id :: vals.take i).length = i + 1 := by
    rw [List.length_cons, List.length_take, Nat.min_eq_left hi.le]
  rw [parseId, hsplit, ← hlen, eatObjects_toBytes, ok_bind, nextObject_toBytes, ok_bind]
  change Except.ok (MojObjectBuilder.build vals[i].visit) = _
  rw [MojObjectBuilder.build_visit hord, MojObject.written_of_isDefined hdef]

end MojDbIsamQuery

open MojDbIsamQuery (Source)

/-! ## Objects -/

/-- The query, and the bytes of the ids it has returned. -/
structure MojDbIsamItems where
  query : MojDbIsamQuery
  insertedIds : List MojDbKey

namespace MojDbIsamItems

variable (src : Source) (getVal : MojDbKey → Option MojObject) (idIndex : Nat)

/-- The loop of `MojDbIsamQuery::get`. A key whose object is not there is a ghost: it is passed over, and so is that of an
object that has been returned; neither counts. -/
def getItemLoop : Nat → MojDbIsamItems → Except MojErr (Option (MojObject × MojObject) × MojDbIsamItems)
  | 0, it => .ok (none, it)
  | fuel + 1, it =>
    match it.query.getKey src with
    | (none, q) => .ok (none, { it with query := q })
    | (some (key, _), q) => do
      let id ← MojDbIsamQuery.parseId idIndex key
      match getVal id.toBytes with
      | none => getItemLoop fuel { it with query := q }
      | some obj =>
        if id.toBytes ∈ it.insertedIds then getItemLoop fuel { it with query := q }
        else .ok (some (id, obj), ⟨q.incrementCount src, id.toBytes :: it.insertedIds⟩)

/-- Each round of the loop passes a key. -/
def getItem (it : MojDbIsamItems) : Except MojErr (Option (MojObject × MojObject) × MojDbIsamItems) :=
  getItemLoop src getVal idIndex (src.keys.size + 1) it

end MojDbIsamItems

namespace MojDbIsamQuery

variable {src : Source}

theorem get_state (q : MojDbIsamQuery) (range : MojDbKeyRange) : (q.get src range).2.state = .next := by
  have hread : ∀ (q : MojDbIsamQuery) (pos : CursorPos MojDbKey), (q.readEntry pos).2.state = q.state := by
    intro q pos
    unfold readEntry
    split
    · rfl
    · rfl
  have hseek : ∀ (q : MojDbIsamQuery) (key : MojDbKey), (q.seekImpl src key).2.state = q.state := by
    intro q key
    unfold seekImpl next
    split_ifs with hnil hdesc
    · exact hread q _
    · dsimp only
      split
      · rw [hread, hread]
      · split
        · rw [hread]
        · rw [hread]
    · dsimp only
      split
      · rw [hread]
      · rw [hread]
  unfold get
  split_ifs with hstate
  · unfold seek
    dsimp only
    split_ifs with hkey
    · rfl
    · rw [hseek]
  · rw [next, hread]
    cases hcase : q.state with
    | seek => exact absurd hcase hstate
    | next => rfl

/-- With a key, the query stands on it. -/
theorem getKeyLoop_state {fuel : Nat} {q : MojDbIsamQuery} {kg : MojDbKey × Nat}
    (h : (getKeyLoop src fuel q).1 = some kg) : (getKeyLoop src fuel q).2.state = .next := by
  induction fuel generalizing q with
  | zero => cases h
  | succ fuel ih =>
    rw [getKeyLoop] at h ⊢
    cases hiter : q.iter with
    | nil =>
      rw [hiter] at h
      cases h
    | cons range rest =>
      have hstate := @get_state src q range
      rw [hiter] at h
      dsimp only at h ⊢
      split_ifs at h ⊢ with hlimit hfound hmatch hshard
      · exact ih h
      · exact hstate
      · exact ih h

end MojDbIsamQuery

namespace MojDbIsamItems

open MojDbIsamQuery (Ok rest parseId getKey_spec incrementCount_eq)

variable {src : Source} {getVal : MojDbKey → Option MojObject} {idIndex : Nat}

/-- The object of the key is not there, or has been returned. -/
def Passed (getVal : MojDbKey → Option MojObject) (idIndex : Nat) (insertedIds : List MojDbKey) (key : MojDbKey) : Prop :=
  ∃ id, parseId idIndex key = .ok id ∧ (getVal id.toBytes = none ∨ id.toBytes ∈ insertedIds)

/-- What a call returns, and what it leaves to come. -/
inductive Gets (src : Source) (getVal : MojDbKey → Option MojObject) (idIndex : Nat) (it : MojDbIsamItems) :
    Option (MojObject × MojObject) → MojDbIsamItems → Prop where
  | none {it' : MojDbIsamItems}
      (ends : src.limit ≤ it.query.count ∨ ∀ key ∈ rest src it.query, Passed getVal idIndex it.insertedIds key) :
      Gets src getVal idIndex it none it'
  | some {id obj : MojObject} {q : MojDbIsamQuery} (pre : List MojDbKey) (key : MojDbKey)
      (within : it.query.count < src.limit)
      (rest_eq : rest src it.query = pre ++ key :: rest src q)
      (passed : ∀ k ∈ pre, Passed getVal idIndex it.insertedIds k)
      (id_eq : parseId idIndex key = .ok id)
      (val_eq : getVal id.toBytes = some obj)
      (fresh : id.toBytes ∉ it.insertedIds)
      (ok : Ok src q) (state : q.state = .next) (count : q.count = it.query.count + 1) :
      Gets src getVal idIndex it (some (id, obj)) ⟨q, id.toBytes :: it.insertedIds⟩

theorem getItemLoop_spec {fuel : Nat} {it : MojDbIsamItems} (h : Ok src it.query)
    (hparse : ∀ key ∈ rest src it.query, ∃ id, parseId idIndex key = .ok id)
    (hfuel : (rest src it.query).length < fuel) :
    ∃ r it', getItemLoop src getVal idIndex fuel it = .ok (r, it') ∧ Gets src getVal idIndex it r it' := by
  induction fuel generalizing it with
  | zero => exact absurd hfuel (Nat.not_lt_zero _)
  | succ fuel ih =>
    obtain ⟨hok, hcount, hstop, hgo⟩ := getKey_spec h
    rw [getItemLoop]
    cases hget : it.query.getKey src with
    | mk found q =>
      rw [hget] at hok hcount hstop hgo
      dsimp only at hok hcount hstop hgo
      by_cases hlimit : src.limit ≤ it.query.count
      · obtain ⟨rfl, _⟩ := hstop hlimit
        exact ⟨none, _, rfl, .none (.inl hlimit)⟩
      · obtain ⟨hkey, hrest⟩ := hgo (Nat.lt_of_not_le hlimit)
        cases found with
        | none =>
          have hnil : rest src it.query = [] := List.head?_eq_none_iff.mp hkey.symm
          refine ⟨none, _, rfl, .none (.inr ?_)⟩
          rw [hnil]
          exact fun key hmem => absurd hmem List.not_mem_nil
        | some kg =>
          obtain ⟨key, group⟩ := kg
          have hcons : rest src it.query = key :: rest src q := by
            rw [hrest]
            exact (List.cons_head?_tail hkey.symm).symm
          have hstate : q.state = .next := by
            have hloop := @MojDbIsamQuery.getKeyLoop_state src (it.query.iter.length + src.keys.size + 1) it.query
              (key, group) (congrArg Prod.fst hget)
            have hq : (it.query.getKey src).2 = q := congrArg Prod.snd hget
            exact hq ▸ hloop
          obtain ⟨id, hid⟩ := hparse key (hcons ▸ List.mem_cons_self)
          -- a key that is passed over leaves the rest of the loop
          have hpass : Passed getVal idIndex it.insertedIds key →
              ∃ r it', getItemLoop src getVal idIndex fuel { it with query := q } = .ok (r, it') ∧
                Gets src getVal idIndex it r it' := by
            intro hpassed
            obtain ⟨r, it', hloop, hgets⟩ := @ih { it with query := q } hok
              (fun k hk => hparse k (hcons ▸ List.mem_cons_of_mem key hk)) (by
                rw [hcons, List.length_cons] at hfuel
                exact Nat.lt_of_succ_lt_succ hfuel)
            refine ⟨r, it', hloop, ?_⟩
            cases hgets with
            | none ends =>
              refine .none (ends.imp (fun h => hcount ▸ h) fun hall => ?_)
              rw [hcons]
              exact List.forall_mem_cons.mpr ⟨hpassed, hall⟩
            | some pre k within rest_eq passed id_eq val_eq fresh ok state count =>
              refine .some (key :: pre) k (hcount ▸ within) ?_ (List.forall_mem_cons.mpr ⟨hpassed, passed⟩) id_eq val_eq
                fresh ok state (hcount ▸ count)
              rw [hcons, List.cons_append]
              exact congrArg (key :: ·) rest_eq
          dsimp only
          rw [hid, ok_bind]
          cases hval : getVal id.toBytes with
          | none => exact hpass ⟨id, hid, .inl hval⟩
          | some obj =>
            dsimp only
            split_ifs with hinserted
            · exact hpass ⟨id, hid, .inr hinserted⟩
            · obtain ⟨endKey, hinc⟩ := incrementCount_eq src q
              refine ⟨_, _, rfl, ?_⟩
              refine .some [] key (Nat.lt_of_not_le hlimit) ?_ (by simp) hid hval hinserted ?_ ?_ ?_
              · rw [hinc, hcons]
                rfl
              · rw [hinc]
                exact ⟨hok.ordered, hok.at_key, hok.in_range⟩
              · rw [hinc]
                exact hstate
              · rw [hinc]
                exact congrArg (· + 1) hcount

theorem getItem_spec {it : MojDbIsamItems} (h : Ok src it.query)
    (hparse : ∀ key ∈ rest src it.query, ∃ id, parseId idIndex key = .ok id) :
    ∃ r it', it.getItem src getVal idIndex = .ok (r, it') ∧ Gets src getVal idIndex it r it' := by
  exact getItemLoop_spec h hparse (Nat.lt_succ_of_le (MojDbIsamQuery.length_rest_le src it.query))

end MojDbIsamItems

end Db8
