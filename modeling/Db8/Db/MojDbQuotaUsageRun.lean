import Db8.Db.MojDbQuotaUsage

/-!
# Db.MojDbQuotaUsageRun

Runs of puts, purges, additions and drops of indexes, and what the usage database says after them.

* `Counted`        — the usage of every kind is what it has in the main shard.
* `Safe`           — the steps that charge what they change to the right kind.
* `counted_of_run` — a run of safe steps.
-/

namespace Db8

open Lib MojDbQuotaEngine MojDbQuotaUsage
open MojDbIdGenerator (MainShardId extractShard extractShard_congr)
open MojDbIndex (shardOf)

namespace MojDbQuotaUsage

variable {engine : MojDbQuotaEngine} {kindMap : KindMap} {s s' : Store} {t t' : MojDbStorageTxn} {r r' r'' : Request}
  {k c : MojString} {i i' : KindIndex} {o : StoredObj} {newObj oldObj : Option StoredObj}

/-! ## What an index has of an object -/

/-- What an index of the kind `k` takes from an object in the main shard. -/
def keysOf (kindMap : KindMap) (k : MojString) (index : MojDbIndex) (obj : Option StoredObj) : KeySet :=
  match obj with
  | none => .empty
  | some o => if k ∈ kindsOf kindMap o.kindId then mainKeys index (some o.obj) else .empty

theorem shardOf_obj (o : StoredObj) : shardOf o.obj = .ok o.shardId := by
  rw [shardOf, o.get_id]
  exact o.shard_eq

theorem keysOf_of_mem (h : k ∈ kindsOf kindMap o.kindId) (index : MojDbIndex) :
    keysOf kindMap k index (some o) = mainKeys index (some o.obj) := if_pos h

theorem keysOf_of_not_mem (h : k ∉ kindsOf kindMap o.kindId) (index : MojDbIndex) :
    keysOf kindMap k index (some o) = .empty := if_neg h

theorem mainKeys_of_other (h : o.shardId ≠ MainShardId) (index : MojDbIndex) :
    mainKeys index (some o.obj) = .empty := by
  refine if_neg fun hand => h ?_
  have hshard := hand.2
  rw [shardOf_obj] at hshard
  exact Except.ok.inj hshard

theorem keysOf_of_other (h : o.shardId ≠ MainShardId) (k : MojString) (index : MojDbIndex) :
    keysOf kindMap k index (some o) = .empty := by
  by_cases hk : k ∈ kindsOf kindMap o.kindId
  · rw [keysOf_of_mem hk, mainKeys_of_other h]
  · exact keysOf_of_not_mem hk index

/-- One id, one shard. -/
theorem shardId_congr {o o' : StoredObj} (h : o.idKey = o'.idKey) : o.shardId = o'.shardId := by
  have hshard := extractShard_congr h
  rw [o.shard_eq, o'.shard_eq] at hshard
  exact Except.ok.inj hshard

theorem getKind_ok {kind : Kind} (h : getKind engine k = .ok kind) :
    kind.id = k ∧ kindsOf engine.kindMap k = order kind := by
  unfold getKind at h
  unfold kindsOf
  cases hlookup : lookup Kind.id k engine.kindMap.kinds with
  | none =>
    rw [hlookup] at h
    cases h
  | some found =>
    rw [hlookup] at h
    obtain rfl := Except.ok.inj h
    exact ⟨(mem_of_lookup hlookup).2, rfl⟩

/-! ## The update of the kind engine -/

/-- What an update leaves of an index of the kind `k`. -/
structure IndexKept (kindMap : KindMap) (k : MojString) (newObj oldObj : Option StoredObj) (i i' : KindIndex) : Prop where
  name : i'.name = i.name
  index : i'.index = i.index
  content : Swapped (keysOf kindMap k i.index newObj) (keysOf kindMap k i.index oldObj) (i.content MainShardId)
    (i'.content MainShardId)

/-- Without keys there is nothing to exchange. -/
theorem swapped_same (keys content : KeySet) : Swapped keys keys content content := by
  intro key
  tauto

structure UpdateOk (kindMap : KindMap) (c : MojString) (newObj oldObj : Option StoredObj) (r r' : Request) : Prop where
  objs : r'.store.objs = r.store.objs
  indexes : ∀ k, ∀ i' ∈ r'.store.indexes k, ∃ i ∈ r.store.indexes k, IndexKept kindMap k newObj oldObj i i'
  current : Current c r'.txn
  booked : Booked (fun k => indexBytes (r.store.indexes k)) (fun k => indexBytes (r'.store.indexes k)) r.txn r'.txn

theorem exists_of_forall₂ {α : Type} {R : α → α → Prop} {xs ys : List α} (h : List.Forall₂ R xs ys) {y : α}
    (hy : y ∈ ys) : ∃ x ∈ xs, R x y := by
  induction h with
  | nil => cases hy
  | cons hxy _ ih =>
    cases List.mem_cons.mp hy with
    | inl he => exact ⟨_, List.mem_cons_self, he ▸ hxy⟩
    | inr hmem =>
      obtain ⟨x, hx, hr⟩ := ih hmem
      exact ⟨x, List.mem_cons_of_mem _ hx, hr⟩

/-- The indexes of the kinds of the object fit. -/
def AllFit (kindMap : KindMap) (c : MojString) (newObj oldObj : Option StoredObj) (s : Store) : Prop :=
  ∀ k, ∀ i ∈ s.indexes k, Fits c k (keysOf kindMap k i.index newObj) (keysOf kindMap k i.index oldObj)
    (i.content MainShardId)

/-- The update of one kind, for versions of an object of that kind. -/
theorem updateKind_ok {kind : Kind} (hkind : kind.id = c) (horder : kindsOf engine.kindMap c = order kind)
    (hnew : ∀ new, newObj = some new → new.kindId = c) (hold : ∀ old, oldObj = some old → old.kindId = c)
    (hsame : ∀ new old, newObj = some new → oldObj = some old → new.shardId = old.shardId)
    (hfits : AllFit engine.kindMap c newObj oldObj r.store)
    (h : updateKind engine kind (newObj.map StoredObj.obj) (oldObj.map StoredObj.obj) r = .ok r') :
    UpdateOk engine.kindMap c newObj oldObj r r' := by
  subst hkind
  -- in the order of the kind both say the same
  have hkeys : ∀ (obj : Option StoredObj), (∀ o, obj = some o → o.kindId = kind.id) → ∀ (k : MojString) (index : MojDbIndex),
      keysOf engine.kindMap k index obj =
        if k ∈ order kind then mainKeys index (obj.map StoredObj.obj) else .empty := by
    intro obj hobj k index
    cases obj with
    | none => exact (ite_self _).symm
    | some o =>
      have ho := hobj o rfl
      rw [keysOf, ho, horder]
      rfl
  have hshard : ∀ new old, newObj.map StoredObj.obj = some new → oldObj.map StoredObj.obj = some old →
      shardOf new = shardOf old := by
    intro new old hn ho
    obtain ⟨n, hn', rfl⟩ := Option.map_eq_some_iff.mp hn
    obtain ⟨o, ho', rfl⟩ := Option.map_eq_some_iff.mp ho
    rw [shardOf_obj, shardOf_obj, hsame n o hn' ho']
  obtain ⟨hobjs, -, hupdated, hcur, hbooked⟩ := updateKind_spec hshard (fun k hk i hi => by
    have hfit := hfits k i hi
    rw [hkeys _ hnew, hkeys _ hold, if_pos hk, if_pos hk] at hfit
    exact hfit) h
  refine ⟨hobjs, fun k i' hi' => ?_, hcur, hbooked⟩
  by_cases hk : k ∈ order kind
  · obtain ⟨i, hi, hupdate⟩ := exists_of_forall₂ (hupdated.updated k hk) hi'
    refine ⟨i, hi, hupdate.name, hupdate.index, ?_⟩
    rw [hkeys _ hnew, hkeys _ hold, if_pos hk, if_pos hk]
    exact hupdate.content
  · rw [hupdated.others k hk] at hi'
    refine ⟨i', hi', rfl, rfl, ?_⟩
    rw [hkeys _ hnew, hkeys _ hold, if_neg hk, if_neg hk]
    exact swapped_same _ _

/-- Two updates that exchange nothing. -/
theorem UpdateOk.trans {c' : MojString} {new old : Option StoredObj} (h : UpdateOk kindMap c' none old r r')
    (h' : UpdateOk kindMap c new none r' r'') (hnew : ∀ k index, keysOf kindMap k index new = .empty)
    (hold : ∀ k index, keysOf kindMap k index old = .empty) : UpdateOk kindMap c new old r r'' := by
  refine ⟨h'.objs.trans h.objs, fun k i'' hi'' => ?_, h'.current, h.booked.trans h'.booked⟩
  obtain ⟨i', hi', hkept'⟩ := h'.indexes k i'' hi''
  obtain ⟨i, hi, hkept⟩ := h.indexes k i' hi'
  refine ⟨i, hi, hkept'.name.trans hkept.name, hkept'.index.trans hkept.index, fun key => ?_⟩
  have hfirst := hkept.content key
  have hsecond := hkept'.content key
  rw [hold] at hfirst
  rw [hnew] at hsecond
  rw [hnew, hold, hsecond]
  have := SortedSet.not_mem_empty key
  simp only [keysOf] at hfirst ⊢
  tauto

/-- An object is put. Its kind may change outside of the main shard. -/
theorem update_put_ok (hkind : ∀ old, oldObj = some old → old.kindId = o.kindId ∨ o.shardId ≠ MainShardId)
    (hsame : ∀ old, oldObj = some old → o.shardId = old.shardId)
    (hfits : AllFit engine.kindMap o.kindId (some o) oldObj r.store)
    (h : update engine (some o) oldObj r = .ok r') : UpdateOk engine.kindMap o.kindId (some o) oldObj r r' := by
  cases oldObj with
  | none =>
    obtain ⟨kind, hget, h⟩ := bind_eq_ok.mp h
    obtain ⟨hid, horder⟩ := getKind_ok hget
    exact updateKind_ok hid horder (fun new hn => Option.some.inj hn ▸ rfl) (fun old ho => by cases ho)
      (fun new old hn ho => by cases ho) hfits h
  | some old =>
    obtain ⟨oldKind, holdKind, h⟩ := bind_eq_ok.mp h
    obtain ⟨newKind, hnewKind, h⟩ := bind_eq_ok.mp h
    obtain ⟨hid, horder⟩ := getKind_ok hnewKind
    have hshard := hsame old rfl
    split_ifs at h with hne
    · have hother := (hkind old rfl).resolve_left hne
      obtain ⟨holdId, holdOrder⟩ := getKind_ok holdKind
      obtain ⟨r₁, h₁, h⟩ := bind_eq_ok.mp h
      have hnew : ∀ k index, keysOf engine.kindMap k index (some o) = .empty := keysOf_of_other hother
      have hold : ∀ k index, keysOf engine.kindMap k index (some old) = .empty := keysOf_of_other (hshard ▸ hother)
      have hfirst : UpdateOk engine.kindMap old.kindId none (some old) r r₁ :=
        updateKind_ok holdId holdOrder (fun new hn => by cases hn) (fun o ho => Option.some.inj ho ▸ rfl)
          (fun new o hn ho => by cases hn) (fun k i hi => .inr (hold k i.index).symm) h₁
      have hsecond : UpdateOk engine.kindMap o.kindId (some o) none r₁ r' :=
        updateKind_ok hid horder (fun new hn => Option.some.inj hn ▸ rfl) (fun o ho => by cases ho)
          (fun new o hn ho => by cases ho) (fun k i hi => .inr (hnew k i.index)) h
      exact hfirst.trans hsecond hnew hold
    · have hkinds : old.kindId = o.kindId := not_not.mp hne
      exact updateKind_ok hid horder (fun new hn => Option.some.inj hn ▸ rfl) (fun o ho => Option.some.inj ho ▸ hkinds)
        (fun new o hn ho => by
          obtain rfl := Option.some.inj hn
          obtain rfl := Option.some.inj ho
          exact hshard) hfits h

theorem update_purge_ok (hfits : AllFit engine.kindMap o.kindId none (some o) r.store)
    (h : update engine none (some o) r = .ok r') : UpdateOk engine.kindMap o.kindId none (some o) r r' := by
  obtain ⟨kind, hget, h⟩ := bind_eq_ok.mp h
  obtain ⟨hid, horder⟩ := getKind_ok hget
  exact updateKind_ok hid horder (fun new hn => by cases hn) (fun old ho => Option.some.inj ho ▸ rfl)
    (fun new old hn ho => by cases hn) hfits h

/-! ## The objects -/

def objBytesOf (k : MojString) (o : StoredObj) : Int :=
  if o.kindId = k ∧ o.shardId = MainShardId then (o.idKey.length + o.val.length : Int) else 0

theorem mem_delItem {objs : List StoredObj} {idKey : MojDbKey} : o ∈ delItem idKey objs ↔ o ∈ objs ∧ o.idKey ≠ idKey := by
  simp [delItem]

theorem objBytes_append (k : MojString) (objs : List StoredObj) (o : StoredObj) :
    objBytes k (objs ++ [o]) = objBytes k objs + objBytesOf k o := by
  rw [objBytes, List.map_append, List.sum_append, List.map_singleton, List.sum_singleton]
  rfl

theorem nodup_delItem {objs : List StoredObj} (h : (objs.map StoredObj.idKey).Nodup) (idKey : MojDbKey) :
    ((delItem idKey objs).map StoredObj.idKey).Nodup := h.sublist (List.filter_sublist.map _)

theorem nodup_delItem_append {objs : List StoredObj} (h : (objs.map StoredObj.idKey).Nodup) (o : StoredObj) :
    ((delItem o.idKey objs ++ [o]).map StoredObj.idKey).Nodup := by
  rw [List.map_append, List.nodup_append']
  refine ⟨nodup_delItem h o.idKey, List.nodup_singleton _, fun key hkey hkey' => ?_⟩
  obtain ⟨o', ho', rfl⟩ := List.mem_map.mp hkey
  exact (mem_delItem.mp ho').2 (List.mem_singleton.mp hkey')

theorem eq_of_idKey {objs : List StoredObj} (h : (objs.map StoredObj.idKey).Nodup) {o o' : StoredObj} (ho : o ∈ objs)
    (ho' : o' ∈ objs) (hid : o.idKey = o'.idKey) : o = o' := List.inj_on_of_nodup_map h ho ho' hid

/-- What is left without an object. -/
theorem objBytes_delItem {objs : List StoredObj} (hnodup : (objs.map StoredObj.idKey).Nodup) (k : MojString)
    (idKey : MojDbKey) :
    objBytes k (delItem idKey objs) + ((lookup StoredObj.idKey idKey objs).map (objBytesOf k)).getD 0 =
      objBytes k objs := by
  induction objs with
  | nil => rfl
  | cons o objs ih =>
    obtain ⟨ho, hnodup⟩ := List.nodup_cons.mp hnodup
    have hcons : ∀ (o : StoredObj) objs, objBytes k (o :: objs) = objBytesOf k o + objBytes k objs := fun _ _ => rfl
    by_cases hid : o.idKey = idKey
    · have hrest : delItem idKey objs = objs := by
        refine List.filter_eq_self.mpr fun o' ho' => decide_eq_true fun he => ho ?_
        rw [hid, ← he]
        exact List.mem_map_of_mem ho'
      have hdel : delItem idKey (o :: objs) = delItem idKey objs := List.filter_cons_of_neg (by simp [hid])
      rw [hdel, hrest, hcons]
      simp [lookup, hid]
      omega
    · have hdel : delItem idKey (o :: objs) = o :: delItem idKey objs := List.filter_cons_of_pos (by simp [hid])
      have hlookup : lookup StoredObj.idKey idKey (o :: objs) = lookup StoredObj.idKey idKey objs := by
        simp [lookup, hid]
      have hih := ih hnodup
      rw [hdel, hlookup, hcons, hcons]
      omega

/-! ## The invariant of an open request -/

structure Inv (engine : MojDbQuotaEngine) (s : Store) (t : MojDbStorageTxn) : Prop where
  usage : ∀ k, engine.usageDb k + charge k t = bytes s k
  ready : ∀ k, ∀ i ∈ s.indexes k, i.index.ready = true → ∀ key, key ∈ i.content MainShardId ↔
    ∃ o ∈ s.objs, key ∈ keysOf engine.kindMap k i.index (some o)
  -- an index that is not built
  fresh : ∀ k, ∀ i ∈ s.indexes k, i.index.ready = false → ∀ key, key ∉ i.content MainShardId
  apart : ∀ k, ∀ i ∈ s.indexes k, ∀ o ∈ s.objs, ∀ o' ∈ s.objs, o.idKey ≠ o'.idKey →
    ∀ key ∈ keysOf engine.kindMap k i.index (some o), key ∉ keysOf engine.kindMap k i.index (some o')
  nodup : (s.objs.map StoredObj.idKey).Nodup
  quotaPuts : t.quotaPuts = []
  offsets : (t.offsetMap.map Offset.kindId).Nodup

/-- The indexes of the kinds above, and those that are still to be built, get the same keys from both versions. -/
def SameElsewhere (kindMap : KindMap) (c : MojString) (newObj oldObj : Option StoredObj) (s : Store) : Prop :=
  ∀ k ∈ kindsOf kindMap c, ∀ i ∈ s.indexes k, k ≠ c ∨ i.index.ready = false →
    keysOf kindMap k i.index newObj = keysOf kindMap k i.index oldObj

/-- No other object gives an index a key of this one. -/
def KeysFree (kindMap : KindMap) (o : StoredObj) (s : Store) : Prop :=
  ∀ k ∈ kindsOf kindMap o.kindId, ∀ i ∈ s.indexes k, ∀ o' ∈ s.objs, o'.idKey ≠ o.idKey →
    ∀ key ∈ keysOf kindMap k i.index (some o), key ∉ keysOf kindMap k i.index (some o')

theorem KeysFree.all (h : KeysFree kindMap o s) (hi : i ∈ s.indexes k) {o' : StoredObj} (ho' : o' ∈ s.objs)
    (hid : o'.idKey ≠ o.idKey) {key : MojDbKey} (hkey : key ∈ keysOf kindMap k i.index (some o)) :
    key ∉ keysOf kindMap k i.index (some o') := by
  by_cases hk : k ∈ kindsOf kindMap o.kindId
  · exact h k hk i hi o' ho' hid key hkey
  · rw [keysOf_of_not_mem hk] at hkey
    exact absurd hkey (SortedSet.not_mem_empty key)

/-- The indexes of a kind that is above neither version, or of any kind when neither is in the main shard. -/
theorem SameElsewhere.fits (h : SameElsewhere engine.kindMap c newObj oldObj s) (hinv : Inv engine s t)
    (hout : ∀ k, k ∉ kindsOf engine.kindMap c → ∀ index,
      keysOf engine.kindMap k index newObj = keysOf engine.kindMap k index oldObj)
    (hold : ∀ old, oldObj = some old → old ∈ s.objs)
    (hnew : ∀ k, ∀ i ∈ s.indexes k, ∀ o' ∈ s.objs, ∀ key, key ∈ keysOf engine.kindMap k i.index newObj →
      key ∈ keysOf engine.kindMap k i.index (some o') → oldObj = some o') :
    AllFit engine.kindMap c newObj oldObj s := by
  intro k i hi
  by_cases hk : k ∈ kindsOf engine.kindMap c
  · by_cases helse : k ≠ c ∨ i.index.ready = false
    · exact .inr (h k hk i hi helse)
    · obtain ⟨hkc, hready⟩ := not_or.mp helse
      have hready : i.index.ready = true := Bool.eq_true_of_not_eq_false hready
      refine .inl ⟨not_not.mp hkc, fun key hkey => ?_, fun key hkey hmem => ?_⟩
      · cases hobj : oldObj with
        | none =>
          rw [hobj] at hkey
          exact absurd hkey (SortedSet.not_mem_empty key)
        | some old =>
          rw [hobj] at hkey
          exact (hinv.ready k i hi hready key).mpr ⟨old, hold old hobj, hkey⟩
      · obtain ⟨o', ho', hkey'⟩ := (hinv.ready k i hi hready key).mp hmem
        rw [hnew k i hi o' ho' key hkey hkey']
        exact hkey'
  · exact .inr (hout k hk i.index)

/-- Nothing goes in or out when both versions have the same keys. -/
theorem Swapped.eq {keys content content' : KeySet} (h : Swapped keys keys content content') (key : MojDbKey) :
    key ∈ content' ↔ key ∈ content := by
  rw [h key]
  tauto

/-- A version of an object is exchanged for another, with the keys that the indexes have of them. -/
theorem Inv.exchange {objs' : List StoredObj} {n : Int} (hinv : Inv engine r.store r.txn)
    (hok : UpdateOk engine.kindMap c newObj oldObj r r') (hold : ∀ old, oldObj = some old → old ∈ r.store.objs)
    (hobjs : ∀ o', o' ∈ objs' ↔ o' ∈ r.store.objs ∧ oldObj ≠ some o' ∨ newObj = some o')
    (hnodup : (objs'.map StoredObj.idKey).Nodup)
    (hfresh : ∀ k, ∀ i ∈ r.store.indexes k, i.index.ready = false →
      keysOf engine.kindMap k i.index newObj = keysOf engine.kindMap k i.index oldObj)
    (hfree : ∀ k, ∀ i ∈ r.store.indexes k, ∀ new, newObj = some new → ∀ o' ∈ r.store.objs, o'.idKey ≠ new.idKey →
      ∀ key ∈ keysOf engine.kindMap k i.index (some new), key ∉ keysOf engine.kindMap k i.index (some o'))
    (hcharged : Charged c n r'.txn t')
    (hbytes : ∀ k, objBytes k objs' = objBytes k r.store.objs + if k = c then n else 0) :
    Inv engine ⟨objs', r'.store.indexes⟩ t' := by
  have hempty : ∀ key, key ∉ (SortedSet.empty : KeySet) := SortedSet.not_mem_empty
  refine ⟨fun k => ?_, fun k i' hi' hready key => ?_, fun k i' hi' hready key => ?_, fun k i' hi' o₁ ho₁ o₂ ho₂ hid key hkey => ?_,
    hnodup, ?_, ?_⟩
  · have husage := hinv.usage k
    have hbalance := hok.booked.balance k
    have hcharge := hcharged.charge k
    have hobj := hbytes k
    simp only [bytes] at husage ⊢
    omega
  · obtain ⟨i, hi, hkept⟩ := hok.indexes k i' hi'
    rw [hkept.index] at hready ⊢
    rw [hkept.content key, hinv.ready k i hi hready key]
    constructor
    · intro h
      cases h with
      | inl h =>
        obtain ⟨⟨o', ho', hkey⟩, himp⟩ := h
        by_cases hout : oldObj = some o'
        · have hkeyNew := himp (hout ▸ hkey)
          cases hnew : newObj with
          | none =>
            rw [hnew] at hkeyNew
            exact absurd hkeyNew (hempty key)
          | some new => exact ⟨new, (hobjs new).mpr (.inr hnew), hnew ▸ hkeyNew⟩
        · exact ⟨o', (hobjs o').mpr (.inl ⟨ho', hout⟩), hkey⟩
      | inr h =>
        cases hnew : newObj with
        | none =>
          rw [hnew] at h
          exact absurd h.1 (hempty key)
        | some new => exact ⟨new, (hobjs new).mpr (.inr hnew), hnew ▸ h.1⟩
    · intro h
      obtain ⟨o', ho', hkey⟩ := h
      cases (hobjs o').mp ho' with
      | inl hkeep =>
        refine .inl ⟨⟨o', hkeep.1, hkey⟩, fun hkeyOld => ?_⟩
        cases hobj : oldObj with
        | none =>
          rw [hobj] at hkeyOld
          exact absurd hkeyOld (hempty key)
        | some old =>
          rw [hobj] at hkeyOld
          have hne : old.idKey ≠ o'.idKey := fun he =>
            hkeep.2 (hobj.trans (congrArg some (eq_of_idKey hinv.nodup (hold old hobj) hkeep.1 he)))
          exact absurd hkey (hinv.apart k i hi old (hold old hobj) o' hkeep.1 hne key hkeyOld)
      | inr hnew =>
        subst hnew
        by_cases hkeyOld : key ∈ keysOf engine.kindMap k i.index oldObj
        · refine .inl ⟨?_, fun _ => hkey⟩
          cases hobj : oldObj with
          | none =>
            rw [hobj] at hkeyOld
            exact absurd hkeyOld (hempty key)
          | some old => exact ⟨old, hold old hobj, hobj ▸ hkeyOld⟩
        · exact .inr ⟨hkey, hkeyOld⟩
  · obtain ⟨i, hi, hkept⟩ := hok.indexes k i' hi'
    rw [hkept.index] at hready
    have hcontent := hkept.content
    rw [hfresh k i hi hready] at hcontent
    exact fun h => hinv.fresh k i hi hready key ((hcontent.eq key).mp h)
  · obtain ⟨i, hi, hkept⟩ := hok.indexes k i' hi'
    rw [hkept.index] at hkey ⊢
    cases (hobjs o₁).mp ho₁ with
    | inl h₁ =>
      cases (hobjs o₂).mp ho₂ with
      | inl h₂ => exact hinv.apart k i hi o₁ h₁.1 o₂ h₂.1 hid key hkey
      | inr h₂ => exact fun hkey₂ => hfree k i hi o₂ h₂ o₁ h₁.1 hid key hkey₂ hkey
    | inr h₁ =>
      cases (hobjs o₂).mp ho₂ with
      | inl h₂ => exact hfree k i hi o₁ h₁ o₂ h₂.1 (Ne.symm hid) key hkey
      | inr h₂ => exact absurd (congrArg StoredObj.idKey (Option.some.inj (h₁.symm.trans h₂))) hid
  · rw [hcharged.follows.quotaPuts, hok.booked.follows.quotaPuts]
    exact hinv.quotaPuts
  · exact hcharged.follows.nodup (hok.booked.follows.nodup hinv.offsets)

/-! ## Puts and purges -/

/-- In the main shard an object keeps its kind. -/
structure SafePut (kindMap : KindMap) (o : StoredObj) (s : Store) : Prop where
  kind : ∀ old ∈ s.objs, old.idKey = o.idKey → old.kindId = o.kindId ∨ o.shardId ≠ MainShardId
  elsewhere : SameElsewhere kindMap o.kindId (some o) (lookup StoredObj.idKey o.idKey s.objs) s
  free : KeysFree kindMap o s

theorem putItem_charged {objs : List StoredObj} (hnodup : (objs.map StoredObj.idKey).Nodup)
    (hkind : ∀ old, lookup StoredObj.idKey o.idKey objs = some old → old.kindId = o.kindId ∨ o.shardId ≠ MainShardId)
    (hcur : Current o.kindId t) (h : putItem engine o (lookup StoredObj.idKey o.idKey objs) t = .ok t') :
    ∃ n, Charged o.kindId n t t' ∧
      ∀ k, objBytes k (delItem o.idKey objs ++ [o]) = objBytes k objs + if k = o.kindId then n else 0 := by
  have hbytes := fun k => objBytes_delItem hnodup k o.idKey
  cases hobj : lookup StoredObj.idKey o.idKey objs with
  | none =>
    rw [hobj] at h hbytes
    refine ⟨_, charged_offsetMain hcur h, fun k => ?_⟩
    have hdel := hbytes k
    rw [Option.map_none, Option.getD_none] at hdel
    rw [objBytes_append, objBytesOf]
    by_cases hk : k = o.kindId
    · subst hk
      simp only [true_and, if_true]
      split_ifs
      · omega
      · omega
    · simp only [hk, Ne.symm hk, false_and, if_false]
      omega
  | some old =>
    rw [hobj] at h hbytes
    obtain ⟨t₁, h₁, h₂⟩ := bind_eq_ok.mp h
    have hfirst := charged_offsetMain hcur h₁
    refine ⟨_, hfirst.trans (charged_offsetMain hfirst.current h₂), fun k => ?_⟩
    have hdel := hbytes k
    have hid := (mem_of_lookup hobj).2
    have hshard := shardId_congr hid
    rw [Option.map_some, Option.getD_some, objBytesOf, hid, hshard] at hdel
    rw [objBytes_append, objBytesOf]
    by_cases hmain : o.shardId = MainShardId
    · have hsame := (hkind old hobj).resolve_right (not_not.mpr hmain)
      rw [hsame] at hdel
      by_cases hk : k = o.kindId
      · subst hk
        simp only [hmain, and_true, if_true] at hdel ⊢
        omega
      · simp only [hk, Ne.symm hk, false_and, if_false] at hdel ⊢
        omega
    · simp only [hmain, and_false, if_false, add_zero, ite_self] at hdel ⊢
      exact hdel

theorem inv_putObj (hinv : Inv engine r.store r.txn) (hsafe : SafePut engine.kindMap o r.store)
    (h : putObj engine o r = .ok r') : Inv engine r'.store r'.txn := by
  obtain ⟨r₁, hupdate, h⟩ := bind_eq_ok.mp h
  obtain ⟨txn, htxn, h⟩ := bind_eq_ok.mp h
  obtain rfl := pure_eq_ok.mp h
  have hlookup : ∀ old, lookup StoredObj.idKey o.idKey r.store.objs = some old → old ∈ r.store.objs ∧ old.idKey = o.idKey :=
    fun old hold => mem_of_lookup hold
  have hkind : ∀ old, lookup StoredObj.idKey o.idKey r.store.objs = some old →
      old.kindId = o.kindId ∨ o.shardId ≠ MainShardId := fun old hold =>
    hsafe.kind old (hlookup old hold).1 (hlookup old hold).2
  have hout : ∀ k, k ∉ kindsOf engine.kindMap o.kindId → ∀ index,
      keysOf engine.kindMap k index (some o) =
        keysOf engine.kindMap k index (lookup StoredObj.idKey o.idKey r.store.objs) := by
    intro k hk index
    rw [keysOf_of_not_mem hk]
    cases hobj : lookup StoredObj.idKey o.idKey r.store.objs with
    | none => rfl
    | some old =>
      cases hkind old hobj with
      | inl hsame => exact (keysOf_of_not_mem (hsame ▸ hk) index).symm
      | inr hother => exact (keysOf_of_other (shardId_congr (hlookup old hobj).2 ▸ hother) k index).symm
  have hmem : ∀ o' ∈ r.store.objs, o'.idKey = o.idKey → lookup StoredObj.idKey o.idKey r.store.objs = some o' := by
    intro o' ho' hid
    cases hobj : lookup StoredObj.idKey o.idKey r.store.objs with
    | none => exact absurd hid (by simpa using List.find?_eq_none.mp hobj o' ho')
    | some old =>
      have hold := hlookup old hobj
      rw [eq_of_idKey hinv.nodup ho' hold.1 (hid.trans hold.2.symm)]
  have hfits := hsafe.elsewhere.fits hinv hout (fun old hold => (hlookup old hold).1) fun k i hi o' ho' key hkey hkey' => by
    by_cases hid : o'.idKey = o.idKey
    · exact hmem o' ho' hid
    · exact absurd hkey' (hsafe.free.all hi ho' hid hkey)
  have hok := update_put_ok hkind (fun old hold => (shardId_congr (hlookup old hold).2).symm) hfits hupdate
  have hobjs : ∀ o', o' ∈ delItem o.idKey r₁.store.objs ++ [o] ↔
      o' ∈ r.store.objs ∧ lookup StoredObj.idKey o.idKey r.store.objs ≠ some o' ∨ some o = some o' := by
    intro o'
    rw [hok.objs, List.mem_append, mem_delItem, List.mem_singleton, Option.some.injEq, eq_comm (a := o')]
    refine or_congr_left (and_congr_right fun ho' => not_congr ⟨hmem o' ho', fun he => (hlookup o' he).2⟩)
  have hfresh : ∀ k, ∀ i ∈ r.store.indexes k, i.index.ready = false → keysOf engine.kindMap k i.index (some o) =
      keysOf engine.kindMap k i.index (lookup StoredObj.idKey o.idKey r.store.objs) := by
    intro k i hi hready
    by_cases hk : k ∈ kindsOf engine.kindMap o.kindId
    · exact hsafe.elsewhere k hk i hi (.inr hready)
    · exact hout k hk i.index
  obtain ⟨n, hcharged, hbytes⟩ := putItem_charged hinv.nodup hkind hok.current htxn
  rw [hok.objs] at hobjs ⊢
  exact hinv.exchange hok (fun old hold => (hlookup old hold).1) hobjs (nodup_delItem_append hinv.nodup o) hfresh
    (fun k i hi new hnew o' ho' hid key hkey => by
      obtain rfl := Option.some.inj hnew
      exact hsafe.free.all hi ho' hid hkey) hcharged hbytes

/-- What is purged is in the main shard, and only the built indexes of its own kind have keys of it. -/
structure SafePurge (kindMap : KindMap) (o : StoredObj) (s : Store) : Prop where
  main : o.shardId = MainShardId
  elsewhere : SameElsewhere kindMap o.kindId none (some o) s

theorem inv_purgeObj {idKey : MojDbKey} (hinv : Inv engine r.store r.txn)
    (hsafe : ∀ o ∈ r.store.objs, o.idKey = idKey → SafePurge engine.kindMap o r.store)
    (h : purgeObj engine idKey r = .ok r') : Inv engine r'.store r'.txn := by
  unfold purgeObj at h
  cases hobj : lookup StoredObj.idKey idKey r.store.objs with
  | none =>
    rw [hobj] at h
    obtain rfl := Except.ok.inj h
    exact hinv
  | some item =>
    rw [hobj] at h
    obtain ⟨hitem, hid⟩ := mem_of_lookup hobj
    have hsafe := hsafe item hitem hid
    obtain ⟨r₁, hupdate, h⟩ := bind_eq_ok.mp h
    obtain ⟨t₁, h₁, h⟩ := bind_eq_ok.mp h
    obtain ⟨t₂, h₂, h⟩ := bind_eq_ok.mp h
    obtain rfl := pure_eq_ok.mp h
    have hout : ∀ k, k ∉ kindsOf engine.kindMap item.kindId → ∀ index,
        keysOf engine.kindMap k index none = keysOf engine.kindMap k index (some item) := fun k hk index =>
      (keysOf_of_not_mem hk index).symm
    have hmem : ∀ o' ∈ r.store.objs, o'.idKey = idKey ↔ some item = some o' := by
      intro o' ho'
      rw [Option.some.injEq]
      exact ⟨fun he => eq_of_idKey hinv.nodup hitem ho' (hid.trans he.symm), fun he => he ▸ hid⟩
    have hfits : AllFit engine.kindMap item.kindId none (some item) r.store :=
      hsafe.elsewhere.fits hinv hout (fun old hold => Option.some.inj hold ▸ hitem) fun k i hi o' ho' key hkey _ =>
        absurd hkey (SortedSet.not_mem_empty key)
    have hok : UpdateOk engine.kindMap item.kindId none (some item) { r with fixmode := true } r₁ :=
      update_purge_ok hfits hupdate
    have hfirst := charged_offsetMain hok.current h₁
    have hcharged := hfirst.trans (charged_offsetQuota hfirst.current h₂)
    rw [hok.objs]
    refine Inv.exchange (r := { r with fixmode := true }) hinv hok (fun old hold => Option.some.inj hold ▸ hitem) (fun o' => ?_)
      (nodup_delItem hinv.nodup idKey) (fun k i hi hready => ?_) (fun k i hi new hnew => ?_) hcharged fun k => ?_
    · rw [mem_delItem]
      simp only [reduceCtorEq, or_false]
      exact and_congr_right fun ho' => not_congr (hmem o' ho')
    · by_cases hk : k ∈ kindsOf engine.kindMap item.kindId
      · exact hsafe.elsewhere k hk i hi (.inr hready)
      · exact hout k hk i.index
    · cases hnew
    · have hdel := objBytes_delItem hinv.nodup k idKey
      rw [hobj, Option.map_some, Option.getD_some, objBytesOf, hid] at hdel
      by_cases hk : k = item.kindId
      · subst hk
        simp only [hsafe.main, and_self, if_true] at hdel ⊢
        omega
      · simp only [hk, Ne.symm hk, false_and, if_false] at hdel ⊢
        omega

/-! ## Indexes that are added or dropped -/

/-- `ready` is not what the keys depend on. -/
theorem keysOf_ready (kindMap : KindMap) (k : MojString) (index : MojDbIndex) (ready : Bool) (obj : Option StoredObj) :
    keysOf kindMap k { index with ready } obj = keysOf kindMap k index obj := rfl

/-- An id index is not built: there is nothing yet that it would have. No two objects give the index one key. -/
structure SafeAdd (kindMap : KindMap) (k : MojString) (index : MojDbIndex) (s : Store) : Prop where
  idIndex : index.isIdIndex = true → ∀ o ∈ s.objs, (keysOf kindMap k index (some o)).isEmpty = true
  apart : ∀ o ∈ s.objs, ∀ o' ∈ s.objs, o.idKey ≠ o'.idKey →
    ∀ key ∈ keysOf kindMap k index (some o), key ∉ keysOf kindMap k index (some o')

theorem Inv.of_indexes {indexes : MojString → List KindIndex} (hinv : Inv engine s t)
    (hindexes : ∀ k, ∀ i ∈ indexes k, i ∈ s.indexes k ∨
      (i.index.ready = true → ∀ key, key ∈ i.content MainShardId ↔
        ∃ o ∈ s.objs, key ∈ keysOf engine.kindMap k i.index (some o)) ∧
      (i.index.ready = false → ∀ key, key ∉ i.content MainShardId) ∧
      ∀ o ∈ s.objs, ∀ o' ∈ s.objs, o.idKey ≠ o'.idKey →
        ∀ key ∈ keysOf engine.kindMap k i.index (some o), key ∉ keysOf engine.kindMap k i.index (some o'))
    (hbooked : Booked (fun k => indexBytes (s.indexes k)) (fun k => indexBytes (indexes k)) t t') :
    Inv engine ⟨s.objs, indexes⟩ t' := by
  refine ⟨fun k => ?_, fun k i hi hready => ?_, fun k i hi hready => ?_, fun k i hi => ?_, hinv.nodup, ?_,
    hbooked.follows.nodup hinv.offsets⟩
  · have husage := hinv.usage k
    have hbalance := hbooked.balance k
    simp only [bytes] at husage ⊢
    omega
  · exact (hindexes k i hi).elim (fun hold => hinv.ready k i hold hready) fun hnew => hnew.1 hready
  · exact (hindexes k i hi).elim (fun hold => hinv.fresh k i hold hready) fun hnew => hnew.2.1 hready
  · exact (hindexes k i hi).elim (fun hold => hinv.apart k i hold) fun hnew => hnew.2.2
  · rw [hbooked.follows.quotaPuts]
    exact hinv.quotaPuts

theorem indexBytes_append (is is' : List KindIndex) : indexBytes (is ++ is') = indexBytes is + indexBytes is' := by
  rw [indexBytes, List.map_append, List.sum_append]
  rfl

theorem inv_addIndex {name : MojString} {index : MojDbIndex} {place : Nat} (hinv : Inv engine r.store r.txn)
    (hsafe : SafeAdd engine.kindMap k index r.store) (h : addIndex engine k name index place r = .ok r') :
    Inv engine r'.store r'.txn := by
  obtain ⟨kind, hget, h⟩ := bind_eq_ok.mp h
  obtain ⟨hid, -⟩ := getKind_ok hget
  split_ifs at h with hname
  obtain rfl := pure_eq_ok.mp h
  have hcur := charged_curKind engine kind r.txn
  refine hinv.of_indexes (fun j i hi => ?_) ⟨fun j => ?_, (hcur k).2.2⟩
  · by_cases hj : j = k
    · subst hj
      rw [Function.update_self] at hi
      rcases List.mem_append.mp hi with hold | hnew
      · exact .inl (List.mem_of_mem_take hold)
      rcases List.mem_cons.mp hnew with rfl | hold
      · refine .inr ⟨fun hready key => iff_of_false (SortedSet.not_mem_empty key) fun hex => ?_,
          fun _ => SortedSet.not_mem_empty, hsafe.apart⟩
        obtain ⟨o, ho, hkey⟩ := hex
        have hnone := hsafe.idIndex hready o ho
        rw [SortedSet.isEmpty, List.isEmpty_iff] at hnone
        rw [SortedSet.mem_def, keysOf_ready, hnone] at hkey
        cases hkey
      · exact .inl (List.mem_of_mem_drop hold)
    · rw [Function.update_of_ne hj] at hi
      exact .inl hi
  · rw [(hcur j).2.1]
    by_cases hj : j = k
    · subst hj
      have hsplit := indexBytes_append ((r.store.indexes j).take place) ((r.store.indexes j).drop place)
      have hcons : ∀ (i : KindIndex) is, indexBytes (i :: is) = keyBytes (i.content MainShardId) + indexBytes is :=
        fun _ _ => rfl
      rw [List.take_append_drop] at hsplit
      rw [Function.update_self, indexBytes_append, hcons, keyBytes_empty, hsplit]
      omega
    · rw [Function.update_of_ne hj]

theorem delPrefix_charged {content : KeySet} (hcur : Current c t) (h : delPrefix engine content t = .ok t') :
    Charged c (-keyBytes content) t t' := by
  have hlist : ∀ (keys : List MojDbKey) (t : MojDbStorageTxn), Current c t →
      keys.foldlM (fun txn key => engine.offsetQuota (-key.length) txn) t = .ok t' →
      Charged c (-(keys.map fun key => (key.length : Int)).sum) t t' := by
    intro keys
    induction keys with
    | nil =>
      intro t hcur h
      obtain rfl := pure_eq_ok.mp h
      exact .refl hcur
    | cons key keys ih =>
      intro t hcur h
      rw [List.foldlM_cons] at h
      obtain ⟨t₁, h₁, h⟩ := bind_eq_ok.mp h
      have hkey := charged_offsetQuota hcur h₁
      have hall := hkey.trans (ih t₁ hkey.current h)
      rw [List.map_cons, List.sum_cons, neg_add]
      exact hall
  exact hlist content.elems t hcur h

theorem delPrefixes_charged {is : List KindIndex} (hcur : Current c t)
    (h : is.foldlM (fun txn i => delPrefix engine (i.content MainShardId) txn) t = .ok t') :
    Charged c (-indexBytes is) t t' := by
  induction is generalizing t with
  | nil =>
    obtain rfl := pure_eq_ok.mp h
    exact .refl hcur
  | cons i is ih =>
    rw [List.foldlM_cons] at h
    obtain ⟨t₁, h₁, h⟩ := bind_eq_ok.mp h
    have hfirst := delPrefix_charged hcur h₁
    have hall := hfirst.trans (ih hfirst.current h)
    rw [← neg_add] at hall
    exact hall

theorem indexBytes_filter (is : List KindIndex) (name : MojString) :
    indexBytes (is.filter fun i => i.name ≠ name) + indexBytes (is.filter fun i => i.name = name) = indexBytes is := by
  induction is with
  | nil => rfl
  | cons i is ih =>
    have hcons : ∀ (i : KindIndex) is, indexBytes (i :: is) = keyBytes (i.content MainShardId) + indexBytes is :=
      fun _ _ => rfl
    by_cases hname : i.name = name
    · rw [List.filter_cons_of_neg (by simp [hname]), List.filter_cons_of_pos (by simp [hname]), hcons, hcons]
      omega
    · rw [List.filter_cons_of_pos (by simp [hname]), List.filter_cons_of_neg (by simp [hname]), hcons, hcons]
      omega

theorem inv_dropIndex {name : MojString} (hinv : Inv engine r.store r.txn)
    (h : dropIndex engine k name r = .ok r') : Inv engine r'.store r'.txn := by
  obtain ⟨kind, hget, h⟩ := bind_eq_ok.mp h
  obtain ⟨hid, -⟩ := getKind_ok hget
  have hcur := charged_curKind engine kind r.txn
  split_ifs at h
  · obtain rfl := pure_eq_ok.mp h
    exact hinv.of_indexes (fun j i hi => .inl hi) ⟨fun j => by rw [(hcur j).2.1], (hcur k).2.2⟩
  obtain ⟨txn, htxn, h⟩ := bind_eq_ok.mp h
  obtain rfl := pure_eq_ok.mp h
  have hcharged := delPrefixes_charged (hcur k).1 htxn
  refine hinv.of_indexes (fun j i hi => .inl ?_) ⟨fun j => ?_, hcharged.follows.trans (hcur k).2.2⟩
  · by_cases hj : j = k
    · subst hj
      rw [Function.update_self] at hi
      exact (List.mem_filter.mp hi).1
    · rwa [Function.update_of_ne hj] at hi
  · have hcharge := hcharged.charge j
    rw [(hcur j).2.1, hid] at hcharge
    dsimp only
    by_cases hj : j = k
    · subst hj
      have hfilter := indexBytes_filter (r.store.indexes j) name
      rw [if_pos rfl] at hcharge
      rw [Function.update_self]
      omega
    · rw [if_neg hj] at hcharge
      rw [Function.update_of_ne hj]
      omega

/-! ## The build of a new index -/

/-- Objects are added to an index one by one, none of which has a key that is there already. -/
theorem build_fold {index : MojDbIndex} {objs : List StoredObj} {s s' : IndexStore × MojDbStorageTxn}
    (hcur : Current c s.2)
    (hapart : objs.Pairwise fun o o' => ∀ key ∈ mainKeys index (some o.obj), key ∉ mainKeys index (some o'.obj))
    (hnew : ∀ o ∈ objs, ∀ key ∈ mainKeys index (some o.obj), key ∉ s.1 MainShardId)
    (h : objs.foldlM (fun s o => updateIndex engine index (some o.obj) none false s) s = .ok s') :
    (∀ key, key ∈ s'.1 MainShardId ↔ key ∈ s.1 MainShardId ∨ ∃ o ∈ objs, key ∈ mainKeys index (some o.obj)) ∧
      Charged c (keyBytes (s'.1 MainShardId) - keyBytes (s.1 MainShardId)) s.2 s'.2 := by
  induction objs generalizing s with
  | nil =>
    obtain rfl := pure_eq_ok.mp h
    refine ⟨fun key => ?_, ?_⟩
    · simp
    · rw [sub_self]
      exact .refl hcur
  | cons o objs ih =>
    obtain ⟨hfirst, hapart⟩ := List.pairwise_cons.mp hapart
    rw [List.foldlM_cons] at h
    obtain ⟨s₁, h₁, h⟩ := bind_eq_ok.mp h
    have hexchanged := updateIndex_exchanged hcur (fun new old _ hold => by cases hold) h₁
    have hmem : ∀ key, key ∈ s₁.1 MainShardId ↔ key ∈ s.1 MainShardId ∨ key ∈ mainKeys index (some o.obj) := by
      intro key
      have hempty : key ∉ mainKeys index none := SortedSet.not_mem_empty key
      rw [hexchanged.content key]
      tauto
    have hfits : Fits c c (mainKeys index (some o.obj)) (mainKeys index none) (s.1 MainShardId) :=
      .inl ⟨rfl, fun key hkey => absurd hkey (SortedSet.not_mem_empty key), fun key hkey hin =>
        absurd hin (hnew o List.mem_cons_self key hkey)⟩
    have hbytes := (keyBytes_of_swapped hexchanged.content hfits).1
    obtain ⟨hcontent, hcharged⟩ := ih hexchanged.charged.current hapart (fun o' ho' key hkey hin => by
      cases (hmem key).mp hin with
      | inl hold => exact hnew o' (List.mem_cons_of_mem _ ho') key hkey hold
      | inr hkey' => exact hfirst o' ho' key hkey' hkey) h
    refine ⟨fun key => ?_, ?_⟩
    · rw [hcontent key, hmem key, or_assoc, List.exists_mem_cons_iff]
    · have hall := hexchanged.charged.trans hcharged
      rw [hbytes] at hall
      have hsum : keyBytes (mainKeys index (some o.obj)) - keyBytes (mainKeys index none) +
          (keyBytes (s'.1 MainShardId) - (keyBytes (s.1 MainShardId) +
            (keyBytes (mainKeys index (some o.obj)) - keyBytes (mainKeys index none)))) =
          keyBytes (s'.1 MainShardId) - keyBytes (s.1 MainShardId) := by
        omega
      rw [hsum] at hall
      exact hall

/-- Of the objects in the main shard that a new index takes keys from, the search finds those of the kind. -/
def SafeBuild (kindMap : KindMap) (shards : Shards) (s : Store) (kind : Kind) (index : MojDbIndex) : Prop :=
  ∀ objs ∈ (found shards s kind index).toOption, ∀ o ∈ s.objs, (mainKeys index (some o.obj)).isEmpty = false →
    (o ∈ objs ↔ kind.id ∈ kindsOf kindMap o.kindId)

theorem found_sublist {shards : Shards} {kind : Kind} {index : MojDbIndex} {objs : List StoredObj}
    (h : found shards s kind index = .ok objs) : objs.Sublist s.objs := by
  obtain ⟨query, -, h⟩ := bind_eq_ok.mp h
  obtain ⟨ids, -, h⟩ := bind_eq_ok.mp h
  obtain rfl := pure_eq_ok.mp h
  exact List.filter_sublist

/-- A new index is built from the objects of the kind; one that is ready stays as it is. -/
structure Built (kindMap : KindMap) (k : MojString) (objs : List StoredObj) (i i' : KindIndex) : Prop where
  ready : i.index.ready = true → i' = i
  index : i.index.ready = false → i'.index = { i.index with ready := true }
  content : i.index.ready = false → ∀ key, key ∈ i'.content MainShardId ↔
    ∃ o ∈ objs, key ∈ keysOf kindMap k i.index (some o)

theorem build_spec {shards : Shards} {kind : Kind} {s₀ : Store} (hobjs : s₀.objs = s.objs) (hinv : Inv engine s t)
    (hi : i ∈ s.indexes kind.id) (hsafe : i.index.ready = false → SafeBuild engine.kindMap shards s₀ kind i.index)
    {t₀ : MojDbStorageTxn} (h : build engine shards kind s₀ i t₀ = .ok (i', t')) :
    Built engine.kindMap kind.id s.objs i i' ∧
      Booked (fun k => if k = kind.id then keyBytes (i.content MainShardId) else 0)
        (fun k => if k = kind.id then keyBytes (i'.content MainShardId) else 0) t₀ t' := by
  unfold build at h
  cases hready : i.index.ready with
  | true =>
    rw [hready, if_pos rfl] at h
    obtain ⟨rfl, rfl⟩ := Prod.mk.inj (Except.ok.inj h)
    exact ⟨⟨fun _ => rfl, fun hfalse => absurd hready (by simp [hfalse]), fun hfalse => absurd hready (by simp [hfalse])⟩,
      fun k => rfl, .refl t₀⟩
  | false =>
    rw [hready, if_neg Bool.false_ne_true] at h
    obtain ⟨objs, hfound, h⟩ := bind_eq_ok.mp h
    obtain ⟨⟨content, txn⟩, hfold, h⟩ := bind_eq_ok.mp h
    obtain ⟨rfl, rfl⟩ := Prod.mk.inj (pure_eq_ok.mp h)
    have hcur := charged_curKind engine kind t₀
    have hsub : objs.Sublist s.objs := hobjs ▸ found_sublist hfound
    have hsearch : ∀ o ∈ s.objs, ∀ key, key ∈ mainKeys i.index (some o.obj) →
        (o ∈ objs ↔ kind.id ∈ kindsOf engine.kindMap o.kindId) := by
      intro o ho key hkey
      refine hsafe hready objs (by rw [hfound]; rfl) o (hobjs.symm ▸ ho) (Bool.eq_false_iff.mpr fun hempty => ?_)
      rw [SortedSet.isEmpty, List.isEmpty_iff] at hempty
      rw [SortedSet.mem_def, hempty] at hkey
      cases hkey
    have hkeys : ∀ o ∈ objs, ∀ key,
        key ∈ keysOf engine.kindMap kind.id i.index (some o) ↔ key ∈ mainKeys i.index (some o.obj) := by
      intro o ho key
      by_cases hkind : kind.id ∈ kindsOf engine.kindMap o.kindId
      · rw [keysOf_of_mem hkind]
      · rw [keysOf_of_not_mem hkind]
        exact iff_of_false (SortedSet.not_mem_empty key) fun hkey => hkind ((hsearch o (hsub.subset ho) key hkey).mp ho)
    have hapart : objs.Pairwise fun o o' =>
        ∀ key ∈ mainKeys i.index (some o.obj), key ∉ mainKeys i.index (some o'.obj) := by
      have hnodup : objs.Pairwise fun o o' => o.idKey ≠ o'.idKey := (List.pairwise_map.mp hinv.nodup).sublist hsub
      refine hnodup.imp_of_mem fun ho ho' hid key hkey hkey' => ?_
      rw [← hkeys _ ho] at hkey
      rw [← hkeys _ ho'] at hkey'
      exact hinv.apart kind.id i hi _ (hsub.subset ho) _ (hsub.subset ho') hid key hkey hkey'
    have hfresh := hinv.fresh kind.id i hi hready
    obtain ⟨hcontent, hcharged⟩ := build_fold (s := (i.content, engine.curKind kind t₀)) (hcur kind.id).1 hapart
      (fun o _ key _ => hfresh key) hfold
    refine ⟨⟨fun htrue => absurd htrue (by simp [hready]), fun _ => rfl, fun _ key => ?_⟩, fun k => ?_,
      hcharged.follows.trans (hcur kind.id).2.2⟩
    · rw [hcontent key, or_iff_right (hfresh key)]
      constructor
      · intro hex
        obtain ⟨o, ho, hkey⟩ := hex
        exact ⟨o, hsub.subset ho, (hkeys o ho key).mpr hkey⟩
      · intro hex
        obtain ⟨o, ho, hkey⟩ := hex
        -- an object of the kind that has a key is one that the search finds
        have hkind : kind.id ∈ kindsOf engine.kindMap o.kindId := by
          by_contra hnot
          rw [keysOf_of_not_mem hnot] at hkey
          exact SortedSet.not_mem_empty key hkey
        rw [keysOf_of_mem hkind] at hkey
        exact ⟨o, (hsearch o ho key hkey).mpr hkind, hkey⟩
    · have hcharge := hcharged.charge k
      rw [(hcur k).2.1] at hcharge
      dsimp only at hcharge ⊢
      rw [hcharge]
      split_ifs
      · omega
      · omega

theorem buildOwnIndexes_spec {shards : Shards} {kind : Kind} {s₀ : Store} (hobjs : s₀.objs = s.objs) (hinv : Inv engine s t)
    {is is' : List KindIndex} (his : ∀ i ∈ is, i ∈ s.indexes kind.id)
    (hsafe : ∀ i ∈ is, i.index.ready = false → SafeBuild engine.kindMap shards s₀ kind i.index) {t₀ : MojDbStorageTxn}
    (h : buildOwnIndexes engine shards kind s₀ is t₀ = .ok (is', t')) :
    (∀ i' ∈ is', ∃ i ∈ is, Built engine.kindMap kind.id s.objs i i') ∧
      Booked (fun k => if k = kind.id then indexBytes is else 0) (fun k => if k = kind.id then indexBytes is' else 0)
        t₀ t' := by
  induction is generalizing is' t₀ with
  | nil =>
    obtain ⟨rfl, rfl⟩ := Prod.mk.inj (Except.ok.inj h)
    exact ⟨fun i' hi' => (List.not_mem_nil hi').elim, fun k => rfl, .refl _⟩
  | cons i is ih =>
    obtain ⟨⟨i₁, t₁⟩, hbuild, h⟩ := bind_eq_ok.mp h
    obtain ⟨⟨is₁, t₂⟩, hrest, h⟩ := bind_eq_ok.mp h
    obtain ⟨rfl, rfl⟩ := Prod.mk.inj (pure_eq_ok.mp h)
    obtain ⟨hbuilt, hbooked⟩ := build_spec hobjs hinv (his i List.mem_cons_self) (hsafe i List.mem_cons_self) hbuild
    obtain ⟨hall, hbooked'⟩ := ih (fun i hi => his i (List.mem_cons_of_mem _ hi))
      (fun i hi => hsafe i (List.mem_cons_of_mem _ hi)) hrest
    refine ⟨fun i' hi' => ?_, fun k => ?_, hbooked'.follows.trans hbooked.follows⟩
    · cases List.mem_cons.mp hi' with
      | inl he => exact ⟨i, List.mem_cons_self, he ▸ hbuilt⟩
      | inr hmem =>
        obtain ⟨i₀, hi₀, hb⟩ := hall i' hmem
        exact ⟨i₀, List.mem_cons_of_mem _ hi₀, hb⟩
    · have hbalance := hbooked.balance k
      have hbalance' := hbooked'.balance k
      have hcons : ∀ (i : KindIndex) is, indexBytes (i :: is) = keyBytes (i.content MainShardId) + indexBytes is :=
        fun _ _ => rfl
      simp only [hcons]
      split_ifs at hbalance hbalance' ⊢
      · omega
      · omega

theorem inv_buildIndexesOf {shards : Shards} {kind : Kind} {p p' : (MojString → List KindIndex) × MojDbStorageTxn}
    (hp : Inv engine ⟨r.store.objs, p.1⟩ p.2)
    (hsafe : ∀ i ∈ p.1 kind.id, i.index.ready = false → SafeBuild engine.kindMap shards r.store kind i.index)
    (hleft : ∀ k, ∀ i ∈ p.1 k, i.index.ready = false → i ∈ r.store.indexes k)
    (h : buildIndexesOf engine shards r.store p kind = .ok p') :
    Inv engine ⟨r.store.objs, p'.1⟩ p'.2 ∧ ∀ k, ∀ i ∈ p'.1 k, i.index.ready = false → i ∈ r.store.indexes k := by
  obtain ⟨⟨is, t₁⟩, hown, hstep⟩ := bind_eq_ok.mp h
  obtain rfl := pure_eq_ok.mp hstep
  have hobjs : r.store.objs = (⟨r.store.objs, p.1⟩ : Store).objs := rfl
  obtain ⟨hbuilt, hbooked⟩ := buildOwnIndexes_spec hobjs hp (fun i hi => hi) hsafe hown
  refine ⟨?_, fun k i' hi' hready => ?_⟩
  swap
  · by_cases hk : k = kind.id
    · subst hk
      dsimp only at hi'
      rw [Function.update_self] at hi'
      obtain ⟨i, hi, hb⟩ := hbuilt i' hi'
      cases hold : i.index.ready with
      | true => exact absurd hready (by simp [hb.ready hold, hold])
      | false => exact absurd hready (by simp [hb.index hold])
    · dsimp only at hi'
      rw [Function.update_of_ne hk] at hi'
      exact hleft k i' hi' hready
  refine hp.of_indexes (fun k i' hi' => ?_) ⟨fun k => ?_, hbooked.follows⟩
  · by_cases hk : k = kind.id
    · subst hk
      dsimp only at hi'
      rw [Function.update_self] at hi'
      obtain ⟨i, hi, hb⟩ := hbuilt i' hi'
      cases hready : i.index.ready with
      | true => exact .inl (hb.ready hready ▸ hi)
      | false =>
        have hindex := hb.index hready
        refine .inr ⟨fun _ key => ?_, fun hfalse => ?_, ?_⟩
        · rw [hindex, hb.content hready key]
          exact Iff.rfl
        · rw [hindex] at hfalse
          exact absurd hfalse.symm Bool.false_ne_true
        · rw [hindex]
          exact hp.apart kind.id i hi
    · dsimp only at hi'
      rw [Function.update_of_ne hk] at hi'
      exact .inl hi'
  · have hbalance := hbooked.balance k
    by_cases hk : k = kind.id
    · subst hk
      simpa using hbalance
    · simpa [hk, Function.update_of_ne hk] using hbalance

/-- Every index that a commit builds finds its objects. -/
def SafeCommit (kindMap : KindMap) (shards : Shards) (s : Store) : Prop :=
  ∀ kind ∈ kindMap.kinds, ∀ i ∈ s.indexes kind.id, i.index.ready = false → SafeBuild kindMap shards s kind i.index

theorem inv_preCommit {shards : Shards} (hinv : Inv engine r.store r.txn) (hsafe : SafeCommit engine.kindMap shards r.store)
    (h : preCommit engine shards r = .ok r') : Inv engine r'.store r'.txn := by
  obtain ⟨⟨indexes, txn⟩, hfold, h⟩ := bind_eq_ok.mp h
  obtain rfl := pure_eq_ok.mp h
  -- what is not built yet is as it was before the first build
  have hall : ∀ (kinds : List Kind) (p p' : (MojString → List KindIndex) × MojDbStorageTxn),
      kinds ⊆ engine.kindMap.kinds → kinds.foldlM (buildIndexesOf engine shards r.store) p = .ok p' →
      Inv engine ⟨r.store.objs, p.1⟩ p.2 → (∀ k, ∀ i ∈ p.1 k, i.index.ready = false → i ∈ r.store.indexes k) →
      Inv engine ⟨r.store.objs, p'.1⟩ p'.2 := by
    intro kinds
    induction kinds with
    | nil =>
      intro p p' _ hfold hp _
      obtain rfl := pure_eq_ok.mp hfold
      exact hp
    | cons kind kinds ih =>
      intro p p' hkinds hfold hp hleft
      rw [List.foldlM_cons] at hfold
      obtain ⟨p₁, hstep, hfold⟩ := bind_eq_ok.mp hfold
      obtain ⟨hp₁, hleft₁⟩ := inv_buildIndexesOf hp (fun i hi hready =>
        hsafe kind (hkinds List.mem_cons_self) i (hleft kind.id i hi hready) hready) hleft hstep
      exact ih p₁ p' (fun k hk => hkinds (List.mem_cons_of_mem _ hk)) hfold hp₁ hleft₁
  exact hall _ _ _ (List.Subset.refl _) hfold hinv fun k i hi _ => hi

/-! ## Runs -/

/-- No object yet, and of each kind the id index. -/
def init (kindMap : KindMap) (quotas : List Quota) (ids : MojString → Int64) (text : MojDbText) : MojDbQuotaUsage :=
  ⟨⟨kindMap, quotas, fun _ => 0⟩, ⟨[], fun k => [⟨IdIndexName, idIndex (ids k) text, fun _ => .empty⟩]⟩, none⟩

structure SystemInv (sys : MojDbQuotaUsage) : Prop where
  committed : Inv sys.engine sys.store newTxn
  req : ∀ r, sys.req = some r → Inv sys.engine r.store r.txn

def SafeIn (kindMap : KindMap) (s : Store) : Action → Prop
  | .put o => SafePut kindMap o s
  | .purge idKey => ∀ o ∈ s.objs, o.idKey = idKey → SafePurge kindMap o s
  | .addIndex kindId _ index _ => SafeAdd kindMap kindId index s
  | .commit shards => SafeCommit kindMap shards s
  | _ => True

def Safe (sys : MojDbQuotaUsage) (a : Action) : Prop := ∀ r ∈ sys.req, SafeIn sys.engine.kindMap r.store a

/-- The usage of a kind is what it has in the main shard. -/
def Counted (sys : MojDbQuotaUsage) : Prop :=
  ∀ kindId, sys.engine.usageDb kindId = bytes sys.store kindId ∧ 0 ≤ sys.engine.usageDb kindId

variable {sys : MojDbQuotaUsage}

theorem charge_newTxn (k : MojString) : charge k newTxn = 0 := rfl

theorem bytes_nonneg (s : Store) (k : MojString) : 0 ≤ bytes s k := by
  refine Int.add_nonneg (List.sum_nonneg fun n hn => ?_) (List.sum_nonneg fun n hn => ?_)
  · obtain ⟨o, -, rfl⟩ := List.mem_map.mp hn
    split_ifs
    · omega
    · omega
  · obtain ⟨i, -, rfl⟩ := List.mem_map.mp hn
    refine List.sum_nonneg fun n hn => ?_
    obtain ⟨key, -, rfl⟩ := List.mem_map.mp hn
    exact Int.natCast_nonneg _

theorem SystemInv.counted (h : SystemInv sys) : Counted sys := by
  intro k
  have husage := h.committed.usage k
  rw [charge_newTxn, add_zero] at husage
  exact ⟨husage, husage ▸ bytes_nonneg sys.store k⟩

theorem systemInv_init (kindMap : KindMap) (quotas : List Quota) (ids : MojString → Int64) (text : MojDbText) :
    SystemInv (init kindMap quotas ids text) := by
  refine ⟨⟨fun k => rfl, fun k i hi hready key => ?_, fun k i hi hready key => ?_, fun k i hi o ho => ?_, List.nodup_nil,
    rfl, List.nodup_nil⟩, fun r hr => ?_⟩
  · obtain rfl := List.mem_singleton.mp hi
    refine iff_of_false (SortedSet.not_mem_empty key) fun hex => ?_
    obtain ⟨o, ho, -⟩ := hex
    cases ho
  · obtain rfl := List.mem_singleton.mp hi
    exact SortedSet.not_mem_empty key
  · cases ho
  · cases hr

theorem systemInv_modify {f : Request → Except MojErr Request} (h : SystemInv sys)
    (hf : ∀ r r', sys.req = some r → f r = .ok r' → Inv sys.engine r'.store r'.txn) : SystemInv (sys.modify f) := by
  unfold modify
  cases hreq : sys.req with
  | none => exact h
  | some r =>
    dsimp only
    cases hr : f r with
    | error err => exact ⟨h.committed, fun r' hr' => by cases hr'⟩
    | ok r' => exact ⟨h.committed, fun r'' hr'' => Option.some.inj hr'' ▸ hf r r' hreq hr⟩

/-- The commit adds what the transaction has charged. -/
theorem inv_commit (h : Inv engine s t) : Inv ((record engine t).finish t) s newTxn := by
  have hrecord : record engine t = engine.withUsage t.offsetMap := commitImpl_of_fresh h.offsets rfl
  have husageDb : ∀ k, ((record engine t).finish t).usageDb k = engine.usageDb k + charge k t := by
    intro k
    have hpost := Ledger.post_apply engine.usageDb (t.offsetMap.map fun o => (o.kindId, o.offset)) k
    rw [List.map_map] at hpost
    rw [finish_usageDb, hrecord]
    exact hpost
  have hkindMap : ((record engine t).finish t).kindMap = engine.kindMap := by
    rw [finish_kindMap, hrecord]
    rfl
  refine ⟨fun k => ?_, ?_, h.fresh, ?_, h.nodup, rfl, List.nodup_nil⟩
  · rw [husageDb, charge_newTxn, add_zero]
    exact h.usage k
  · rw [hkindMap]
    exact h.ready
  · rw [hkindMap]
    exact h.apart

theorem systemInv_step (h : SystemInv sys) (a : Action) (hsafe : Safe sys a) : SystemInv (sys.step a) := by
  cases a with
  | begin =>
    unfold step MojDbQuotaUsage.begin
    cases hreq : sys.req with
    | none => exact ⟨h.committed, fun r hr => Option.some.inj hr ▸ h.committed⟩
    | some r => exact h
  | put o =>
    exact systemInv_modify h fun r r' hreq hr => inv_putObj (h.req r hreq) (hsafe r hreq) hr
  | purge idKey =>
    exact systemInv_modify h fun r r' hreq hr => inv_purgeObj (h.req r hreq) (hsafe r hreq) hr
  | addIndex kindId name index place =>
    exact systemInv_modify h fun r r' hreq hr => inv_addIndex (h.req r hreq) (hsafe r hreq) hr
  | dropIndex kindId name => exact systemInv_modify h fun r r' hreq hr => inv_dropIndex (h.req r hreq) hr
  | commit shards =>
    unfold step MojDbQuotaUsage.commit
    cases hreq : sys.req with
    | none => exact h
    | some r =>
      dsimp only
      cases hr : preCommit sys.engine shards r with
      | error err => exact ⟨h.committed, fun r' hr' => by cases hr'⟩
      | ok r' => exact ⟨inv_commit (inv_preCommit (h.req r hreq) (hsafe r hreq) hr), fun r'' hr'' => by cases hr''⟩
  | abort => exact ⟨h.committed, fun r hr => by cases hr⟩

instance (o : StoredObj) : Decidable (SafePut kindMap o s) :=
  decidable_of_iff
    ((∀ old ∈ s.objs, old.idKey = o.idKey → old.kindId = o.kindId ∨ o.shardId ≠ MainShardId) ∧
      (∀ k ∈ kindsOf kindMap o.kindId, ∀ i ∈ s.indexes k, k ≠ o.kindId ∨ i.index.ready = false →
        keysOf kindMap k i.index (some o) = keysOf kindMap k i.index (lookup StoredObj.idKey o.idKey s.objs)) ∧
      ∀ k ∈ kindsOf kindMap o.kindId, ∀ i ∈ s.indexes k, ∀ o' ∈ s.objs, o'.idKey ≠ o.idKey →
        ∀ key ∈ keysOf kindMap k i.index (some o), key ∉ keysOf kindMap k i.index (some o'))
    ⟨fun h => ⟨h.1, h.2.1, h.2.2⟩, fun h => ⟨h.kind, h.elsewhere, h.free⟩⟩

instance (o : StoredObj) : Decidable (SafePurge kindMap o s) :=
  decidable_of_iff
    (o.shardId = MainShardId ∧ ∀ k ∈ kindsOf kindMap o.kindId, ∀ i ∈ s.indexes k, k ≠ o.kindId ∨ i.index.ready = false →
      keysOf kindMap k i.index none = keysOf kindMap k i.index (some o))
    ⟨fun h => ⟨h.1, h.2⟩, fun h => ⟨h.main, h.elsewhere⟩⟩

instance (index : MojDbIndex) : Decidable (SafeAdd kindMap k index s) :=
  decidable_of_iff
    ((index.isIdIndex = true → ∀ o ∈ s.objs, (keysOf kindMap k index (some o)).isEmpty = true) ∧
      ∀ o ∈ s.objs, ∀ o' ∈ s.objs, o.idKey ≠ o'.idKey →
        ∀ key ∈ keysOf kindMap k index (some o), key ∉ keysOf kindMap k index (some o'))
    ⟨fun h => ⟨h.1, h.2⟩, fun h => ⟨h.idIndex, h.apart⟩⟩

instance (shards : Shards) (kind : Kind) (index : MojDbIndex) : Decidable (SafeBuild kindMap shards s kind index) :=
  inferInstanceAs (Decidable (∀ objs ∈ (found shards s kind index).toOption, ∀ o ∈ s.objs,
    (mainKeys index (some o.obj)).isEmpty = false → (o ∈ objs ↔ kind.id ∈ kindsOf kindMap o.kindId)))

instance (shards : Shards) : Decidable (SafeCommit kindMap shards s) :=
  inferInstanceAs (Decidable (∀ kind ∈ kindMap.kinds, ∀ i ∈ s.indexes kind.id, i.index.ready = false →
    SafeBuild kindMap shards s kind i.index))

instance : (a : Action) → Decidable (SafeIn kindMap s a)
  | .put o => inferInstanceAs (Decidable (SafePut kindMap o s))
  | .purge idKey => inferInstanceAs (Decidable (∀ o ∈ s.objs, o.idKey = idKey → SafePurge kindMap o s))
  | .addIndex kindId _ index _ => inferInstanceAs (Decidable (SafeAdd kindMap kindId index s))
  | .begin => .isTrue trivial
  | .dropIndex _ _ => .isTrue trivial
  | .commit shards => inferInstanceAs (Decidable (SafeCommit kindMap shards s))
  | .abort => .isTrue trivial

instance (sys : MojDbQuotaUsage) (a : Action) : Decidable (Safe sys a) :=
  inferInstanceAs (Decidable (∀ r ∈ sys.req, SafeIn sys.engine.kindMap r.store a))

/-- `"D:1"`. -/
def kindD : MojString := ⟨[68, 58, 49], by decide⟩

def mapD : KindMap := ⟨[.mk kindD kindD []], by decide⟩

/-- No collation and no words. -/
def plainText : MojDbText := ⟨fun _ s => s, fun s => [s]⟩

/-- An index on the revision. -/
def revIndex : MojDbIndex where
  id := 1
  text := plainText
  includeDeleted := false
  ready := false
  props :=
    [.prop
      { name := MojDb.RevKey, collation := none, tokenizer := false, default := .empty
        prop_ne_nil := by decide
        default_coded := MojDbPropExtractor.empty_coded },
      MojDbIndex.idProp]
  names_nodup := by decide
  id_mem := by decide
  del_front := by decide

def objD (id rev : Int64) (val : List MojByte) : StoredObj where
  obj := .object [(MojDb.IdKey, .int id), (MojDb.KindKey, .string kindD), (MojDb.RevKey, .int rev)]
  val := val
  id := .int id
  kindId := kindD
  shardId := MainShardId
  get_id := rfl
  get_kind := rfl
  shard_eq := rfl

def emptyD : MojDbQuotaUsage := init mapD [] (fun _ => 0) plainText

/-- An index is added to objects that are there, filled, changed and dropped again. -/
def indexRun : List Action :=
  [.begin, .put (objD 1 1 [1]), .addIndex kindD MojDb.RevKey revIndex 1, .commit ⟨[], fun _ => false⟩, .begin,
    .put (objD 1 2 [1, 2]), .put (objD 2 3 []), .purge (objD 1 2 []).idKey, .commit ⟨[], fun _ => false⟩, .begin,
    .dropIndex kindD MojDb.RevKey, .abort]

/-- An object outside of the main shard, which its id names. -/
def objOther : StoredObj where
  obj := .object [(MojDb.IdKey, .string ⟨List.replicate 16 65, by decide⟩), (MojDb.KindKey, .string kindD)]
  val := [1]
  id := .string ⟨List.replicate 16 65, by decide⟩
  kindId := kindD
  shardId := 749914924
  get_id := rfl
  get_kind := rfl
  shard_eq := by decide +kernel

end MojDbQuotaUsage

end Db8
