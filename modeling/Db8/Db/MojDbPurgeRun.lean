import Db8.Db.MojDbPurge

/-!
# Db.MojDbPurgeRun

What a purge removes.
-/

namespace Db8

open Lib MojObject
open MojDbQuotaEngine (RootKindId)

namespace MojDbIndex

/-- **The id in a key of an object** is its own. -/
theorem parseId_getKeys {index : MojDbIndex} (hplain : index.PlainId) {obj id : MojObject} (hid : obj.get MojDb.IdKey = some id)
    (harray : id.isArray = false) (hdef : id.isDefined = true) (hord : id.isOrdered = true) {key : MojDbKey}
    (hkey : key ∈ index.getKeys obj) : MojDbIsamQuery.parseId index.idIndex key = .ok id := by
  obtain ⟨vals, hvals, hparts, rfl⟩ := mem_getKeys_vals.mp hkey
  obtain ⟨e, he, hname, hcoll, htok⟩ := hplain
  have hlen : (propNames index.props).idxOf MojDb.IdKey < index.props.length := by
    have hlt := List.idxOf_lt_length_of_mem index.id_mem
    rwa [propNames, List.length_map] at hlt
  have hlen' : (propNames index.props).idxOf MojDb.IdKey < vals.length := hparts.length_eq ▸ hlen
  have hprop : index.props[(propNames index.props).idxOf MojDb.IdKey] = .prop e := by
    refine eq_of_name_eq (List.getElem_mem _) he ?_
    have hget := List.getElem_idxOf (List.idxOf_lt_length_of_mem index.id_mem)
    refine Eq.trans ?_ (hget.trans hname.symm)
    exact (List.getElem_map _).symm
  have hpart := hparts.get hlen' hlen
  simp only [List.get_eq_getElem, hprop] at hpart
  have hbytes := (vals_plainId hname hcoll htok hid harray).mp hpart
  have hval : vals[(propNames index.props).idxOf MojDb.IdKey] = id := by
    refine (toBytes_append_inj (hvals _ (List.getElem_mem _)) hdef (s := []) (t := []) ?_).1
    rw [hbytes]
  have hparse := MojDbIsamQuery.parseId_keyOf index hlen' (hval ▸ hdef) (hval ▸ hord)
  rw [hval] at hparse
  exact hparse

end MojDbIndex

namespace MojDb

open MojDbData (SoundObj Valid SameKind replace_valid)
open MojDbIsamQuery (Ok rest Wanted parseId)
open MojDbIndex (shardOf)

variable {env : MojDbEnv} {d : MojDbData} {mode : DelMode}

/-! ## Keys and objects -/

/-- The index has the key for the object. -/
structure HasKey (env : MojDbEnv) (ki : MojDbKindIndex) (obj : MojObject) (key : MojDbKey) : Prop where
  covers : env.covers ki obj = true
  included : ki.index.includeObj (some obj) = true
  mem : key ∈ ki.index.getKeys obj

theorem ne_nil_of_mem_getKeys {index : MojDbIndex} {obj : MojObject} {key : MojDbKey} (h : key ∈ index.getKeys obj) :
    key ≠ [] := MojDbQueryPlan.ne_nil_of_mem_keys h

/-- The keys under the iterator are those of the stored objects. -/
theorem mem_keys (h : Valid env d) {ki : MojDbKindIndex} (hki : ki ∈ env.indexes) {key : MojDbKey} :
    key ∈ MojDbFind.keys env d ki ↔ ∃ k obj, d.objs k = some obj ∧ HasKey env ki obj key := by
  have hexact := h.exact ki hki
  rw [MojDbFind.keys, SortedSet.mem_ofList, List.mem_filter, List.mem_flatMap]
  constructor
  · intro ⟨⟨shard, _, hmem⟩, _⟩
    obtain ⟨k, obj, hobj, hinc, _, hkey⟩ := (hexact shard key).mp hmem
    obtain ⟨hstored, hcovers⟩ := Option.filter_eq_some_iff.mp hobj
    exact ⟨k, obj, hstored, hcovers, hobj ▸ hinc, hkey⟩
  · intro ⟨k, obj, hobj, hkey⟩
    obtain ⟨shard, hshard, hof⟩ := (h.sound k obj hobj).shard
    have hview : (d.view env ki).objs k = some obj := Option.filter_eq_some_iff.mpr ⟨hobj, hkey.covers⟩
    refine ⟨⟨shard, hshard, (hexact shard key).mpr ⟨k, obj, hview, ?_, hof, hkey.mem⟩⟩, ?_⟩
    · rw [hview]
      exact hkey.included
    · simpa using ne_nil_of_mem_getKeys hkey.mem

variable (hplain : ∀ ki ∈ env.indexes, ki.index.PlainId)

include hplain

/-- A key is read as the id of its object. -/
theorem parseId_of_hasKey (h : Valid env d) {ki : MojDbKindIndex} (hki : ki ∈ env.indexes) {k key : MojDbKey} {obj : MojObject}
    (hobj : d.objs k = some obj) (hkey : HasKey env ki obj key) :
    ∃ id, parseId ki.index.idIndex key = .ok id ∧ obj.get IdKey = some id ∧ id.toBytes = k := by
  obtain ⟨id, hid, hbytes, harray, hdef, hord⟩ := (h.sound k obj hobj).id
  exact ⟨id, MojDbIndex.parseId_getKeys (hplain ki hki) hid harray hdef hord hkey.mem, hid, hbytes⟩

theorem hasKey_unique (h : Valid env d) {ki : MojDbKindIndex} (hki : ki ∈ env.indexes) {j k key : MojDbKey}
    {obj obj' : MojObject} (hobj : d.objs k = some obj) (hkey : HasKey env ki obj key) (hobj' : d.objs j = some obj')
    (hkey' : HasKey env ki obj' key) : j = k := by
  obtain ⟨id, hid, _, hbytes⟩ := parseId_of_hasKey hplain h hki hobj hkey
  obtain ⟨id', hid', _, hbytes'⟩ := parseId_of_hasKey hplain h hki hobj' hkey'
  rw [hid] at hid'
  obtain rfl := Except.ok.inj hid'
  exact hbytes'.symm.trans hbytes

/-! ## Deletions -/

/-- Objects leave the database, and nothing else changes. -/
structure Removal (env : MojDbEnv) (d d' : MojDbData) (removed : List MojDbKey) : Prop where
  valid : Valid env d'
  nextId : d'.nextId = d.nextId
  objs : ∀ k, d'.objs k = if k ∈ removed then none else d.objs k
  nodup : removed.Nodup
  stored : ∀ k ∈ removed, ∃ obj, d.objs k = some obj

/-- One deletion. -/
theorem delObj_removal (hmode : mode.purges = true) (h : Valid env d) {id obj : MojObject} (hid : obj.get IdKey = some id)
    (hobj : d.objs id.toBytes = some obj) :
    ∃ d', delObj env mode d id = .ok (d', .object [(IdKey, id)]) ∧ Removal env d d' [id.toBytes] := by
  obtain ⟨shard, _, hshard⟩ := (h.sound _ obj hobj).shard
  rw [shardOf, hid] at hshard
  change MojDbIdGenerator.extractShard id = .ok shard at hshard
  obtain ⟨d', hreplace, hobjs, hnext, hvalid⟩ := @replace_valid env d hplain h id.toBytes none true
    (fun _ hn => by cases hn) (fun _ _ hn => by cases hn)
  have hrequest : d.request env id purgeStep true = .ok d' := by
    rw [MojDbData.request, hobj]
    exact hreplace
  refine ⟨d', ?_, hvalid, hnext, fun k => ?_, List.nodup_singleton _, fun k hk => ?_⟩
  · rw [delObj, hshard, ok_bind, if_pos hmode, hrequest]
    rfl
  · rw [hobjs, Function.update_apply]
    simp
  · exact ⟨obj, List.mem_singleton.mp hk ▸ hobj⟩

omit hplain in
theorem removal_trans {d₁ d₂ : MojDbData} {removed removed' : List MojDbKey} (h : Removal env d d₁ removed)
    (h' : Removal env d₁ d₂ removed') : Removal env d d₂ (removed ++ removed') where
  valid := h'.valid
  nextId := h'.nextId.trans h.nextId
  objs k := by
    rw [h'.objs, h.objs]
    by_cases hk : k ∈ removed
    · simp [hk]
    · simp [hk]
  nodup := by
    refine List.nodup_append'.mpr ⟨h.nodup, h'.nodup, fun k hk hk' => ?_⟩
    obtain ⟨obj, hobj⟩ := h'.stored k hk'
    rw [h.objs, if_pos hk] at hobj
    cases hobj
  stored k hk := by
    cases List.mem_append.mp hk with
    | inl hk => exact h.stored k hk
    | inr hk =>
      obtain ⟨obj, hobj⟩ := h'.stored k hk
      rw [h.objs] at hobj
      split_ifs at hobj
      exact ⟨obj, hobj⟩

omit hplain in
theorem Removal.objs_iff {d₁ : MojDbData} {removed : List MojDbKey} (h : Removal env d d₁ removed) {k : MojDbKey}
    {obj : MojObject} : d₁.objs k = some obj ↔ k ∉ removed ∧ d.objs k = some obj := by
  rw [h.objs]
  by_cases hk : k ∈ removed
  · simp [hk]
  · simp [hk]

omit hplain in
theorem Removal.of_objs {d₁ : MojDbData} {removed : List MojDbKey} (h : Removal env d d₁ removed) {k : MojDbKey}
    {obj : MojObject} (hobj : d₁.objs k = some obj) : d.objs k = some obj := (h.objs_iff.mp hobj).2

/-- What the loop deletes of the objects of some keys: no more than a number, and all of them unless it is that many. -/
structure Deletes (env : MojDbEnv) (ki : MojDbKindIndex) (keys : List MojDbKey) (left : Nat) (d d' : MojDbData)
    (removed : List MojDbKey) : Prop extends Removal env d d' removed where
  within : removed.length ≤ left
  of_keys : ∀ k ∈ removed, ∃ obj key, d.objs k = some obj ∧ HasKey env ki obj key ∧ key ∈ keys
  all : removed.length < left → ∀ k obj key, d.objs k = some obj → HasKey env ki obj key → key ∈ keys → k ∈ removed

omit hplain in
theorem mem_rest {src : MojDbIsamQuery.Source} {q : MojDbIsamQuery} {key : MojDbKey} :
    key ∈ rest src q ↔ key ∈ src.keys ∧ MojDbIsamQuery.Ahead src q key ∧ Wanted src q.iter key := by
  rw [rest, List.mem_filter, SortedSet.mem_inOrder, decide_eq_true_eq]

omit hplain in
theorem nodup_rest (src : MojDbIsamQuery.Source) (q : MojDbIsamQuery) : (rest src q).Nodup := by
  refine List.Nodup.filter _ ((SortedSet.pairwise_inOrder src.keys (!src.desc)).imp fun hlt he => ?_)
  rw [he] at hlt
  exact lt_irrefl _ hlt

omit hplain in
/-- No key is to come that was not to come before. -/
theorem Removal.rest_subset {d₁ : MojDbData} {removed : List MojDbKey} (h : Removal env d d₁ removed) (hd : Valid env d)
    {c : MojDbFind} (hki : c.ki ∈ env.indexes) (q : MojDbIsamQuery) :
    rest (c.source env d₁) q ⊆ rest (c.source env d) q := by
  intro key hkey
  obtain ⟨hkeys, hrest⟩ := mem_rest.mp hkey
  obtain ⟨k, obj, hobj, hhas⟩ := (mem_keys h.valid hki).mp hkeys
  exact mem_rest.mpr ⟨(mem_keys hd hki).mpr ⟨k, obj, h.of_objs hobj, hhas⟩, hrest⟩

omit hplain in
/-- The keys to come, with some of the keys gone. -/
theorem ok_source {c : MojDbFind} {d₁ : MojDbData} {q : MojDbIsamQuery} (h : Ok (c.source env d) q) (hstate : q.state = .next) :
    Ok (c.source env d₁) q where
  ordered := ⟨h.ordered.bounded, h.ordered.pairwise⟩
  at_key hseek := by
    rw [hstate] at hseek
    cases hseek
  in_range := h.in_range

/-- An object with the first of the keys to come is returned. -/
structure Returned (env : MojDbEnv) (d : MojDbData) (c : MojDbFind) (items : MojDbIsamItems) (id obj : MojObject) (key : MojDbKey)
    (q : MojDbIsamQuery) : Prop where
  within : items.query.count < c.query.limit
  rest_eq : rest (c.source env d) items.query = key :: rest (c.source env d) q
  id_eq : obj.get IdKey = some id
  stored : d.objs id.toBytes = some obj
  hasKey : HasKey env c.ki obj key
  ok : Ok (c.source env d) q
  state : q.state = .next
  count : q.count = items.query.count + 1

/-- No key is passed over: each has its object, which has not been returned. -/
theorem get_cases {c : MojDbFind} (hki : c.ki ∈ env.indexes) (h : Valid env d) {items : MojDbIsamItems}
    (hok : Ok (c.source env d) items.query) (hgone : ∀ k ∈ items.insertedIds, d.objs k = none) :
    (∃ items', MojDbFind.get env d { c with items } = .ok (none, items') ∧
      (c.query.limit ≤ items.query.count ∨ rest (c.source env d) items.query = [])) ∨
    ∃ id obj key q, MojDbFind.get env d { c with items } = .ok (some (id, obj), ⟨q, id.toBytes :: items.insertedIds⟩) ∧
      Returned env d c items id obj key q := by
  have hstored : ∀ key ∈ rest (c.source env d) items.query, ∃ id k obj, d.objs k = some obj ∧ HasKey env c.ki obj key ∧
      parseId c.ki.index.idIndex key = .ok id ∧ obj.get IdKey = some id ∧ id.toBytes = k := by
    intro key hkey
    obtain ⟨k, obj, hobj, hhas⟩ := (mem_keys h hki).mp (mem_rest.mp hkey).1
    obtain ⟨id, hid, hget, hbytes⟩ := parseId_of_hasKey hplain h hki hobj hhas
    exact ⟨id, k, obj, hobj, hhas, hid, hget, hbytes⟩
  have hnot : ∀ key ∈ rest (c.source env d) items.query,
      ¬MojDbIsamItems.Passed d.objs c.ki.index.idIndex items.insertedIds key := by
    intro key hkey hpassed
    obtain ⟨id, k, obj, hobj, _, hid, _, hbytes⟩ := hstored key hkey
    obtain ⟨id', hid', hpassed⟩ := hpassed
    rw [hid] at hid'
    obtain rfl := Except.ok.inj hid'
    rw [hbytes] at hpassed
    cases hpassed with
    | inl hnone =>
      rw [hobj] at hnone
      cases hnone
    | inr hinserted =>
      rw [hgone k hinserted] at hobj
      cases hobj
  obtain ⟨r, items', hget, hgets⟩ := @MojDbIsamItems.getItem_spec (c.source env d) d.objs c.ki.index.idIndex items hok
    fun key hkey => by
      obtain ⟨id, _, _, _, _, hid, _⟩ := hstored key hkey
      exact ⟨id, hid⟩
  cases hgets with
  | none ends =>
    exact .inl ⟨_, hget, ends.imp_right fun hall => List.eq_nil_iff_forall_not_mem.mpr fun key hkey => hnot key hkey (hall key hkey)⟩
  | @some id obj q pre key within rest_eq passed id_eq val_eq fresh ok state count =>
    have hpre : pre = [] := by
      cases pre with
      | nil => rfl
      | cons x pre => exact absurd (passed x List.mem_cons_self) (hnot x (rest_eq ▸ List.mem_cons_self))
    rw [hpre, List.nil_append] at rest_eq
    obtain ⟨id', k, obj', hobj, hhas, hid', hgetId, hbytes⟩ := hstored key (rest_eq ▸ List.mem_cons_self)
    rw [id_eq] at hid'
    obtain rfl := Except.ok.inj hid'
    rw [← hbytes, val_eq] at hobj
    obtain rfl := Option.some.inj hobj
    exact .inr ⟨id, obj, key, q, hget, within, rest_eq, hgetId, val_eq, hhas, ok, state, count⟩

/-- **The loop of a batch** deletes the objects of the keys to come, up to the limit. -/
theorem delItems_deletes (hmode : mode.purges = true) {c : MojDbFind} (hki : c.ki ∈ env.indexes) {fuel : Nat} (h : Valid env d) {items : MojDbIsamItems}
    (hok : Ok (c.source env d) items.query) (hgone : ∀ k ∈ items.insertedIds, d.objs k = none)
    (hfuel : (rest (c.source env d) items.query).length < fuel) (count : Nat) :
    ∃ d' removed, delItems env mode fuel d { c with items } count = .ok (d', count + removed.length) ∧
      Deletes env c.ki (rest (c.source env d) items.query) (c.query.limit - items.query.count) d d' removed := by
  induction fuel generalizing d items count with
  | zero => exact absurd hfuel (Nat.not_lt_zero _)
  | succ fuel ih =>
    obtain ⟨items', hget, hends⟩ | ⟨id, obj, key, q, hget, hreturned⟩ := get_cases hplain hki h hok hgone
    · rw [delItems, hget, ok_bind]
      refine ⟨d, [], rfl, ⟨h, rfl, by simp, List.nodup_nil, by simp⟩, Nat.zero_le _, by simp, fun hlt => ?_⟩
      intro k obj key hobj hhas hkey
      cases hends with
      | inl hlimit =>
        rw [List.length_nil] at hlt
        omega
      | inr hnil =>
        rw [hnil] at hkey
        exact absurd hkey List.not_mem_nil
    · obtain ⟨within, rest_eq, hgetId, val_eq, hhas, ok, state, qcount⟩ := hreturned
      have hmem : key ∈ rest (c.source env d) items.query := rest_eq ▸ List.mem_cons_self
      obtain ⟨d₁, hdel, hremoval⟩ := delObj_removal hplain hmode h hgetId val_eq
      have hsub := hremoval.rest_subset h hki q
      have hlen : (rest (c.source env d₁) q).length < fuel := by
        have hle := (List.subperm_of_subset (nodup_rest _ q) hsub).length_le
        rw [rest_eq, List.length_cons] at hfuel
        omega
      have hgone₁ : ∀ j ∈ id.toBytes :: items.insertedIds, d₁.objs j = none := by
        intro j hj
        rw [hremoval.objs]
        cases List.mem_cons.mp hj with
        | inl hj => rw [hj, if_pos (List.mem_singleton_self _)]
        | inr hj => rw [hgone j hj, ite_self]
      obtain ⟨d', removed, hloop, hdeletes⟩ :=
        @ih d₁ hremoval.valid ⟨q, id.toBytes :: items.insertedIds⟩ (ok_source ok state) hgone₁ hlen (count + 1)
      have hne : MojObject.object [(IdKey, id)] ≠ obj := by
        intro he
        obtain ⟨rev, hrev⟩ := (h.sound _ obj val_eq).rev
        rw [← he] at hrev
        cases hrev
      have hwithin : removed.length ≤ c.query.limit - q.count := hdeletes.within
      refine ⟨d', [id.toBytes] ++ removed, ?_, removal_trans hremoval hdeletes.toRemoval, ?_, ?_, ?_⟩
      · rw [delItems, hget, ok_bind]
        dsimp only
        rw [hdel, ok_bind]
        dsimp only
        rw [if_pos hne, List.singleton_append, List.length_cons, Nat.add_comm removed.length 1, ← Nat.add_assoc]
        exact hloop
      · rw [List.singleton_append, List.length_cons]
        omega
      · intro j hj
        cases List.mem_append.mp hj with
        | inl hj =>
          rw [List.mem_singleton.mp hj]
          exact ⟨obj, key, val_eq, hhas, hmem⟩
        | inr hj =>
          obtain ⟨o, x, ho, hxhas, hx⟩ := hdeletes.of_keys j hj
          exact ⟨o, x, hremoval.of_objs ho, hxhas, rest_eq ▸ List.mem_cons_of_mem key (hsub hx)⟩
      · intro hlt j o x ho hxhas hx
        rw [List.singleton_append, List.length_cons] at hlt
        by_cases hj : j = id.toBytes
        · exact List.mem_append_left _ (List.mem_singleton.mpr hj)
        · have ho₁ := hremoval.objs_iff.mpr ⟨fun hmem => hj (List.mem_singleton.mp hmem), ho⟩
          rw [rest_eq] at hx
          cases List.mem_cons.mp hx with
          | inl hxkey =>
            rw [hxkey] at hxhas
            exact absurd (hasKey_unique hplain h hki val_eq hhas ho hxhas) hj
          | inr hx =>
            obtain ⟨_, hxrest⟩ := mem_rest.mp hx
            have hx₁ : x ∈ rest (c.source env d₁) q :=
              mem_rest.mpr ⟨(mem_keys hremoval.valid hki).mpr ⟨j, o, ho₁, hxhas⟩, hxrest⟩
            exact List.mem_append_right _ (hdeletes.all (by
              change removed.length < c.query.limit - q.count
              omega) j o x ho₁ hxhas hx₁)

end MojDb

end Db8
