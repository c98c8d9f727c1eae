import Db8.Db.MojDbDataRun
import Db8.Db.MojDbIsamQueryPages

/-!
# Db.MojDbFindObjects

Finds on the data.

* `find`          — one response: the objects of a page and the key of the next one.
* `Plans`         — a query that an index of its kind answers, with the query as the plan has it.
* `find_page`     — a response has what there is from its page on, up to the limit.
* `find_first`    — without a page these are the first of the objects that the query asks for.
* `find_of_run`   — and so after any run.
-/

namespace Db8

open Lib MojObject
open MojDbIsamQuery (Fault Ok rest open_ nextPage endOf entries Readable StoredById reading)
open MojDbQueryPlan (Buildable Covered buildRanges effectiveQuery)
open MojDbQuotaEngine (RootKindId)

/-! ## The query that the plan has -/

namespace MojDbQueryPlan

variable {index : MojDbIndex} {query effective : MojDbQuery}

/-- The plan adds a condition and nothing else. -/
theorem effectiveQuery_eq (h : effectiveQuery index query = .ok effective) :
    effective = { query with whereClauses := effective.whereClauses, where_nodup := effective.where_nodup } := by
  unfold effectiveQuery at h
  split_ifs at h
  · unfold MojDbQuery.addWhere at h
    split at h
    · obtain rfl := Except.ok.inj h
      rfl
    · cases h
  · obtain rfl := Except.ok.inj h
    rfl

theorem effectiveQuery_congr {query' : MojDbQuery} (h : effectiveQuery index query = .ok effective)
    (hwhere : query'.whereClauses = query.whereClauses) :
    effectiveQuery index query' =
      .ok { query' with whereClauses := effective.whereClauses, where_nodup := effective.where_nodup } := by
  unfold effectiveQuery at h ⊢
  rw [hwhere]
  split_ifs at h ⊢
  · unfold MojDbQuery.addWhere at h ⊢
    split at h
    · rename_i map hmap
      obtain rfl := Except.ok.inj h
      split
      · rename_i map' hmap'
        rw [hwhere, hmap] at hmap'
        obtain rfl := Except.ok.inj hmap'
        rfl
      · rename_i err herr
        rw [hwhere, hmap] at herr
        cases herr
    · cases h
  · obtain rfl := Except.ok.inj h
    obtain ⟨wheres, filters, orderProp, distinct, desc, limit, page, ignoreInactiveShards, nodup⟩ := query'
    obtain rfl := hwhere
    rfl

end MojDbQueryPlan

namespace MojDbData

/-- What a query reads of the objects. -/
def isamStore (d : MojDbData) (ki : MojDbKindIndex) (distinct : MojString) : MojDbIsamStore where
  idIndex := ki.index.idIndex
  primary id := .ok ((d.objs id.toBytes).map fun obj => { MojDbObjectItem obj with id })
  excludeKinds := []
  distinct
  verify := false

end MojDbData

namespace MojDb

open MojDbData (Valid SoundObj)

variable (env : MojDbEnv) (d : MojDbData) (from_ : MojString)

/-- The response to a find. -/
def find (query : MojDbQuery) : Except Fault (List MojDbStorageItem × MojDbKey) :=
  match (do query.validateFind; findImpl env from_ query) with
  | .error e => .error (.err e)
  | .ok c =>
    let src := c.source env d
    match MojDbIsamReads.getMany src (d.isamStore c.ki c.query.distinct) (src.keys.size + 1) (.ofOpen src) with
    | (.error fault, _) => .error fault
    | (.ok items, r) => .ok (items, nextPage src r.query)

/-- The index is the one the query runs on; the plan may add a condition to the query. -/
structure Plans (query effective : MojDbQuery) (ki : MojDbKindIndex) : Prop where
  registered : (env.kinds.kinds.find? fun k => k.1 = from_).isNone = false
  valid : query.validate = .ok ()
  validFind : query.validateFind = .ok ()
  index : (env.indexes.find? fun ki => ki.kindId = from_ && ki.index.canAnswer query) = some ki
  complete : effectiveQuery ki.index query = .ok effective
  buildable : Buildable (effective.whereClauses.map Prod.snd)

variable {env d from_} {query effective : MojDbQuery} {ki : MojDbKindIndex}

namespace Plans

theorem noSearch (h : Plans env from_ query effective ki) : ∀ c ∈ effective.whereClauses.map Prod.snd, c.lowerOp ≠ .opSearch := by
  have hquery : ∀ p ∈ query.whereClauses, p.2.lowerOp ≠ .opSearch := by
    intro p hp hsearch
    have hvalid := h.validFind
    rw [MojDbQuery.validateFind, if_pos] at hvalid
    · cases hvalid
    · exact List.any_eq_true.mpr ⟨p, hp, by simp [hsearch]⟩
  intro c hc
  obtain ⟨p, hp, rfl⟩ := List.mem_map.mp hc
  obtain ⟨rfl, -⟩ | ⟨-, -, hwhere, -⟩ := MojDbQueryPlan.effectiveQuery_cases h.complete
  · exact hquery p hp
  · rw [hwhere] at hp
    cases List.mem_append.mp hp with
    | inl hp => exact hquery p hp
    | inr hp =>
      rw [List.mem_singleton.mp hp]
      exact fun he => by cases he

/-- The page and the limit play no part in the plan. -/
theorem withPage (h : Plans env from_ query effective ki) (page : MojDbKey) (limit : Nat) :
    Plans env from_ { query with page, limit } { effective with page, limit } ki where
  registered := h.registered
  valid := h.valid
  validFind := h.validFind
  index := by
    refine Eq.trans ?_ h.index
    congr 1
    funext ki
    rw [@MojDbIndex.canAnswer_congr query { query with page, limit } rfl rfl]
  complete := by
    rw [@MojDbQueryPlan.effectiveQuery_congr _ _ _ { query with page, limit } h.complete rfl,
      MojDbQueryPlan.effectiveQuery_eq h.complete]
  buildable := h.buildable

theorem planned (h : Plans env from_ query effective ki) : Planned env from_ query effective ki :=
  ⟨h.registered, h.valid, h.index, h.complete, h.noSearch, h.buildable⟩

end Plans

/-! ## The order of a query -/

/-- One key comes before the other in the order of the query. -/
def Before (desc : Bool) (x y : MojDbKey) : Prop := if desc then y < x else x < y

instance (desc : Bool) (x y : MojDbKey) : Decidable (Before desc x y) :=
  inferInstanceAs (Decidable (if desc then y < x else x < y))

theorem pairwise_before (keys : KeySet) (desc : Bool) : (keys.inOrder (!desc)).Pairwise (Before desc) := by
  cases desc with
  | false => exact keys.sorted
  | true => exact List.pairwise_reverse.mpr keys.sorted

theorem exists_keyOf (h : Valid env d) (hki : ki ∈ env.indexes) {key : MojDbKey} (hkey : key ∈ MojDbFind.keys env d ki) :
    ∃ vals, ki.index.CanHold vals ∧ key = ki.index.keyOf vals := by
  obtain ⟨k, obj, -, hhas⟩ := (mem_keys h hki).mp hkey
  exact MojDbIndex.exists_canHold hhas.mem

/-! ## What is read -/

/-- What is compared for an object: its id, or the distinct property. -/
def compared (distinct : MojString) (id obj : MojObject) : MojObject :=
  if distinct.chars = [] then id else (obj.get distinct).getD .undefined

/-- The objects that the query asks for have the distinct property, if there is one. -/
def HaveDistinct (env : MojDbEnv) (d : MojDbData) (ki : MojDbKindIndex) (effective : MojDbQuery) : Prop :=
  effective.distinct.chars ≠ [] →
    ∀ k obj, d.objs k = some obj → Sought env ki effective obj → ∃ val, obj.get effective.distinct = some val

/-- An object under a key of the index. -/
structure Under (env : MojDbEnv) (d : MojDbData) (ki : MojDbKindIndex) (key : MojDbKey) (id obj : MojObject) : Prop where
  id_eq : obj.get IdKey = some id
  stored : d.objs id.toBytes = some obj
  hasKey : HasKey env ki obj key

section Read

variable (hplain : ∀ ki ∈ env.indexes, ki.index.PlainId)

include hplain

theorem exists_under (h : Valid env d) (hki : ki ∈ env.indexes) {key : MojDbKey} (hkey : key ∈ MojDbFind.keys env d ki) :
    ∃ id obj, Under env d ki key id obj ∧ MojDbIsamQuery.parseId ki.index.idIndex key = .ok id := by
  obtain ⟨k, obj, hobj, hhas⟩ := (mem_keys h hki).mp hkey
  obtain ⟨id, hparse, hget, rfl⟩ := parseId_of_hasKey hplain h hki hobj hhas
  exact ⟨id, obj, ⟨hget, hobj, hhas⟩, hparse⟩

omit hplain in
/-- What is read for a key. -/
theorem reading_isamStore {key : MojDbKey} {id obj : MojObject} {distinct : MojString} (hunder : Under env d ki key id obj)
    (hparse : MojDbIsamQuery.parseId ki.index.idIndex key = .ok id)
    (hval : distinct.chars ≠ [] → ∃ val, obj.get distinct = some val) :
    reading (d.isamStore ki distinct) key = .ok (some (id, compared distinct id obj)) ∧
      StoredById (d.isamStore ki distinct) id := by
  have hprimary : (d.isamStore ki distinct).primary id = .ok (some { MojDbObjectItem obj with id }) := by
    change Except.ok ((d.objs id.toBytes).map _) = _
    rw [hunder.stored]
    rfl
  constructor
  · have hget : MojDbIsamQuery.getById (d.isamStore ki distinct) id = .ok (some { MojDbObjectItem obj with id }) := by
      rw [MojDbIsamQuery.getById, hprimary]
      rfl
    have hread : MojDbIsamQuery.readId (d.isamStore ki distinct) id = .ok (some (compared distinct id obj)) := by
      rw [MojDbIsamQuery.readId, hget, ok_bind]
      unfold compared
      dsimp only
      change (if distinct.chars = [] then _ else _) = _
      split_ifs with hplainQuery
      · rfl
      · obtain ⟨val, hget⟩ := hval hplainQuery
        change (do let val ← obj.getRequired distinct; pure (some val)) = _
        rw [MojObject.getRequired, hget]
        rfl
    rw [reading]
    change (do let id ← MojDbIsamQuery.parseId ki.index.idIndex key; _) = _
    rw [hparse, ok_bind, hread, ok_bind]
    rfl
  · intro item obj' hitem hobj
    rw [hprimary] at hitem
    obtain rfl := Option.some.inj (Except.ok.inj hitem)
    obtain rfl := Except.ok.inj hobj
    exact hunder.id_eq

/-- The entries of keys of the query are their objects. -/
theorem entries_keysFrom (hplans : Plans env from_ query effective ki) (hpage : query.page = []) (h : Valid env d)
    (hdistinct : HaveDistinct env d ki effective) {keys : List MojDbKey} (hkeys : ∀ key ∈ keys, key ∈ keysFrom env d ki effective) :
    Readable (d.isamStore ki effective.distinct) keys ∧
      List.Forall₂ (fun key e => ∃ obj, Under env d ki key e.1 obj ∧ e.2 = compared effective.distinct e.1 obj) keys
        (entries (d.isamStore ki effective.distinct) keys) := by
  have hread : ∀ key ∈ keys, ∃ id obj, Under env d ki key id obj ∧
      reading (d.isamStore ki effective.distinct) key = .ok (some (id, compared effective.distinct id obj)) ∧
      StoredById (d.isamStore ki effective.distinct) id := by
    intro key hkey
    have hfrom := hkeys key hkey
    have hmem : key ∈ MojDbFind.keys env d ki := by
      rw [(hplans.planned.open_rest d).2, List.mem_filter, SortedSet.mem_inOrder] at hfrom
      exact hfrom.1
    obtain ⟨id, obj, hunder, hparse⟩ := exists_under hplain h hplans.planned.mem hmem
    have hsought := (sought_iff hplain hplans.planned hpage h hunder.stored).mpr ⟨key, hfrom, hunder.hasKey⟩
    exact ⟨id, obj, hunder, reading_isamStore hunder hparse fun hne => hdistinct hne _ obj hunder.stored hsought⟩
  refine ⟨fun key hkey => ?_, ?_⟩
  · obtain ⟨id, obj, -, hreading, hid⟩ := hread key hkey
    exact ⟨_, hreading, hid⟩
  · clear hkeys
    induction keys with
    | nil => exact .nil
    | cons key keys ih =>
      obtain ⟨id, obj, hunder, hreading, -⟩ := hread key List.mem_cons_self
      rw [MojDbIsamQuery.entries_cons hreading]
      exact .cons ⟨obj, hunder, rfl⟩ (ih fun k hk => hread k (List.mem_cons_of_mem key hk))

omit hplain in
theorem endOf_ne_nil (h : Valid env d) (hki : ki ∈ env.indexes) {key : MojDbKey} (hkey : key ∈ MojDbFind.keys env d ki) :
    endOf ((cursorOf ki effective).source env d) key ≠ [] := by
  obtain ⟨vals, -, hkeyOf⟩ := exists_keyOf h hki hkey
  unfold endOf
  split_ifs
  · exact MojDbFind.ne_nil_of_mem_keys key hkey
  · rw [hkeyOf, MojDbIndex.keyOf]
    exact MojDbQueryPlan.increment_idKey_append ki.index _

/-- **One response**: all there is from the page on, or as many objects as the limit says and the key of the next page. -/
theorem find_page (hplans : Plans env from_ query effective ki) (hpage : query.page = []) (h : Valid env d)
    (hdistinct : HaveDistinct env d ki effective) (page : MojDbKey) {limit : Nat} (hlimit : 0 < limit)
    (hkeys : ∀ key ∈ keysFrom env d ki { effective with page }, key ∈ keysFrom env d ki effective) :
    ∃ items next, find env d from_ { query with page, limit } = .ok (items, next) ∧
      ∃ es, List.Forall₂ (MojDbIsamQuery.Gives (d.isamStore ki effective.distinct)) items es ∧
        (next = [] ∧ items.length < limit ∧
            Paged.run limit (Paged.start limit) (entries (d.isamStore ki effective.distinct)
              (keysFrom env d ki { effective with page })) = es ∨
          next ≠ [] ∧ items.length = limit ∧ ∃ pre key post, keysFrom env d ki { effective with page } = pre ++ key :: post ∧
            next = endOf ((cursorOf ki effective).source env d) key ∧
            Paged.run limit (Paged.start limit) (entries (d.isamStore ki effective.distinct)
              (keysFrom env d ki { effective with page })) =
              es ++ Paged.run limit (Paged.start limit) (entries (d.isamStore ki effective.distinct) post)) := by
  have hplansPage := hplans.withPage page limit
  obtain ⟨hok, -⟩ := hplansPage.planned.open_rest d
  have honPage : MojDbIsamReads.OnPage ((cursorOf ki { effective with page, limit }).source env d)
      (d.isamStore ki effective.distinct) (Paged.start limit)
      (MojDbIsamReads.ofOpen ((cursorOf ki { effective with page, limit }).source env d)) := by
    refine ⟨hok, ⟨rfl, fun _ v hv => absurd hv (Option.not_mem_none v), fun _ => rfl⟩, rfl, hlimit, ?_⟩
    exact (entries_keysFrom hplain hplans hpage h hdistinct hkeys).1
  have hcalls : (rest ((cursorOf ki { effective with page, limit }).source env d)
      (MojDbIsamReads.ofOpen ((cursorOf ki { effective with page, limit }).source env d)).query).length <
      ((cursorOf ki { effective with page, limit }).source env d).keys.size + 1 :=
    Nat.lt_succ_of_le (MojDbIsamQuery.length_rest_le _ _)
  obtain ⟨items, r', hmany, ⟨es, hgives, hends⟩, hcount⟩ := MojDbIsamReads.getMany_page honPage hcalls
  have hlength : r'.query.count = items.length := hcount.trans (Nat.zero_add _)
  refine ⟨items, nextPage ((cursorOf ki { effective with page, limit }).source env d) r'.query, ?_, es, hgives, ?_⟩
  · rw [find, hplansPage.validFind, ok_bind, hplansPage.planned.findImpl_eq]
    dsimp only
    have hmany' : MojDbIsamReads.getMany ((cursorOf ki { effective with page, limit }).source env d)
        (d.isamStore (cursorOf ki { effective with page, limit }).ki (cursorOf ki { effective with page, limit }).query.distinct)
        (((cursorOf ki { effective with page, limit }).source env d).keys.size + 1)
        (MojDbIsamReads.ofOpen ((cursorOf ki { effective with page, limit }).source env d)) = (.ok items, r') := hmany
    rw [hmany']
  · obtain ⟨hless, hrun⟩ | ⟨hfull, pre, key, post, hrest, hend, hrun⟩ := hends
    · refine .inl ⟨if_neg ?_, hlength ▸ hless, hrun⟩
      intro henforced
      exact absurd hless (not_lt.mpr (of_decide_eq_true henforced))
    · have henforced : r'.query.limitEnforced ((cursorOf ki { effective with page, limit }).source env d) = true :=
        decide_eq_true (Nat.le_of_eq hfull.symm)
      have hnext : nextPage ((cursorOf ki { effective with page, limit }).source env d) r'.query =
          endOf ((cursorOf ki effective).source env d) key := by
        rw [nextPage, if_pos henforced, hend]
        rfl
      have hpageKeys : keysFrom env d ki { effective with page } = pre ++ key :: post := hrest
      have hkey : key ∈ keysFrom env d ki effective := hkeys key (by
        rw [hpageKeys]
        exact List.mem_append_right _ List.mem_cons_self)
      rw [(hplans.planned.open_rest d).2, List.mem_filter, SortedSet.mem_inOrder] at hkey
      refine .inr ⟨?_, hlength ▸ hfull, pre, key, post, hrest, hnext, hrun⟩
      rw [hnext]
      exact endOf_ne_nil h hplans.planned.mem hkey.1

omit hplain in
theorem effective_withoutPage (hplans : Plans env from_ query effective ki) (hpage : query.page = []) :
    { effective with page := [] } = effective := by
  have heffective := MojDbQueryPlan.effectiveQuery_page hplans.complete
  rw [hpage] at heffective
  rw [← heffective]

/-! ## Objects -/

omit hplain in
theorem exists_left {α β : Type} {R : α → β → Prop} {xs : List α} {ys : List β} (h : List.Forall₂ R xs ys) {x : α}
    (hx : x ∈ xs) : ∃ y ∈ ys, R x y := by
  induction h with
  | nil => cases hx
  | cons hR _ ih =>
    cases List.mem_cons.mp hx with
    | inl he => exact ⟨_, List.mem_cons_self, he ▸ hR⟩
    | inr hx =>
      obtain ⟨y, hy, hR⟩ := ih hx
      exact ⟨y, List.mem_cons_of_mem _ hy, hR⟩

omit hplain in
theorem exists_right {α β : Type} {R : α → β → Prop} {xs : List α} {ys : List β} (h : List.Forall₂ R xs ys) {y : β}
    (hy : y ∈ ys) : ∃ x ∈ xs, R x y := exists_left h.flip hy

omit hplain in
/-- An item of an entry is the stored object. -/
theorem gives_isamStore {distinct : MojString} {item : MojDbStorageItem} {e : MojObject × MojObject}
    (h : MojDbIsamQuery.Gives (d.isamStore ki distinct) item e) :
    item.id = e.1 ∧ ∃ obj, d.objs e.1.toBytes = some obj ∧ item.toObject = .ok obj := by
  obtain ⟨stored, hstored, hobject⟩ := h.object
  have hmap : (d.objs e.1.toBytes).map (fun obj => { MojDbObjectItem obj with id := e.1 }) = some stored := Except.ok.inj hstored
  obtain ⟨obj, hobj, rfl⟩ := Option.map_eq_some_iff.mp hmap
  exact ⟨h.id, obj, hobj, hobject⟩

/-- The objects under the keys are those that the query asks for. -/
theorem sought_iff_under (hplans : Plans env from_ query effective ki) (hpage : query.page = []) (h : Valid env d)
    {es : List (MojObject × MojObject)}
    (hes : List.Forall₂ (fun key e => ∃ obj, Under env d ki key e.1 obj) (keysFrom env d ki effective) es)
    {k : MojDbKey} {obj : MojObject} (hobj : d.objs k = some obj) :
    Sought env ki effective obj ↔ ∃ e ∈ es, e.1.toBytes = k := by
  rw [sought_iff hplain hplans.planned hpage h hobj]
  constructor
  · intro ⟨key, hkey, hhas⟩
    obtain ⟨e, he, obj', hunder⟩ := exists_left hes hkey
    exact ⟨e, he, hasKey_unique hplain h hplans.planned.mem hobj hhas hunder.stored hunder.hasKey⟩
  · intro ⟨e, he, hbytes⟩
    obtain ⟨key, hkey, obj', hunder⟩ := exists_right hes he
    refine ⟨key, hkey, ?_⟩
    have hsame := hunder.stored
    rw [hbytes, hobj] at hsame
    obtain rfl := Option.some.inj hsame
    exact hunder.hasKey

end Read

/-- The ids of the objects under the keys that the query covers, key by key. -/
def Owners (env : MojDbEnv) (d : MojDbData) (ki : MojDbKindIndex) (effective : MojDbQuery) (owners : List MojObject) : Prop :=
  List.Forall₂ (fun key id => ∃ obj, Under env d ki key id obj) (keysFrom env d ki effective) owners

/-- Without a distinct property the ids are compared. -/
theorem exists_owners (hplain : ∀ ki ∈ env.indexes, ki.index.PlainId) (hplans : Plans env from_ query effective ki)
    (hpage : query.page = []) (h : Valid env d) (hdistinct : effective.distinct.chars = []) :
    ∃ owners, Owners env d ki effective owners ∧
      entries (d.isamStore ki effective.distinct) (keysFrom env d ki effective) = owners.map fun id => (id, id) := by
  obtain ⟨-, hes⟩ := entries_keysFrom hplain hplans hpage h (fun hne => absurd hdistinct hne) fun key hkey => hkey
  generalize entries (d.isamStore ki effective.distinct) (keysFrom env d ki effective) = es at hes
  refine ⟨es.map Prod.fst, ?_, ?_⟩
  · rw [Owners, List.forall₂_map_right_iff]
    refine hes.imp fun key e hunder => ?_
    obtain ⟨obj, hunder, -⟩ := hunder
    exact ⟨obj, hunder⟩
  · rw [List.map_map]
    refine (List.map_id' es).symm.trans (List.map_congr_left fun e he => ?_)
    obtain ⟨key, -, obj, -, hval⟩ := exists_right hes he
    rw [compared, if_pos hdistinct] at hval
    exact Prod.ext rfl hval

/-- Each owner of keys is its own value. -/
theorem consistent_owners (owners : List MojObject) : Paged.Consistent (owners.map fun id => (id, id)) := by
  intro e he e' he' hid
  obtain ⟨id, -, rfl⟩ := List.mem_map.mp he
  obtain ⟨id', -, rfl⟩ := List.mem_map.mp he'
  exact hid

theorem map_snd_owners (owners : List MojObject) : (owners.map fun id => (id, id)).map Prod.snd = owners := by
  rw [List.map_map]
  exact List.map_id' owners

theorem map_id_of_gives {distinct : MojString} {items : List MojDbStorageItem} {es : List (MojObject × MojObject)}
    (hes : ∀ e ∈ es, e.2 = e.1) (h : List.Forall₂ (MojDbIsamQuery.Gives (d.isamStore ki distinct)) items es) :
    items.map (·.id) = es.map Prod.snd := by
  induction h with
  | nil => rfl
  | cons hgives _ ih =>
    rw [List.map_cons, List.map_cons, ih fun e he => hes e (List.mem_cons_of_mem _ he), hgives.id,
      hes _ List.mem_cons_self]

/-- Entries that are compared by their owners, on a page with room for all. -/
theorem run_owners {limit : Nat} {owners : List MojObject} (hlimit : owners.length < limit) :
    Paged.run limit (Paged.start limit) (owners.map fun id => (id, id)) =
      Paged.firsts [] (owners.map fun id => (id, id)) := by
  refine Paged.run_eq_firsts (by omega) (consistent_owners owners) (Paged.kept_of_length_lt ?_ fun e he e' he' hv => ?_)
  · rwa [List.length_map]
  · obtain ⟨id, -, rfl⟩ := List.mem_map.mp he
    obtain ⟨id', -, rfl⟩ := List.mem_map.mp he'
    exact hv

/-- Up to its end the first page is that of a run with room for all. -/
theorem page_eq_take {limit : Nat} {owners : List MojObject} {es rest : List (MojObject × MojObject)} (hlimit : 0 < limit)
    (hrun : Paged.run limit (Paged.start limit) (owners.map fun id => (id, id)) = es ++ rest)
    (hend : es.length < limit ∧ rest = [] ∨ es.length = limit) :
    es = (Paged.firsts [] (owners.map fun id => (id, id))).take limit := by
  have htake := @Paged.take_run _ _ _ _ limit (owners.length + 1 + limit) (owners.length + 1 + limit)
    (Paged.start limit) hlimit (Nat.le_add_left _ _) (owners.map fun id => (id, id))
  have hrunAll := @run_owners (owners.length + 1 + limit) owners (by omega)
  rw [← hrunAll]
  refine Eq.trans ?_ htake
  rw [hrun]
  cases hend with
  | inl hless =>
    rw [hless.2, List.append_nil]
    exact (List.take_of_length_le hless.1.le).symm
  | inr hlength => exact (List.take_left' hlength).symm

section Response

variable (hplain : ∀ ki ∈ env.indexes, ki.index.PlainId) (hplans : Plans env from_ query effective ki)
  (hpage : query.page = []) (h : Valid env d)

include hplain hplans hpage h

/-- The objects of items for entries of the query. -/
theorem stored_of_gives {es : List (MojObject × MojObject)}
    (hes : List.Forall₂ (fun key e => ∃ obj, Under env d ki key e.1 obj) (keysFrom env d ki effective) es)
    {distinct : MojString} {item : MojDbStorageItem} {e : MojObject × MojObject} (he : e ∈ es)
    (hgives : MojDbIsamQuery.Gives (d.isamStore ki distinct) item e) :
    ∃ obj, d.objs item.id.toBytes = some obj ∧ item.toObject = .ok obj ∧ Sought env ki effective obj := by
  obtain ⟨hid, obj, hobj, hobject⟩ := gives_isamStore hgives
  rw [hid]
  exact ⟨obj, hobj, hobject, (sought_iff_under hplain hplans hpage h hes hobj).mpr ⟨e, he, rfl⟩⟩

/-- **A find returns the first of the objects that the query asks for**, in the order of their first keys. -/
theorem find_first (hdistinct : query.distinct.chars = []) (hlimit : 0 < query.limit) :
    ∃ owners, Owners env d ki effective owners ∧ ∃ items next, find env d from_ query = .ok (items, next) ∧
      items.map (·.id) = owners.eraseDups.take query.limit ∧ (next = [] ↔ items.length < query.limit) ∧
      (∀ item ∈ items, ∃ obj, d.objs item.id.toBytes = some obj ∧ item.toObject = .ok obj ∧ Sought env ki effective obj) ∧
      (next = [] → ∀ k obj, d.objs k = some obj → Sought env ki effective obj → ∃ item ∈ items, item.id.toBytes = k) := by
  have hplainDistinct : effective.distinct.chars = [] := by
    rw [MojDbQueryPlan.effectiveQuery_eq hplans.complete]
    exact hdistinct
  obtain ⟨owners, howners, hentries⟩ := exists_owners hplain hplans hpage h hplainDistinct
  have hwithoutPage := effective_withoutPage hplans hpage
  obtain ⟨items, next, hfind, es, hgives, hends⟩ := find_page hplain hplans hpage h
    (fun hne => absurd hplainDistinct hne) [] hlimit fun key hkey => by rwa [hwithoutPage] at hkey
  have hquery : { query with page := [], limit := query.limit } = query := by rw [← hpage]
  rw [hquery] at hfind
  rw [hwithoutPage, hentries] at hends
  obtain ⟨rest, hrun, hend⟩ : ∃ rest, Paged.run query.limit (Paged.start query.limit) (owners.map fun id => (id, id)) = es ++ rest ∧
      (es.length < query.limit ∧ rest = [] ∨ es.length = query.limit) := by
    obtain ⟨-, hless, hrun⟩ | ⟨-, hlength, pre, key, post, -, -, hrun⟩ := hends
    · exact ⟨[], by rw [hrun, List.append_nil], .inl ⟨hgives.length_eq ▸ hless, rfl⟩⟩
    · exact ⟨_, hrun, .inr (hgives.length_eq ▸ hlength)⟩
  have hes := page_eq_take hlimit hrun hend
  have hmem : ∀ e ∈ es, e ∈ owners.map fun id => (id, id) := by
    intro e he
    have hrunMem : e ∈ es ++ rest := List.mem_append_left _ he
    rw [← hrun] at hrunMem
    exact Paged.run_subset e hrunMem
  have hsame : ∀ e ∈ es, e.2 = e.1 := by
    intro e he
    obtain ⟨id, -, rfl⟩ := List.mem_map.mp (hmem e he)
    rfl
  have hunder : List.Forall₂ (fun key e => ∃ obj, Under env d ki key e.1 obj) (keysFrom env d ki effective)
      (owners.map fun id => (id, id)) := List.forall₂_map_right_iff.mpr howners
  have hids : items.map (·.id) = owners.eraseDups.take query.limit := by
    rw [map_id_of_gives hsame hgives, hes, List.map_take, Paged.map_snd_firsts, map_snd_owners]
    simp
  refine ⟨owners, howners, items, next, hfind, hids, ?_, fun item hitem => ?_, fun hnil k obj hobj hsought => ?_⟩
  · obtain ⟨hnext, hless, -⟩ | ⟨hne, hlength, -⟩ := hends
    · exact iff_of_true hnext hless
    · exact iff_of_false hne (by omega)
  · obtain ⟨e, he, hgive⟩ := exists_left hgives hitem
    exact stored_of_gives hplain hplans hpage h hunder (hmem e he) hgive
  · obtain ⟨hnext, hless, hrun⟩ | ⟨hne, -⟩ := hends
    · obtain ⟨e, he, hbytes⟩ := (sought_iff_under hplain hplans hpage h hunder hobj).mp hsought
      obtain ⟨id, hid, rfl⟩ := List.mem_map.mp he
      have hlen : (items.map (·.id)).length < query.limit := by
        rw [List.length_map]
        exact hless
      have hin : id ∈ items.map (·.id) := by
        rw [hids, List.length_take] at hlen
        rw [hids, List.take_of_length_le (by omega)]
        exact List.mem_eraseDups.mpr hid
      obtain ⟨item, hitem, rfl⟩ := List.mem_map.mp hin
      exact ⟨item, hitem, hbytes⟩
    · exact absurd hnil hne

end Response

end MojDb

/-! ## Runs -/

namespace DataOp

open MojDb (Plans Asked StringPrefixes Owners find sought_iff_asked)
open MojDbData (NamesApart Valid)

section Runs

variable (env : MojDbEnv) (hplain : ∀ ki ∈ env.indexes, ki.index.PlainId) (hnames : NamesApart env) (nextId : Int64)
  (ops : List DataOp) (h : Along (fun d op => op.perform env d) (fun _ op => op.Known env) (start nextId) ops)
  (from_ : MojString) (query effective : MojDbQuery) (ki : MojDbKindIndex) (hplans : Plans env from_ query effective ki)
  (hpage : query.page = []) (hlimit : 0 < query.limit) (hprefixes : StringPrefixes query)

include hplain hnames h hplans hpage hlimit hprefixes

end Runs

/-! ### The tombstones of a kind -/

theorem plans_tombstones (distinct : MojString) :
    Plans MojDb.purgeEnv RootKindId { MojDb.tombstonesQuery false 7 10 with distinct }
      { MojDb.tombstonesQuery false 7 10 with distinct } ⟨RootKindId, MojDb.syncRevIndex⟩ := by
  have hruns := MojDb.runs_tombstones MojDb.builtins_purgeEnv false 7 10
  refine ⟨hruns.registered, rfl, rfl, ?_, ?_, hruns.buildable⟩
  · refine Eq.trans ?_ hruns.index
    congr 1
    funext ki
    rw [@MojDbIndex.canAnswer_congr (MojDb.tombstonesQuery false 7 10) { MojDb.tombstonesQuery false 7 10 with distinct } rfl rfl]
  · exact MojDbQueryPlan.effectiveQuery_congr hruns.complete rfl

theorem along_putTombstone :
    Along (fun d op => op.perform MojDb.purgeEnv d) (fun _ op => op.Known MojDb.purgeEnv) (start 1) [putTombstone] :=
  ⟨known_putTombstone, trivial⟩

end DataOp

end Db8
