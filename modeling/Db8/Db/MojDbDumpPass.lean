import Db8.Db.MojDbDump
import Db8.Lib.Fill

/-!
# Db.MojDbDumpPass

One pass of a backup.

* `syncedQuery`   — the query of a pass, which the index on `_del`, `_sync` and `_rev` answers.
* `Backed`        — the objects that it asks for.
* `Due`           — what a pass has to write, in the order of the revisions.
* `exists_due`    — the cursor returns these objects.
* `dumpLoop_fill` — the loop writes the first of them, as many as fit.
-/

namespace Db8

open Lib MojObject
open MojDbIndex (delProp idProp)
open MojDbIsamQuery (Fault Ok rest open_)
open MojDbQuotaEngine (RootKindId)
open MojDbQueryPlan (Finds effectiveQuery)

namespace MojDb

open MojDbData (Valid SoundObj)

variable {env : MojDbEnv} {root table : MojDbKindIndex} {d : MojDbData}

/-! ## The query -/

theorem opGreaterThan_ne_opNone : CompOp.opGreaterThan ≠ .opNone := by decide

/-- The condition `> n`. -/
def afterClause (n : Int64) : WhereClause :=
  MojDbQuery.createClause .opGreaterThan (.int n) none opGreaterThan_ne_opNone fun h => by cases h

theorem isArray_bool (b : Bool) : (MojObject.bool b).isArray = false := rfl

theorem passKeys_nodup : [DelKey, KindContext.ObjectSyncKey, RevKey].Nodup := by decide

/-- The query of a pass. -/
def syncedQuery (incDel : Bool) (n : Int64) : MojDbQuery :=
  { MojDbQuery.all with
    whereClauses := [(DelKey, eqClause (.bool incDel) (isArray_bool incDel)),
      (KindContext.ObjectSyncKey, eqClause (.bool true) (isArray_bool true)), (RevKey, afterClause n)]
    where_nodup := passKeys_nodup }

theorem dumpQuery_eq (incDel : Bool) (r dr : Int64) :
    dumpQuery true incDel (.int r) (.int dr) = .ok (syncedQuery incDel (if incDel then dr else r)) := by
  cases incDel with
  | false => rfl
  | true => rfl

theorem plans_synced (hb : Builtins env root table) (incDel : Bool) (n : Int64) :
    Plans env RootKindId (syncedQuery incDel n) (syncedQuery incDel n) root where
  registered := isNone_of_builtin hb.rootKind
  valid := rfl
  validFind := rfl
  index := by
    obtain ⟨idIndex, hid, hfilter⟩ := hb.rootIndexes
    refine find?_of_filter hfilter ?_ ?_
    · unfold MojDbIndex.canAnswer
      rw [hid]
      cases idIndex.index.ready with
      | false => rfl
      | true => rfl
    · unfold MojDbIndex.canAnswer
      rw [hb.rootReady, hb.rootProps, hb.rootDeleted]
      rfl
  complete := by
    unfold effectiveQuery
    rw [if_neg]
    intro h
    cases h.2
  buildable := by
    have hclause : ∀ c ∈ (syncedQuery incDel n).whereClauses.map Prod.snd,
        c.lowerOp ≠ .opSubString ∧ c.lowerVal.alternatives ≠ [] := by
      intro c hc
      simp only [syncedQuery, List.map_cons, List.map_nil, List.mem_cons, List.not_mem_nil, or_false] at hc
      obtain rfl | rfl | rfl := hc
      all_goals exact ⟨fun he => (by cases he), List.cons_ne_nil _ _⟩
    intro c hc
    exact ⟨(hclause c hc).1, fun _ c' hc' => (hclause c' hc').2⟩

/-! ## What it asks for -/

theorem keyMatches_afterClause {text : MojDbText} {i n : Int64} : (afterClause n).KeyMatches text (.int i) ↔ n < i := by
  change cmp i n = .gt ∧ True ↔ n < i
  rw [and_true, Int64.cmp_eq_cmp_toInt, cmp_eq_gt_iff, Int64.lt_iff_toInt_lt]

/-- An integer property is found beyond its bound. -/
theorem finds_afterClause {text : MojDbText} {i n : Int64} {parts : KeySet}
    (hparts : ∀ part, part ∈ parts ↔ part = (MojObject.int i).toBytes) : Finds text (afterClause n) parts ↔ n < i := by
  rw [← @keyMatches_afterClause text]
  constructor
  · intro ⟨v, hdef, hpart, hmatch⟩
    have hv := (@toBytes_append_inj v (.int i) hdef rfl [] [] (by rw [(hparts _).mp hpart])).1
    exact hv ▸ hmatch
  · intro hmatch
    exact ⟨.int i, rfl, (hparts _).mpr rfl, hmatch⟩

/-- An integer property beyond a number. -/
def After (obj : MojObject) (key : MojString) (n : Int64) : Prop := ∃ i, obj.get key = some (.int i) ∧ n < i

/-- The object is deleted or not, as the pass asks for it, and backed up, and not passed over. -/
structure Backed (env : MojDbEnv) (incDel : Bool) (n : Int64) (obj : MojObject) : Prop where
  deleted : HasVal obj DelKey (.bool false) (.bool incDel)
  synced : HasVal obj KindContext.ObjectSyncKey (.bool false) (.bool true)
  after : After obj RevKey n
  active : ¬Excluded env obj

theorem sought_synced (hb : Builtins env root table) {k : MojDbKey} {obj : MojObject} (h : SoundObj env k obj) {incDel : Bool}
    {n : Int64} : Sought env root (syncedQuery incDel n) obj ↔ Backed env incDel n obj := by
  obtain ⟨i, hrev⟩ := h.rev
  obtain ⟨id, hid, _, harray, _, _⟩ := h.id
  have hprop : ∀ {e e' : MojDbExtractor}, e ∈ root.index.props → e' ∈ root.index.props → e.name = e'.name → e = e' :=
    fun he he' hname => MojDbIndex.eq_of_name_eq he he' hname
  have hprops := hb.rootProps
  have hdel : delProp ∈ root.index.props := by simp [hprops]
  have hsync : syncProp ∈ root.index.props := by simp [hprops]
  have hrevProp : plainProp RevKey revKey_split_ne_nil ∈ root.index.props := by simp [hprops]
  have hfindsDel : Finds root.index.text (eqClause (.bool incDel) rfl) (delProp.vals root.index.text obj) ↔
      HasVal obj DelKey (.bool false) (.bool incDel) := (finds_eqClause rfl rfl).trans vals_delProp
  have hfindsSync : Finds root.index.text (eqClause (.bool true) rfl) (syncProp.vals root.index.text obj) ↔
      HasVal obj KindContext.ObjectSyncKey (.bool false) (.bool true) := (finds_eqClause rfl rfl).trans vals_syncProp
  have hfindsRev : Finds root.index.text (afterClause n) ((plainProp RevKey revKey_split_ne_nil).vals root.index.text obj) ↔
      n < i := finds_afterClause fun part => vals_revProp hrev
  constructor
  · intro hsought
    have hfinds := hsought.finds
    simp only [syncedQuery, List.forall_mem_cons] at hfinds
    obtain ⟨⟨e, he, hname, hd⟩, ⟨e', he', hname', hs⟩, ⟨e'', he'', hname'', hr⟩, _⟩ := hfinds
    obtain rfl := hprop he hdel hname
    obtain rfl := hprop he' hsync hname'
    obtain rfl := hprop he'' hrevProp hname''
    exact ⟨hfindsDel.mp hd, hfindsSync.mp hs, ⟨i, hrev, hfindsRev.mp hr⟩, fun hexcluded => hsought.active ⟨rfl, hexcluded⟩⟩
  · intro hbacked
    obtain ⟨j, hrev', hlt⟩ := hbacked.after
    rw [hrev] at hrev'
    obtain rfl : i = j := MojObject.int.inj (Option.some.inj hrev')
    refine ⟨covers_root hb h, ⟨?_, ?_⟩, ?_, fun hexcluded => hbacked.active hexcluded.2⟩
    · simp only [MojDbIndex.includeObj, hb.rootDeleted, if_true]
    · refine ⟨_, (MojDbIndex.mem_getKeys root.index).mpr
        ⟨[(MojObject.bool incDel).toBytes, (MojObject.bool true).toBytes, (MojObject.int i).toBytes, id.toBytes], ?_, rfl⟩⟩
      rw [hprops]
      exact .cons (vals_delProp.mpr hbacked.deleted) (.cons (vals_syncProp.mpr hbacked.synced)
        (.cons ((vals_revProp hrev).mpr rfl) (.cons ((vals_idProp hid harray).mpr rfl) .nil)))
    · simp only [syncedQuery, List.forall_mem_cons]
      exact ⟨⟨_, hdel, rfl, hfindsDel.mpr hbacked.deleted⟩, ⟨_, hsync, rfl, hfindsSync.mpr hbacked.synced⟩,
        ⟨_, hrevProp, rfl, hfindsRev.mpr hlt⟩, fun _ hp => absurd hp List.not_mem_nil⟩

/-! ## The order of the keys -/

theorem keyMatches_eqClause {text : MojDbText} {b : Bool} {v : MojObject} :
    (eqClause (.bool b) rfl).KeyMatches text v ↔ v = .bool b := by
  rw [← MojDbQueryPlan.keyMatches_of_eq rfl]
  exact List.mem_singleton

/-- Under the query of a pass a key has the values of the conditions in front of the revision. -/
theorem key_of_synced (hb : Builtins env root table) {incDel : Bool} {n : Int64} {key : MojDbKey}
    (hkey : key ∈ keysFrom env d root (syncedQuery incDel n)) {obj : MojObject} {i : Int64}
    (hrev : obj.get RevKey = some (.int i)) (hhas : HasKey env root obj key) :
    ∃ rest, key = root.index.idKey ++ ((MojObject.bool incDel).toBytes ++ ((MojObject.bool true).toBytes ++
      ((MojObject.int i).toBytes ++ rest))) := by
  have hplans := plans_synced hb incDel n
  obtain ⟨vals, hvals, hparts, rfl⟩ := MojDbIndex.mem_getKeys_vals.mp hhas.mem
  have hcanHold : root.index.CanHold vals := ⟨hvals, hparts.length_eq, obj, hhas.mem⟩
  rw [(hplans.planned.open_rest d).2, List.mem_filter, decide_eq_true_eq] at hkey
  obtain ⟨-, hsatisfies⟩ := (MojDbQueryPlan.covered_iff_satisfies hcanHold hplans.planned.canAnswer hplans.complete).mp hkey.2.1
  simp only [MojDbQueryPlan.Satisfies, syncedQuery, List.forall_mem_cons] at hsatisfies
  obtain ⟨⟨e, v, hzip, hname, hmatch⟩, ⟨e', v', hzip', hname', hmatch'⟩, -⟩ := hsatisfies
  rw [keyMatches_eqClause] at hmatch hmatch'
  rw [hb.rootProps] at hparts
  obtain ⟨del, vals₁, -, hparts₁, rfl⟩ := List.forall₂_cons_right_iff.mp hparts
  obtain ⟨sync, vals₂, -, hparts₂, rfl⟩ := List.forall₂_cons_right_iff.mp hparts₁
  obtain ⟨rev, vals₃, hpart, -, rfl⟩ := List.forall₂_cons_right_iff.mp hparts₂
  have hdel : del = .bool incDel := by
    rw [← hmatch]
    refine MojDbQueryPlan.zip_val_unique (show (delProp, del) ∈ _ from ?_) hzip hname.symm
    rw [hb.rootProps]
    exact List.mem_cons_self
  have hsync : sync = .bool true := by
    rw [← hmatch']
    refine MojDbQueryPlan.zip_val_unique (show (syncProp, sync) ∈ _ from ?_) hzip' hname'.symm
    rw [hb.rootProps]
    exact List.mem_cons_of_mem _ List.mem_cons_self
  refine ⟨(vals₃.map MojObject.toBytes).flatten, ?_⟩
  rw [hdel, hsync, MojDbIndex.keyOf, List.map_cons, List.map_cons, List.map_cons, List.flatten_cons, List.flatten_cons,
    List.flatten_cons, (vals_revProp hrev).mp hpart]

/-- Keys of a pass are in the order of the revisions. -/
theorem rev_le_of_key_lt {index : MojDbIndex} {b b' : Bool} {i j : Int64} {s t : List MojByte}
    (h : index.idKey ++ ((MojObject.bool b).toBytes ++ ((MojObject.bool b').toBytes ++ ((MojObject.int i).toBytes ++ s))) <
      index.idKey ++ ((MojObject.bool b).toBytes ++ ((MojObject.bool b').toBytes ++ ((MojObject.int j).toBytes ++ t)))) :
    i ≤ j := by
  have hle := le_of_lt h
  rw [append_le_append_iff, append_le_append_iff, append_le_append_iff] at hle
  by_contra hlt
  have hcompare : (MojObject.int j).compare (.int i) = .lt := by
    change cmp j i = .lt
    rw [Int64.cmp_eq_cmp_toInt, cmp_eq_lt_iff]
    exact Int64.lt_iff_toInt_lt.mp (Int64.not_le.mp hlt)
  have hbytes := (@WhereClause.lt_toBytes_iff (.int j) (.int i) rfl rfl t).mpr hcompare
  exact absurd hle (not_le.mpr (hbytes.trans_le (le_of_isPrefix (List.prefix_append _ _))))

/-! ## Lists -/

theorem eraseDups_sublist {α : Type} [DecidableEq α] (l : List α) : l.eraseDups.Sublist l := by
  induction hn : l.length using Nat.strongRecOn generalizing l with
  | _ n ih =>
    cases l with
    | nil => exact .slnil
    | cons a l =>
      rw [List.eraseDups_cons]
      have hlt : (l.filter fun b => !b == a).length < n :=
        hn ▸ Nat.lt_succ_of_le (List.length_filter_le _ l)
      exact ((ih _ hlt _ rfl).trans List.filter_sublist).cons_cons a

theorem nodup_eraseDups {α : Type} [DecidableEq α] (l : List α) : l.eraseDups.Nodup := by
  induction hn : l.length using Nat.strongRecOn generalizing l with
  | _ n ih =>
    cases l with
    | nil => exact .nil
    | cons a l =>
      rw [List.eraseDups_cons]
      have hlt : (l.filter fun b => !b == a).length < n :=
        hn ▸ Nat.lt_succ_of_le (List.length_filter_le _ l)
      refine List.nodup_cons.mpr ⟨fun hmem => ?_, ih _ hlt _ rfl⟩
      have hkept := (List.mem_filter.mp (List.mem_eraseDups.mp hmem)).2
      simp at hkept

/-- What holds of two items in their order holds of what stands for them. -/
theorem pairwise_of_forall₂ {α β : Type} {R : α → β → Prop} {P : α → α → Prop} {Q : β → β → Prop} {xs : List α} {ys : List β}
    (h : List.Forall₂ R xs ys) (hPQ : ∀ x x' y y', R x y → R x' y' → P x x' → Q y y') (hP : xs.Pairwise P) : ys.Pairwise Q := by
  induction h with
  | nil => exact .nil
  | @cons x y xs ys hxy hrest ih =>
    rw [List.pairwise_cons] at hP ⊢
    refine ⟨fun y' hy' => ?_, ih hP.2⟩
    obtain ⟨x', hx', hxy'⟩ := exists_right hrest hy'
    exact hPQ x x' y y' hxy hxy' (hP.1 x' hx')

/-! ## What a pass has to write -/

def objRev (obj : MojObject) : Int64 :=
  match obj.get RevKey with
  | some (.int rev) => rev
  | _ => -1

theorem objRev_of_get {obj : MojObject} {rev : Int64} (h : obj.get RevKey = some (.int rev)) : objRev obj = rev := by
  rw [objRev, h]

/-- The revisions are numbers from 1 on, and no two objects have the same one. -/
structure Numbered (d : MojDbData) : Prop where
  pos : ∀ k obj, d.objs k = some obj → 1 ≤ objRev obj
  apart : ∀ k k' obj obj', d.objs k = some obj → d.objs k' = some obj' → objRev obj = objRev obj' → k = k'

/-- There are fewer objects than a query without a limit returns. -/
def Few (d : MojDbData) : Prop :=
  ∃ ks : List MojDbKey, ks.length < MojDbQuery.LimitDefault ∧ ∀ k obj, d.objs k = some obj → k ∈ ks

/-- A kind as an object; the pass over the live objects skips it. -/
def isKind (obj : MojObject) : Bool :=
  match obj.getRequiredString KindKey with
  | .ok kind => kind = KindContext.KindKindId
  | .error _ => false

/-- The objects that a pass has to write, in their order. -/
structure Due (env : MojDbEnv) (d : MojDbData) (incDel : Bool) (n : Int64) (objs : List MojObject) : Prop where
  sorted : objs.Pairwise fun x y => objRev x < objRev y
  mem_iff : ∀ obj, obj ∈ objs ↔ (∃ k, d.objs k = some obj) ∧ Backed env incDel n obj ∧ (incDel || !isKind obj) = true

theorem Due.nodup {incDel : Bool} {n : Int64} {objs : List MojObject} (h : Due env d incDel n objs) : objs.Nodup :=
  h.sorted.imp fun hlt he => by
    rw [he] at hlt
    exact Int64.lt_irrefl hlt

/-- There is one such list. -/
theorem Due.unique {incDel : Bool} {n : Int64} {objs objs' : List MojObject} (h : Due env d incDel n objs)
    (h' : Due env d incDel n objs') : objs = objs' := by
  have hperm : objs.Perm objs' := (List.perm_ext_iff_of_nodup h.nodup h'.nodup).mpr fun obj => by
    rw [h.mem_iff, h'.mem_iff]
  exact hperm.eq_of_pairwise (fun _ _ _ _ hlt hgt => absurd hgt (Int64.lt_asymm hlt)) h.sorted h'.sorted

theorem Backed.lt {incDel : Bool} {n : Int64} {obj : MojObject} (h : Backed env incDel n obj) : n < objRev obj := by
  obtain ⟨i, hrev, hlt⟩ := h.after
  rw [objRev_of_get hrev]
  exact hlt

/-- From a later revision on. -/
theorem Backed.later {incDel : Bool} {n m : Int64} {obj : MojObject} (h : Backed env incDel n obj) (hlt : m < objRev obj) :
    Backed env incDel m obj := by
  obtain ⟨i, hrev, -⟩ := h.after
  exact ⟨h.deleted, h.synced, ⟨i, hrev, objRev_of_get hrev ▸ hlt⟩, h.active⟩

/-- Behind the first object. -/
theorem Due.tail {incDel : Bool} {n : Int64} {x : MojObject} {objs : List MojObject} (h : Due env d incDel n (x :: objs)) :
    Due env d incDel (objRev x) objs := by
  obtain ⟨hfirst, hsorted⟩ := List.pairwise_cons.mp h.sorted
  refine ⟨hsorted, fun obj => ?_⟩
  constructor
  · intro hobj
    obtain ⟨hstored, hbacked, hskip⟩ := (h.mem_iff obj).mp (List.mem_cons_of_mem x hobj)
    exact ⟨hstored, hbacked.later (hfirst obj hobj), hskip⟩
  · intro ⟨hstored, hbacked, hskip⟩
    have hx := ((h.mem_iff x).mp List.mem_cons_self).2.1.lt
    have hmem := (h.mem_iff obj).mpr ⟨hstored, hbacked.later (Int64.lt_trans hx hbacked.lt), hskip⟩
    cases List.mem_cons.mp hmem with
    | inl hsame => exact absurd hbacked.lt (hsame ▸ Int64.lt_irrefl)
    | inr htail => exact htail

/-! ## What the cursor returns -/

section Cursor

variable {from_ : MojString} {query effective : MojDbQuery} {ki : MojDbKindIndex}

/-- The items of a find come one by one. -/
theorem toCome_of_find (hplans : Plans env from_ query effective ki) {items : List MojDbStorageItem} {next : MojDbKey}
    (hfind : find env d from_ query = .ok (items, next)) :
    let src := (cursorOf ki effective).source env d
    MojDbIsamReads.toCome src (d.isamStore ki effective.distinct) src.limit (.ofOpen src) = .ok items := by
  intro src
  obtain ⟨hok, -⟩ := hplans.planned.open_rest d
  rw [find, hplans.validFind, ok_bind, hplans.planned.findImpl_eq] at hfind
  dsimp only at hfind
  have hmany := @MojDbIsamReads.getMany_spec src (d.isamStore ki effective.distinct) (src.keys.size + 1) (.ofOpen src) hok
  split at hfind
  · cases hfind
  · rename_i found r hread
    have hgot : MojDbIsamReads.getMany src (d.isamStore ki effective.distinct) (src.keys.size + 1) (.ofOpen src) = (.ok found, r) :=
      hread
    rw [hgot] at hmany
    obtain ⟨-, -, hcome, hend⟩ := hmany
    obtain rfl : found = items := congrArg Prod.fst (Except.ok.inj hfind)
    rw [hcome src.limit le_rfl, hend (Nat.lt_succ_of_le (MojDbIsamQuery.length_rest_le _ _))]
    exact congrArg Except.ok (List.append_nil found)

end Cursor

/-- The owners of the keys of a pass, in the order of their revisions. -/
theorem owners_sorted (hb : Builtins env root table) (h : Valid env d) {incDel : Bool} {n : Int64} {owners : List MojObject}
    (howners : Owners env d root (syncedQuery incDel n) owners) :
    owners.Pairwise fun id id' => ∀ obj obj', d.objs id.toBytes = some obj → d.objs id'.toBytes = some obj' →
      objRev obj ≤ objRev obj' := by
  have hsorted : (keysFrom env d root (syncedQuery incDel n)).Pairwise (Before false) := by
    rw [((plans_synced hb incDel n).planned.open_rest d).2]
    exact (pairwise_before _ false).filter _
  have hmem : List.Forall₂ (fun key id => key ∈ keysFrom env d root (syncedQuery incDel n) ∧ ∃ obj, Under env d root key id obj)
      (keysFrom env d root (syncedQuery incDel n)) owners := (List.forall₂_and_left _ _).mpr ⟨fun key hkey => hkey, howners⟩
  refine pairwise_of_forall₂ hmem (fun key key' id id' hkey hkey' hlt obj obj' hobj hobj' => ?_) hsorted
  obtain ⟨hin, o, hunder⟩ := hkey
  obtain ⟨hin', o', hunder'⟩ := hkey'
  obtain rfl := Option.some.inj (hunder.stored.symm.trans hobj)
  obtain rfl := Option.some.inj (hunder'.stored.symm.trans hobj')
  obtain ⟨i, hrev⟩ := (h.sound _ _ hobj).rev
  obtain ⟨j, hrev'⟩ := (h.sound _ _ hobj').rev
  obtain ⟨s, rfl⟩ := key_of_synced hb hin hrev hunder.hasKey
  obtain ⟨t, rfl⟩ := key_of_synced hb hin' hrev' hunder'.hasKey
  rw [objRev_of_get hrev, objRev_of_get hrev']
  exact rev_le_of_key_lt hlt

/-- Owners with the same bytes are the same. -/
theorem owner_inj {key key' : MojDbKey} {id id' obj obj' : MojObject} (hunder : Under env d root key id obj)
    (hunder' : Under env d root key' id' obj') (hbytes : id.toBytes = id'.toBytes) : id = id' := by
  have hobj := hunder.stored
  rw [hbytes, hunder'.stored] at hobj
  obtain rfl := Option.some.inj hobj
  exact Option.some.inj (hunder.id_eq.symm.trans hunder'.id_eq)

/-- **The cursor of a pass returns the objects that the pass has to write**, and the kinds that it skips. -/
theorem exists_due (hb : Builtins env root table) (h : Valid env d) (hnumbered : Numbered d) (hfew : Few d) (incDel : Bool)
    (n : Int64) :
    let src := (cursorOf root (syncedQuery incDel n)).source env d
    ∃ items objs, MojDbIsamReads.toCome src (d.isamStore root (syncedQuery incDel n).distinct) src.limit (.ofOpen src) = .ok items ∧
      List.Forall₂ (fun item obj => item.toObject = .ok obj) items objs ∧ (∀ obj ∈ objs, ∃ k, d.objs k = some obj) ∧
      Due env d incDel n (objs.filter fun obj => incDel || !isKind obj) := by
  intro src
  have hplans := plans_synced hb incDel n
  obtain ⟨owners, howners, items, next, hfind, hids, hnext, hitems, hall⟩ :=
    find_first hb.plain hplans rfl h rfl (show 0 < MojDbQuery.LimitDefault by decide)
  have hunder : ∀ id ∈ owners, ∃ key obj, Under env d root key id obj := by
    intro id hid
    obtain ⟨key, -, obj, hunder⟩ := exists_right howners hid
    exact ⟨key, obj, hunder⟩
  have hinj : ∀ id ∈ owners.eraseDups, ∀ id' ∈ owners.eraseDups, id.toBytes = id'.toBytes → id = id' := by
    intro id hid id' hid' hbytes
    obtain ⟨key, obj, hunderId⟩ := hunder id (List.mem_eraseDups.mp hid)
    obtain ⟨key', obj', hunderId'⟩ := hunder id' (List.mem_eraseDups.mp hid')
    exact owner_inj hunderId hunderId' hbytes
  have hnodup : (owners.eraseDups.map MojObject.toBytes).Nodup := (nodup_eraseDups owners).map_on hinj
  -- the limit is out of reach
  have hlimit : owners.eraseDups.length < (syncedQuery incDel n).limit := by
    obtain ⟨ks, hks, hmem⟩ := hfew
    have hsub : owners.eraseDups.map MojObject.toBytes ⊆ ks := by
      intro k hk
      obtain ⟨id, hid, rfl⟩ := List.mem_map.mp hk
      obtain ⟨key, obj, hunderId⟩ := hunder id (List.mem_eraseDups.mp hid)
      exact hmem _ obj hunderId.stored
    have hle := (List.subperm_of_subset hnodup hsub).length_le
    rw [List.length_map] at hle
    exact hle.trans_lt hks
  rw [List.take_of_length_le hlimit.le] at hids
  have hend : next = [] := by
    refine hnext.mpr ?_
    rwa [← List.length_map, hids]
  obtain ⟨objs, hobjs⟩ : ∃ objs, List.Forall₂ (fun (item : MojDbStorageItem) obj => d.objs item.id.toBytes = some obj ∧
      item.toObject = .ok obj ∧ Sought env root (syncedQuery incDel n) obj) items objs := by
    obtain ⟨objs, hobjs⟩ := MojDbQueryPlan.exists_forall₂ hitems
    exact ⟨objs, hobjs.flip⟩
  have hstored : ∀ obj ∈ objs, ∃ k, d.objs k = some obj := by
    intro obj hobj
    obtain ⟨item, -, hobj, -⟩ := exists_right hobjs hobj
    exact ⟨_, hobj⟩
  refine ⟨items, objs, toCome_of_find hplans hfind, hobjs.imp fun item obj hobj => hobj.2.1, hstored, ?_, fun obj => ?_⟩
  · have hrevs := (owners_sorted hb h howners).sublist (eraseDups_sublist owners)
    have hboth := hrevs.and (List.pairwise_map.mp hnodup)
    rw [← hids, List.pairwise_map] at hboth
    refine (pairwise_of_forall₂ hobjs (fun item item' obj obj' hobj hobj' hle => ?_) hboth).filter _
    exact Int64.lt_of_le_of_ne (hle.1 obj obj' hobj.1 hobj'.1) fun hsame =>
      hle.2 (hnumbered.apart _ _ obj obj' hobj.1 hobj'.1 hsame)
  · rw [List.mem_filter]
    constructor
    · intro ⟨hobj, hskip⟩
      obtain ⟨item, -, hobj, -, hsought⟩ := exists_right hobjs hobj
      exact ⟨⟨_, hobj⟩, (sought_synced hb (h.sound _ obj hobj)).mp hsought, hskip⟩
    · intro ⟨⟨k, hobj⟩, hbacked, hskip⟩
      refine ⟨?_, hskip⟩
      obtain ⟨item, hitem, hbytes⟩ := hall hend k obj hobj ((sought_synced hb (h.sound k obj hobj)).mpr hbacked)
      obtain ⟨obj', hmem, hobj', -⟩ := exists_left hobjs hitem
      rw [hbytes, hobj] at hobj'
      exact Option.some.inj hobj' ▸ hmem

/-! ## The loop -/

def lineSize (obj : MojObject) : Nat := (dumpLine obj).length

/-- There is room for so many bytes; a size of 0 is no limit. -/
def fitsIn (maxBytes n : Nat) : Bool := maxBytes = 0 || n ≤ maxBytes

def DumpFile.add (file : DumpFile) (objs : List MojObject) : DumpFile :=
  ⟨file.objs ++ objs, file.bytesWritten + (objs.map lineSize).sum⟩

@[simp] theorem DumpFile.add_nil (file : DumpFile) : file.add [] = file := by simp [add]

theorem DumpFile.add_add (file : DumpFile) (objs objs' : List MojObject) : (file.add objs).add objs' = file.add (objs ++ objs') := by
  simp [add, Nat.add_assoc]

theorem dumpObj_eq (maxBytes : Nat) (file : DumpFile) (obj : MojObject) :
    dumpObj maxBytes file obj = if fitsIn maxBytes (file.bytesWritten + lineSize obj) then some (file.add [obj]) else none := by
  have hroom : (maxBytes ≠ 0 ∧ maxBytes < file.bytesWritten + (dumpLine obj).length) ↔
      ¬fitsIn maxBytes (file.bytesWritten + lineSize obj) = true := by
    rw [fitsIn, lineSize]
    simp
  rw [dumpObj]
  split_ifs with hfull hfits hfits
  · exact absurd hfits (hroom.mp hfull)
  · rfl
  · rfl
  · exact absurd (hroom.mpr hfits) hfull

/-- The last revision that was written. -/
def lastRev (curRev : Option MojObject) (objs : List MojObject) : Option MojObject :=
  objs.foldl (fun _ obj => some (.int (objRev obj))) curRev

/-- An object has a kind and a revision. -/
def Readable (obj : MojObject) : Prop :=
  (∃ kind, obj.getRequiredString KindKey = .ok kind) ∧ obj.get RevKey = some (.int (objRev obj))

theorem readable_of_sound {k : MojDbKey} {obj : MojObject} (h : SoundObj env k obj) : Readable obj := by
  obtain ⟨rev, hrev⟩ := h.rev
  obtain ⟨kind, hkind⟩ := h.kind
  refine ⟨?_, by rw [objRev_of_get hrev, hrev]⟩
  rw [getRequiredString, (RevKinds.getKind_eq_ok hkind).1]
  exact ⟨_, rfl⟩

theorem dumpNext_eq {skipKinds : Bool} {maxBytes : Nat} {pass : DumpPass} {obj : MojObject} (h : Readable obj) :
    dumpNext skipKinds maxBytes pass obj =
      .ok (if (!skipKinds || !isKind obj) = true then
        if fitsIn maxBytes (pass.file.bytesWritten + lineSize obj) then
          some { pass with file := pass.file.add [obj], count := pass.count + 1, curRev := some (.int (objRev obj)) }
        else none
      else some pass) := by
  obtain ⟨⟨kind, hkind⟩, hrev⟩ := h
  have hget : obj.getRequired RevKey = .ok (.int (objRev obj)) := by rw [MojObject.getRequired, hrev]
  have hkindOf : isKind obj = decide (kind = KindContext.KindKindId) := by rw [isKind, hkind]
  rw [dumpNext, dumpObj_eq, hget]
  generalize fitsIn maxBytes (pass.file.bytesWritten + lineSize obj) = fits
  cases skipKinds with
  | false =>
    cases fits with
    | false => rfl
    | true => rfl
  | true =>
    rw [hkind, hkindOf]
    simp only [Except.map, ok_bind, if_true]
    cases decide (kind = KindContext.KindKindId) with
    | true => rfl
    | false =>
      cases fits with
      | false => rfl
      | true => rfl

/-- What the loop has done of its objects when it stops. -/
structure Filled (maxBytes : Nat) (pass : DumpPass) (objs : List MojObject) (pass' : DumpPass) (full : Bool) : Prop where
  file : pass'.file = pass.file.add (Fill.fill (fitsIn maxBytes) lineSize pass.file.bytesWritten objs).1
  curRev : pass'.curRev = lastRev pass.curRev (Fill.fill (fitsIn maxBytes) lineSize pass.file.bytesWritten objs).1
  full_eq : full = !(Fill.fill (fitsIn maxBytes) lineSize pass.file.bytesWritten objs).2.isEmpty

namespace Filled

variable {maxBytes : Nat} {pass pass' : DumpPass} {full : Bool} {obj : MojObject} {objs : List MojObject}

theorem nil : Filled maxBytes pass [] pass false := ⟨(DumpFile.add_nil _).symm, rfl, rfl⟩

/-- The object does not fit. -/
theorem stop (h : ¬fitsIn maxBytes (pass.file.bytesWritten + lineSize obj) = true) : Filled maxBytes pass (obj :: objs) pass true := by
  have hfill : Fill.fill (fitsIn maxBytes) lineSize pass.file.bytesWritten (obj :: objs) = ([], obj :: objs) := by
    rw [Fill.fill, if_neg h]
  refine ⟨?_, ?_, ?_⟩
  · rw [hfill, DumpFile.add_nil]
  · rw [hfill]
    rfl
  · rw [hfill]
    rfl

/-- The object is written. -/
theorem cons (hfits : fitsIn maxBytes (pass.file.bytesWritten + lineSize obj) = true)
    (h : Filled maxBytes { pass with file := pass.file.add [obj], count := pass.count + 1, curRev := some (.int (objRev obj)) }
      objs pass' full) : Filled maxBytes pass (obj :: objs) pass' full := by
  have hused : (pass.file.add [obj]).bytesWritten = pass.file.bytesWritten + lineSize obj := by
    rw [DumpFile.add, List.map_singleton, List.sum_singleton]
  obtain ⟨hfile, hcurRev, hfull⟩ := h
  dsimp only at hfile hcurRev hfull
  rw [hused] at hfile hcurRev hfull
  have hfill : Fill.fill (fitsIn maxBytes) lineSize pass.file.bytesWritten (obj :: objs) =
      (obj :: (Fill.fill (fitsIn maxBytes) lineSize (pass.file.bytesWritten + lineSize obj) objs).1,
        (Fill.fill (fitsIn maxBytes) lineSize (pass.file.bytesWritten + lineSize obj) objs).2) := by
    rw [Fill.fill, if_pos hfits]
  refine ⟨?_, ?_, ?_⟩
  · rw [hfill, hfile, DumpFile.add_add]
    rfl
  · rw [hfill, hcurRev]
    rfl
  · rw [hfill, hfull]

end Filled

section Loop

variable {src : MojDbIsamQuery.Source} {st : MojDbIsamStore} {skipKinds : Bool} {maxBytes : Nat}

/-- **The loop writes the objects that come, up to the first one that does not fit.** -/
theorem dumpLoop_fill {calls : Nat} {r : MojDbIsamReads} (hok : Ok src r.query) (hcalls : (rest src r.query).length < calls)
    {items : List MojDbStorageItem} (hcome : MojDbIsamReads.toCome src st src.limit r = .ok items) {objs : List MojObject}
    (hobjs : List.Forall₂ (fun item obj => item.toObject = .ok obj) items objs) (hread : ∀ obj ∈ objs, Readable obj)
    (pass : DumpPass) :
    ∃ pass' full, dumpLoop src st skipKinds maxBytes calls r pass = .ok (pass', full) ∧
      Filled maxBytes pass (objs.filter fun obj => !skipKinds || !isKind obj) pass' full := by
  induction calls generalizing r items objs pass with
  | zero => exact absurd hcalls (Nat.not_lt_zero _)
  | succ calls ih =>
    rw [dumpLoop]
    have hgot := @MojDbIsamReads.get_spec src st r hok
    generalize hget : r.get src st = got at hgot ⊢
    cases hgot with
    | none ok count ends toCome_eq rest_le =>
      rw [toCome_eq src.limit le_rfl, ends] at hcome
      obtain rfl := Except.ok.inj hcome
      cases hobjs
      exact ⟨pass, false, rfl, .nil⟩
    | @fault r' fault ok count toCome_eq rest_lt =>
      have hsame := toCome_eq src.limit le_rfl
      rw [hcome] at hsame
      split_ifs at hsame with hghost
      · -- a ghost key is passed over
        dsimp only
        rw [if_pos hghost]
        obtain ⟨pass', full, hloop, hfilled⟩ := ih ok (by omega) hsame.symm hobjs hread { pass with warns := pass.warns + 1 }
        exact ⟨pass', full, hloop, hfilled.file, hfilled.curRev, hfilled.full_eq⟩
    | @item r' item ok count toCome_eq rest_lt =>
      have hsame := toCome_eq src.limit le_rfl
      rw [hcome] at hsame
      cases hrest : MojDbIsamReads.toCome src st src.limit r' with
      | error fault =>
        rw [hrest] at hsame
        cases hsame
      | ok items' =>
        rw [hrest] at hsame
        obtain rfl := Except.ok.inj hsame
        obtain ⟨obj, objs', hobj, hobjs', rfl⟩ := List.forall₂_cons_left_iff.mp hobjs
        have hnext := fun pass => ih ok (by omega) hrest hobjs' (fun o ho => hread o (List.mem_cons_of_mem obj ho)) pass
        dsimp only
        rw [hobj, ok_bind, dumpNext_eq (hread obj List.mem_cons_self)]
        by_cases hskip : (!skipKinds || !isKind obj) = true
        · have hfilter : (obj :: objs').filter (fun obj => !skipKinds || !isKind obj) =
              obj :: objs'.filter fun obj => !skipKinds || !isKind obj := List.filter_cons_of_pos hskip
          rw [if_pos hskip, hfilter]
          by_cases hfits : fitsIn maxBytes (pass.file.bytesWritten + lineSize obj) = true
          · rw [if_pos hfits]
            obtain ⟨pass', full, hloop, hfilled⟩ := hnext
              { pass with file := pass.file.add [obj], count := pass.count + 1, curRev := some (.int (objRev obj)) }
            exact ⟨pass', full, hloop, hfilled.cons hfits⟩
          · rw [if_neg hfits]
            exact ⟨pass, true, rfl, .stop hfits⟩
        · have hfilter : (obj :: objs').filter (fun obj => !skipKinds || !isKind obj) =
              objs'.filter fun obj => !skipKinds || !isKind obj := List.filter_cons_of_neg hskip
          rw [if_neg hskip, hfilter]
          exact hnext pass

end Loop

end MojDb

end Db8
