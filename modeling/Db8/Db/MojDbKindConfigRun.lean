import Db8.Db.MojDbKindConfig
import Db8.Db.MojDbKindGraphDb
import Db8.Lib.Run

/-!
# Db.MojDbKindConfigRun

Runs of `putKind` for one kind id, with the kind in memory and its definition in the store.

* `KindReq`, `perform`     — the puts of one request: each changes the kind in memory at once.
* `SameAsLoaded`           — the kind behaves like the one that is loaded from the committed definition.
* `openedSupers`           — the supers that loading the stored kinds one by one gives it.
* `Safe`                   — the requests that keep it so.
* `sameAsLoaded_of_run`    — it is so after a run of such requests.
-/

namespace Db8

open Lib MojDbKind
open MojDbQuotaEngine (RootKindId)
open KindGraph (ListsSound Settled named place foldl_place foldl_place_nil)
open KindGraphDb (builtinIds openBuiltins builtinIds_subset openBuiltins_spec fits_of_sound settled_foldl supers_foldl)

/-- How the reload of a kind ends: it may fail before the kind is taken out of the map, or after. -/
inductive Reload where
  | done | failedBefore | failedAfter
  deriving DecidableEq

/-- A call of `putKind`. `putFailure` is an error of the object's own put, `hashFailure` one of the shard engine,
and `reload` how a reload ends if there is one. -/
structure KindPut where
  obj : MojObject
  rev : Int64
  caller : Caller
  putFailure : Option MojErr
  fault : Option Fault
  hashFailure : Option MojErr
  reload : Reload

/-- The id of the kind, what its definitions are read with, and the other stored kinds: those that `loadKinds` finds
before it and those behind it, with the lists of kinds they extend. `order` is that of the kind map. -/
structure KindContext where
  id : MojString
  readers : Readers
  rootKind : Bool
  earlier : List MojString
  later : List MojString
  lists : MojString → List MojString
  order : List MojString
  nodup : (builtinIds true ++ (earlier ++ id :: later)).Nodup
  builtin_nil : ∀ k ∈ builtinIds true, lists k = []

/-- A request. `view` is the definition its transaction sees, `stored` the committed one. -/
structure KindReq where
  memory : Option Config
  view : Option MojObject
  stored : Option MojObject
  err : Option MojErr

namespace KindContext

variable (ctx : KindContext)

/-- `formatKindId`: `_kinds/`, then the id. -/
def dbId : MojString := MojString.append ⟨[95, 107, 105, 110, 100, 115, 47], by decide⟩ ctx.id

/-- The definition with its `_kind` and its `_id`. -/
def named (obj : MojObject) : MojObject := (obj.put MojDb.KindKey (.string KindKindId)).put MojDb.IdKey (.string ctx.dbId)

/-- The definition as it is stored. -/
def definition (p : KindPut) : MojObject := (ctx.named p.obj).put MojDb.RevKey (.int p.rev)

/-- The special properties are not compared. -/
def stripped (obj : MojObject) : MojObject :=
  (((obj.del MojDb.DelKey).del MojDb.IdKey).del MojDb.RevKey).del ObjectSyncKey

/-- `checkSameKind`. -/
def isSame (r : KindReq) (p : KindPut) : Bool :=
  match r.memory, r.view with
  | some _, some prev => !prev.isDeleted && stripped (ctx.named p.obj) = stripped prev
  | _, _ => false

/-- The kinds in memory, without the kind itself. -/
def registered : List MojString := builtinIds ctx.rootKind ++ (ctx.earlier ++ ctx.later)

/-- The kind that is made from a definition alone, among the kinds in memory. -/
def load (obj : MojObject) : Configured := configure ctx.readers ctx.registered ctx.id loader none init obj

/-- `MojDbKindEngine::putKind`: what is left in the map, and the error. -/
def putKindEngine (memory : Option Config) (p : KindPut) (obj : MojObject) : Option Config × Option MojErr :=
  match memory with
  | none =>
    match configure ctx.readers ctx.registered ctx.id p.caller p.fault init obj with
    | .ok c => (some c, p.hashFailure)
    | .error e => (none, some e.1)
  | some c =>
    match configure ctx.readers ctx.registered ctx.id p.caller p.fault c obj with
    | .ok c => (some c, p.hashFailure)
    | .error e => (some e.2, some e.1)

/-- The lists of the stored kinds, with that of the kind. -/
def listsWith (superIds : List MojString) : MojString → List MojString := fun j => if j = ctx.id then superIds else ctx.lists j

/-- The supers of the kind after `loadKinds` has put the stored kinds one by one. -/
def openedSupers (superIds : List MojString) : List MojString :=
  ((ctx.earlier ++ ctx.id :: ctx.later).foldl
    (fun g j => (g.putKind ctx.order j (ctx.listsWith superIds j) false none none).left)
    (openBuiltins ctx.order ctx.rootKind)).links.supers ctx.id

/-- The kind that `loadKinds` makes from a definition. -/
def opened (obj : MojObject) : Option Config :=
  (ctx.load obj).toOption.map fun c => { c with supers := ctx.openedSupers c.superIds }

/-- `MojDbKindEngine::loadKinds`, which finds no deleted definition. -/
def loadKinds (stored : Option MojObject) : Option Config :=
  match stored with
  | none => none
  | some obj => if obj.isDeleted then none else ctx.opened obj

/-- `MojDb::reloadKind`: a kind that is not stored is deleted, one that is stored is made anew. -/
def reloadKind (stored : Option MojObject) (memory : Option Config) : Reload → Option Config
  | .failedBefore => memory
  | .failedAfter => none
  | .done =>
    match stored with
    | none => none
    | some obj => (ctx.load obj).toOption

/-- `MojDb::putKind` up to its commit. When the kind engine throws, `commitKind` aborts the transaction and loads
the kind again. -/
def perform (r : KindReq) (p : KindPut) : KindReq :=
  if r.err.isSome then r
  else if ctx.isSame r p then
    match checkUpdate p.caller ((r.memory.map Config.owner).getD .empty) with
    | .ok () => r
    | .error err => { r with err := some err }
  else
    match p.putFailure with
    | some err => { r with err := some err }
    | none =>
      match ctx.putKindEngine r.memory p (ctx.definition p) with
      | (memory, none) => { r with memory := memory, view := some (ctx.definition p) }
      | (memory, some err) => ⟨ctx.reloadKind r.stored memory p.reload, r.stored, r.stored, some err⟩

end KindContext

/-- The kind in memory and its committed definition. -/
structure KindDb where
  memory : Option Config
  stored : Option MojObject

namespace KindDb

/-- `putKind` as a request of its own, `batch` several that are nested in one that commits at its end: a batch
that fails to commit does not load the kind again. -/
inductive Action where
  | restart
  | putKind (p : KindPut) (commits : Bool)
  | batch (ps : List KindPut) (commits : Bool)

variable (ctx : KindContext)

def begin (db : KindDb) : KindReq := ⟨db.memory, db.stored, db.stored, none⟩

def step (db : KindDb) : Action → KindDb
  | .restart => ⟨ctx.loadKinds db.stored, db.stored⟩
  | .putKind p commits =>
    let r := ctx.perform db.begin p
    if r.err.isSome || ctx.isSame db.begin p then ⟨r.memory, db.stored⟩
    else if commits then ⟨r.memory, r.view⟩
    else ⟨ctx.reloadKind db.stored r.memory p.reload, db.stored⟩
  | .batch ps commits =>
    let r := run ctx.perform db.begin ps
    if commits && r.err.isNone then ⟨r.memory, r.view⟩ else ⟨r.memory, db.stored⟩

/-- The kind behaves like the one that opening the database makes of its committed definition, and is there only
if that one is. -/
def SameAsLoaded (db : KindDb) : Prop :=
  match ctx.loadKinds db.stored with
  | none => db.memory = none
  | some d => ∃ c, db.memory = some c ∧ Behaves c d

/-! ## Requests that keep it -/

/-- The definition is accepted, and the shard engine does not throw. -/
def Takes (r : KindReq) (p : KindPut) : Prop :=
  (∃ owner defs revSets, Accepts ctx.readers p.caller p.fault (r.memory.getD init) (ctx.definition p) owner defs revSets) ∧
    p.hashFailure = none

/-- The kind is put, not skipped, and its object is stored. -/
def Puts (r : KindReq) (p : KindPut) : Prop := ctx.isSame r p = false ∧ p.putFailure = none

/-- The kinds extend each other without a cycle, without repeats, and the root kind only alone; and the kinds that are
loaded behind the kind come last in its list, as they are loaded. -/
structure InOrder (superIds : List MojString) : Prop where
  lists : ListsSound (builtinIds true ++ (ctx.earlier ++ ctx.id :: ctx.later)) (ctx.listsWith superIds)
  order : named ctx.registered superIds =
    named (builtinIds ctx.rootKind ++ ctx.earlier) superIds ++ ctx.later.filter (· ∈ superIds)

/-- The definition is live, says again what the kind keeps, and extends kinds in the order in which they are loaded. -/
structure RestatedBy (r : KindReq) (p : KindPut) : Prop where
  live : (ctx.definition p).isDeleted = false
  restates : ∀ c ∈ r.memory, Restates c (ctx.definition p)
  inOrder : InOrder ctx (superIdsOf (ctx.definition p))

/-- The kind is rejected and loaded again. -/
def Rejected (r : KindReq) (p : KindPut) : Prop :=
  r.err = none ∧ Puts ctx r p ∧ ¬Takes ctx r p ∧ p.reload = .done

/-- A put that takes effect is live and restates what the kind keeps, and whatever is not committed is loaded again. In a
batch nothing is, unless the kind engine rejects a definition. -/
def Safe (db : KindDb) : Action → Prop
  | .restart => True
  | .putKind p commits => Puts ctx db.begin p →
    if commits = true then
      (Takes ctx db.begin p → RestatedBy ctx db.begin p) ∧ (¬Takes ctx db.begin p → p.reload = .done)
    else p.reload = .done
  | .batch ps commits =>
    if commits && (run ctx.perform db.begin ps).err.isNone then
      Along ctx.perform (fun r p => Puts ctx r p → RestatedBy ctx r p) db.begin ps
    else
      Along ctx.perform (fun r p => r.err = none → Puts ctx r p → Rejected ctx r p) db.begin ps ∨
      ∃ qs p rest, ps = qs ++ p :: rest ∧ Rejected ctx (run ctx.perform db.begin qs) p

/-! ## The supers -/

section Supers

variable {ctx} {superIds : List MojString}

/-- Kinds that come behind those that are there already. -/
theorem foldl_place_append {root : Prop} [Decidable root] {ss later : List MojString}
    (halone : RootKindId ∈ ss ++ later → ss ++ later = [RootKindId]) :
    later.foldl place (if ss = [] ∧ root then [RootKindId] else ss) =
      if ss ++ later = [] ∧ root then [RootKindId] else ss ++ later := by
  have hcons : ∀ {t : MojString} {ts : List MojString}, (RootKindId ∈ t :: ts → t :: ts = [RootKindId]) →
      ts.foldl place [t] = t :: ts := by
    intro t ts halone
    by_cases ht : t = RootKindId
    · obtain ⟨rfl, rfl⟩ := List.cons.inj (halone (ht ▸ List.mem_cons_self))
      rfl
    · exact foldl_place (List.cons_ne_nil t []) (by simpa using ht) ts
  cases ss with
  | nil =>
    cases later with
    | nil => simp only [List.append_nil, List.foldl_nil]
    | cons s later =>
      -- the root kind gives way, if it is there
      have hplace : ∀ supers : List MojString, supers = [RootKindId] ∨ supers = [] → place supers s = [s] := by
        rintro supers (rfl | rfl)
        · rfl
        · rfl
      have hnone : ¬([] ++ s :: later = [] ∧ root) := fun h => List.cons_ne_nil s later h.1
      rw [if_neg hnone, List.foldl_cons, hplace]
      · exact hcons halone
      · split_ifs
        · exact .inl rfl
        · exact .inr rfl
  | cons t ss =>
    rw [if_neg fun h => List.cons_ne_nil t ss h.1, if_neg fun h => List.cons_ne_nil t (ss ++ later) h.1]
    by_cases ht : t = RootKindId
    · have hnil : ss = [] ∧ later = [] := List.append_eq_nil_iff.mp (List.cons.inj (halone (ht ▸ List.mem_cons_self))).2
      rw [hnil.1, hnil.2]
      rfl
    · exact foldl_place (List.cons_ne_nil t ss) (by simpa using ht) later

namespace InOrder

theorem root_alone (h : InOrder ctx superIds) (hroot : RootKindId ∈ named ctx.registered superIds) :
    named ctx.registered superIds = [RootKindId] := by
  obtain ⟨hin, hregistered⟩ := KindGraph.mem_named.mp hroot
  have hlist : ctx.listsWith superIds ctx.id = superIds := if_pos rfl
  have hsole := h.lists.root_alone ctx.id (by simp) (hlist.symm ▸ hin)
  rw [hlist] at hsole
  rw [hsole]
  simp [named, hregistered]

/-- What `updateSupers` leaves in memory. -/
theorem updateSupers_eq (h : InOrder ctx superIds) :
    updateSupers ctx.registered ctx.id superIds =
      if named ctx.registered superIds = [] ∧ RootKindId ∈ ctx.registered ∧ ctx.id ≠ RootKindId then [RootKindId]
      else named ctx.registered superIds := by
  have hdue : superIds.filter (fun s => s ∈ ctx.registered ∧ s ≠ ctx.id) = named ctx.registered superIds := by
    refine List.filter_congr fun s hs => ?_
    have hne : s ≠ ctx.id := by
      rintro rfl
      have hlist : ctx.listsWith superIds ctx.id = superIds := if_pos rfl
      exact h.lists.self_notMem (by simp) (hlist.symm ▸ hs)
    simp [hne]
  have hfold : (named ctx.registered superIds).foldl addSuper [] = named ctx.registered superIds :=
    foldl_place_nil h.root_alone
  unfold updateSupers
  rw [hdue, hfold]
  cases named ctx.registered superIds with
  | nil => simp
  | cons s ss => simp

/-- **Where the lists are in order, loading the kinds one by one gives the kind the supers it has in memory.** -/
theorem openedSupers_eq (h : InOrder ctx superIds) :
    ctx.openedSupers superIds = updateSupers ctx.registered ctx.id superIds := by
  obtain ⟨hbuiltins, hbuiltinIds, hbuiltinLists⟩ := openBuiltins_spec ctx.order ctx.rootKind
  obtain ⟨-, hnodup, hdisjoint⟩ := List.nodup_append.mp ctx.nodup
  obtain ⟨-, hlater, hapart⟩ := List.nodup_append.mp hnodup
  obtain ⟨hself, hlater⟩ := List.nodup_cons.mp hlater
  have hroot : ∀ j ∈ ctx.earlier ++ ctx.id :: ctx.later, j ≠ RootKindId := fun j hj he =>
    hdisjoint RootKindId List.mem_cons_self j hj he.symm
  have hlist : ctx.listsWith superIds ctx.id = superIds := if_pos rfl
  have hids : ∀ j ∈ ctx.earlier ++ ctx.id :: ctx.later, j ∈ builtinIds true ++ (ctx.earlier ++ ctx.id :: ctx.later) :=
    fun j hj => List.mem_append_right _ hj
  -- the kinds before it
  have hsame : ∀ j ∈ (openBuiltins ctx.order ctx.rootKind).ids,
      (openBuiltins ctx.order ctx.rootKind).superIds j = ctx.listsWith superIds j := by
    intro j hj
    have hbuiltin := builtinIds_subset ((hbuiltinIds j).mp hj)
    have hne : j ≠ ctx.id := fun he => hdisjoint j hbuiltin ctx.id (by simp) he
    rw [hbuiltinLists j hj]
    exact ((if_neg hne).trans (ctx.builtin_nil j hbuiltin)).symm
  obtain ⟨hearly, hearlyIds, hearlyLists⟩ := settled_foldl h.lists ctx.order false ctx.earlier
    (fun j hj => ⟨hids j (List.mem_append_left _ hj), hroot j (List.mem_append_left _ hj)⟩) hbuiltins
    (fun s hs => List.mem_append_left _ (builtinIds_subset ((hbuiltinIds s).mp hs))) hsame
  have hmem : ∀ s, s ∈ (ctx.earlier.foldl
      (fun g j => (g.putKind ctx.order j (ctx.listsWith superIds j) false none none).left)
      (openBuiltins ctx.order ctx.rootKind)).ids ↔ s ∈ builtinIds ctx.rootKind ++ ctx.earlier := by
    intro s
    rw [hearlyIds, hbuiltinIds, List.mem_append]
  unfold KindContext.openedSupers
  rw [List.foldl_append, List.foldl_cons, hlist]
  generalize ctx.earlier.foldl (fun g j => (g.putKind ctx.order j (ctx.listsWith superIds j) false none none).left)
    (openBuiltins ctx.order ctx.rootKind) = g at hearly hearlyLists hmem ⊢
  have hin : ∀ s ∈ g.ids, s ∈ builtinIds true ++ (ctx.earlier ++ ctx.id :: ctx.later) := by
    intro s hs
    rcases List.mem_append.mp ((hmem s).mp hs) with hs | hs
    · exact List.mem_append_left _ (builtinIds_subset hs)
    · exact hids s (List.mem_append_left _ hs)
  have hnew : ctx.id ∉ g.ids := by
    intro hmemid
    rcases List.mem_append.mp ((hmem ctx.id).mp hmemid) with hb | he
    · exact hdisjoint ctx.id (builtinIds_subset hb) ctx.id (by simp) rfl
    · exact hapart ctx.id he ctx.id List.mem_cons_self rfl
  have hidroot : ctx.id ≠ RootKindId := hroot ctx.id (by simp)
  -- the kind itself
  have hfits := fits_of_sound h.lists hin hearlyLists hearly.lists.root_nil (hids ctx.id (by simp))
    fun he => absurd he hidroot
  rw [hlist] at hfits
  obtain ⟨g', hput, hg', hwith⟩ := (KindGraph.putKind_spec hearly hfits ctx.order false none none).1 ⟨rfl, rfl⟩
  have hleft : (g.putKind ctx.order ctx.id superIds false none none).left = g' := by
    rw [hput]
    rfl
  have hsupers := (KindGraph.supers_putKind hearly hfits hnew ctx.order false).1
  rw [hleft] at hsupers ⊢
  -- the kinds behind it
  have hlaterNew : ∀ j ∈ ctx.later, j ∈ builtinIds true ++ (ctx.earlier ++ ctx.id :: ctx.later) ∧ j ≠ RootKindId ∧
      j ∉ g'.ids := by
    intro j hj
    have hjin : j ∈ ctx.earlier ++ ctx.id :: ctx.later := by simp [hj]
    refine ⟨hids j hjin, hroot j hjin, fun hjids => ?_⟩
    rcases (hwith.ids j).mp hjids with he | hjg
    · exact hself (he ▸ hj)
    · rcases List.mem_append.mp ((hmem j).mp hjg) with hb | he
      · exact hdisjoint j (builtinIds_subset hb) j hjin rfl
      · exact hapart j he j (List.mem_cons_of_mem _ hj) rfl
  have hlists' : ∀ j ∈ g'.ids, g'.superIds j = ctx.listsWith superIds j := by
    intro j hj
    rw [hwith.superIds]
    split_ifs with hjid
    · rw [hjid, hlist]
    · exact hearlyLists j (((hwith.ids j).mp hj).resolve_left hjid)
  have hin' : ∀ s ∈ g'.ids, s ∈ builtinIds true ++ (ctx.earlier ++ ctx.id :: ctx.later) := by
    intro s hs
    rcases (hwith.ids s).mp hs with he | hs
    · exact he ▸ hids ctx.id (by simp)
    · exact hin s hs
  have hnamed : named g.ids superIds = named (builtinIds ctx.rootKind ++ ctx.earlier) superIds :=
    KindGraph.named_congr (fun s => hmem s) superIds
  have hrootmem : RootKindId ∈ g.ids ↔ RootKindId ∈ ctx.registered := by
    rw [hmem]
    unfold KindContext.registered
    simp only [List.mem_append]
    have hnot : RootKindId ∉ ctx.later := fun hl => hroot RootKindId (by simp [hl]) rfl
    simp [hnot]
  rw [supers_foldl h.lists ctx.order hlaterNew hlater hg' hin' hlists' ((hwith.ids ctx.id).mpr (.inl rfl)), hsupers, hlist,
    hnamed, foldl_place_append (by rw [← h.order]; exact h.root_alone), ← h.order, h.updateSupers_eq]
  simp only [hrootmem]

end InOrder

end Supers

/-! ## What is kept -/

/-- The kind in memory and a definition: the definition can be loaded, and the kind behaves like that. -/
structure Loaded (memory : Option Config) (obj : MojObject) : Prop where
  live : obj.isDeleted = false
  inOrder : InOrder ctx (superIdsOf obj)
  behaves : ∃ c d, memory = some c ∧ ctx.opened obj = some d ∧ Behaves c d
  indexed : ∀ c ∈ memory, Indexed ctx.readers c

def Inv (memory : Option Config) (stored : Option MojObject) : Prop :=
  match stored with
  | none => memory = none
  | some obj => Loaded ctx memory obj

variable {ctx} {memory : Option Config} {stored : Option MojObject} {obj : MojObject} {r : KindReq} {p : KindPut}

/-- The supers apart, that is the kind loaded among the kinds in memory. -/
theorem opened_eq (h : InOrder ctx (superIdsOf obj)) : ctx.opened obj = (ctx.load obj).toOption := by
  unfold KindContext.opened
  cases hload : ctx.load obj with
  | error e => rfl
  | ok d =>
    obtain ⟨owner, defs, revSets, -, rfl⟩ := configure_eq_ok.mp hload
    have hsupers := h.openedSupers_eq
    simp only [Except.toOption, Option.map_some, update, hsupers]

theorem Inv.sameAsLoaded {db : KindDb} (h : Inv ctx db.memory db.stored) : SameAsLoaded ctx db := by
  unfold SameAsLoaded KindContext.loadKinds
  unfold Inv at h
  cases hstored : db.stored with
  | none =>
    rw [hstored] at h
    exact h
  | some obj =>
    rw [hstored] at h
    obtain ⟨c, d, hmemory, hload, hbehaves⟩ := h.behaves
    simp only [h.live, Bool.false_eq_true, if_false, hload]
    exact ⟨c, hmemory, hbehaves⟩

theorem indexed_opened {d : Config} (hinOrder : InOrder ctx (superIdsOf obj)) (h : ctx.opened obj = some d) :
    Indexed ctx.readers d := by
  rw [opened_eq hinOrder] at h
  cases hload : ctx.load obj with
  | error e =>
    rw [hload] at h
    cases h
  | ok c =>
    rw [hload] at h
    obtain rfl := Option.some.inj h
    obtain ⟨owner, defs, revSets, ha, rfl⟩ := configure_eq_ok.mp hload
    exact indexed_update indexed_init ha

theorem Behaves.refl (c : Config) : Behaves c c := ⟨rfl, rfl, rfl, rfl, fun _ => Iff.rfl, rfl, rfl, rfl, rfl⟩

/-- The kind is as it should be after it has been loaded again. -/
theorem inv_reload (h : Inv ctx memory stored) (left : Option Config) :
    Inv ctx (ctx.reloadKind stored left .done) stored := by
  unfold Inv at h ⊢
  cases stored with
  | none => rfl
  | some obj =>
    obtain ⟨c, d, hmemory, hload, hbehaves⟩ := h.behaves
    have hreload : ctx.reloadKind (some obj) left .done = some d := (opened_eq h.inOrder).symm.trans hload
    rw [hreload]
    refine ⟨h.live, h.inOrder, ⟨d, d, rfl, hload, Behaves.refl d⟩, fun e he => ?_⟩
    obtain rfl := Option.some.inj he
    exact indexed_opened h.inOrder hload

theorem inv_loadKinds (h : Inv ctx memory stored) : Inv ctx (ctx.loadKinds stored) stored := by
  unfold Inv at h ⊢
  cases stored with
  | none => rfl
  | some obj =>
    obtain ⟨c, d, hmemory, hload, hbehaves⟩ := h.behaves
    have hloaded : ctx.loadKinds (some obj) = some d := by
      simp [KindContext.loadKinds, h.live, hload]
    rw [hloaded]
    refine ⟨h.live, h.inOrder, ⟨d, d, rfl, hload, Behaves.refl d⟩, fun e he => ?_⟩
    obtain rfl := Option.some.inj he
    exact indexed_opened h.inOrder hload

theorem indexed_of_inv (h : Inv ctx memory stored) : Indexed ctx.readers (memory.getD init) := by
  unfold Inv at h
  cases stored with
  | none =>
    rw [h]
    exact indexed_init
  | some obj =>
    obtain ⟨c, d, rfl, -, -⟩ := h.behaves
    exact h.indexed c rfl

/-! ## One put -/

/-- What the kind engine does with a definition it takes. -/
theorem putKindEngine_of_takes (htakes : Takes ctx r p) :
    ∃ owner defs revSets,
      Accepts ctx.readers p.caller p.fault (r.memory.getD init) (ctx.definition p) owner defs revSets ∧
      ctx.putKindEngine r.memory p (ctx.definition p) =
        (some (update ctx.registered ctx.id owner defs revSets (r.memory.getD init) (ctx.definition p)), none) := by
  obtain ⟨⟨owner, defs, revSets, ha⟩, hhash⟩ := htakes
  have hconfigure := @configure_eq_ok ctx.readers ctx.registered ctx.id _ _ _ _ _ |>.mpr
    ⟨owner, defs, revSets, ha, rfl⟩
  refine ⟨owner, defs, revSets, ha, ?_⟩
  unfold KindContext.putKindEngine
  cases hmemory : r.memory with
  | none =>
    rw [hmemory] at hconfigure
    simp only [Option.getD_none] at hconfigure
    simp [hconfigure, hhash]
  | some c =>
    rw [hmemory] at hconfigure
    simp only [Option.getD_some] at hconfigure
    simp [hconfigure, hhash]

theorem putKindEngine_of_not_takes (hnot : ¬Takes ctx r p) :
    ∃ left err, ctx.putKindEngine r.memory p (ctx.definition p) = (left, some err) := by
  have hconfigure : ∀ c, configure ctx.readers ctx.registered ctx.id p.caller p.fault (r.memory.getD init)
      (ctx.definition p) = .ok c → p.hashFailure ≠ none := by
    intro c hc hhash
    obtain ⟨owner, defs, revSets, ha, -⟩ := configure_eq_ok.mp hc
    exact hnot ⟨⟨owner, defs, revSets, ha⟩, hhash⟩
  unfold KindContext.putKindEngine
  cases hmemory : r.memory with
  | none =>
    rw [hmemory] at hconfigure
    simp only [Option.getD_none] at hconfigure
    dsimp only
    cases hresult : configure ctx.readers ctx.registered ctx.id p.caller p.fault init (ctx.definition p) with
    | error e => exact ⟨none, e.1, rfl⟩
    | ok c =>
      obtain ⟨err, herr⟩ := Option.ne_none_iff_exists'.mp (hconfigure c hresult)
      exact ⟨some c, err, by rw [herr]⟩
  | some old =>
    rw [hmemory] at hconfigure
    simp only [Option.getD_some] at hconfigure
    dsimp only
    cases hresult : configure ctx.readers ctx.registered ctx.id p.caller p.fault old (ctx.definition p) with
    | error e => exact ⟨some e.2, e.1, rfl⟩
    | ok c =>
      obtain ⟨err, herr⟩ := Option.ne_none_iff_exists'.mp (hconfigure c hresult)
      exact ⟨some c, err, by rw [herr]⟩

/-- The four ways of a put: it is skipped, its object is not stored, the kind is rejected, or it is updated. -/
theorem perform_cases (herr : r.err = none) :
    (ctx.isSame r p = true ∧ ∃ err, ctx.perform r p = { r with err := err }) ∨
    (ctx.isSame r p = false ∧ p.putFailure ≠ none ∧ ∃ err, ctx.perform r p = { r with err := some err }) ∨
    (Puts ctx r p ∧ ¬Takes ctx r p ∧ ∃ left err,
      ctx.perform r p = ⟨ctx.reloadKind r.stored left p.reload, r.stored, r.stored, some err⟩) ∨
    (Puts ctx r p ∧ Takes ctx r p ∧ ∃ owner defs revSets,
      Accepts ctx.readers p.caller p.fault (r.memory.getD init) (ctx.definition p) owner defs revSets ∧
      ctx.perform r p = { r with
        memory := some (update ctx.registered ctx.id owner defs revSets (r.memory.getD init) (ctx.definition p))
        view := some (ctx.definition p) }) := by
  unfold KindContext.perform
  rw [if_neg (by simp [herr])]
  cases hsame : ctx.isSame r p with
  | true =>
    refine .inl ⟨rfl, ?_⟩
    rw [if_pos rfl]
    cases checkUpdate p.caller ((r.memory.map Config.owner).getD .empty) with
    | ok u => exact ⟨r.err, rfl⟩
    | error err => exact ⟨some err, rfl⟩
  | false =>
    rw [if_neg (by simp)]
    cases hput : p.putFailure with
    | some err => exact .inr (.inl ⟨rfl, nofun, err, rfl⟩)
    | none =>
      by_cases htakes : Takes ctx r p
      · obtain ⟨owner, defs, revSets, ha, hengine⟩ := putKindEngine_of_takes htakes
        refine .inr (.inr (.inr ⟨⟨hsame, hput⟩, htakes, owner, defs, revSets, ha, ?_⟩))
        dsimp only
        rw [hengine]
      · obtain ⟨left, err, hengine⟩ := putKindEngine_of_not_takes htakes
        refine .inr (.inr (.inl ⟨⟨hsame, hput⟩, htakes, left, err, ?_⟩))
        dsimp only
        rw [hengine]

/-- A put that is taken and restates what the kind keeps. -/
theorem inv_update {owner : MojString} {defs revSets : List MojObject} (h : Inv ctx r.memory r.view)
    (ha : Accepts ctx.readers p.caller p.fault (r.memory.getD init) (ctx.definition p) owner defs revSets)
    (hrestated : RestatedBy ctx r p) :
    Inv ctx (some (update ctx.registered ctx.id owner defs revSets (r.memory.getD init) (ctx.definition p)))
      (some (ctx.definition p)) := by
  have hindexed := indexed_of_inv h
  have hrestates : Restates (r.memory.getD init) (ctx.definition p) := by
    cases hmemory : r.memory with
    | none => exact ⟨fun _ => rfl, fun _ => rfl, fun _ => rfl, fun _ => rfl⟩
    | some c => exact hrestated.restates c hmemory
  have hopened : ctx.opened (ctx.definition p) =
      some (update ctx.registered ctx.id owner defs revSets init (ctx.definition p)) := by
    rw [opened_eq hrestated.inOrder, KindContext.load, exists_loaded hindexed ha]
    rfl
  refine ⟨hrestated.live, hrestated.inOrder, ⟨_, _, rfl, hopened, behaves_of_restates hindexed hrestates⟩, fun c hc => ?_⟩
  obtain rfl := Option.some.inj hc
  exact indexed_update hindexed ha

/-! ## Requests -/

theorem perform_of_err (herr : r.err ≠ none) (p : KindPut) : ctx.perform r p = r :=
  if_pos (Option.isSome_iff_ne_none.mpr herr)

theorem perform_stored (ctx : KindContext) (r : KindReq) (p : KindPut) : (ctx.perform r p).stored = r.stored := by
  by_cases herr : r.err = none
  · obtain ⟨-, err, heq⟩ | ⟨-, -, err, heq⟩ | ⟨-, -, left, err, heq⟩ | ⟨-, -, owner, defs, revSets, -, heq⟩ :=
      @perform_cases ctx _ p herr
    · rw [heq]
    · rw [heq]
    · rw [heq]
    · rw [heq]
  · rw [perform_of_err herr]

theorem run_stored (ctx : KindContext) (r : KindReq) (ps : List KindPut) :
    (run ctx.perform r ps).stored = r.stored := by
  induction ps generalizing r with
  | nil => rfl
  | cons p ps ih => exact (ih (ctx.perform r p)).trans (perform_stored ctx r p)

theorem run_of_err (herr : r.err ≠ none) (ps : List KindPut) : run ctx.perform r ps = r := by
  induction ps with
  | nil => rfl
  | cons p ps ih => rw [run_cons, perform_of_err herr, ih]

theorem inv_perform_committed (h : Inv ctx r.memory r.view) (hok : (ctx.perform r p).err = none)
    (hsafe : Puts ctx r p → RestatedBy ctx r p) :
    Inv ctx (ctx.perform r p).memory (ctx.perform r p).view := by
  have herr : r.err = none := by
    by_contra herr
    exact herr (perform_of_err herr p ▸ hok)
  obtain ⟨-, err, heq⟩ | ⟨-, -, err, heq⟩ | ⟨-, -, left, err, heq⟩ | ⟨hputs, -, owner, defs, revSets, ha, heq⟩ :=
    @perform_cases ctx _ p herr
  · rw [heq]
    exact h
  · rw [heq] at hok
    cases hok
  · rw [heq] at hok
    cases hok
  · rw [heq]
    exact inv_update h ha (hsafe hputs)

theorem inv_run_committed {ps : List KindPut} (h : Inv ctx r.memory r.view)
    (hsafe : Along ctx.perform (fun r p => Puts ctx r p → RestatedBy ctx r p) r ps)
    (hok : (run ctx.perform r ps).err = none) :
    Inv ctx (run ctx.perform r ps).memory (run ctx.perform r ps).view := by
  induction ps generalizing r with
  | nil => exact h
  | cons p ps ih =>
    have hperform : (ctx.perform r p).err = none := by
      by_contra herr
      exact herr (run_of_err herr ps ▸ hok)
    exact ih (inv_perform_committed h hperform hsafe.1) hsafe.2 hok

/-- A rejected kind is loaded again from what is committed. -/
theorem inv_rejected (h : Inv ctx memory r.stored) (hrejected : Rejected ctx r p) :
    Inv ctx (ctx.perform r p).memory (ctx.perform r p).stored ∧ (ctx.perform r p).err ≠ none := by
  obtain ⟨herr, hputs, hnot, hreload⟩ := hrejected
  obtain ⟨hsame, -⟩ | ⟨-, hfail, -⟩ | ⟨-, -, left, err, heq⟩ | ⟨-, htakes, -⟩ :=
    @perform_cases ctx _ p herr
  · exact absurd hsame (by simp [hputs.1])
  · exact absurd hputs.2 hfail
  · rw [heq, hreload]
    exact ⟨inv_reload h left, nofun⟩
  · exact absurd htakes hnot

theorem inv_perform_undone (h : Inv ctx r.memory r.stored)
    (hsafe : r.err = none → Puts ctx r p → Rejected ctx r p) :
    Inv ctx (ctx.perform r p).memory (ctx.perform r p).stored := by
  by_cases herr : r.err = none
  · obtain ⟨-, err, heq⟩ | ⟨-, -, err, heq⟩ | ⟨hputs, -⟩ | ⟨hputs, -⟩ := @perform_cases ctx _ p herr
    · rw [heq]
      exact h
    · rw [heq]
      exact h
    · exact (inv_rejected h (hsafe herr hputs)).1
    · exact (inv_rejected h (hsafe herr hputs)).1
  · rw [perform_of_err herr]
    exact h

theorem inv_run_undone {ps : List KindPut} (h : Inv ctx r.memory r.stored)
    (hsafe : Along ctx.perform (fun r p => r.err = none → Puts ctx r p → Rejected ctx r p) r ps ∨
      ∃ qs p rest, ps = qs ++ p :: rest ∧ Rejected ctx (run ctx.perform r qs) p) :
    Inv ctx (run ctx.perform r ps).memory r.stored := by
  cases hsafe with
  | inl hsafe =>
    have hrun := Along.invariant (fun r => Inv ctx r.memory r.stored) (fun r p => inv_perform_undone) h hsafe
    rwa [run_stored] at hrun
  | inr hsafe =>
    obtain ⟨qs, p, rest, rfl, hrejected⟩ := hsafe
    rw [run_append, run_cons]
    have hstored : Inv ctx r.memory (run ctx.perform r qs).stored := by
      rw [run_stored]
      exact h
    obtain ⟨hinv, herr⟩ := inv_rejected hstored hrejected
    rw [run_of_err herr]
    rwa [perform_stored, run_stored] at hinv

theorem inv_putKind {db : KindDb} {commits : Bool} (h : Inv ctx db.memory db.stored)
    (hsafe : Safe ctx db (.putKind p commits)) :
    Inv ctx (db.step ctx (.putKind p commits)).memory (db.step ctx (.putKind p commits)).stored := by
  unfold step
  dsimp only
  obtain ⟨hsame, err, heq⟩ | ⟨hsame, -, err, heq⟩ | ⟨hputs, hnot, left, err, heq⟩ |
      ⟨hputs, htakes, owner, defs, revSets, ha, heq⟩ := @perform_cases ctx db.begin p rfl
  · rw [heq, if_pos (by simp [hsame])]
    exact h
  · rw [heq, if_pos (by simp)]
    exact h
  · rw [heq, if_pos (by simp)]
    have hreload : p.reload = .done := by
      have := hsafe hputs
      split_ifs at this
      · exact this.2 hnot
      · exact this
    rw [hreload]
    exact inv_reload h left
  · have hbegin : db.begin.err = none := rfl
    rw [heq, if_neg (by simp [hputs.1, hbegin])]
    have hcommit := hsafe hputs
    cases commits with
    | true =>
      rw [if_pos rfl] at hcommit ⊢
      exact inv_update (r := db.begin) h ha (hcommit.1 htakes)
    | false =>
      rw [if_neg (by simp)] at hcommit ⊢
      rw [hcommit]
      exact inv_reload h db.memory

theorem inv_batch {db : KindDb} {ps : List KindPut} {commits : Bool} (h : Inv ctx db.memory db.stored)
    (hsafe : Safe ctx db (.batch ps commits)) :
    Inv ctx (db.step ctx (.batch ps commits)).memory (db.step ctx (.batch ps commits)).stored := by
  unfold step
  unfold Safe at hsafe
  dsimp only at hsafe ⊢
  split_ifs at hsafe ⊢ with hcommits
  · refine inv_run_committed (r := db.begin) h hsafe ?_
    simp only [Bool.and_eq_true, Option.isNone_iff_eq_none] at hcommits
    exact hcommits.2
  · exact inv_run_undone (r := db.begin) h hsafe

/-- After a run of such requests and of openings of the database, the kind behaves like the one that is loaded
from its last committed definition alone. -/
theorem sameAsLoaded_of_run (ctx : KindContext) (acts : List Action)
    (h : Along (step ctx) (Safe ctx) ⟨none, none⟩ acts) : SameAsLoaded ctx (run (step ctx) ⟨none, none⟩ acts) := by
  refine Inv.sameAsLoaded (Along.invariant (fun db => Inv ctx db.memory db.stored) (fun db a hinv hsafe => ?_) ?_ h)
  · cases a with
    | restart => exact inv_loadKinds hinv
    | putKind p commits => exact inv_putKind hinv hsafe
    | batch ps commits => exact inv_batch hinv hsafe
  · rfl

/-! ## Two definitions -/

/-- `k:1`, with definitions that are all accepted. -/
def contextK : KindContext where
  id := ⟨[107, 58, 49], by decide⟩
  readers := ⟨fun _ => .ok (), fun _ => .ok (), fun obj => obj.getRequiredString IndexNameKey⟩
  rootKind := true
  earlier := []
  later := []
  lists _ := []
  order := []
  nodup := by decide
  builtin_nil _ _ := rfl

def definitionK (props : List (MojString × MojObject)) : MojObject :=
  .object ((OwnerKey, .string contextK.id) :: props)

def putOf (obj : MojObject) : KindPut := ⟨obj, 1, loader, none, none, none, .done⟩

def privateK : KindPut := putOf (definitionK [(PrivateKey, .bool true)])
def publicK : KindPut := putOf (definitionK [(PrivateKey, .bool false)])
def plainK : KindPut := putOf (definitionK [])

theorem inOrder_nil : InOrder contextK [] where
  lists := (KindGraphDb.listsSound_nil _).congr (fun _ _ => ite_self _) (ite_self _)
  order := rfl

/-- The second definition says that the kind is not private, and a batch with a third one commits. -/
theorem sameAsLoaded_restated :
    SameAsLoaded contextK (run (step contextK) ⟨none, none⟩
      [.putKind privateK true, .putKind publicK true, .batch [plainK] true, .restart]) := by
  refine sameAsLoaded_of_run _ _ ⟨fun _ => ?_, fun _ => ?_, ?_, trivial, trivial⟩
  · exact ⟨fun _ => ⟨rfl, by decide, inOrder_nil⟩, fun _ => rfl⟩
  · exact ⟨fun _ => ⟨rfl, by decide, inOrder_nil⟩, fun _ => rfl⟩
  · exact ⟨fun _ => ⟨rfl, by decide, inOrder_nil⟩, trivial⟩

/-- The second definition does not name `private`; and a batch is not committed. -/
theorem sameAsLoaded_fails :
    ¬SameAsLoaded contextK (run (step contextK) ⟨none, none⟩ [.putKind privateK true, .putKind plainK true]) ∧
    ¬SameAsLoaded contextK (run (step contextK) ⟨none, none⟩ [.putKind privateK true, .batch [publicK] false]) := by
  constructor
  · intro h
    obtain ⟨c, hc, hbehaves⟩ := h
    obtain rfl := Option.some.inj hc
    exact absurd hbehaves.privateData (by decide)
  · intro h
    obtain ⟨c, hc, hbehaves⟩ := h
    obtain rfl := Option.some.inj hc
    exact absurd hbehaves.privateData (by decide)

end KindDb

end Db8
