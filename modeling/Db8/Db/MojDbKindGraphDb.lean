import Db8.Db.MojDbKindConfig
import Db8.Db.MojDbKindGraphRun
import Db8.Db.MojDbPermissionEngine
import Db8.Db.MojDbPurge
import Db8.Db.MojDbQuotaRun
import Db8.Lib.Run

/-!
# Db.MojDbKindGraphDb

The kinds of a database over runs of requests that put and delete kinds, with failures at any place.

* `KindGraphDb`   — the kinds in memory, and the extends lists of the stored kind objects.
* `reloadKind`    — what `MojDb` does after a failure; `commitKind`.
* `openKinds`     — the builtin kinds, then the stored ones in any order.
* `perform`       — a put or a deletion of a kind, or the database opened again.
* `edges_of_run`  — after any run the edges are those of the lists, and a request that fails changes none.
-/

namespace Db8

open Lib MojDbQuotaEngine
open KindGraph (Settled Fits Off With SameEdges ListsSound Awaited Early Interrupt Changed dueSupers named place)

structure KindGraphDb where
  graph : KindGraph
  stored : MojString → Option (List MojString)

namespace KindGraphDb

/-- The kinds that are made when the database is opened. -/
def builtinIds (rootKind : Bool) : List MojString :=
  (if rootKind then [RootKindId] else []) ++
    [KindContext.KindKindId, MojDb.RevTimestampId, MojDb.DbStateId, MojDbPermissionEngine.PermissionId, QuotaSystem.QuotaId]

/-- What fails while a kind is reloaded: the request or the read of the kind object, or the kind engine. -/
structure ReloadFaults where
  begins : Option MojErr
  interrupt : Option (Interrupt × MojErr)

/-- What fails in a request: its begin and its checks, the writes of objects, the kind engine, the hash of the kind,
the commit, and the reload after one of these. -/
structure Faults where
  begins : Option MojErr
  objects : Option MojErr
  interrupt : Option (Interrupt × MojErr)
  hash : Option MojErr
  commit : Option MojErr
  reload : ReloadFaults

variable (d : KindGraphDb) (order : List MojString)

/-- `MojDb::reloadKind`. Its error is not returned. -/
def reloadKind (k : MojString) (f : ReloadFaults) : KindGraphDb :=
  match f.begins with
  | some _ => d
  | none =>
    match d.stored k with
    | some superIds => { d with graph := (d.graph.reloadKind order k superIds f.interrupt).left }
    | none => { d with graph := (d.graph.delKind k f.interrupt).left }

/-- `MojDb::commitKind`, with the kind object that is stored in the transaction. -/
def commitKind (k : MojString) (result : Changed) (stored : Option (List MojString)) (f : Faults) :
    Option MojErr × KindGraphDb :=
  match result with
  | .error (err, g) => (some err, { d with graph := g }.reloadKind order k f.reload)
  | .ok g =>
    match f.commit with
    | some err => (some err, { d with graph := g }.reloadKind order k f.reload)
    | none => (none, ⟨g, Function.update d.stored k stored⟩)

/-- `MojDb::putKind`. With the contents that are stored nothing is done. -/
def putKind (k : MojString) (superIds : List MojString) (isSame : Bool) (f : Faults) : Option MojErr × KindGraphDb :=
  match f.begins with
  | some err => (some err, d)
  | none =>
    match f.objects with
    | some err => (some err, d)
    | none =>
      if isSame ∧ k ∈ d.graph.ids ∧ d.stored k = some superIds then (none, d)
      else d.commitKind order k (d.graph.putKind order k superIds false f.interrupt f.hash) (some superIds) f

/-- `MojDb::delKind` -/
def delKind (k : MojString) (f : Faults) : Option MojErr × KindGraphDb :=
  match f.begins with
  | some err => (some err, d)
  | none =>
    if k ∉ d.graph.ids then (some .dbKindNotRegistered, d)
    else if d.graph.links.subs k ≠ [] then (some .dbKindHasSubKinds, d)
    else
      match d.stored k with
      | none => (none, d)
      | some _ =>
        match f.objects with
        | some err => (some err, d)
        | none => d.commitKind order k (d.graph.delKind k f.interrupt) none f

def empty : KindGraph := ⟨[], fun _ => [], .empty, fun _ => false⟩

/-- `MojDbKindEngine::open`: `addBuiltin` for each of the builtin kinds. -/
def openBuiltins (rootKind : Bool) : KindGraph :=
  (builtinIds rootKind).foldl (fun g k => (g.putKind order k [] true none none).left) empty

/-- `loadKinds`: a kind that fails is passed over. -/
def loadKinds (kinds : List MojString) (faults : MojString → Option (Interrupt × MojErr) × Option MojErr)
    (g : KindGraph) : KindGraph :=
  kinds.foldl (fun g k =>
    match d.stored k with
    | none => g
    | some superIds => (g.putKind order k superIds false (faults k).1 (faults k).2).left) g

/-- A request, with the order of the kind map while it runs, or the database opened again. -/
inductive Op where
  | putKind (order : List MojString) (k : MojString) (superIds : List MojString) (isSame : Bool) (f : Faults)
  | delKind (order : List MojString) (k : MojString) (f : Faults)
  | reopen (order : List MojString) (kinds : List MojString)
      (faults : MojString → Option (Interrupt × MojErr) × Option MojErr)

/-- The error that is returned, and the kinds after it. -/
def perform (rootKind : Bool) (d : KindGraphDb) : Op → Option MojErr × KindGraphDb
  | .putKind order k superIds isSame f => d.putKind order k superIds isSame f
  | .delKind order k f => d.delKind order k f
  | .reopen order kinds faults => (none, { d with graph := d.loadKinds order kinds faults (openBuiltins order rootKind) })

def step (rootKind : Bool) (d : KindGraphDb) (op : Op) : KindGraphDb := (perform rootKind d op).2

/-- A new database. -/
def start (rootKind : Bool) : KindGraphDb := ⟨openBuiltins [] rootKind, fun _ => none⟩

/-! ## Safe requests -/

/-- Something fails once the kind engine is asked. -/
def Faults.Fails (f : Faults) : Prop := f.interrupt ≠ none ∨ f.hash ≠ none ∨ f.commit ≠ none

/-- A put is of a kind that is not builtin, with a list that fits the others; when it fails late, no kind waits for
the new one. A reload does not fail. A database is opened with all of its kinds. -/
def Safe (d : KindGraphDb) : Op → Prop
  | .putKind _ k superIds _ f =>
    k ∉ builtinIds true ∧ Fits d.graph k superIds ∧
      (f.Fails → (Early f.interrupt ∨ ¬Awaited d.graph k) ∧ f.reload = ⟨none, none⟩)
  | .delKind _ _ f => f.Fails → f.reload = ⟨none, none⟩
  | .reopen _ kinds faults =>
    kinds.Nodup ∧ (∀ k, k ∈ kinds ↔ (d.stored k).isSome) ∧ ∀ k ∈ kinds, faults k = (none, none)

/-- The kinds in memory are the builtin and the stored ones, with the lists that are stored. -/
structure Inv (rootKind : Bool) (d : KindGraphDb) : Prop where
  settled : Settled d.graph
  ids : ∀ k, k ∈ d.graph.ids ↔ k ∈ builtinIds rootKind ∨ (d.stored k).isSome
  lists : ∀ k superIds, d.stored k = some superIds → d.graph.superIds k = superIds
  builtin : ∀ k ∈ builtinIds true, d.stored k = none ∧ d.graph.superIds k = []

variable {d : KindGraphDb} {g : KindGraph} {k : MojString} {rootKind : Bool}

theorem builtinIds_subset {s : MojString} (h : s ∈ builtinIds rootKind) : s ∈ builtinIds true := by
  cases rootKind with
  | true => exact h
  | false => exact List.mem_append_right _ h

theorem ne_root (h : k ∉ builtinIds true) : k ≠ RootKindId := by
  intro he
  exact h (he ▸ List.mem_cons_self)

/-! ## Opening -/

/-- A list of a sound family fits the kinds that are there. -/
theorem fits_of_sound {ids : List MojString} {lists : MojString → List MojString} (hlists : ListsSound ids lists)
    (hids : ∀ s ∈ g.ids, s ∈ ids) (hsame : ∀ j ∈ g.ids, g.superIds j = lists j) (hroot : g.superIds RootKindId = [])
    (hk : k ∈ ids) (hfirst : k = RootKindId → ∀ j ∈ g.ids, j = k) : Fits g k (lists k) := by
  refine ⟨(hlists.mono fun s hs => ?_).congr (fun j hj => ?_) ?_, hfirst⟩
  · cases List.mem_cons.mp hs with
    | inl he => exact he ▸ hk
    | inr hs => exact hids s hs
  · split_ifs with hjk
    · rw [hjk]
    · exact hsame j ((List.mem_cons.mp hj).resolve_left hjk)
  · split_ifs with he
    · rw [← he]
      exact hlists.root_nil
    · exact hroot

/-- Kinds that are put one after the other, in any order. -/
theorem settled_foldl {ids : List MojString} {lists : MojString → List MojString} (hlists : ListsSound ids lists)
    (order : List MojString) (builtin : Bool) (kinds : List MojString) (hkinds : ∀ k ∈ kinds, k ∈ ids ∧ k ≠ RootKindId)
    (hg : Settled g) (hids : ∀ s ∈ g.ids, s ∈ ids) (hsame : ∀ j ∈ g.ids, g.superIds j = lists j) :
    Settled (kinds.foldl (fun g k => (g.putKind order k (lists k) builtin none none).left) g) ∧
      (∀ s, s ∈ (kinds.foldl (fun g k => (g.putKind order k (lists k) builtin none none).left) g).ids ↔
        s ∈ g.ids ∨ s ∈ kinds) ∧
      ∀ j ∈ (kinds.foldl (fun g k => (g.putKind order k (lists k) builtin none none).left) g).ids,
        (kinds.foldl (fun g k => (g.putKind order k (lists k) builtin none none).left) g).superIds j = lists j := by
  induction kinds generalizing g with
  | nil => exact ⟨hg, fun s => (or_iff_left List.not_mem_nil).symm, hsame⟩
  | cons k kinds ih =>
    obtain ⟨hk, hroot⟩ := hkinds k List.mem_cons_self
    have hfits := fits_of_sound hlists hids hsame hg.lists.root_nil hk fun he => absurd he hroot
    obtain ⟨g', hput, hg', hwith⟩ := (KindGraph.putKind_spec hg hfits order builtin none none).1 ⟨rfl, rfl⟩
    have hleft : (g.putKind order k (lists k) builtin none none).left = g' := by
      rw [hput]
      rfl
    rw [List.foldl_cons, hleft]
    obtain ⟨hsettled, hidsEnd, hsameEnd⟩ := ih (fun j hj => hkinds j (List.mem_cons_of_mem k hj)) hg'
      (fun s hs => ((hwith.ids s).mp hs).elim (fun he => he ▸ hk) (hids s)) fun j hj => by
        rw [hwith.superIds]
        split_ifs with hjk
        · rw [hjk]
        · exact hsame j (((hwith.ids j).mp hj).resolve_left hjk)
    refine ⟨hsettled, fun s => ?_, hsameEnd⟩
    rw [hidsEnd, hwith.ids, List.mem_cons, or_comm (a := s = k), or_assoc]

theorem listsSound_nil (ids : List MojString) : ListsSound ids fun _ => [] where
  nodup _ _ := List.nodup_nil
  root_alone _ _ h := absurd h List.not_mem_nil
  root_nil := rfl
  acyclic k hcycle := by
    obtain ⟨s, hnames, -⟩ := Relation.TransGen.head'_iff.mp hcycle
    exact absurd hnames.2 List.not_mem_nil

theorem settled_empty : Settled empty where
  nodup_ids := List.nodup_nil
  sound := Links.sound_empty []
  lists := listsSound_nil []
  edges _ h := absurd h List.not_mem_nil

theorem openBuiltins_spec (order : List MojString) (rootKind : Bool) :
    Settled (openBuiltins order rootKind) ∧ (∀ s, s ∈ (openBuiltins order rootKind).ids ↔ s ∈ builtinIds rootKind) ∧
      ∀ j ∈ (openBuiltins order rootKind).ids, (openBuiltins order rootKind).superIds j = [] := by
  have hrest : ∀ k ∈ builtinIds false, k ∈ builtinIds true ∧ k ≠ RootKindId := by decide
  unfold openBuiltins
  cases rootKind with
  | false =>
    obtain ⟨hsettled, hids, hsame⟩ := settled_foldl (listsSound_nil (builtinIds true)) order true (builtinIds false) hrest
      settled_empty (fun s hs => absurd hs List.not_mem_nil) (fun j hj => absurd hj List.not_mem_nil)
    exact ⟨hsettled, fun s => (hids s).trans (or_iff_right List.not_mem_nil), hsame⟩
  | true =>
    -- the root kind comes first
    have hfits : Fits empty RootKindId [] := ⟨(listsSound_nil [RootKindId]).congr (fun j _ => ite_self _) (ite_self _),
      fun _ j hj => absurd hj List.not_mem_nil⟩
    obtain ⟨g, hput, hg, hwith⟩ := (KindGraph.putKind_spec settled_empty hfits order true none none).1 ⟨rfl, rfl⟩
    have hleft : (empty.putKind order RootKindId [] true none none).left = g := by
      rw [hput]
      rfl
    have hgids : ∀ s, s ∈ g.ids ↔ s = RootKindId := fun s => (hwith.ids s).trans (or_iff_left List.not_mem_nil)
    have hgsame : ∀ j, g.superIds j = [] := fun j => (hwith.superIds j).trans (ite_self _)
    obtain ⟨hsettled, hids, hsame⟩ := settled_foldl (listsSound_nil (builtinIds true)) order true (builtinIds false) hrest
      hg (fun s hs => (hgids s).mp hs ▸ List.mem_cons_self) fun j _ => hgsame j
    have hcons : builtinIds true = RootKindId :: builtinIds false := rfl
    rw [hcons, List.foldl_cons, hleft]
    refine ⟨hsettled, fun s => ?_, hsame⟩
    rw [hids, hgids, List.mem_cons]

/-- A kind gets those of its list that are put after it, as they are put. -/
theorem supers_foldl {ids : List MojString} {lists : MojString → List MojString} (hlists : ListsSound ids lists)
    (order : List MojString) {kinds : List MojString} (hkinds : ∀ j ∈ kinds, j ∈ ids ∧ j ≠ RootKindId ∧ j ∉ g.ids)
    (hnodup : kinds.Nodup) (hg : Settled g) (hids : ∀ s ∈ g.ids, s ∈ ids) (hsame : ∀ j ∈ g.ids, g.superIds j = lists j)
    (hk : k ∈ g.ids) :
    (kinds.foldl (fun g j => (g.putKind order j (lists j) false none none).left) g).links.supers k =
      (kinds.filter (· ∈ lists k)).foldl place (g.links.supers k) := by
  induction kinds generalizing g with
  | nil => rfl
  | cons j kinds ih =>
    obtain ⟨hj, hroot, hnew⟩ := hkinds j List.mem_cons_self
    obtain ⟨hnotin, hnodup⟩ := List.nodup_cons.mp hnodup
    have hjk : k ≠ j := fun he => hnew (he ▸ hk)
    have hfits := fits_of_sound hlists hids hsame hg.lists.root_nil hj fun he => absurd he hroot
    obtain ⟨g', hput, hg', hwith⟩ := (KindGraph.putKind_spec hg hfits order false none none).1 ⟨rfl, rfl⟩
    have hsupers := (KindGraph.supers_putKind hg hfits hnew order false).2 k hjk
    have hleft : (g.putKind order j (lists j) false none none).left = g' := by
      rw [hput]
      rfl
    rw [hleft, hsame k hk] at hsupers
    rw [List.foldl_cons, hleft]
    have hrest : ∀ i ∈ kinds, i ∈ ids ∧ i ≠ RootKindId ∧ i ∉ g'.ids := by
      intro i hi
      obtain ⟨hin, hiroot, hinew⟩ := hkinds i (List.mem_cons_of_mem j hi)
      refine ⟨hin, hiroot, fun hmem => ?_⟩
      cases (hwith.ids i).mp hmem with
      | inl he => exact hnotin (he ▸ hi)
      | inr hmem => exact hinew hmem
    rw [ih hrest hnodup hg' (fun s hs => ((hwith.ids s).mp hs).elim (fun he => he ▸ hj) (hids s))
      (fun i hi => by
        rw [hwith.superIds]
        split_ifs with hij
        · rw [hij]
        · exact hsame i (((hwith.ids i).mp hi).resolve_left hij))
      ((hwith.ids k).mpr (.inr hk)), hsupers]
    by_cases hnamed : j ∈ lists k
    · rw [if_pos ⟨hk, hnamed⟩, List.filter_cons_of_pos (by simpa using hnamed), List.foldl_cons]
    · rw [if_neg fun h => hnamed h.2, List.filter_cons_of_neg (by simpa using hnamed)]

/-! ## Steps -/

theorem inv_start (rootKind : Bool) : Inv rootKind (start rootKind) := by
  obtain ⟨hsettled, hids, hsame⟩ := openBuiltins_spec [] rootKind
  refine ⟨hsettled, fun k => ?_, nofun, fun k hk => ⟨rfl, ?_⟩⟩
  · exact (hids k).trans (or_iff_left Bool.false_ne_true).symm
  · by_cases hmem : k ∈ (openBuiltins [] rootKind).ids
    · exact hsame k hmem
    · have hroot : k = RootKindId := by
        by_contra hne
        refine hmem ((hids k).mpr ?_)
        have hk' : k ∈ builtinIds false := (List.mem_cons.mp hk).resolve_left hne
        exact List.mem_append_right _ hk'
      rw [hroot]
      exact hsettled.lists.root_nil

/-- The stored list of a kind fits. -/
theorem fits_stored (h : Inv rootKind d) (hk : k ∉ builtinIds true) {superIds : List MojString}
    (hstored : d.stored k = some superIds) : Fits d.graph k superIds := by
  have hmem : k ∈ d.graph.ids := (h.ids k).mpr (.inr (by rw [hstored]; rfl))
  have hfits := fits_of_sound h.settled.lists (fun s hs => hs) (fun _ _ => rfl) h.settled.lists.root_nil hmem
    fun he => absurd he (ne_root hk)
  rwa [h.lists k superIds hstored] at hfits

/-- **A reload brings back what was there before the failure.** -/
theorem inv_reloadKind (h : Inv rootKind d) (hk : k ∉ builtinIds true) (hoff : Off g d.graph k)
    (hgone : k ∉ g.ids → g.Isolated k) (order : List MojString) :
    Inv rootKind (({ d with graph := g } : KindGraphDb).reloadKind order k ⟨none, none⟩) ∧
      SameEdges (({ d with graph := g } : KindGraphDb).reloadKind order k ⟨none, none⟩).graph d.graph := by
  suffices hgraph : Settled (({ d with graph := g } : KindGraphDb).reloadKind order k ⟨none, none⟩).graph ∧
      (∀ s, s ∈ (({ d with graph := g } : KindGraphDb).reloadKind order k ⟨none, none⟩).graph.ids ↔ s ∈ d.graph.ids) ∧
      (∀ j, j ∈ d.graph.ids ∨ j ∈ builtinIds true →
        (({ d with graph := g } : KindGraphDb).reloadKind order k ⟨none, none⟩).graph.superIds j = d.graph.superIds j) ∧
      (({ d with graph := g } : KindGraphDb).reloadKind order k ⟨none, none⟩).stored = d.stored by
    obtain ⟨hsettled, hids, hlists, hstored⟩ := hgraph
    refine ⟨⟨hsettled, fun s => ?_, fun s superIds hs => ?_, fun s hs => ?_⟩,
      hsettled.sameEdges h.settled hids fun j hj => hlists j (.inl hj)⟩
    · rw [hids, hstored]
      exact h.ids s
    · rw [hstored] at hs
      rw [hlists s (.inl ((h.ids s).mpr (.inr (by rw [hs]; rfl))))]
      exact h.lists s superIds hs
    · rw [hstored, hlists s (.inr hs)]
      exact h.builtin s hs
  unfold reloadKind
  dsimp only
  cases hstored : d.stored k with
  | some superIds =>
    have hmem : k ∈ d.graph.ids := (h.ids k).mpr (.inr (by rw [hstored]; rfl))
    obtain ⟨g', hreload, hsettled, hwith⟩ := hoff.reloadKind h.settled (fits_stored h hk hstored) hgone order
    dsimp only
    rw [hreload]
    refine ⟨hsettled, fun s => ?_, fun j _ => ?_, rfl⟩
    · exact (hwith.ids s).trans (or_iff_right_of_imp fun he => he ▸ hmem)
    · refine (hwith.superIds j).trans ?_
      split_ifs with hj
      · rw [hj, h.lists k superIds hstored]
      · rfl
  | none =>
    have hmem : k ∉ d.graph.ids := by
      intro hmem
      cases (h.ids k).mp hmem with
      | inl hbuiltin => exact hk (builtinIds_subset hbuiltin)
      | inr hsome => simp [hstored] at hsome
    have hdel : ∃ g', g.delKind k none = .ok g' ∧ Off g' d.graph k ∧ k ∉ g'.ids ∧ g'.Isolated k := by
      by_cases hg : k ∈ g.ids
      · exact hoff.delKind hg
      · exact ⟨g, if_neg hg, hoff, hg, hgone hg⟩
    obtain ⟨g', hdelKind, hoff', hnot, hisolated⟩ := hdel
    dsimp only
    rw [hdelKind]
    refine ⟨hoff'.settled h.settled (ne_root hk) hnot hisolated fun hb => absurd hb hmem, fun s => ?_, fun j hj => ?_, rfl⟩
    · by_cases hs : s = k
      · exact ⟨fun h => absurd (hs ▸ h) hnot, fun h => absurd (hs ▸ h) hmem⟩
      · exact hoff'.ids s hs
    · refine hoff'.superIds j fun he => ?_
      cases hj with
      | inl hj => exact hmem (he ▸ hj)
      | inr hj => exact hk (he ▸ hj)

/-- A step keeps the invariant, and the edges when it fails. -/
def Keeps (rootKind : Bool) (d : KindGraphDb) (result : Option MojErr × KindGraphDb) : Prop :=
  Inv rootKind result.2 ∧ (result.1 ≠ none → SameEdges result.2.graph d.graph)

theorem keeps_self (h : Inv rootKind d) (err : Option MojErr) : Keeps rootKind d (err, d) :=
  ⟨h, fun _ => SameEdges.refl d.graph⟩

theorem keeps_reloadKind (h : Inv rootKind d) (hk : k ∉ builtinIds true) (hoff : Off g d.graph k)
    (hgone : k ∉ g.ids → g.Isolated k) (order : List MojString) (err : Option MojErr) :
    Keeps rootKind d (err, ({ d with graph := g } : KindGraphDb).reloadKind order k ⟨none, none⟩) :=
  ⟨(inv_reloadKind h hk hoff hgone order).1, fun _ => (inv_reloadKind h hk hoff hgone order).2⟩

theorem keeps_putKind (h : Inv rootKind d) {order superIds : List MojString} {isSame : Bool} {f : Faults}
    (hsafe : Safe d (.putKind order k superIds isSame f)) : Keeps rootKind d (d.putKind order k superIds isSame f) := by
  obtain ⟨hk, hfits, hfails⟩ := hsafe
  obtain ⟨hok, herror, hoff, hgone⟩ := KindGraph.putKind_spec h.settled hfits order false f.interrupt f.hash
  unfold putKind
  cases f.begins with
  | some err => exact keeps_self h (some err)
  | none =>
    cases f.objects with
    | some err => exact keeps_self h (some err)
    | none =>
      dsimp only
      split_ifs with hsame
      · exact keeps_self h none
      unfold commitKind
      by_cases hnone : f.interrupt = none ∧ f.hash = none
      · obtain ⟨g, hput, hsettled, hwith⟩ := hok hnone
        rw [hput] at hoff hgone ⊢
        dsimp only
        cases hcommit : f.commit with
        | some err =>
          obtain ⟨hearly, hreload⟩ := hfails (.inr (.inr (by rw [hcommit]; exact Option.some_ne_none err)))
          dsimp only
          rw [hreload]
          exact keeps_reloadKind h hk (hoff hearly) hgone order (some err)
        | none =>
          refine ⟨⟨hsettled, fun s => ?_, fun s ss hs => ?_, fun s hs => ?_⟩, fun he => absurd rfl he⟩
          · refine (hwith.ids s).trans ?_
            by_cases hsk : s = k
            · simp [hsk]
            · simp only [Function.update_of_ne hsk, hsk, false_or]
              exact h.ids s
          · refine (hwith.superIds s).trans ?_
            by_cases hsk : s = k
            · dsimp only at hs
              rw [hsk, Function.update_self, Option.some.injEq] at hs
              rw [if_pos hsk]
              exact hs
            · dsimp only at hs
              rw [Function.update_of_ne hsk] at hs
              rw [if_neg hsk]
              exact h.lists s ss hs
          · have hsk : s ≠ k := fun he => hk (he ▸ hs)
            dsimp only
            rw [Function.update_of_ne hsk, hwith.superIds, if_neg hsk]
            exact h.builtin s hs
      · obtain ⟨err, g, hput⟩ := herror hnone
        have hf : f.Fails := by
          by_cases hi : f.interrupt = none
          · exact .inr (.inl fun hh => hnone ⟨hi, hh⟩)
          · exact .inl hi
        obtain ⟨hearly, hreload⟩ := hfails hf
        rw [hput] at hoff hgone ⊢
        dsimp only
        rw [hreload]
        exact keeps_reloadKind h hk (hoff hearly) hgone order (some err)

theorem keeps_delKind (h : Inv rootKind d) {order : List MojString} {f : Faults} (hsafe : Safe d (.delKind order k f)) :
    Keeps rootKind d (d.delKind order k f) := by
  unfold delKind
  cases f.begins with
  | some err => exact keeps_self h (some err)
  | none =>
    dsimp only
    by_cases hmem : k ∉ d.graph.ids
    · rw [if_pos hmem]
      exact keeps_self h _
    rw [if_neg hmem]
    by_cases hsubs : d.graph.links.subs k ≠ []
    · rw [if_pos hsubs]
      exact keeps_self h _
    rw [if_neg hsubs]
    cases hstored : d.stored k with
    | none => exact keeps_self h none
    | some superIds =>
      cases f.objects with
      | some err => exact keeps_self h (some err)
      | none =>
        rw [not_not] at hmem hsubs
        have hk : k ∉ builtinIds true := by
          intro hk
          rw [(h.builtin k hk).1] at hstored
          cases hstored
        have hoff := h.settled.off k
        unfold commitKind
        dsimp only
        cases hi : f.interrupt with
        | some at_ =>
          have hreload := hsafe (.inl (by rw [hi]; exact Option.some_ne_none at_))
          obtain ⟨where_, err⟩ := at_
          have hleft : ∃ g, d.graph.delKind k (some (where_, err)) = .error (err, g) ∧ Off g d.graph k ∧ k ∈ g.ids := by
            unfold KindGraph.delKind
            rw [if_pos hmem]
            cases where_ with
            | before => exact ⟨d.graph, rfl, hoff, hmem⟩
            | after =>
              obtain ⟨g, hclose, hoff', hids⟩ := hoff.close
              refine ⟨g, ?_, hoff', hids ▸ hmem⟩
              dsimp only
              rw [hclose]
              rfl
          obtain ⟨g, hdel, hoff', hg⟩ := hleft
          rw [hdel]
          dsimp only
          rw [hreload]
          exact keeps_reloadKind h hk hoff' (fun hnot => absurd hg hnot) order (some err)
        | none =>
          obtain ⟨g, hdel, hoff', hnot, hisolated⟩ := hoff.delKind hmem
          rw [hdel]
          dsimp only
          cases hcommit : f.commit with
          | some err =>
            have hreload := hsafe (.inr (.inr (by rw [hcommit]; exact Option.some_ne_none err)))
            dsimp only
            rw [hreload]
            exact keeps_reloadKind h hk hoff' (fun _ => hisolated) order (some err)
          | none =>
            -- a kind without subs is named by none
            have hnames : ∀ j ∈ d.graph.ids, k ∉ d.graph.superIds j := by
              intro j hj hnamed
              have hdue : k ∈ dueSupers d.graph.ids d.graph.superIds j := by
                have hin := KindGraph.mem_named.mpr ⟨hnamed, hmem⟩
                unfold dueSupers
                rw [if_neg fun hnil => List.ne_nil_of_mem hin hnil.1]
                exact hin
              have hsub := (h.settled.sound.linked.mem_iff j k).mpr ((h.settled.edges j hj k).mpr hdue)
              rw [hsubs] at hsub
              cases hsub
            have hids : ∀ s, s ≠ k → (s ∈ g.ids ↔ s ∈ d.graph.ids) := hoff'.ids
            refine ⟨⟨hoff'.settled h.settled (ne_root hk) hnot hisolated fun _ => hnames, fun s => ?_, fun s ss hs => ?_,
              fun s hs => ?_⟩, fun he => absurd rfl he⟩
            · dsimp only
              by_cases hsk : s = k
              · rw [hsk, Function.update_self]
                refine ⟨fun h => absurd h hnot, fun hs => ?_⟩
                cases hs with
                | inl hbuiltin => exact absurd (builtinIds_subset hbuiltin) hk
                | inr hsome => cases hsome
              · rw [Function.update_of_ne hsk, hids s hsk]
                exact h.ids s
            · dsimp only at hs ⊢
              by_cases hsk : s = k
              · rw [hsk, Function.update_self] at hs
                cases hs
              · rw [Function.update_of_ne hsk] at hs
                rw [hoff'.superIds s hsk]
                exact h.lists s ss hs
            · have hsk : s ≠ k := fun he => hk (he ▸ hs)
              dsimp only
              rw [Function.update_of_ne hsk, hoff'.superIds s hsk]
              exact h.builtin s hs

theorem inv_reopen (h : Inv rootKind d) {order kinds : List MojString}
    {faults : MojString → Option (Interrupt × MojErr) × Option MojErr} (hsafe : Safe d (.reopen order kinds faults)) :
    Inv rootKind (step rootKind d (.reopen order kinds faults)) ∧
      SameEdges (step rootKind d (.reopen order kinds faults)).graph d.graph := by
  obtain ⟨-, hkinds, hfaults⟩ := hsafe
  obtain ⟨hbuiltins, hbuiltinIds, hbuiltinLists⟩ := openBuiltins_spec order rootKind
  have hload : d.loadKinds order kinds faults (openBuiltins order rootKind) =
      kinds.foldl (fun g k => (g.putKind order k (d.graph.superIds k) false none none).left) (openBuiltins order rootKind) := by
    unfold loadKinds
    refine List.foldl_ext _ _ _ fun g k hk => ?_
    obtain ⟨superIds, hstored⟩ := Option.isSome_iff_exists.mp ((hkinds k).mp hk)
    rw [hstored, hfaults k hk, h.lists k superIds hstored]
  have hstored : ∀ k ∈ kinds, k ∉ builtinIds true := by
    intro k hk hb
    have hsome := (hkinds k).mp hk
    rw [(h.builtin k hb).1] at hsome
    cases hsome
  obtain ⟨hsettled, hids, hlists⟩ := settled_foldl h.settled.lists order false kinds
    (fun k hk => ⟨(h.ids k).mpr (.inr ((hkinds k).mp hk)), ne_root (hstored k hk)⟩) hbuiltins
    (fun s hs => (h.ids s).mpr (.inl ((hbuiltinIds s).mp hs))) fun j hj =>
      (hbuiltinLists j hj).trans (h.builtin j (builtinIds_subset ((hbuiltinIds j).mp hj))).2.symm
  rw [← hload] at hsettled hids hlists
  have hsame : ∀ s, s ∈ (step rootKind d (.reopen order kinds faults)).graph.ids ↔ s ∈ d.graph.ids := by
    intro s
    refine (hids s).trans ?_
    rw [h.ids s, hbuiltinIds, hkinds]
  refine ⟨⟨hsettled, fun s => (hsame s).trans (h.ids s), fun s superIds hs => ?_, fun s hs => ⟨(h.builtin s hs).1, ?_⟩⟩,
    hsettled.sameEdges h.settled hsame fun j hj => hlists j ((hsame j).mpr hj)⟩
  · change d.stored s = some superIds at hs
    have hmem : s ∈ d.graph.ids := (h.ids s).mpr (.inr (by rw [hs]; rfl))
    exact (hlists s ((hsame s).mpr hmem)).trans (h.lists s superIds hs)
  · by_cases hmem : s ∈ d.graph.ids
    · exact (hlists s ((hsame s).mpr hmem)).trans (h.builtin s hs).2
    · have hroot : s = RootKindId := by
        by_contra hne
        have hs' : s ∈ builtinIds false := (List.mem_cons.mp hs).resolve_left hne
        exact hmem ((h.ids s).mpr (.inl (List.mem_append_right _ hs')))
      rw [hroot]
      exact hsettled.lists.root_nil

theorem keeps_perform (h : Inv rootKind d) (op : Op) (hsafe : Safe d op) : Keeps rootKind d (perform rootKind d op) := by
  cases op with
  | putKind order k superIds isSame f => exact keeps_putKind h hsafe
  | delKind order k f => exact keeps_delKind h hsafe
  | reopen order kinds faults => exact ⟨(inv_reopen h hsafe).1, fun he => absurd rfl he⟩

theorem inv_of_run {ops : List Op} (h : Along (step rootKind) Safe (start rootKind) ops) :
    Inv rootKind (run (step rootKind) (start rootKind) ops) :=
  Along.invariant (Inv rootKind) (fun _ op hinv hsafe => (keeps_perform hinv op hsafe).1) (inv_start rootKind) h

/-- `a:1` and `b:1` -/
def kindA : MojString := ⟨[97, 58, 49], by decide⟩
def kindB : MojString := ⟨[98, 58, 49], by decide⟩

def noFaults : Faults := ⟨none, none, none, none, none, ⟨none, none⟩⟩

def putA : Op := .putKind [] kindA [] false noFaults

/-- The second kind is put, and the commit fails. -/
def putB : Op := .putKind [] kindB [kindA] false { noFaults with commit := some .dbQuotaExceeded }

/-- One kind with a list of others, which have none. -/
theorem listsSound_one (ids : List MojString) {ss : List MojString} (hk : k ≠ RootKindId) (hss : ss.Nodup) (hself : k ∉ ss)
    (hnot : RootKindId ∉ ss) : ListsSound ids fun j => if j = k then ss else [] := by
  have hedge : ∀ a c, KindGraph.Names ids (fun j => if j = k then ss else []) a c → a = k ∧ c ∈ ss := by
    intro a c hnames
    obtain ⟨-, hc⟩ := hnames
    dsimp only at hc
    split_ifs at hc with hak
    · exact ⟨hak, hc⟩
    · cases hc
  refine ⟨fun j _ => ?_, fun j _ hmem => ?_, if_neg (Ne.symm hk), fun j hcycle => ?_⟩
  · split_ifs
    · exact hss
    · exact List.nodup_nil
  · split_ifs at hmem
    · exact absurd hmem hnot
    · cases hmem
  · obtain ⟨s, hfirst, -⟩ := Relation.TransGen.head'_iff.mp hcycle
    obtain ⟨t, -, hlast⟩ := Relation.TransGen.tail'_iff.mp hcycle
    exact hself ((hedge j s hfirst).1 ▸ (hedge t j hlast).2)

theorem fits_of_nil {ss : List MojString} (hlists : ∀ j ∈ g.ids, g.superIds j = []) (hroot : g.superIds RootKindId = [])
    (hk : k ≠ RootKindId) (hss : ss.Nodup) (hself : k ∉ ss) (hnot : RootKindId ∉ ss) : Fits g k ss := by
  refine ⟨(listsSound_one _ hk hss hself hnot).congr (fun j hj => ?_) ?_, fun he => absurd he hk⟩
  · split_ifs with hjk
    · rfl
    · exact hlists j ((List.mem_cons.mp hj).resolve_left hjk)
  · rw [if_neg (Ne.symm hk)]
    exact hroot

theorem safe_putA_putB : Along (step true) Safe (start true) [putA, putB] := by
  refine ⟨⟨by decide, fits_of_nil (by decide) (by decide) (by decide) (by decide) (by decide) (by decide), ?_⟩,
    ⟨by decide, fits_of_nil (by decide) (by decide) (by decide) (by decide) (by decide) (by decide), ?_⟩, trivial⟩
  · rintro (h | h | h)
    · exact absurd rfl h
    · exact absurd rfl h
    · exact absurd rfl h
  · refine fun _ => ⟨.inr fun hwaits => ?_, rfl⟩
    obtain ⟨-, j, hj, hnamed⟩ := hwaits
    have hnone : ∀ j ∈ (step true (start true) putA).graph.ids, kindB ∉ (step true (start true) putA).graph.superIds j := by
      decide
    exact hnone j hj hnamed

end KindGraphDb

end Db8
