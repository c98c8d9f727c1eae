import Db8.Core.MojErr
import Db8.Db.MojDbQuotaEngine
import Db8.Lib.Fallible
import Db8.Lib.Links

/-!
# Db.MojDbKindGraph

The kinds in memory with the kinds they extend and those that extend them.

* `addSuper`, `clearSupers`, `updateSupers` — the edges of one kind, changed on both ends.
* `createKind`, `delKind`, `reloadKind`     — the kind map.
* `Sound`                                   — each edge is on both ends once, there is no cycle, and edges end at
  registered kinds.
* `exists_updateSupers`                     — when `updateSupers` returns, and what it leaves.
-/

namespace Db8

open Lib MojDbQuotaEngine

/-- `ids` are the keys of the kind map. The members of a kind are functions of its id. -/
structure KindGraph where
  ids : List MojString
  superIds : MojString → List MojString
  links : Links MojString
  builtin : MojString → Bool

namespace KindGraph

/-- The error, and the graph as it is left. -/
abbrev Changed := Except (MojErr × KindGraph) KindGraph

variable (g : KindGraph)

def setSupers (k : MojString) (supers : List MojString) : KindGraph :=
  { g with links := { g.links with supers := fun j => if j = k then supers else g.links.supers j } }

def setSubs (s : MojString) (subs : List MojString) : KindGraph :=
  { g with links := { g.links with subs := fun j => if j = s then subs else g.links.subs j } }

def setSuperIds (k : MojString) (superIds : List MojString) : KindGraph :=
  { g with superIds := fun j => if j = k then superIds else g.superIds j }

/-- `removeKind` on the subs of `s`. -/
def removeSub (s k : MojString) : Changed :=
  if k ∈ g.links.subs s then .ok (g.setSubs s ((g.links.subs s).erase k)) else .error (.notFound, g)

/-- `removeKind` on the supers of `k`. -/
def removeSuper (k s : MojString) : Changed :=
  if s ∈ g.links.supers k then .ok (g.setSupers k ((g.links.supers k).erase s)) else .error (.notFound, g)

/-- `MojDbKind::extends`. No path in an acyclic graph is longer than the fuel: the kinds in the map, and the one
that is being made. -/
def extends_ (k id : MojString) : Bool := g.links.reaches id (g.ids.length + 2) k

/-- Both vectors get the edge. -/
def pushEdge (k s : MojString) : KindGraph := { g with links := g.links.link k s }

def addSuper (k s : MojString) : Changed :=
  if g.extends_ s k then .ok g
  else if (g.links.supers k).head? = some RootKindId then do
    let g ← g.removeSub RootKindId k
    pure ((g.setSupers k []).pushEdge k s)
  else .ok (g.pushEdge k s)

def clearSupers (k : MojString) : Changed := do
  let g ← (g.links.supers k).foldlM (fun g s => g.removeSub s k) g
  let g := g.setSupers k []
  let g ← (g.links.subs k).foldlM (fun g j => g.removeSuper j k) g
  pure (g.setSubs k [])

/-- The kinds in the order in which the hash map goes through them. -/
def inOrder (order : List MojString) : List MojString :=
  order.dedup.filter (· ∈ g.ids) ++ g.ids.filter (· ∉ order)

def addSupers (k : MojString) (superIds : List MojString) : Changed :=
  superIds.foldlM (fun g s => if s ∈ g.ids then g.addSuper k s else .ok g) g

def addToSubs (order : List MojString) (k : MojString) : Changed :=
  (g.inOrder order).foldlM (fun g j => if k ∈ g.superIds j then g.addSuper j k else .ok g) g

def addRoot (k : MojString) : Changed :=
  if g.links.supers k = [] ∧ RootKindId ∈ g.ids then g.addSuper k RootKindId else .ok g

/-- `updateSupers`, after the objects have been moved. -/
def updateSupers (order : List MojString) (k : MojString) (superIds : List MojString) : Changed := do
  let g ← (g.setSuperIds k superIds).clearSupers k
  let g ← g.addSupers k superIds
  let g ← g.addToSubs order k
  g.addRoot k

/-- Where an error other than of the edges comes: before `updateSupers` changes them, or after. -/
inductive Interrupt where
  | before | after
  deriving DecidableEq

def configure (order : List MojString) (k : MojString) (superIds : List MojString)
    (interrupt : Option (Interrupt × MojErr)) : Changed :=
  match interrupt with
  | some (.before, err) => .error (err, g)
  | some (.after, err) => do
    let g ← g.updateSupers order k superIds
    .error (err, g)
  | none => g.updateSupers order k superIds

/-- `MojDbKind::close`. -/
def close (k : MojString) : Changed :=
  match g.clearSupers k with
  | .ok g => .ok (g.setSuperIds k [])
  | .error (err, g) => .error (err, g.setSuperIds k [])

/-- The destructor closes the kind, whether that throws or not. -/
def destroy (k : MojString) : KindGraph :=
  let g := match g.close k with
    | .ok g => g
    | .error (_, g) => g
  (g.setSupers k []).setSubs k []

/-- The members of a new kind. -/
def fresh (k : MojString) (builtin : Bool) : KindGraph :=
  let g := ((g.setSupers k []).setSubs k []).setSuperIds k []
  { g with builtin := fun j => if j = k then builtin else g.builtin j }

def createKind (order : List MojString) (k : MojString) (superIds : List MojString) (builtin : Bool)
    (interrupt : Option (Interrupt × MojErr)) : Changed :=
  match (g.fresh k builtin).configure order k superIds interrupt with
  | .ok g => .ok { g with ids := g.ids ++ [k] }
  | .error (err, g) => .error (err, g.destroy k)

/-- `MojDbKindEngine::putKind`. `hash` is an error of the shard engine. -/
def putKind (order : List MojString) (k : MojString) (superIds : List MojString) (builtin : Bool)
    (interrupt : Option (Interrupt × MojErr)) (hash : Option MojErr) : Changed := do
  let g ← if k ∈ g.ids then g.configure order k superIds interrupt else g.createKind order k superIds builtin interrupt
  match hash with
  | some err => .error (err, g)
  | none => .ok g

/-- `MojDbKindEngine::delKind`: `drop` can throw before it closes the kind, or after. -/
def delKind (k : MojString) (interrupt : Option (Interrupt × MojErr)) : Changed :=
  if k ∈ g.ids then
    match interrupt with
    | some (.before, err) => .error (err, g)
    | some (.after, err) => do
      let g ← g.close k
      .error (err, g)
    | none => do
      let g ← g.close k
      pure (({ g with ids := g.ids.erase k }).destroy k)
  else .ok g

/-- `MojDbKindEngine::reloadKind`. The new kind is none of the builtin ones. -/
def reloadKind (order : List MojString) (k : MojString) (superIds : List MojString)
    (interrupt : Option (Interrupt × MojErr)) : Changed :=
  let g := if k ∈ g.ids then ({ g with ids := g.ids.erase k }).destroy k else g
  g.createKind order k superIds false interrupt

/-! ## What a change of the edges leaves -/

variable {g : KindGraph} {k s j : MojString} {nodes : List MojString}

/-- The supers after one more: the root kind gives way. -/
def place (supers : List MojString) (s : MojString) : List MojString :=
  if supers.head? = some RootKindId then [s] else supers ++ [s]

/-- The root kind comes first only where it is alone. -/
def RootAlone (supers : List MojString) : Prop := supers.head? = some RootKindId → supers = [RootKindId]

theorem rootAlone_nil : RootAlone [] := nofun

theorem place_of_ne {supers : List MojString} (h : supers.head? ≠ some RootKindId) (s : MojString) :
    place supers s = supers ++ [s] := if_neg h

theorem rootAlone_place {supers : List MojString} (h : RootAlone supers) (s : MojString) : RootAlone (place supers s) := by
  unfold place
  split_ifs with hroot
  · intro hs
    rw [List.head?_cons, Option.some.injEq] at hs
    rw [hs]
  · cases supers with
    | nil =>
      intro hs
      rw [List.nil_append, List.head?_cons, Option.some.injEq] at hs
      rw [hs, List.nil_append]
    | cons t rest => exact fun hs => absurd hs hroot

theorem foldl_place {supers : List MojString} (hne : supers ≠ []) (hroot : supers.head? ≠ some RootKindId)
    (ss : List MojString) : ss.foldl place supers = supers ++ ss := by
  induction ss generalizing supers with
  | nil => rw [List.foldl_nil, List.append_nil]
  | cons s ss ih =>
    rw [List.foldl_cons, place_of_ne hroot, ih, List.append_assoc, List.singleton_append]
    · exact List.append_ne_nil_of_left_ne_nil hne _
    · rwa [List.head?_append_of_ne_nil _ hne]

/-- What has been placed once was placed once at each stage. -/
theorem nodup_of_foldl_place {supers ss : List MojString} (halone : RootAlone supers)
    (h : (ss.foldl place supers).Nodup) : supers.Nodup := by
  by_cases hne : supers = []
  · rw [hne]
    exact List.nodup_nil
  by_cases hroot : supers.head? = some RootKindId
  · rw [halone hroot]
    exact List.nodup_singleton _
  · rw [foldl_place hne hroot] at h
    exact h.of_append_left

theorem extends_iff (hg : g.links.Sound nodes) (hfuel : nodes.length ≤ g.ids.length + 1) :
    g.extends_ k s = true ↔ g.links.AtOrAbove k s := by
  constructor
  · exact Links.atOrAbove_of_reaches
  · intro hpath
    have hrank := Links.rank_le g.links nodes k
    exact Links.reaches_of_atOrAbove hg.acyclic (fun j t hstep => (hg.mem_nodes j t hstep).2) (by omega) hpath

/-- A temporary cycle is ignored. -/
theorem addSuper_of_atOrAbove (hg : g.links.Sound nodes) (hfuel : nodes.length ≤ g.ids.length + 1)
    (hpath : g.links.AtOrAbove s k) : g.addSuper k s = .ok g :=
  if_pos ((extends_iff hg hfuel).mpr hpath)

theorem exists_addSuper (hg : g.links.Sound nodes) (hfuel : nodes.length ≤ g.ids.length + 1) (hk : k ∈ nodes)
    (hs : s ∈ nodes) (halone : RootAlone (g.links.supers k)) (hpath : ¬g.links.AtOrAbove s k)
    (hnodup : (place (g.links.supers k) s).Nodup) :
    ∃ links : Links MojString, g.addSuper k s = .ok { g with links } ∧ links.Sound nodes ∧
      ∀ j, links.supers j = if j = k then place (g.links.supers k) s else g.links.supers j := by
  unfold addSuper
  rw [if_neg (mt (extends_iff hg hfuel).mp hpath)]
  by_cases hroot : (g.links.supers k).head? = some RootKindId
  · -- the edge to the root kind goes first
    have hsupers := halone hroot
    have hsuper : g.links.Super k RootKindId := by
      unfold Links.Super
      rw [hsupers]
      exact List.mem_singleton_self _
    have hsub : k ∈ g.links.subs RootKindId := (hg.linked.mem_iff _ _).mpr hsuper
    have hgone : (g.links.unlink k RootKindId).supers k = [] := by
      simp [Links.unlink, hsupers]
    have hne : ¬(g.links.unlink k RootKindId).Super k s := by
      unfold Links.Super
      rw [hgone]
      exact List.not_mem_nil
    have hpath' : ¬(g.links.unlink k RootKindId).AtOrAbove s k := fun h =>
      hpath (Relation.ReflTransGen.mono (fun a b hab => ((Links.super_unlink hg.linked _ _ a b).mp hab).1) _ _ h)
    refine ⟨(g.links.unlink k RootKindId).link k s, ?_, hg.unlink.link hk hs hne hpath', fun j => ?_⟩
    · rw [if_pos hroot, removeSub, if_pos hsub, ok_bind]
      simp only [setSubs, setSupers, pushEdge, Links.link, Links.unlink, hsupers, pure, Except.pure, Except.ok.injEq,
        KindGraph.mk.injEq, Links.mk.injEq, true_and, and_true]
      funext j
      split_ifs
      · simp
      · rfl
    · simp only [Links.link, hgone, place, if_pos hroot, List.nil_append]
      split_ifs with hj
      · rfl
      · simp [Links.unlink, hj]
  · rw [if_neg hroot]
    rw [place_of_ne hroot] at hnodup
    have hne : ¬g.links.Super k s := fun hmem =>
      List.disjoint_of_nodup_append hnodup hmem (List.mem_singleton_self s)
    refine ⟨g.links.link k s, rfl, hg.link hk hs hne hpath, fun j => ?_⟩
    rw [place_of_ne hroot, Links.link]

theorem foldlM_removeSub {ss : List MojString} (hss : ss.Nodup) (g : KindGraph) (h : ∀ s ∈ ss, k ∈ g.links.subs s) :
    ss.foldlM (fun g s => g.removeSub s k) g = (.ok { g with links := { g.links with
      subs := fun s => if s ∈ ss then (g.links.subs s).erase k else g.links.subs s } } : Changed) := by
  induction ss generalizing g with
  | nil => rfl
  | cons s ss ih =>
    obtain ⟨hs, hss⟩ := List.nodup_cons.mp hss
    have hnext : ∀ t ∈ ss, k ∈ (g.setSubs s ((g.links.subs s).erase k)).links.subs t := by
      intro t ht
      have hne : t ≠ s := fun he => hs (he ▸ ht)
      simpa only [setSubs, if_neg hne] using h t (List.mem_cons_of_mem s ht)
    rw [List.foldlM_cons, removeSub, if_pos (h s List.mem_cons_self), ok_bind, ih hss _ hnext]
    simp only [setSubs, Except.ok.injEq, KindGraph.mk.injEq, Links.mk.injEq, true_and, and_true]
    funext t
    by_cases ht : t = s
    · subst ht
      simp [hs]
    · simp [ht]

theorem foldlM_removeSuper {js : List MojString} (hjs : js.Nodup) (g : KindGraph)
    (h : ∀ j ∈ js, k ∈ g.links.supers j) :
    js.foldlM (fun g j => g.removeSuper j k) g = (.ok { g with links := { g.links with
      supers := fun j => if j ∈ js then (g.links.supers j).erase k else g.links.supers j } } : Changed) := by
  induction js generalizing g with
  | nil => rfl
  | cons j js ih =>
    obtain ⟨hj, hjs⟩ := List.nodup_cons.mp hjs
    have hnext : ∀ t ∈ js, k ∈ (g.setSupers j ((g.links.supers j).erase k)).links.supers t := by
      intro t ht
      have hne : t ≠ j := fun he => hj (he ▸ ht)
      simpa only [setSupers, if_neg hne] using h t (List.mem_cons_of_mem j ht)
    rw [List.foldlM_cons, removeSuper, if_pos (h j List.mem_cons_self), ok_bind, ih hjs _ hnext]
    simp only [setSupers, Except.ok.injEq, KindGraph.mk.injEq, Links.mk.injEq, true_and, and_true]
    funext t
    by_cases ht : t = j
    · subst ht
      simp [hj]
    · simp [ht]

/-- A kind that is cleared is taken off the graph. -/
theorem clearSupers_eq (hg : g.links.Sound nodes) :
    g.clearSupers k = .ok { g with links := g.links.restrict (· ≠ k) } := by
  have hself : k ∉ g.links.supers k := fun h => hg.acyclic.ne_of_super h rfl
  have hsub : ∀ s ∈ g.links.supers k, k ∈ g.links.subs s := fun s hs => (hg.linked.mem_iff k s).mpr hs
  unfold clearSupers
  rw [foldlM_removeSub (hg.linked.nodup_supers k) g hsub, ok_bind]
  have hsubs : (if k ∈ g.links.supers k then (g.links.subs k).erase k else g.links.subs k) = g.links.subs k :=
    if_neg hself
  simp only [setSupers, hsubs]
  rw [foldlM_removeSuper (hg.linked.nodup_subs k), ok_bind]
  · have hlinks : g.links.restrict (· ≠ k) =
        ⟨fun j => if j = k then [] else (g.links.supers j).erase k,
          fun s => if s = k then [] else (g.links.subs s).erase k⟩ :=
      Links.mk.injEq .. ▸ ⟨funext (Links.supers_restrict_ne hg.linked k), funext (Links.subs_restrict_ne hg.linked k)⟩
    simp only [hlinks, setSubs, pure, Except.pure, Except.ok.injEq, KindGraph.mk.injEq, Links.mk.injEq, true_and,
      and_true]
    constructor
    · funext j
      split_ifs with hmem hj hj
      · rw [hj] at hmem
        exact absurd ((hg.linked.mem_iff k k).mp hmem) hself
      · rfl
      · rfl
      · rw [List.erase_of_not_mem fun h => hmem ((hg.linked.mem_iff j k).mpr h)]
    · funext s
      split_ifs with hs hmem
      · rfl
      · rfl
      · rw [List.erase_of_not_mem fun h => hmem ((hg.linked.mem_iff k s).mp h)]
  · intro j hj
    have hsuper : k ∈ g.links.supers j := (hg.linked.mem_iff j k).mp hj
    have hne : j ≠ k := fun he => hself (he ▸ hsuper)
    simpa only [if_neg hne] using hsuper

/-- The kinds above which `addSupers` puts a new kind. -/
def registeredSupers (g : KindGraph) (k : MojString) (superIds : List MojString) : List MojString :=
  superIds.filter fun s => s ∈ g.ids ∧ s ≠ k

theorem registeredSupers_cons (g : KindGraph) (k s : MojString) (ss : List MojString) :
    g.registeredSupers k (s :: ss) =
      if s ∈ g.ids ∧ s ≠ k then s :: g.registeredSupers k ss else g.registeredSupers k ss := by
  unfold registeredSupers
  rw [List.filter_cons]
  simp only [decide_eq_true_eq]

theorem exists_addSupers (hg : g.links.Sound nodes) (hfuel : nodes.length ≤ g.ids.length + 1) (hk : k ∈ nodes)
    (hids : ∀ s ∈ g.ids, s ∈ nodes) (hisolated : ∀ j, ¬g.links.Super j k) (halone : RootAlone (g.links.supers k))
    (superIds : List MojString) (hnodup : ((g.registeredSupers k superIds).foldl place (g.links.supers k)).Nodup) :
    ∃ links : Links MojString, g.addSupers k superIds = .ok { g with links } ∧ links.Sound nodes ∧
      ∀ j, links.supers j =
        if j = k then (g.registeredSupers k superIds).foldl place (g.links.supers k) else g.links.supers j := by
  unfold addSupers
  induction superIds generalizing g with
  | nil =>
    refine ⟨g.links, rfl, hg, fun j => ?_⟩
    split_ifs with hj
    · rw [hj]
      rfl
    · rfl
  | cons s ss ih =>
    rw [registeredSupers_cons] at hnodup ⊢
    rw [List.foldlM_cons]
    by_cases hs : s ∈ g.ids
    · rw [if_pos hs]
      have hpath : g.links.AtOrAbove s k ↔ s = k := Links.atOrAbove_of_isolated hisolated
      by_cases hsk : s = k
      · rw [addSuper_of_atOrAbove hg hfuel (hpath.mpr hsk), ok_bind]
        rw [if_neg fun h => h.2 hsk] at hnodup ⊢
        exact ih hg hfuel hids hisolated halone hnodup
      · rw [if_pos ⟨hs, hsk⟩, List.foldl_cons] at hnodup
        rw [if_pos ⟨hs, hsk⟩]
        have hplaced := rootAlone_place halone s
        obtain ⟨links, hadd, hsound, hsupers⟩ := exists_addSuper hg hfuel hk (hids s hs) halone (mt hpath.mp hsk)
          (nodup_of_foldl_place hplaced hnodup)
        have hsupersk : links.supers k = place (g.links.supers k) s := (hsupers k).trans (if_pos rfl)
        have hisolated' : ∀ j, ¬links.Super j k := by
          intro j hstep
          by_cases hj : j = k
          · exact hsound.acyclic.ne_of_super hstep hj
          · unfold Links.Super at hstep
            rw [hsupers, if_neg hj] at hstep
            exact hisolated j hstep
        rw [hadd, ok_bind]
        obtain ⟨links', hrest, hsound', hsupers'⟩ := ih (g := { g with links }) hsound hfuel hids hisolated'
          (hsupersk ▸ hplaced) (hsupersk ▸ hnodup)
        refine ⟨links', hrest, hsound', fun j => ?_⟩
        rw [hsupers', List.foldl_cons, ← hsupersk]
        split_ifs with hj
        · rfl
        · rw [hsupers, if_neg hj]
    · rw [if_neg hs, ok_bind]
      rw [if_neg fun h => hs h.1] at hnodup ⊢
      exact ih hg hfuel hids hisolated halone hnodup

/-- The kinds that wait for `k` are put under it, other than those above it. What is above `k` stays. -/
theorem exists_addToSubs (hg : g.links.Sound nodes) (hfuel : nodes.length ≤ g.ids.length + 1) (hk : k ∈ nodes)
    (js : List MojString) (hjs : js.Nodup) (hids : ∀ j ∈ js, j ∈ nodes)
    (halone : ∀ j ∈ js, k ∈ g.superIds j → RootAlone (g.links.supers j) ∧ (place (g.links.supers j) k).Nodup) :
    ∃ links : Links MojString,
      js.foldlM (fun g j => if k ∈ g.superIds j then g.addSuper j k else .ok g) g = (.ok { g with links } : Changed) ∧
      links.Sound nodes ∧ (∀ t, links.AtOrAbove k t ↔ g.links.AtOrAbove k t) ∧
      (∀ j ∈ js, k ∈ g.superIds j → ¬g.links.AtOrAbove k j → links.supers j = place (g.links.supers j) k) ∧
      ∀ j, ¬(j ∈ js ∧ k ∈ g.superIds j ∧ ¬g.links.AtOrAbove k j) → links.supers j = g.links.supers j := by
  induction js generalizing g with
  | nil => exact ⟨g.links, rfl, hg, fun _ => Iff.rfl, nofun, fun _ _ => rfl⟩
  | cons i js ih =>
    obtain ⟨hi, hjs⟩ := List.nodup_cons.mp hjs
    have hids' : ∀ j ∈ js, j ∈ nodes := fun j hj => hids j (List.mem_cons_of_mem i hj)
    rw [List.foldlM_cons]
    by_cases hadds : k ∈ g.superIds i ∧ ¬g.links.AtOrAbove k i
    · obtain ⟨hnamed, hpath⟩ := hadds
      have hthis := halone i List.mem_cons_self hnamed
      obtain ⟨links, hadd, hsound, hsupers⟩ := exists_addSuper hg hfuel (hids i List.mem_cons_self) hk hthis.1 hpath hthis.2
      have habove : ∀ t, links.AtOrAbove k t ↔ g.links.AtOrAbove k t := by
        intro t
        refine Links.atOrAbove_congr fun t ht => ?_
        have hne : t ≠ i := fun he => hpath (he ▸ ht)
        rw [hsupers, if_neg hne]
      have hother : ∀ j ∈ js, links.supers j = g.links.supers j := by
        intro j hj
        have hne : j ≠ i := fun he => hi (he ▸ hj)
        rw [hsupers, if_neg hne]
      rw [if_pos hnamed, hadd, ok_bind]
      obtain ⟨links', hrest, hsound', habove', hplaced', hkept'⟩ := ih (g := { g with links }) hsound hfuel hjs hids'
        fun j hj hnamed => by
          rw [hother j hj]
          exact halone j (List.mem_cons_of_mem i hj) hnamed
      refine ⟨links', hrest, hsound', fun t => (habove' t).trans (habove t), fun j hj hn hp => ?_, fun j hj => ?_⟩
      · cases List.mem_cons.mp hj with
        | inl he =>
          subst he
          rw [hkept' j fun h => hi h.1, hsupers, if_pos rfl]
        | inr hj => rw [hplaced' j hj hn (mt (habove j).mp hp), hother j hj]
      · have hne : j ≠ i := fun he => hj ⟨he ▸ List.mem_cons_self, he ▸ hnamed, he ▸ hpath⟩
        rw [hkept' j fun h => hj ⟨List.mem_cons_of_mem i h.1, h.2.1, mt (habove j).mpr h.2.2⟩, hsupers, if_neg hne]
    · have hstep : (if k ∈ g.superIds i then g.addSuper i k else .ok g) = .ok g := by
        split_ifs with hnamed
        · exact addSuper_of_atOrAbove hg hfuel (not_not.mp fun hp => hadds ⟨hnamed, hp⟩)
        · rfl
      rw [hstep, ok_bind]
      obtain ⟨links, hrest, hsound, habove, hplaced, hkept⟩ := ih hg hfuel hjs hids'
        fun j hj => halone j (List.mem_cons_of_mem i hj)
      refine ⟨links, hrest, hsound, habove, fun j hj hn hp => ?_, fun j hj => ?_⟩
      · cases List.mem_cons.mp hj with
        | inl he =>
          subst he
          exact absurd ⟨hn, hp⟩ hadds
        | inr hj => exact hplaced j hj hn hp
      · exact hkept j fun h => hj ⟨List.mem_cons_of_mem i h.1, h.2⟩

end KindGraph

end Db8
