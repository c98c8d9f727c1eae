import Db8.Db.MojDbKindGraph

/-!
# Db.MojDbKindGraphLists

The edges that the extends lists ask for.

* `ListsSound`       — each list names a kind once, the root kind only alone, and the lists make no cycle.
* `dueSupers`        — the registered kinds of a list; the root kind, when there are none.
* `Settled`          — sound lists, and each kind has the supers that are due to it.
* `Cleared`          — the same for all kinds but one, which has no edges.
* `Off`              — off one kind the graph is another one.
* `Off.updateSupers` — off one kind settled, the graph is settled by `updateSupers` of that kind.
-/

namespace Db8

open Lib MojDbQuotaEngine

namespace KindGraph

/-- The kind is one of these, and its list names the other one. -/
def Names (ids : List MojString) (superIds : MojString → List MojString) (k s : MojString) : Prop :=
  k ∈ ids ∧ s ∈ superIds k

/-- The extends lists of the kinds, as far as they go together. -/
structure ListsSound (ids : List MojString) (superIds : MojString → List MojString) : Prop where
  nodup : ∀ k ∈ ids, (superIds k).Nodup
  root_alone : ∀ k ∈ ids, RootKindId ∈ superIds k → superIds k = [RootKindId]
  root_nil : superIds RootKindId = []
  acyclic : ∀ k, ¬Relation.TransGen (Names ids superIds) k k

/-- The registered kinds that a list names. -/
def named (ids superIds : List MojString) : List MojString := superIds.filter (· ∈ ids)

/-- What the supers of a kind should be. -/
def dueSupers (ids : List MojString) (superIds : MojString → List MojString) (k : MojString) : List MojString :=
  if named ids (superIds k) = [] ∧ RootKindId ∈ ids ∧ k ≠ RootKindId then [RootKindId] else named ids (superIds k)

variable {g : KindGraph} {k s j : MojString} {ids : List MojString} {superIds : MojString → List MojString}

theorem mem_named {ss : List MojString} : s ∈ named ids ss ↔ s ∈ ss ∧ s ∈ ids := by
  simp [named, List.mem_filter]

theorem named_congr {ids' : List MojString} (hids : ∀ s, s ∈ ids' ↔ s ∈ ids) (ss : List MojString) :
    named ids' ss = named ids ss := by
  unfold named
  exact List.filter_congr fun s _ => by simp [hids]

theorem dueSupers_congr {ids' : List MojString} {superIds' : MojString → List MojString} (hids : ∀ s, s ∈ ids' ↔ s ∈ ids)
    (hlist : superIds' k = superIds k) : dueSupers ids' superIds' k = dueSupers ids superIds k := by
  unfold dueSupers
  simp only [hlist, named_congr hids, hids]

namespace ListsSound

theorem mono {ids' : List MojString} (h : ListsSound ids superIds) (hle : ∀ k ∈ ids', k ∈ ids) :
    ListsSound ids' superIds where
  nodup k hk := h.nodup k (hle k hk)
  root_alone k hk := h.root_alone k (hle k hk)
  root_nil := h.root_nil
  acyclic k hcycle :=
    h.acyclic k (Relation.TransGen.mono (fun _ _ hnames => ⟨hle _ hnames.1, hnames.2⟩) k k hcycle)

theorem congr {superIds' : MojString → List MojString} (h : ListsSound ids superIds)
    (hlists : ∀ k ∈ ids, superIds' k = superIds k) (hroot : superIds' RootKindId = []) : ListsSound ids superIds' where
  nodup k hk := (hlists k hk).symm ▸ h.nodup k hk
  root_alone k hk := (hlists k hk).symm ▸ h.root_alone k hk
  root_nil := hroot
  acyclic k hcycle :=
    h.acyclic k (Relation.TransGen.mono (fun a _ hnames => ⟨hnames.1, hlists a hnames.1 ▸ hnames.2⟩) k k hcycle)

theorem self_notMem (h : ListsSound ids superIds) (hk : k ∈ ids) : k ∉ superIds k :=
  fun hself => h.acyclic k (.single ⟨hk, hself⟩)

theorem nodup_dueSupers (h : ListsSound ids superIds) (hk : k ∈ ids) : (dueSupers ids superIds k).Nodup := by
  unfold dueSupers
  split_ifs
  · exact List.nodup_singleton _
  · exact (h.nodup k hk).filter _

/-- A list that names another kind does not name the root kind. -/
theorem root_notMem (h : ListsSound ids superIds) (hj : j ∈ ids) (hk : k ∈ superIds j) (hne : k ≠ RootKindId) :
    RootKindId ∉ superIds j := by
  intro hroot
  rw [h.root_alone j hj hroot, List.mem_singleton] at hk
  exact hne hk

end ListsSound

/-- The graph is sound, and its edges are those of sound lists. -/
structure Settled (g : KindGraph) : Prop where
  nodup_ids : g.ids.Nodup
  sound : g.links.Sound g.ids
  lists : ListsSound g.ids g.superIds
  edges : ∀ k ∈ g.ids, ∀ s, g.links.Super k s ↔ s ∈ dueSupers g.ids g.superIds k

/-- What another kind keeps while `k` has no edges. A kind that waits for `k` alone is under the root kind, or,
when `k` was registered, under none. -/
def EdgesBut (g : KindGraph) (k j : MojString) : Prop :=
  (∀ s, g.links.Super j s ↔ s ∈ g.registeredSupers k (g.superIds j)) ∧
      (g.registeredSupers k (g.superIds j) = [] → k ∈ g.superIds j ∨ j = RootKindId ∨ RootKindId ∉ g.ids) ∨
    g.registeredSupers k (g.superIds j) = [] ∧ g.links.supers j = [RootKindId]

/-- The kind has no edges; all others have those that are due to them, or wait for it. -/
structure Cleared (g : KindGraph) (k : MojString) : Prop where
  nodup_ids : g.ids.Nodup
  sound : g.links.Sound (k :: g.ids)
  supers_nil : g.links.supers k = []
  isolated : ∀ j, ¬g.links.Super j k
  lists : ListsSound (k :: g.ids) g.superIds
  edges : ∀ j ∈ g.ids, j ≠ k → g.EdgesBut k j
  root_first : k = RootKindId → ∀ j ∈ g.ids, j = k

theorem mem_inOrder (order : List MojString) : s ∈ g.inOrder order ↔ s ∈ g.ids := by
  simp only [inOrder, List.mem_append, List.mem_filter, List.mem_dedup, decide_eq_true_eq]
  tauto

theorem nodup_inOrder (h : g.ids.Nodup) (order : List MojString) : (g.inOrder order).Nodup := by
  refine List.nodup_append.mpr ⟨(List.nodup_dedup order).filter _, h.filter _, fun a ha b hb he => ?_⟩
  simp only [List.mem_filter, List.mem_dedup, decide_eq_true_eq] at ha hb
  exact hb.2 (he ▸ ha.1)

theorem mem_registeredSupers {ss : List MojString} : s ∈ g.registeredSupers k ss ↔ s ∈ ss ∧ s ∈ g.ids ∧ s ≠ k := by
  simp [registeredSupers, List.mem_filter]

/-- A list that does not name the kind itself. -/
theorem registeredSupers_eq_named {ss : List MojString} (hk : k ∉ ss) : g.registeredSupers k ss = named g.ids ss := by
  unfold registeredSupers named
  refine List.filter_congr fun s hs => ?_
  have hne : s ≠ k := fun he => hk (he ▸ hs)
  simp [hne]

/-- Placed one after the other, kinds without the root kind among them make up their list. -/
theorem foldl_place_nil {ss : List MojString} (h : RootKindId ∈ ss → ss = [RootKindId]) : ss.foldl place [] = ss := by
  cases ss with
  | nil => rfl
  | cons s ss =>
    rw [List.foldl_cons, place_of_ne (by simp) s, List.nil_append]
    by_cases hs : s = RootKindId
    · subst hs
      have hss : ss = [] := (List.cons.inj (h List.mem_cons_self)).2
      rw [hss]
      rfl
    · rw [foldl_place (by simp) (by simp [hs])]
      rfl

/-- Above a kind, other than the root kind, there are only those that the lists lead to. -/
theorem names_of_atOrAbove {links : Links MojString} (hroot : links.supers RootKindId = [])
    (hnames : ∀ a b, links.Super a b → b ≠ RootKindId → Names ids superIds a b) (hpath : links.AtOrAbove k s)
    (hs : s ≠ RootKindId) : Relation.ReflTransGen (Names ids superIds) k s := by
  induction hpath with
  | refl => exact .refl
  | tail _ hstep ih =>
    refine (ih fun he => ?_).tail (hnames _ _ hstep hs)
    subst he
    unfold Links.Super at hstep
    rw [hroot] at hstep
    cases hstep

namespace Cleared

theorem ne_root (h : Cleared g k) (hj : j ∈ g.ids) (hne : j ≠ k) : k ≠ RootKindId :=
  fun hroot => hne (h.root_first hroot j hj)

/-- The edges that are left follow the lists, or go to the root kind. -/
theorem names_of_super (h : Cleared g k) (hstep : g.links.Super j s) (hs : s ≠ RootKindId) :
    Names (k :: g.ids) g.superIds j s := by
  have hne : j ≠ k := by
    intro he
    unfold Links.Super at hstep
    rw [he, h.supers_nil] at hstep
    cases hstep
  have hj : j ∈ g.ids := by
    have hnode := (h.sound.mem_nodes j s hstep).1
    exact (List.mem_cons.mp hnode).resolve_left hne
  obtain ⟨hedges, -⟩ | ⟨-, hsupers⟩ := h.edges j hj hne
  · exact ⟨List.mem_cons_of_mem k hj, (mem_registeredSupers.mp ((hedges s).mp hstep)).1⟩
  · unfold Links.Super at hstep
    rw [hsupers, List.mem_singleton] at hstep
    exact absurd hstep hs

theorem supers_root (h : Cleared g k) : g.links.supers RootKindId = [] := by
  by_cases hk : RootKindId = k
  · rw [hk]
    exact h.supers_nil
  by_cases hmem : RootKindId ∈ g.ids
  · obtain ⟨hedges, -⟩ | ⟨-, hsupers⟩ := h.edges RootKindId hmem hk
    · refine List.eq_nil_iff_forall_not_mem.mpr fun s hs => ?_
      have hlist := (mem_registeredSupers.mp ((hedges s).mp hs)).1
      rw [h.lists.root_nil] at hlist
      cases hlist
    · have hself : g.links.Super RootKindId RootKindId := by
        unfold Links.Super
        rw [hsupers]
        exact List.mem_singleton_self _
      exact absurd rfl (h.sound.acyclic.ne_of_super hself)
  · refine List.eq_nil_iff_forall_not_mem.mpr fun s hs => ?_
    have hnode := (h.sound.mem_nodes RootKindId s hs).1
    exact (List.mem_cons.mp hnode).elim hk hmem

/-- Where the root kind is a super, it is the only one. -/
theorem supers_of_root (h : Cleared g k) (hj : j ∈ g.ids) (hne : j ≠ k) (hroot : g.links.Super j RootKindId) :
    g.links.supers j = [RootKindId] := by
  obtain ⟨hedges, -⟩ | ⟨-, hsupers⟩ := h.edges j hj hne
  · have hlist := (mem_registeredSupers.mp ((hedges RootKindId).mp hroot)).1
    have halone := h.lists.root_alone j (List.mem_cons_of_mem k hj) hlist
    have hnodup := h.sound.linked.nodup_supers j
    refine List.perm_singleton.mp ((List.perm_ext_iff_of_nodup hnodup (List.nodup_singleton _)).mpr fun s => ?_)
    constructor
    · intro hs
      have hs := (mem_registeredSupers.mp ((hedges s).mp hs)).1
      rwa [halone] at hs
    · intro hs
      rw [List.mem_singleton.mp hs]
      exact hroot
  · exact hsupers

theorem rootAlone (h : Cleared g k) (hj : j ∈ g.ids) (hne : j ≠ k) : RootAlone (g.links.supers j) := by
  intro hhead
  refine h.supers_of_root hj hne ?_
  unfold Links.Super
  exact List.mem_of_mem_head? hhead

/-- What `updateSupers` does to a kind without edges. -/
theorem relink (h : Cleared g k) (order : List MojString) :
    ∃ links : Links MojString,
      (g.addSupers k (g.superIds k) >>= fun g => g.addToSubs order k >>= fun g => g.addRoot k) = .ok { g with links } ∧
      links.Sound (k :: g.ids) ∧
      links.supers k = (if named g.ids (g.superIds k) = [] ∧ RootKindId ∈ g.ids ∧ k ≠ RootKindId then [RootKindId]
        else named g.ids (g.superIds k)) ∧
      ∀ j, j ≠ k → links.supers j =
        if j ∈ g.ids ∧ k ∈ g.superIds j then place (g.links.supers j) k else g.links.supers j := by
  have hself : k ∉ g.superIds k := h.lists.self_notMem List.mem_cons_self
  have hreg : (g.registeredSupers k (g.superIds k)).foldl place (g.links.supers k) = named g.ids (g.superIds k) := by
    rw [h.supers_nil, registeredSupers_eq_named hself]
    refine foldl_place_nil fun hroot => ?_
    have halone := h.lists.root_alone k List.mem_cons_self (mem_named.mp hroot).1
    rw [halone] at hroot ⊢
    have hmem := (mem_named.mp hroot).2
    simp [named, hmem]
  have hnodup : (named g.ids (g.superIds k)).Nodup := (h.lists.nodup k List.mem_cons_self).filter _
  have hfuel : (k :: g.ids).length ≤ g.ids.length + 1 := le_of_eq rfl
  -- first the supers that are registered
  obtain ⟨links₁, hadd, hsound₁, hsupers₁⟩ := exists_addSupers h.sound hfuel List.mem_cons_self
    (fun s hs => List.mem_cons_of_mem k hs) h.isolated (h.supers_nil ▸ rootAlone_nil) (g.superIds k) (hreg ▸ hnodup)
  rw [hreg] at hsupers₁
  have hother₁ : ∀ j, j ≠ k → links₁.supers j = g.links.supers j := fun j hj => (hsupers₁ j).trans (if_neg hj)
  have hk₁ : links₁.supers k = named g.ids (g.superIds k) := (hsupers₁ k).trans (if_pos rfl)
  have hroot₁ : links₁.supers RootKindId = [] := by
    by_cases hk : RootKindId = k
    · rw [hk, hk₁, ← hk, h.lists.root_nil]
      rfl
    · rw [hother₁ _ hk]
      exact h.supers_root
  have hnames₁ : ∀ a b, links₁.Super a b → b ≠ RootKindId → Names (k :: g.ids) g.superIds a b := by
    intro a b hstep hb
    by_cases ha : a = k
    · subst ha
      unfold Links.Super at hstep
      rw [hk₁] at hstep
      exact ⟨List.mem_cons_self, (mem_named.mp hstep).1⟩
    · unfold Links.Super at hstep
      rw [hother₁ a ha] at hstep
      exact h.names_of_super hstep hb
  -- then the kinds that wait for it
  have hne : ∀ j ∈ g.ids, k ∈ g.superIds j → j ≠ k := by
    intro j _ hnames he
    exact hself (he ▸ hnames)
  have hpath : ∀ j ∈ g.ids, k ∈ g.superIds j → ¬links₁.AtOrAbove k j := by
    intro j hj hnames hpath
    have hjroot : j ≠ RootKindId := by
      intro he
      rw [he, h.lists.root_nil] at hnames
      cases hnames
    have hpath := names_of_atOrAbove hroot₁ hnames₁ hpath hjroot
    exact h.lists.acyclic k (.tail' hpath ⟨List.mem_cons_of_mem k hj, hnames⟩)
  have hplace : ∀ j ∈ g.ids, k ∈ g.superIds j → (place (g.links.supers j) k).Nodup := by
    intro j hj hnames
    unfold place
    split_ifs
    · exact List.nodup_singleton _
    · exact List.nodup_append.mpr ⟨h.sound.linked.nodup_supers j, List.nodup_singleton _,
        fun a ha b hb he => h.isolated j (List.mem_singleton.mp hb ▸ he ▸ ha)⟩
  obtain ⟨links₂, hsubs, hsound₂, -, hplaced₂, hkept₂⟩ := exists_addToSubs (g := { g with links := links₁ }) hsound₁ hfuel
    List.mem_cons_self (g.inOrder order) (nodup_inOrder h.nodup_ids order)
    (fun j hj => List.mem_cons_of_mem k ((mem_inOrder order).mp hj)) fun j hj hnames => by
      have hj := (mem_inOrder order).mp hj
      have hjk := hne j hj hnames
      dsimp only
      rw [hother₁ j hjk]
      exact ⟨h.rootAlone hj hjk, hplace j hj hnames⟩
  dsimp only at hplaced₂ hkept₂
  have hother₂ : ∀ j, j ≠ k → links₂.supers j =
      if j ∈ g.ids ∧ k ∈ g.superIds j then place (g.links.supers j) k else g.links.supers j := by
    intro j hjk
    split_ifs with hwaits
    · rw [hplaced₂ j ((mem_inOrder order).mpr hwaits.1) hwaits.2 (hpath j hwaits.1 hwaits.2), hother₁ j hjk]
    · rw [hkept₂ j fun hadds => hwaits ⟨(mem_inOrder order).mp hadds.1, hadds.2.1⟩, hother₁ j hjk]
  have hk₂ : links₂.supers k = named g.ids (g.superIds k) := by
    rw [hkept₂ k fun hadds => hself hadds.2.1, hk₁]
  have hsubs' : ({ g with links := links₁ } : KindGraph).addToSubs order k = .ok { g with links := links₂ } := hsubs
  rw [hadd, ok_bind, hsubs', ok_bind]
  -- last the root kind, for a kind that has none of them
  unfold addRoot
  dsimp only
  rw [hk₂]
  by_cases hkroot : k = RootKindId
  · have hnil : named g.ids (g.superIds k) = [] := by
      rw [hkroot, h.lists.root_nil]
      rfl
    have hstay : (if named g.ids (g.superIds k) = [] ∧ RootKindId ∈ g.ids then
        ({ g with links := links₂ } : KindGraph).addSuper k RootKindId else .ok { g with links := links₂ }) =
        .ok { g with links := links₂ } := by
      split_ifs
      · exact addSuper_of_atOrAbove hsound₂ hfuel (hkroot ▸ .refl)
      · rfl
    refine ⟨links₂, hstay, hsound₂, ?_, hother₂⟩
    rw [hk₂, if_neg fun hdue => hdue.2.2 hkroot]
  by_cases hdue : named g.ids (g.superIds k) = [] ∧ RootKindId ∈ g.ids
  · have hroot₂ : links₂.supers RootKindId = [] := by
      rw [hother₂ RootKindId (Ne.symm hkroot), if_neg, h.supers_root]
      intro hwaits
      rw [h.lists.root_nil] at hwaits
      cases hwaits.2
    have hpath₂ : ¬links₂.AtOrAbove RootKindId k := by
      rw [Links.atOrAbove_of_supers_nil hroot₂]
      exact Ne.symm hkroot
    have hnil : links₂.supers k = [] := hk₂.trans hdue.1
    obtain ⟨links₃, hadd₃, hsound₃, hsupers₃⟩ := exists_addSuper (g := { g with links := links₂ }) hsound₂ hfuel
      List.mem_cons_self (List.mem_cons_of_mem k hdue.2) (hnil ▸ rootAlone_nil) hpath₂
      (hnil ▸ List.nodup_singleton _)
    refine ⟨links₃, ?_, hsound₃, ?_, fun j hj => ?_⟩
    · rw [if_pos hdue]
      exact hadd₃
    · rw [hsupers₃, if_pos rfl, if_pos ⟨hdue.1, hdue.2, hkroot⟩]
      dsimp only
      rw [hnil]
      rfl
    · rw [hsupers₃, if_neg hj]
      exact hother₂ j hj
  · refine ⟨links₂, if_neg hdue, hsound₂, ?_, hother₂⟩
    rw [hk₂, if_neg fun h => hdue ⟨h.1, h.2.1⟩]

/-- The supers of the kind itself, once it is registered. -/
theorem dueSupers_eq (h : Cleared g k) {ids' : List MojString} (hids : ∀ s, s ∈ ids' ↔ s = k ∨ s ∈ g.ids) :
    dueSupers ids' g.superIds k =
      if named g.ids (g.superIds k) = [] ∧ RootKindId ∈ g.ids ∧ k ≠ RootKindId then [RootKindId]
      else named g.ids (g.superIds k) := by
  have hself : k ∉ g.superIds k := h.lists.self_notMem List.mem_cons_self
  have hnamed : named ids' (g.superIds k) = named g.ids (g.superIds k) := by
    refine List.filter_congr fun s hs => ?_
    have hne : s ≠ k := fun he => hself (he ▸ hs)
    simp [hids, hne]
  have hroot : k ≠ RootKindId → (RootKindId ∈ ids' ↔ RootKindId ∈ g.ids) := by
    intro hne
    rw [hids]
    exact or_iff_right (Ne.symm hne)
  unfold dueSupers
  rw [hnamed]
  by_cases hne : k ≠ RootKindId
  · simp only [hroot hne]
  · rw [if_neg fun hdue => hne hdue.2.2, if_neg fun hdue => hne hdue.2.2]

/-- The supers of another kind that does not wait for it. -/
theorem mem_dueSupers_of_notMem (h : Cleared g k) {ids' : List MojString} (hids : ∀ s, s ∈ ids' ↔ s = k ∨ s ∈ g.ids)
    (hj : j ∈ g.ids) (hne : j ≠ k) (hwaits : k ∉ g.superIds j) :
    s ∈ dueSupers ids' g.superIds j ↔ g.links.Super j s := by
  have hnamed : named ids' (g.superIds j) = g.registeredSupers k (g.superIds j) := by
    rw [registeredSupers_eq_named hwaits]
    refine List.filter_congr fun s hs => ?_
    have hsk : s ≠ k := fun he => hwaits (he ▸ hs)
    simp [hids, hsk]
  have hkroot : RootKindId ∈ ids' ↔ RootKindId ∈ g.ids := by
    rw [hids]
    exact or_iff_right (Ne.symm (h.ne_root hj hne))
  unfold dueSupers
  rw [hnamed]
  obtain ⟨hedges, hempty⟩ | ⟨hnil, hsupers⟩ := h.edges j hj hne
  · rw [hedges, if_neg]
    intro hdue
    obtain hw | hr | hr := hempty hdue.1
    · exact hwaits hw
    · exact hdue.2.2 hr
    · exact hr (hkroot.mp hdue.2.1)
  · have hstep : g.links.Super j RootKindId := by
      unfold Links.Super
      rw [hsupers]
      exact List.mem_singleton_self _
    have hroot : RootKindId ∈ g.ids := by
      have hnode := (h.sound.mem_nodes j RootKindId hstep).2
      exact (List.mem_cons.mp hnode).resolve_left (Ne.symm (h.ne_root hj hne))
    have hjroot : j ≠ RootKindId := h.sound.acyclic.ne_of_super hstep
    rw [if_pos ⟨hnil, hkroot.mpr hroot, hjroot⟩]
    unfold Links.Super
    rw [hsupers]

/-- The supers of a kind that waited for it. -/
theorem mem_dueSupers_of_mem (h : Cleared g k) {ids' : List MojString} (hids : ∀ s, s ∈ ids' ↔ s = k ∨ s ∈ g.ids)
    (hj : j ∈ g.ids) (hne : j ≠ k) (hwaits : k ∈ g.superIds j) :
    s ∈ dueSupers ids' g.superIds j ↔ s ∈ place (g.links.supers j) k := by
  have hkroot := h.ne_root hj hne
  have hk : k ∈ named ids' (g.superIds j) := mem_named.mpr ⟨hwaits, (hids k).mpr (.inl rfl)⟩
  have hdue : dueSupers ids' g.superIds j = named ids' (g.superIds j) :=
    if_neg fun hdue => by
      rw [hdue.1] at hk
      cases hk
  have hnamed : s ∈ named ids' (g.superIds j) ↔ s = k ∨ s ∈ g.registeredSupers k (g.superIds j) := by
    rw [mem_named, mem_registeredSupers, hids]
    constructor
    · intro hs
      by_cases hsk : s = k
      · exact .inl hsk
      · exact .inr ⟨hs.1, hs.2.resolve_left hsk, hsk⟩
    · intro hs
      cases hs with
      | inl hsk => exact ⟨hsk ▸ hwaits, .inl hsk⟩
      | inr hs => exact ⟨hs.1, .inr hs.2.1⟩
  rw [hdue, hnamed]
  obtain ⟨hedges, -⟩ | ⟨hnil, hsupers⟩ := h.edges j hj hne
  · have hhead : (g.links.supers j).head? ≠ some RootKindId := by
      intro hhead
      have hroot := (hedges RootKindId).mp (List.mem_of_mem_head? hhead)
      exact h.lists.root_notMem (List.mem_cons_of_mem k hj) hwaits hkroot (mem_registeredSupers.mp hroot).1
    rw [place_of_ne hhead, List.mem_append, List.mem_singleton, or_comm]
    exact or_congr_left (hedges s).symm
  · rw [hnil, place, hsupers, if_pos List.head?_cons, List.mem_singleton]
    exact or_iff_left List.not_mem_nil

/-- **With the edges that `updateSupers` leaves the graph is settled.** -/
theorem settled (h : Cleared g k) {links : Links MojString} (hsound : links.Sound (k :: g.ids))
    (hk : links.supers k = if named g.ids (g.superIds k) = [] ∧ RootKindId ∈ g.ids ∧ k ≠ RootKindId then [RootKindId]
      else named g.ids (g.superIds k))
    (hother : ∀ j, j ≠ k → links.supers j =
      if j ∈ g.ids ∧ k ∈ g.superIds j then place (g.links.supers j) k else g.links.supers j)
    {ids' : List MojString} (hids : ∀ s, s ∈ ids' ↔ s = k ∨ s ∈ g.ids) (hnodup : ids'.Nodup) :
    Settled { g with ids := ids', links } where
  nodup_ids := hnodup
  sound := hsound.mono fun s hs => (hids s).mpr (List.mem_cons.mp hs)
  lists := h.lists.mono fun s hs => List.mem_cons.mpr ((hids s).mp hs)
  edges j hj s := by
    dsimp only at hj ⊢
    unfold Links.Super
    by_cases hjk : j = k
    · subst hjk
      rw [hk, h.dueSupers_eq hids]
    · have hj := ((hids j).mp hj).resolve_left hjk
      rw [hother j hjk]
      by_cases hwaits : k ∈ g.superIds j
      · rw [if_pos ⟨hj, hwaits⟩, h.mem_dueSupers_of_mem hids hj hjk hwaits]
      · rw [if_neg fun hw => hwaits hw.2, h.mem_dueSupers_of_notMem hids hj hjk hwaits]
        rfl

end Cleared

/-! ## A kind that is cleared -/

/-- Off the kind `k`, the kinds, their lists and their edges are those of another graph. -/
structure Off (g b : KindGraph) (k : MojString) : Prop where
  nodup_ids : g.ids.Nodup
  sound : g.links.Sound (k :: g.ids)
  ids : ∀ s, s ≠ k → (s ∈ g.ids ↔ s ∈ b.ids)
  superIds : ∀ j, j ≠ k → g.superIds j = b.superIds j
  super : ∀ j s, j ≠ k → s ≠ k → (g.links.Super j s ↔ b.links.Super j s)

theorem Settled.off (h : Settled g) (k : MojString) : Off g g k where
  nodup_ids := h.nodup_ids
  sound := h.sound.mono fun _ hs => List.mem_cons_of_mem k hs
  ids _ _ := Iff.rfl
  superIds _ _ := rfl
  super _ _ _ _ := Iff.rfl

/-- Without its edges the kind is ready to be linked again, with any list, and whether it is registered or not. -/
theorem Off.cleared {b : KindGraph} (h : Off g b k) (hb : Settled b) {ids' : List MojString}
    (hids : ∀ s, s ≠ k → (s ∈ ids' ↔ s ∈ g.ids)) (hnodup : ids'.Nodup) {superIds' : MojString → List MojString}
    (hlists : ∀ j, j ≠ k → superIds' j = g.superIds j) (hsound : ListsSound (k :: ids') superIds')
    (hroot : k = RootKindId → ∀ j ∈ ids', j = k) :
    Cleared { g with ids := ids', superIds := superIds', links := g.links.restrict (· ≠ k) } k := by
  have hsuper : ∀ j s, (g.links.restrict (· ≠ k)).Super j s ↔ g.links.Super j s ∧ j ≠ k ∧ s ≠ k :=
    Links.super_restrict _ g.links
  have hlinked := h.sound.linked.restrict (· ≠ k)
  refine ⟨hnodup, ⟨hlinked, h.sound.acyclic.restrict _, fun j s hstep => ?_⟩, ?_, fun j hstep => ?_, hsound,
    fun j hj hne => ?_, hroot⟩
  · obtain ⟨hstep, hj, hs⟩ := (hsuper j s).mp hstep
    have hnodes := h.sound.mem_nodes j s hstep
    have hj' := (List.mem_cons.mp hnodes.1).resolve_left hj
    have hs' := (List.mem_cons.mp hnodes.2).resolve_left hs
    exact ⟨List.mem_cons_of_mem k ((hids j hj).mpr hj'), List.mem_cons_of_mem k ((hids s hs).mpr hs')⟩
  · exact if_neg (not_not.mpr rfl)
  · exact ((hsuper j k).mp hstep).2.2 rfl
  · dsimp only at hj
    have hjids := (h.ids j hne).mp ((hids j hne).mp hj)
    have hkroot : k ≠ RootKindId := fun he => hne (hroot he j hj)
    have hlist : superIds' j = b.superIds j := (hlists j hne).trans (h.superIds j hne)
    have hsame : ∀ s, s ≠ k → (s ∈ ids' ↔ s ∈ b.ids) := fun s hs => (hids s hs).trans (h.ids s hs)
    have hedge : ∀ s, (g.links.restrict (· ≠ k)).Super j s ↔ s ∈ dueSupers b.ids b.superIds j ∧ s ≠ k := by
      intro s
      rw [hsuper, ← hb.edges j hjids s]
      constructor
      · intro hs
        exact ⟨(h.super j s hne hs.2.2).mp hs.1, hs.2.2⟩
      · intro hs
        exact ⟨(h.super j s hne hs.2).mpr hs.1, hne, hs.2⟩
    have hreg : ∀ s, s ∈ registeredSupers { g with ids := ids', superIds := superIds', links := g.links.restrict (· ≠ k) } k
        (superIds' j) ↔ s ∈ named b.ids (b.superIds j) ∧ s ≠ k := by
      intro s
      rw [mem_registeredSupers, mem_named, hlist]
      constructor
      · intro hs
        exact ⟨⟨hs.1, (hsame s hs.2.2).mp hs.2.1⟩, hs.2.2⟩
      · intro hs
        exact ⟨hs.1.1, (hsame s hs.2).mpr hs.1.2, hs.2⟩
    by_cases hdue : named b.ids (b.superIds j) = [] ∧ RootKindId ∈ b.ids ∧ j ≠ RootKindId
    · refine .inr ⟨List.eq_nil_iff_forall_not_mem.mpr fun s hs => ?_, ?_⟩
      · have hs := ((hreg s).mp hs).1
        rw [hdue.1] at hs
        cases hs
      · have hnodup := hlinked.nodup_supers j
        refine List.perm_singleton.mp ((List.perm_ext_iff_of_nodup hnodup (List.nodup_singleton _)).mpr fun s => ?_)
        refine (hedge s).trans ?_
        rw [dueSupers, if_pos hdue, List.mem_singleton]
        exact and_iff_left_of_imp fun hs => hs ▸ Ne.symm hkroot
    · rw [dueSupers, if_neg hdue] at hedge
      refine .inl ⟨fun s => (hedge s).trans (hreg s).symm, fun hnil => ?_⟩
      by_contra hnot
      obtain ⟨hwaits, hjroot, hregistered⟩ : k ∉ b.superIds j ∧ j ≠ RootKindId ∧ RootKindId ∈ ids' := by
        rw [← hlist]
        simpa only [not_or, not_not] using hnot
      refine hdue ⟨List.eq_nil_iff_forall_not_mem.mpr fun s hs => ?_, (hsame _ (Ne.symm hkroot)).mp hregistered, hjroot⟩
      have hsk : s ≠ k := fun he => hwaits (he ▸ (mem_named.mp hs).1)
      have hmem := (hreg s).mpr ⟨hs, hsk⟩
      rw [hnil] at hmem
      cases hmem

/-- A registered kind names `k`, which is not registered itself. -/
def Awaited (b : KindGraph) (k : MojString) : Prop := k ∉ b.ids ∧ ∃ j ∈ b.ids, k ∈ b.superIds j

theorem setSuperIds_ne (hne : j ≠ k) (ss : List MojString) : (g.setSuperIds k ss).superIds j = g.superIds j := if_neg hne

theorem destroy_eq {nodes : List MojString} (hg : g.links.Sound nodes) :
    g.destroy k = { g with links := g.links.restrict (· ≠ k), superIds := fun j => if j = k then [] else g.superIds j } := by
  have hsupers : (fun j => if j = k then [] else (g.links.restrict (· ≠ k)).supers j) = (g.links.restrict (· ≠ k)).supers := by
    funext j
    split_ifs with hj
    · exact (if_neg (not_not.mpr hj)).symm
    · rfl
  have hsubs : (fun s => if s = k then [] else (g.links.restrict (· ≠ k)).subs s) = (g.links.restrict (· ≠ k)).subs := by
    funext s
    split_ifs with hs
    · exact (if_neg (not_not.mpr hs)).symm
    · rfl
  unfold destroy close
  rw [clearSupers_eq hg]
  simp only [setSuperIds, setSupers, setSubs, hsupers, hsubs]

/-- **`updateSupers` returns and settles the graph.** Other edges change only where a kind has waited for this one. -/
theorem Off.updateSupers {b : KindGraph} (h : Off g b k) (hb : Settled b) (order ss : List MojString)
    (hlists : ListsSound (k :: g.ids) (g.setSuperIds k ss).superIds) (hroot : k = RootKindId → ∀ j ∈ g.ids, j = k) :
    ∃ links : Links MojString,
      g.updateSupers order k ss = .ok { g with superIds := (g.setSuperIds k ss).superIds, links } ∧
      links.Sound (k :: g.ids) ∧
      (∀ ids' : List MojString, ids'.Nodup → (∀ s, s ∈ ids' ↔ s = k ∨ s ∈ g.ids) →
        Settled { g with ids := ids', superIds := (g.setSuperIds k ss).superIds, links }) ∧
      (¬Awaited b k → ∀ j s, j ≠ k → s ≠ k → (links.Super j s ↔ b.links.Super j s)) := by
  have hcleared := h.cleared hb (fun _ _ => Iff.rfl) h.nodup_ids (fun j hj => setSuperIds_ne hj ss) hlists hroot
  obtain ⟨links, hrelink, hsound, hk, hother⟩ := hcleared.relink order
  have hlist : (g.setSuperIds k ss).superIds k = ss := if_pos rfl
  refine ⟨links, ?_, hsound, fun ids' hnodup hids => hcleared.settled hsound hk hother hids hnodup, ?_⟩
  · dsimp only at hrelink
    rw [hlist] at hrelink
    have hclear : (g.setSuperIds k ss).clearSupers k = _ := clearSupers_eq (g := g.setSuperIds k ss) h.sound
    unfold KindGraph.updateSupers
    rw [hclear, ok_bind]
    exact hrelink
  · intro hnot j s hj hs
    have hrestrict : s ∈ (g.links.restrict (· ≠ k)).supers j ↔ b.links.Super j s := by
      have hsuper := Links.super_restrict (· ≠ k) g.links j s
      unfold Links.Super at hsuper
      rw [hsuper]
      exact (and_iff_left ⟨hj, hs⟩).trans (h.super j s hj hs)
    have hsupers := hother j hj
    unfold Links.Super
    rw [hsupers]
    split_ifs with hwaits
    · -- a kind under `k` is not under the root kind as well
      have hjids := (h.ids j hj).mp hwaits.1
      have hnames : k ∈ b.superIds j := by
        rw [← h.superIds j hj, ← setSuperIds_ne hj ss]
        exact hwaits.2
      have hkids : k ∈ b.ids := by
        by_contra hk
        exact hnot ⟨hk, j, hjids, hnames⟩
      have hkroot : k ≠ RootKindId := fun he => hj (hroot he j hwaits.1)
      have hhead : ((g.links.restrict (· ≠ k)).supers j).head? ≠ some RootKindId := by
        intro hhead
        have hstep := List.mem_of_mem_head? hhead
        have hsuper := (Links.super_restrict (· ≠ k) g.links j RootKindId).mp hstep
        have hdue := (hb.edges j hjids RootKindId).mp ((h.super j RootKindId hj hsuper.2.2).mp hsuper.1)
        unfold dueSupers at hdue
        rw [if_neg fun hnil => List.ne_nil_of_mem (mem_named.mpr ⟨hnames, hkids⟩) hnil.1] at hdue
        exact hb.lists.root_notMem hjids hnames hkroot (mem_named.mp hdue).1
      rw [place_of_ne hhead, List.mem_append, List.mem_singleton, hrestrict]
      exact or_iff_left hs
    · exact hrestrict

end KindGraph

end Db8
