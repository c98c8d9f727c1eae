import Db8.Db.MojDbKindGraphLists

/-!
# Db.MojDbKindGraphRun

What the kind engine does to a settled graph, whatever fails in it.

* `With`, `SameEdges` — the graph with one kind put, and the same graph up to the order of its lists.
* `putKind_spec`      — a put settles the graph, and when it throws leaves the edges of all other kinds.
* `Off.reloadKind`    — from there a list brings the edges of the kind back.
* `Off.delKind`       — and from there the kind can be taken out.
-/

namespace Db8

open Lib MojDbQuotaEngine

namespace KindGraph

variable {g b : KindGraph} {k s j : MojString} {ss : List MojString}

/-- The graph that a change leaves. -/
def Changed.left : Changed → KindGraph
  | .ok g => g
  | .error (_, g) => g

/-- The kinds and lists of `b` with the kind `k` and its list. -/
structure With (g b : KindGraph) (k : MojString) (ss : List MojString) : Prop where
  ids : ∀ s, s ∈ g.ids ↔ s = k ∨ s ∈ b.ids
  superIds : ∀ j, g.superIds j = if j = k then ss else b.superIds j

/-- The same kinds are registered, with the same edges. -/
structure SameEdges (g b : KindGraph) : Prop where
  ids : ∀ s, s ∈ g.ids ↔ s ∈ b.ids
  super : ∀ j s, g.links.Super j s ↔ b.links.Super j s

theorem SameEdges.refl (g : KindGraph) : SameEdges g g := ⟨fun _ => Iff.rfl, fun _ _ => Iff.rfl⟩

/-- No edge starts or ends at the kind. -/
def Isolated (g : KindGraph) (k : MojString) : Prop := ∀ j s, g.links.Super j s → j ≠ k ∧ s ≠ k

theorem Settled.isolated (h : Settled g) (hk : k ∉ g.ids) : Isolated g k := by
  intro j s hstep
  have hnodes := h.sound.mem_nodes j s hstep
  exact ⟨fun he => hk (he ▸ hnodes.1), fun he => hk (he ▸ hnodes.2)⟩

/-- Settled graphs have the edges that their kinds and lists give. -/
theorem Settled.sameEdges (hg : Settled g) (hb : Settled b) (hids : ∀ s, s ∈ g.ids ↔ s ∈ b.ids)
    (hlists : ∀ j ∈ b.ids, g.superIds j = b.superIds j) : SameEdges g b := by
  refine ⟨hids, fun j s => ?_⟩
  by_cases hj : j ∈ b.ids
  · rw [hg.edges j ((hids j).mpr hj), hb.edges j hj, dueSupers_congr hids (hlists j hj)]
  · have hg' := hg.isolated (mt (hids j).mp hj) j s
    have hb' := hb.isolated hj j s
    exact ⟨fun h => absurd rfl (hg' h).1, fun h => absurd rfl (hb' h).1⟩

/-! ## One kind -/

theorem Off.of_ids (h : Off g b k) {ids' : List MojString} (hnodup : ids'.Nodup)
    (hids : ∀ s, s ≠ k → (s ∈ ids' ↔ s ∈ g.ids)) : Off { g with ids := ids' } b k where
  nodup_ids := hnodup
  sound := h.sound.mono fun s hs => by
    by_cases hsk : s = k
    · exact hsk ▸ List.mem_cons_self
    · exact List.mem_cons_of_mem k ((hids s hsk).mpr ((List.mem_cons.mp hs).resolve_left hsk))
  ids s hs := (hids s hs).trans (h.ids s hs)
  superIds := h.superIds
  super := h.super

/-- Without its edges and its list. -/
theorem Off.restrict (h : Off g b k) (ss : List MojString) :
    Off { g with links := g.links.restrict (· ≠ k), superIds := (g.setSuperIds k ss).superIds } b k where
  nodup_ids := h.nodup_ids
  sound := h.sound.restrict _
  ids := h.ids
  superIds j hj := (setSuperIds_ne hj ss).trans (h.superIds j hj)
  super j s hj hs := by
    refine (Links.super_restrict (· ≠ k) g.links j s).trans ?_
    exact (and_iff_left ⟨hj, hs⟩).trans (h.super j s hj hs)

theorem Off.destroy (h : Off g b k) : Off (g.destroy k) b k := by
  rw [destroy_eq h.sound]
  exact h.restrict []

theorem isolated_destroy {nodes : List MojString} (hg : g.links.Sound nodes) : Isolated (g.destroy k) k := by
  intro j s hstep
  rw [destroy_eq hg] at hstep
  exact ((Links.super_restrict (· ≠ k) g.links j s).mp hstep).2

theorem Off.erase (h : Off g b k) : Off { g with ids := g.ids.erase k } b k :=
  h.of_ids (h.nodup_ids.erase k) fun s hs => by
    rw [h.nodup_ids.mem_erase_iff]
    exact and_iff_right hs

theorem Off.close (h : Off g b k) : ∃ g', g.close k = .ok g' ∧ Off g' b k ∧ g'.ids = g.ids := by
  refine ⟨{ g with links := g.links.restrict (· ≠ k), superIds := (g.setSuperIds k []).superIds }, ?_, h.restrict [], rfl⟩
  unfold KindGraph.close
  rw [clearSupers_eq h.sound]
  rfl

/-- A kind that has no edges gets none when it is made. -/
theorem links_fresh (hlinked : g.links.Linked) (hisolated : Isolated g k) (builtin : Bool) :
    (g.fresh k builtin).links = g.links := by
  have hnil : g.links.supers k = [] :=
    List.eq_nil_iff_forall_not_mem.mpr fun s hs => (hisolated k s hs).1 rfl
  have hnil' : g.links.subs k = [] :=
    List.eq_nil_iff_forall_not_mem.mpr fun j hj => (hisolated j k ((hlinked.mem_iff j k).mp hj)).2 rfl
  have hs : (fun j => if j = k then [] else g.links.supers j) = g.links.supers := by
    funext j
    split_ifs with hj
    · rw [hj, hnil]
    · rfl
  have hb : (fun j => if j = k then [] else g.links.subs j) = g.links.subs := by
    funext j
    split_ifs with hj
    · rw [hj, hnil']
    · rfl
  simp only [fresh, setSupers, setSubs, setSuperIds, hs, hb]

theorem Off.fresh (h : Off g b k) (hisolated : Isolated g k) (builtin : Bool) : Off (g.fresh k builtin) b k where
  nodup_ids := h.nodup_ids
  sound := by
    rw [links_fresh h.sound.linked hisolated]
    exact h.sound
  ids := h.ids
  superIds j hj := (setSuperIds_ne hj []).trans (h.superIds j hj)
  super := by
    rw [links_fresh h.sound.linked hisolated]
    exact h.super

/-- The list of the kind goes together with the lists of the others. The root kind comes before all others. -/
structure Fits (b : KindGraph) (k : MojString) (ss : List MojString) : Prop where
  lists : ListsSound (k :: b.ids) fun j => if j = k then ss else b.superIds j
  root_first : k = RootKindId → ∀ j ∈ b.ids, j = k

theorem Fits.listsSound (h : Fits b k ss) (hoff : Off g b k) : ListsSound (k :: g.ids) (g.setSuperIds k ss).superIds := by
  have hids : ∀ s ∈ k :: g.ids, s ∈ k :: b.ids := by
    intro s hs
    by_cases hsk : s = k
    · exact hsk ▸ List.mem_cons_self
    · exact List.mem_cons_of_mem k ((hoff.ids s hsk).mp ((List.mem_cons.mp hs).resolve_left hsk))
  have hsame : ∀ j, (g.setSuperIds k ss).superIds j = if j = k then ss else b.superIds j := by
    intro j
    by_cases hj : j = k
    · rw [if_pos hj]
      exact if_pos hj
    · rw [setSuperIds_ne hj, hoff.superIds j hj, if_neg hj]
  exact (h.lists.mono hids).congr (fun j _ => hsame j) ((hsame RootKindId).trans h.lists.root_nil)

theorem Fits.root (h : Fits b k ss) (hoff : Off g b k) (hk : k = RootKindId) : ∀ j ∈ g.ids, j = k := by
  intro j hj
  by_contra hne
  exact hne (h.root_first hk j ((hoff.ids j hne).mp hj))

/-- The failure comes before the edges are changed. -/
def Early (interrupt : Option (Interrupt × MojErr)) : Prop := ∃ err, interrupt = some (.before, err)

/-- What a put leaves: the graph is settled with the kind, or the edges of the other kinds are as they were. -/
structure PutSpec (b : KindGraph) (k : MojString) (ss : List MojString) (interrupt : Option (Interrupt × MojErr))
    (result : Changed) : Prop where
  ok : interrupt = none → ∃ g, result = .ok g ∧ Settled g ∧ With g b k ss
  error : interrupt ≠ none → ∃ err g, result = .error (err, g)
  off : Early interrupt ∨ ¬Awaited b k → Off result.left b k
  isolated : k ∉ result.left.ids → Isolated result.left k

theorem not_early_none : ¬Early none := by
  rintro ⟨err, he⟩
  cases he

theorem not_early_after {err : MojErr} : ¬Early (some (.after, err)) := by
  rintro ⟨err', he⟩
  cases he

theorem With.of_off (hoff : Off g b k) {ids' : List MojString} (hids : ∀ s, s ∈ ids' ↔ s = k ∨ s ∈ g.ids)
    (links : Links MojString) : With { g with ids := ids', superIds := (g.setSuperIds k ss).superIds, links } b k ss where
  ids s := by
    refine (hids s).trans ?_
    by_cases hs : s = k
    · simp [hs]
    · exact or_congr_right (hoff.ids s hs)
  superIds j := by
    by_cases hj : j = k
    · rw [if_pos hj]
      exact if_pos hj
    · rw [if_neg hj]
      exact (setSuperIds_ne hj ss).trans (hoff.superIds j hj)

theorem putSpec_configure (hoff : Off g b k) (hb : Settled b) (hfits : Fits b k ss) (hk : k ∈ g.ids) (order : List MojString)
    (interrupt : Option (Interrupt × MojErr)) : PutSpec b k ss interrupt (g.configure order k ss interrupt) := by
  obtain ⟨links, hupdate, hsound, hsettled, hsuper⟩ :=
    hoff.updateSupers hb order ss (hfits.listsSound hoff) (hfits.root hoff)
  have hids : ∀ s, s ∈ g.ids ↔ s = k ∨ s ∈ g.ids := fun s => ⟨.inr, fun h => h.elim (fun he => he ▸ hk) id⟩
  have hleft : ¬Awaited b k → Off { g with superIds := (g.setSuperIds k ss).superIds, links } b k := fun hnot =>
    ⟨hoff.nodup_ids, hsound, hoff.ids, fun j hj => (setSuperIds_ne hj ss).trans (hoff.superIds j hj), hsuper hnot⟩
  cases hi : interrupt with
  | none =>
    have hrun : g.configure order k ss none = _ := hupdate
    rw [hrun]
    exact ⟨fun _ => ⟨_, rfl, hsettled g.ids hoff.nodup_ids hids, With.of_off hoff hids links⟩, fun h => absurd rfl h,
      fun h => hleft (h.resolve_left not_early_none), fun h => absurd hk h⟩
  | some at_ =>
    obtain ⟨where_, err⟩ := at_
    cases where_ with
    | before => exact ⟨nofun, fun _ => ⟨err, g, rfl⟩, fun _ => hoff, fun h => absurd hk h⟩
    | after =>
      have hrun : g.configure order k ss (some (.after, err)) =
          .error (err, { g with superIds := (g.setSuperIds k ss).superIds, links }) := by
        change (g.updateSupers order k ss >>= fun g => .error (err, g)) = _
        rw [hupdate]
        rfl
      rw [hrun]
      exact ⟨nofun, fun _ => ⟨err, _, rfl⟩, fun h => hleft (h.resolve_left not_early_after),
        fun h => absurd hk h⟩

/-- A kind without edges is made. -/
theorem putSpec_createKind (hoff : Off g b k) (hb : Settled b) (hfits : Fits b k ss) (hk : k ∉ g.ids)
    (hisolated : Isolated g k) (order : List MojString) (builtin : Bool) (interrupt : Option (Interrupt × MojErr)) :
    PutSpec b k ss interrupt (g.createKind order k ss builtin interrupt) := by
  have hfresh := hoff.fresh hisolated builtin
  obtain ⟨links, hupdate, hsound, hsettled, hsuper⟩ :=
    hfresh.updateSupers hb order ss (hfits.listsSound hfresh) (hfits.root hfresh)
  have hids : ∀ s, s ∈ g.ids ++ [k] ↔ s = k ∨ s ∈ (g.fresh k builtin).ids := by
    intro s
    rw [List.mem_append, List.mem_singleton, or_comm]
    exact Iff.rfl
  have hnodup : (g.ids ++ [k]).Nodup :=
    List.nodup_append.mpr ⟨hoff.nodup_ids, List.nodup_singleton k, fun a ha c hc he => hk (List.mem_singleton.mp hc ▸ he ▸ ha)⟩
  have hleft : ¬Awaited b k →
      Off { g.fresh k builtin with superIds := ((g.fresh k builtin).setSuperIds k ss).superIds, links } b k := fun hnot =>
    ⟨hfresh.nodup_ids, hsound, hfresh.ids, fun j hj => (setSuperIds_ne hj ss).trans (hfresh.superIds j hj), hsuper hnot⟩
  unfold createKind
  cases hi : interrupt with
  | none =>
    have hrun : (g.fresh k builtin).configure order k ss none = _ := hupdate
    rw [hrun]
    refine ⟨fun _ => ⟨_, rfl, hsettled _ hnodup hids, With.of_off hfresh hids links⟩, fun h => absurd rfl h, fun h => ?_,
      fun h => absurd (List.mem_append_right _ (List.mem_singleton_self k)) h⟩
    refine (hleft (h.resolve_left not_early_none)).of_ids hnodup fun s hs => ?_
    exact (hids s).trans (or_iff_right hs)
  | some at_ =>
    obtain ⟨where_, err⟩ := at_
    cases where_ with
    | before => exact ⟨nofun, fun _ => ⟨err, _, rfl⟩, fun _ => hfresh.destroy, fun _ => isolated_destroy hfresh.sound⟩
    | after =>
      have hrun : (g.fresh k builtin).configure order k ss (some (.after, err)) = .error (err,
          { g.fresh k builtin with superIds := ((g.fresh k builtin).setSuperIds k ss).superIds, links }) := by
        change ((g.fresh k builtin).updateSupers order k ss >>= fun g => .error (err, g)) = _
        rw [hupdate]
        rfl
      rw [hrun]
      exact ⟨nofun, fun _ => ⟨err, _, rfl⟩, fun h => (hleft (h.resolve_left not_early_after)).destroy,
        fun _ => isolated_destroy hsound⟩

/-! ## The kind engine -/

theorem putKind_eq (b : KindGraph) (order : List MojString) (k : MojString) (ss : List MojString) (builtin : Bool)
    (interrupt : Option (Interrupt × MojErr)) (hash : Option MojErr) :
    b.putKind order k ss builtin interrupt hash =
      ((if k ∈ b.ids then b.configure order k ss interrupt else b.createKind order k ss builtin interrupt) >>= fun g =>
        match hash with
        | some err => .error (err, g)
        | none => .ok g) := by
  unfold putKind
  split_ifs
  · rfl
  · rfl

/-- **A put, whatever fails in it.** -/
theorem putKind_spec (hb : Settled b) (hfits : Fits b k ss) (order : List MojString) (builtin : Bool)
    (interrupt : Option (Interrupt × MojErr)) (hash : Option MojErr) :
    (interrupt = none ∧ hash = none → ∃ g, b.putKind order k ss builtin interrupt hash = .ok g ∧ Settled g ∧ With g b k ss) ∧
      (¬(interrupt = none ∧ hash = none) → ∃ err g, b.putKind order k ss builtin interrupt hash = .error (err, g)) ∧
      (Early interrupt ∨ ¬Awaited b k → Off (b.putKind order k ss builtin interrupt hash).left b k) ∧
      (k ∉ (b.putKind order k ss builtin interrupt hash).left.ids →
        Isolated (b.putKind order k ss builtin interrupt hash).left k) := by
  have hput : PutSpec b k ss interrupt
      (if k ∈ b.ids then b.configure order k ss interrupt else b.createKind order k ss builtin interrupt) := by
    split_ifs with hk
    · exact putSpec_configure (hb.off k) hb hfits hk order interrupt
    · exact putSpec_createKind (hb.off k) hb hfits hk (hb.isolated hk) order builtin interrupt
  rw [putKind_eq]
  cases hi : interrupt with
  | none =>
    obtain ⟨g, hok, hsettled, hwith⟩ := hput.ok hi
    have hoff := hput.off
    have hgone := hput.isolated
    rw [hok] at hoff hgone
    rw [hi] at hok hoff
    rw [hok, ok_bind]
    cases hash with
    | none => exact ⟨fun _ => ⟨g, rfl, hsettled, hwith⟩, fun h => absurd ⟨rfl, rfl⟩ h, hoff, hgone⟩
    | some err => exact ⟨nofun, fun _ => ⟨err, g, rfl⟩, hoff, hgone⟩
  | some at_ =>
    obtain ⟨err, g, herror⟩ := hput.error (by rw [hi]; exact Option.some_ne_none at_)
    have hoff := hput.off
    have hgone := hput.isolated
    rw [herror] at hoff hgone
    rw [hi] at herror hoff
    rw [herror, error_bind]
    exact ⟨nofun, fun _ => ⟨err, g, rfl⟩, hoff, hgone⟩

/-- **A kind is loaded again, whatever its edges are.** -/
theorem Off.reloadKind (hoff : Off g b k) (hb : Settled b) (hfits : Fits b k ss) (hgone : k ∉ g.ids → Isolated g k)
    (order : List MojString) : ∃ g', g.reloadKind order k ss none = .ok g' ∧ Settled g' ∧ With g' b k ss := by
  unfold KindGraph.reloadKind
  split_ifs with hk
  · have hnot : k ∉ (({ g with ids := g.ids.erase k } : KindGraph).destroy k).ids := by
      rw [destroy_eq hoff.erase.sound]
      exact fun h => (hoff.nodup_ids.mem_erase_iff.mp h).1 rfl
    exact (putSpec_createKind hoff.erase.destroy hb hfits hnot (isolated_destroy hoff.erase.sound) order false none).ok rfl
  · exact (putSpec_createKind hoff hb hfits hk (hgone hk) order false none).ok rfl

/-- Without the kind the graph is settled, when no other kind names it or it was not there. -/
theorem Off.settled (hoff : Off g b k) (hb : Settled b) (hroot : k ≠ RootKindId) (hk : k ∉ g.ids) (hisolated : Isolated g k)
    (hnames : k ∈ b.ids → ∀ j ∈ b.ids, k ∉ b.superIds j) : Settled g := by
  have hids : ∀ s, s ∈ g.ids ↔ s ≠ k ∧ s ∈ b.ids := by
    intro s
    by_cases hs : s = k
    · exact ⟨fun h => absurd (hs ▸ h) hk, fun h => absurd hs h.1⟩
    · rw [hoff.ids s hs]
      exact (and_iff_right hs).symm
  have hlists : ∀ j ∈ g.ids, g.superIds j = b.superIds j := fun j hj => hoff.superIds j ((hids j).mp hj).1
  refine ⟨hoff.nodup_ids, ⟨hoff.sound.linked, hoff.sound.acyclic, fun j s hstep => ?_⟩, ?_, fun j hj s => ?_⟩
  · have hnodes := hoff.sound.mem_nodes j s hstep
    have hne := hisolated j s hstep
    exact ⟨(List.mem_cons.mp hnodes.1).resolve_left hne.1, (List.mem_cons.mp hnodes.2).resolve_left hne.2⟩
  · refine (hb.lists.mono fun s hs => ((hids s).mp hs).2).congr hlists ?_
    exact (hoff.superIds RootKindId (Ne.symm hroot)).trans hb.lists.root_nil
  · obtain ⟨hjk, hjb⟩ := (hids j).mp hj
    have hnot : k ∉ named b.ids (b.superIds j) := by
      intro hmem
      obtain ⟨hlist, hkb⟩ := mem_named.mp hmem
      exact hnames hkb j hjb hlist
    have hnamed : named g.ids (b.superIds j) = named b.ids (b.superIds j) := by
      refine List.filter_congr fun s hs => ?_
      by_cases hsk : s = k
      · have hkb : k ∉ b.ids := fun h => hnot (mem_named.mpr ⟨hsk ▸ hs, h⟩)
        simp [hsk, hk, hkb]
      · simp [hids, hsk]
    have hdue : dueSupers g.ids g.superIds j = dueSupers b.ids b.superIds j := by
      unfold dueSupers
      rw [hlists j hj, hnamed]
      simp only [hids, ne_eq, Ne.symm hroot, not_false_eq_true, true_and]
    rw [hdue, ← hb.edges j hjb s]
    by_cases hsk : s = k
    · refine ⟨fun hstep => absurd hsk (hisolated j s hstep).2, fun hstep => ?_⟩
      have hmem := (hb.edges j hjb s).mp hstep
      unfold dueSupers at hmem
      split_ifs at hmem with hd
      · exact absurd (hsk.symm.trans (List.mem_singleton.mp hmem)) hroot
      · exact absurd (hsk ▸ hmem) hnot
    · exact hoff.super j s hjk hsk

/-- **A kind is taken out.** -/
theorem Off.delKind (hoff : Off g b k) (hk : k ∈ g.ids) :
    ∃ g', g.delKind k none = .ok g' ∧ Off g' b k ∧ k ∉ g'.ids ∧ Isolated g' k := by
  obtain ⟨g₁, hclose, hoff₁, -⟩ := hoff.close
  refine ⟨({ g₁ with ids := g₁.ids.erase k } : KindGraph).destroy k, ?_, hoff₁.erase.destroy, ?_,
    isolated_destroy hoff₁.erase.sound⟩
  · unfold KindGraph.delKind
    rw [if_pos hk]
    dsimp only
    rw [hclose]
    rfl
  · rw [destroy_eq hoff₁.erase.sound]
    exact fun h => (hoff₁.nodup_ids.mem_erase_iff.mp h).1 rfl

/-- What the put of a new kind does to the supers of the kinds: it has those of its list, and comes behind those of each
kind that waits for it. -/
theorem supers_putKind (hb : Settled b) (hfits : Fits b k ss) (hk : k ∉ b.ids)
    (order : List MojString) (builtin : Bool) :
    (b.putKind order k ss builtin none none).left.links.supers k =
        (if named b.ids ss = [] ∧ RootKindId ∈ b.ids ∧ k ≠ RootKindId then [RootKindId] else named b.ids ss) ∧
      ∀ j, j ≠ k → (b.putKind order k ss builtin none none).left.links.supers j =
        if j ∈ b.ids ∧ k ∈ b.superIds j then place (b.links.supers j) k else b.links.supers j := by
  have hfresh := (hb.off k).fresh (hb.isolated hk) builtin
  have hcleared := hfresh.cleared hb (fun _ _ => Iff.rfl) hfresh.nodup_ids (fun j hj => setSuperIds_ne hj ss)
    (hfits.listsSound hfresh) (hfits.root hfresh)
  obtain ⟨links, hrelink, -, hself, hother⟩ := hcleared.relink order
  have hlist : ((b.fresh k builtin).setSuperIds k ss).superIds k = ss := if_pos rfl
  have hclear : ((b.fresh k builtin).setSuperIds k ss).clearSupers k = _ :=
    clearSupers_eq (g := (b.fresh k builtin).setSuperIds k ss) hfresh.sound
  dsimp only at hrelink hself hother
  rw [hlist] at hrelink hself
  have hrun : (b.fresh k builtin).configure order k ss none =
      .ok { b.fresh k builtin with superIds := ((b.fresh k builtin).setSuperIds k ss).superIds, links } := by
    change (b.fresh k builtin).updateSupers order k ss = _
    unfold KindGraph.updateSupers
    rw [hclear, ok_bind]
    exact hrelink
  have hleft : (b.putKind order k ss builtin none none).left.links = links := by
    rw [putKind_eq, if_neg hk]
    unfold createKind
    rw [hrun]
    rfl
  have hids : (b.fresh k builtin).ids = b.ids := rfl
  rw [hids] at hself hother
  rw [hleft]
  refine ⟨hself, fun j hj => ?_⟩
  have hlistj : ((b.fresh k builtin).setSuperIds k ss).superIds j = b.superIds j :=
    (setSuperIds_ne hj ss).trans (setSuperIds_ne hj [])
  have hrestrict : ((b.fresh k builtin).links.restrict (· ≠ k)).supers j = b.links.supers j := by
    rw [links_fresh hb.sound.linked (hb.isolated hk)]
    refine (if_pos hj).trans (List.filter_eq_self.mpr fun s hs => ?_)
    have hne : s ≠ k := (hb.isolated hk j s hs).2
    simpa using hne
  have hsupers := hother j hj
  rw [hlistj] at hsupers
  rw [hsupers]
  split_ifs
  · exact congrArg (place · k) hrestrict
  · exact hrestrict

end KindGraph

end Db8
