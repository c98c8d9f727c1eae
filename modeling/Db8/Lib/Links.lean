import Mathlib

/-!
# Lib.Links

Graphs that keep each edge on both of its ends.

* `Links`, `Linked`  — the lists of a node's supers and subs, and that they tell of the same edges.
* `link`, `unlink`   — one edge is added or removed on both ends.
* `restrict`         — the part of a graph on the nodes that are kept.
* `Acyclic`          — no node is above itself; an edge keeps it so when its end does not reach its start.
* `Sound`            — linked and acyclic, with all edges between the given nodes.
* `reaches`          — a search upwards with fuel.
* `rank`             — how many nodes are above a node.
* `visit`            — a walk upwards that pushes each node once, `visit_spec` what it pushes.
-/

namespace Lib

/-- `supers k` are the ends of the edges that start at `k`, `subs s` the starts of those that end at `s`. -/
structure Links (κ : Type*) where
  supers : κ → List κ
  subs : κ → List κ

namespace Links

variable {κ : Type*}

def empty : Links κ := ⟨fun _ => [], fun _ => []⟩

/-- `s` is directly above `k`. -/
def Super (g : Links κ) (k s : κ) : Prop := s ∈ g.supers k

/-- `s` is above `k`. -/
def Above (g : Links κ) : κ → κ → Prop := Relation.TransGen g.Super

/-- `s` is above `k`, or `k` itself. -/
def AtOrAbove (g : Links κ) : κ → κ → Prop := Relation.ReflTransGen g.Super

/-- Each edge is on both of its ends, once. -/
structure Linked (g : Links κ) : Prop where
  mem_iff : ∀ k s, k ∈ g.subs s ↔ s ∈ g.supers k
  nodup_supers : ∀ k, (g.supers k).Nodup
  nodup_subs : ∀ s, (g.subs s).Nodup

def Acyclic (g : Links κ) : Prop := ∀ k, ¬g.Above k k

/-- The edges are between the nodes, on both of their ends, and make no cycle. -/
structure Sound (g : Links κ) (nodes : List κ) : Prop where
  linked : g.Linked
  acyclic : g.Acyclic
  mem_nodes : ∀ k s, g.Super k s → k ∈ nodes ∧ s ∈ nodes

variable {g : Links κ} {k s j : κ}

theorem linked_empty : (empty : Links κ).Linked :=
  ⟨fun _ _ => ⟨nofun, nofun⟩, fun _ => List.nodup_nil, fun _ => List.nodup_nil⟩

/-- Fewer edges make no cycle. -/
theorem Acyclic.mono {g' : Links κ} (h : g.Acyclic) (hle : ∀ k s, g'.Super k s → g.Super k s) : g'.Acyclic :=
  fun k hcycle => h k (Relation.TransGen.mono hle k k hcycle)

/-- What is above a node is the same in a graph that has the same supers at each node on the way. -/
theorem atOrAbove_congr {g' : Links κ} (h : ∀ t, g.AtOrAbove k t → g'.supers t = g.supers t) :
    g'.AtOrAbove k s ↔ g.AtOrAbove k s := by
  constructor
  · intro hpath
    induction hpath with
    | refl => exact .refl
    | tail _ hstep ih =>
      unfold Super at hstep
      rw [h _ ih] at hstep
      exact ih.tail hstep
  · intro hpath
    induction hpath with
    | refl => exact .refl
    | tail hfirst hstep ih =>
      refine ih.tail ?_
      unfold Super
      rw [h _ hfirst]
      exact hstep

/-- A node without supers has nothing above it. -/
theorem atOrAbove_of_supers_nil (hsupers : g.supers k = []) : g.AtOrAbove k s ↔ k = s := by
  constructor
  · intro hpath
    cases Relation.ReflTransGen.cases_head hpath with
    | inl he => exact he
    | inr hstep =>
      obtain ⟨t, ht, -⟩ := hstep
      unfold Super at ht
      rw [hsupers] at ht
      cases ht
  · intro he
    exact he ▸ .refl

/-- A node without subs is above nothing. -/
theorem atOrAbove_of_isolated (hsubs : ∀ t, ¬g.Super t s) : g.AtOrAbove k s ↔ k = s := by
  constructor
  · intro hpath
    cases Relation.ReflTransGen.cases_tail hpath with
    | inl he => exact he.symm
    | inr hstep =>
      obtain ⟨t, -, ht⟩ := hstep
      exact absurd ht (hsubs t)
  · intro he
    exact he ▸ .refl

theorem Acyclic.ne_of_super (h : g.Acyclic) (hstep : g.Super k s) : k ≠ s := by
  intro he
  subst he
  exact h k (.single hstep)

theorem Acyclic.not_atOrAbove (h : g.Acyclic) (hstep : g.Super k s) : ¬g.AtOrAbove s k :=
  fun hpath => h k (.head' hstep hpath)

theorem acyclic_empty : (empty : Links κ).Acyclic := by
  intro k hcycle
  obtain ⟨s, hstep, -⟩ := Relation.TransGen.head'_iff.mp hcycle
  cases hstep

/-! ## A part of a graph -/

/-- The nodes that are kept, and the edges between them. -/
def restrict (g : Links κ) (keep : κ → Prop) [DecidablePred keep] : Links κ :=
  ⟨fun k => if keep k then (g.supers k).filter keep else [], fun s => if keep s then (g.subs s).filter keep else []⟩

section Restrict

variable (keep : κ → Prop) [DecidablePred keep]

theorem super_restrict (g : Links κ) (k s : κ) :
    (g.restrict keep).Super k s ↔ g.Super k s ∧ keep k ∧ keep s := by
  unfold Super restrict
  dsimp only
  split_ifs with hk
  · simp [hk, List.mem_filter]
  · simp [hk]

theorem Linked.restrict (h : g.Linked) : (g.restrict keep).Linked where
  mem_iff k s := by
    have hsuper := super_restrict keep g k s
    unfold Super at hsuper
    rw [hsuper, ← h.mem_iff]
    unfold Links.restrict
    dsimp only
    split_ifs with hs
    · simp [hs, List.mem_filter]
    · simp [hs]
  nodup_supers k := by
    unfold Links.restrict
    dsimp only
    split_ifs
    · exact (h.nodup_supers k).filter _
    · exact List.nodup_nil
  nodup_subs s := by
    unfold Links.restrict
    dsimp only
    split_ifs
    · exact (h.nodup_subs s).filter _
    · exact List.nodup_nil

theorem Acyclic.restrict (h : g.Acyclic) : (g.restrict keep).Acyclic :=
  h.mono fun k s hs => ((super_restrict keep g k s).mp hs).1

theorem Sound.restrict {nodes : List κ} (h : g.Sound nodes) : (g.restrict keep).Sound nodes where
  linked := h.linked.restrict keep
  acyclic := h.acyclic.restrict keep
  mem_nodes k s hs := h.mem_nodes k s ((super_restrict keep g k s).mp hs).1

end Restrict

theorem Sound.mono {nodes nodes' : List κ} (h : g.Sound nodes) (hle : ∀ k ∈ nodes, k ∈ nodes') : g.Sound nodes' where
  linked := h.linked
  acyclic := h.acyclic
  mem_nodes k s hs := ⟨hle k (h.mem_nodes k s hs).1, hle s (h.mem_nodes k s hs).2⟩

theorem sound_empty (nodes : List κ) : (empty : Links κ).Sound nodes where
  linked := linked_empty
  acyclic := acyclic_empty
  mem_nodes _ _ := nofun

variable [DecidableEq κ]

theorem supers_restrict_ne (h : g.Linked) (k j : κ) :
    (g.restrict (· ≠ k)).supers j = if j = k then [] else (g.supers j).erase k := by
  simp only [restrict, (h.nodup_supers j).erase_eq_filter, ite_not, bne, decide_not, beq_eq_decide]

theorem subs_restrict_ne (h : g.Linked) (k s : κ) :
    (g.restrict (· ≠ k)).subs s = if s = k then [] else (g.subs s).erase k := by
  simp only [restrict, (h.nodup_subs s).erase_eq_filter, ite_not, bne, decide_not, beq_eq_decide]

/-! ## One edge -/

def link (g : Links κ) (k s : κ) : Links κ where
  supers j := if j = k then g.supers k ++ [s] else g.supers j
  subs j := if j = s then g.subs s ++ [k] else g.subs j

def unlink (g : Links κ) (k s : κ) : Links κ where
  supers j := if j = k then (g.supers k).erase s else g.supers j
  subs j := if j = s then (g.subs s).erase k else g.subs j

theorem super_link (g : Links κ) (k s j t : κ) :
    (g.link k s).Super j t ↔ g.Super j t ∨ (j = k ∧ t = s) := by
  unfold Super link
  dsimp only
  split_ifs with hj
  · subst hj
    simp
  · simp [hj]

theorem super_unlink (h : g.Linked) (k s j t : κ) :
    (g.unlink k s).Super j t ↔ g.Super j t ∧ ¬(j = k ∧ t = s) := by
  unfold Super unlink
  dsimp only
  split_ifs with hj
  · subst hj
    rw [(h.nodup_supers j).mem_erase_iff]
    simp [and_comm]
  · simp [hj]

theorem Linked.link (h : g.Linked) (hnot : ¬g.Super k s) : (g.link k s).Linked where
  mem_iff j t := by
    have hsuper := super_link g k s j t
    unfold Super at hsuper
    rw [hsuper]
    unfold Links.link
    dsimp only
    split_ifs with ht
    · subst ht
      rw [List.mem_append, List.mem_singleton, h.mem_iff]
      simp
    · simp [ht, h.mem_iff]
  nodup_supers j := by
    unfold Links.link
    dsimp only
    split_ifs with hj
    · exact List.nodup_append.mpr ⟨h.nodup_supers k, List.nodup_singleton s,
        fun a ha b hb he => hnot (List.mem_singleton.mp hb ▸ he ▸ ha)⟩
    · exact h.nodup_supers j
  nodup_subs t := by
    unfold Links.link
    dsimp only
    split_ifs with ht
    · exact List.nodup_append.mpr ⟨h.nodup_subs s, List.nodup_singleton k,
        fun a ha b hb he => hnot ((h.mem_iff k s).mp (List.mem_singleton.mp hb ▸ he ▸ ha))⟩
    · exact h.nodup_subs t

theorem Linked.unlink (h : g.Linked) : (g.unlink k s).Linked where
  mem_iff j t := by
    have hsuper := super_unlink h k s j t
    unfold Super at hsuper
    rw [hsuper]
    unfold Links.unlink
    dsimp only
    split_ifs with ht
    · subst ht
      rw [(h.nodup_subs t).mem_erase_iff, h.mem_iff]
      simp [and_comm]
    · simp [ht, h.mem_iff]
  nodup_supers j := by
    unfold Links.unlink
    dsimp only
    split_ifs
    · exact (h.nodup_supers k).erase s
    · exact h.nodup_supers j
  nodup_subs t := by
    unfold Links.unlink
    dsimp only
    split_ifs
    · exact (h.nodup_subs s).erase k
    · exact h.nodup_subs t

/-- A path that uses the new edge runs up to its start and on from its end. -/
theorem above_link {t : κ} (h : (g.link k s).Above j t) :
    g.Above j t ∨ (g.AtOrAbove j k ∧ g.AtOrAbove s t) := by
  induction h with
  | single hstep =>
    cases (super_link g k s _ _).mp hstep with
    | inl hold => exact .inl (.single hold)
    | inr hnew => exact .inr ⟨hnew.1 ▸ .refl, hnew.2 ▸ .refl⟩
  | tail _ hstep ih =>
    cases (super_link g k s _ _).mp hstep with
    | inl hold =>
      cases ih with
      | inl hpath => exact .inl (hpath.tail hold)
      | inr hpath => exact .inr ⟨hpath.1, hpath.2.tail hold⟩
    | inr hnew =>
      obtain ⟨rfl, rfl⟩ := hnew
      cases ih with
      | inl hpath => exact .inr ⟨hpath.to_reflTransGen, .refl⟩
      | inr hpath => exact .inr ⟨hpath.1, .refl⟩

theorem Acyclic.link (h : g.Acyclic) (hnot : ¬g.AtOrAbove s k) : (g.link k s).Acyclic := by
  intro j hcycle
  cases above_link hcycle with
  | inl hold => exact h j hold
  | inr hnew => exact hnot (hnew.2.trans hnew.1)

theorem Sound.link {nodes : List κ} (h : g.Sound nodes) (hk : k ∈ nodes) (hs : s ∈ nodes) (hnot : ¬g.Super k s)
    (hpath : ¬g.AtOrAbove s k) : (g.link k s).Sound nodes where
  linked := h.linked.link hnot
  acyclic := h.acyclic.link hpath
  mem_nodes j t hstep := by
    cases (super_link g k s j t).mp hstep with
    | inl hold => exact h.mem_nodes j t hold
    | inr hnew => exact ⟨hnew.1 ▸ hk, hnew.2 ▸ hs⟩

theorem Sound.unlink {nodes : List κ} (h : g.Sound nodes) : (g.unlink k s).Sound nodes where
  linked := h.linked.unlink
  acyclic := h.acyclic.mono fun j t hstep => ((super_unlink h.linked k s j t).mp hstep).1
  mem_nodes j t hstep := h.mem_nodes j t ((super_unlink h.linked k s j t).mp hstep).1

/-! ## Searching upwards -/

/-- Whether `s` is found at or above `k` in fewer than `fuel` steps. -/
def reaches (g : Links κ) (s : κ) : Nat → κ → Bool
  | 0, _ => false
  | fuel + 1, k => k = s || (g.supers k).any (reaches g s fuel)

theorem atOrAbove_of_reaches {fuel : Nat} (h : g.reaches s fuel k = true) : g.AtOrAbove k s := by
  induction fuel generalizing k with
  | zero => cases h
  | succ fuel ih =>
    simp only [reaches, Bool.or_eq_true, decide_eq_true_eq, List.any_eq_true] at h
    cases h with
    | inl he => exact he ▸ .refl
    | inr hany =>
      obtain ⟨t, ht, hreach⟩ := hany
      exact .head ht (ih hreach)

open Classical in
/-- How many of the nodes are above a node. -/
noncomputable def rank (g : Links κ) (nodes : List κ) (k : κ) : Nat :=
  (nodes.toFinset.filter (g.Above k)).card

theorem rank_le (g : Links κ) (nodes : List κ) (k : κ) : g.rank nodes k ≤ nodes.length := by
  classical
  exact (Finset.card_filter_le _ _).trans (List.toFinset_card_le nodes)

theorem rank_lt (h : g.Acyclic) {nodes : List κ} (hs : s ∈ nodes) (hstep : g.Super k s) :
    g.rank nodes s < g.rank nodes k := by
  classical
  unfold rank
  refine Finset.card_lt_card (Finset.ssubset_iff_subset_ne.mpr ⟨?_, ?_⟩)
  · intro t ht
    rw [Finset.mem_filter] at ht ⊢
    exact ⟨ht.1, .head hstep ht.2⟩
  · intro he
    have hmem : s ∈ nodes.toFinset.filter (g.Above k) :=
      Finset.mem_filter.mpr ⟨List.mem_toFinset.mpr hs, .single hstep⟩
    rw [← he, Finset.mem_filter] at hmem
    exact h s hmem.2

/-- In an acyclic graph the search has fuel enough when it could pass every node. -/
theorem reaches_of_atOrAbove (h : g.Acyclic) {nodes : List κ} (hnodes : ∀ k s, g.Super k s → s ∈ nodes)
    {fuel : Nat} (hfuel : g.rank nodes k < fuel) (hpath : g.AtOrAbove k s) : g.reaches s fuel k = true := by
  induction fuel generalizing k with
  | zero => omega
  | succ fuel ih =>
    simp only [reaches, Bool.or_eq_true, decide_eq_true_eq, List.any_eq_true]
    cases Relation.ReflTransGen.cases_head hpath with
    | inl he => exact .inl he
    | inr hstep =>
      obtain ⟨t, ht, hrest⟩ := hstep
      have hlt := rank_lt h (hnodes k t ht) ht
      exact .inr ⟨t, ht, ih (by omega) hrest⟩

/-! ## Visiting upwards -/

/-- The nodes that were visited, with those above a node that were not, each pushed once. -/
def visit (g : Links κ) : Nat → List κ → κ → List κ
  | 0, seen, _ => seen
  | fuel + 1, seen, k =>
    (g.supers k).foldl (fun seen s => if s ∈ seen then seen else visit g fuel seen s) (seen ++ [k])

/-- The visited nodes that are above `k` have all nodes above them visited. -/
def Closed (g : Links κ) (seen : List κ) (k : κ) : Prop :=
  ∀ t, g.AtOrAbove k t → t ∈ seen → ∀ u, g.AtOrAbove t u → u ∈ seen

/-- What a visit pushes. -/
structure Pushes (seen : List κ) (above : κ → Prop) (result : List κ) : Prop where
  pushed : ∃ new, result = seen ++ new ∧ new.Nodup ∧ ∀ s, s ∈ new ↔ above s ∧ s ∉ seen

theorem visit_pushes (h : g.Acyclic) {nodes : List κ} (hnodes : ∀ k s, g.Super k s → s ∈ nodes) {fuel : Nat}
    {seen : List κ} (hfuel : g.rank nodes k < fuel) (hk : k ∉ seen) (hclosed : g.Closed seen k) :
    Pushes seen (g.AtOrAbove k) (g.visit fuel seen k) := by
  induction fuel generalizing k seen with
  | zero => omega
  | succ fuel ih =>
    -- the supers that have been passed, and what they have pushed
    have hfold : ∀ done rest : List κ, g.supers k = done ++ rest → ∀ result : List κ,
        Pushes (seen ++ [k]) (fun s => ∃ p ∈ done, g.AtOrAbove p s) result →
        Pushes (seen ++ [k]) (fun s => ∃ p ∈ g.supers k, g.AtOrAbove p s)
          (rest.foldl (fun seen s => if s ∈ seen then seen else visit g fuel seen s) result) := by
      intro done rest
      induction rest generalizing done with
      | nil =>
        intro hsupers result hresult
        rw [hsupers, List.append_nil]
        exact hresult
      | cons s rest ihrest =>
        intro hsupers result hresult
        rw [List.foldl_cons]
        refine ihrest (done ++ [s]) (by rw [hsupers, List.append_assoc, List.singleton_append]) _ ?_
        have hstep : g.Super k s := by
          unfold Super
          rw [hsupers]
          exact List.mem_append_right _ List.mem_cons_self
        obtain ⟨new, rfl, hnew, hmem⟩ := hresult.pushed
        -- what is visited above `s` has all above it visited
        have hclosed' : g.Closed ((seen ++ [k]) ++ new) s := by
          intro t hst ht u htu
          rw [List.append_assoc, List.mem_append, List.mem_append, List.mem_singleton] at ht ⊢
          obtain ht | ht | ht := ht
          · exact .inl (hclosed t (.head hstep hst) ht u htu)
          · exact absurd (ht ▸ hst) (h.not_atOrAbove hstep)
          · obtain ⟨⟨p, hp, hpt⟩, -⟩ := (hmem t).mp ht
            by_cases hu : u ∈ seen ++ [k]
            · rw [List.mem_append, List.mem_singleton] at hu
              exact hu.elim .inl fun hu => .inr (.inl hu)
            · exact .inr (.inr ((hmem u).mpr ⟨⟨p, hp, hpt.trans htu⟩, hu⟩))
        split_ifs with hs
        · refine ⟨new, rfl, hnew, fun t => ?_⟩
          rw [hmem]
          refine and_congr_left fun ht => ⟨fun ⟨p, hp, hpt⟩ => ⟨p, List.mem_append_left _ hp, hpt⟩, fun ⟨p, hp, hpt⟩ => ?_⟩
          cases List.mem_append.mp hp with
          | inl hp => exact ⟨p, hp, hpt⟩
          | inr hp =>
            rw [List.mem_singleton] at hp
            subst hp
            have htin := hclosed' p .refl hs t hpt
            exact ((hmem t).mp ((List.mem_append.mp htin).resolve_left ht)).1
        · have hrank := rank_lt h (hnodes k s hstep) hstep
          obtain ⟨new', hvisit, hnew', hmem'⟩ := (ih (by omega) hs hclosed').pushed
          refine ⟨new ++ new', by rw [hvisit, List.append_assoc], List.nodup_append.mpr ⟨hnew, hnew', fun a ha c hc he => ?_⟩,
            fun t => ?_⟩
          · exact ((hmem' c).mp hc).2 (List.mem_append_right _ (he ▸ ha))
          · rw [List.mem_append, hmem, hmem']
            constructor
            · rintro (⟨⟨p, hp, hpt⟩, ht⟩ | ⟨hst, ht⟩)
              · exact ⟨⟨p, List.mem_append_left _ hp, hpt⟩, ht⟩
              · exact ⟨⟨s, by simp, hst⟩, fun hin => ht (List.mem_append_left _ hin)⟩
            · rintro ⟨⟨p, hp, hpt⟩, ht⟩
              by_cases hnewt : t ∈ new
              · exact .inl ((hmem t).mp hnewt)
              cases List.mem_append.mp hp with
              | inl hp => exact .inl ⟨⟨p, hp, hpt⟩, ht⟩
              | inr hp =>
                rw [List.mem_singleton] at hp
                exact .inr ⟨hp ▸ hpt, fun hin => (List.mem_append.mp hin).elim ht hnewt⟩
    have hall := hfold [] (g.supers k) rfl (seen ++ [k]) ⟨[], by simp, List.nodup_nil, by simp⟩
    obtain ⟨new, hvisit, hnew, hmem⟩ := hall.pushed
    refine ⟨k :: new, ?_, List.nodup_cons.mpr ⟨fun hin => ?_, hnew⟩, fun s => ?_⟩
    · rw [visit, hvisit, List.append_assoc, List.singleton_append]
    · exact ((hmem k).mp hin).2 (by simp)
    · rw [List.mem_cons, hmem]
      constructor
      · rintro (rfl | ⟨⟨p, hp, hps⟩, hs⟩)
        · exact ⟨.refl, hk⟩
        · exact ⟨.head hp hps, fun hin => hs (List.mem_append_left _ hin)⟩
      · rintro ⟨hks, hs⟩
        cases Relation.ReflTransGen.cases_head hks with
        | inl he => exact .inl he.symm
        | inr hstep =>
          obtain ⟨p, hp, hps⟩ := hstep
          by_cases hsk : s = k
          · exact .inl hsk
          · exact .inr ⟨⟨p, hp, hps⟩, by simp [hs, hsk]⟩

/-- **From one node each node above it is visited once.** -/
theorem visit_spec (h : g.Acyclic) {nodes : List κ} (hnodes : ∀ k s, g.Super k s → s ∈ nodes) (k : κ) :
    (g.visit (nodes.length + 1) [] k).Nodup ∧ ∀ s, s ∈ g.visit (nodes.length + 1) [] k ↔ g.AtOrAbove k s := by
  obtain ⟨new, hvisit, hnew, hmem⟩ := (visit_pushes h hnodes (Nat.lt_succ_of_le (rank_le g nodes k)) List.not_mem_nil
    fun _ _ ht => absurd ht List.not_mem_nil).pushed
  rw [hvisit, List.nil_append]
  exact ⟨hnew, fun s => (hmem s).trans (and_iff_left List.not_mem_nil)⟩

end Links

end Lib
