import Db8.Core.MojObjectBuilder
import Db8.Core.MojObjectFilter
import Db8.Core.MojObjectProject
import Db8.Core.MojString
import Db8.Lib.SortedSet

/-!
# Core.MojObjectFilterInit

The selection tree `MojObjectFilter::init` builds, and which properties come through it.

* `addPath`, `init`   — a path added below the names already there, at the end of the children.
* `lets`              — the paths the walk over the tree lets through.
* `shows`             — the same on the paths themselves.
* `pruneProps_eq`     — the filter is the projection to these paths, without the names that come too late.
* `visits_projection_iff` — when this is the projection to the selected paths.
-/

namespace Db8

open Lib MojObject

namespace MojObjectFilter

/-! ## The tree -/

/-- The step of `init` at the name `p`; `rest` adds what follows it. A childless child ends the path. -/
def addAt (p : MojString) (rest : List Node → List Node) : List Node → List Node
  | [] => [⟨p, rest []⟩]
  | c :: cs =>
    if c.propName = p then (if c.children.isEmpty then c else ⟨c.propName, rest c.children⟩) :: cs
    else c :: addAt p rest cs

/-- The names of a path, from a node on. -/
def addPath : List MojString → List Node → List Node
  | [], cs => cs
  | p :: ps, cs => addAt p (addPath ps) cs

def build (paths : List (List MojString)) : List Node := paths.foldl (fun cs path => addPath path cs) []

/-- `.` -/
def separator : MojByte := 46

/-- The paths of the set in its order. -/
def paths (selectProps : SortedSet MojString) : List (List MojString) :=
  selectProps.elems.map fun s => s.split separator

def init (selectProps : SortedSet MojString) : Node := ⟨MojString.empty, build (paths selectProps)⟩

/-! ## The paths it lets through -/

/-- A path is let through if, at each of its names, the first child that does not sort below the name
has it, as far as a childless one. -/
def lets : List Node → List MojString → Bool
  | _, [] => false
  | cs, k :: q =>
    match cs.find? fun c => !decide (c.propName < k) with
    | none => false
    | some c => decide (c.propName = k) && (c.children.isEmpty || lets c.children q)

theorem seek_head? (k : MojString) (cs : List Node) :
    (seek k cs).head? = cs.find? fun c => !decide (c.propName < k) := by
  simp only [seek, MojString.compare_eq_lt]
  exact (List.find?_not_eq_head?_dropWhile _ _).symm

theorem seek_cons (k : MojString) (c : Node) (cs : List Node) :
    seek k (c :: cs) = if c.propName < k then seek k cs else c :: cs := by
  simp only [seek, MojString.compare_eq_lt, List.dropWhile_cons, decide_eq_true_eq]

theorem find?_seek {j k : MojString} (h : j ≤ k) (cs : List Node) :
    ((seek j cs).find? fun c => !decide (c.propName < k)) = cs.find? fun c => !decide (c.propName < k) := by
  induction cs with
  | nil => rfl
  | cons c cs ih =>
    rw [seek_cons]
    split_ifs with hc
    · rw [ih, List.find?_cons_of_neg (by simpa using hc.trans_le h)]
    · rfl

theorem find?_seek_of_lt {j k : MojString} (h : k < j) (cs : List Node) :
    ((seek j cs).find? fun c => !decide (c.propName < k)) = cs.find? fun c => !decide (c.propName < j) := by
  rw [← seek_head? j]
  cases hseek : seek j cs with
  | nil => rfl
  | cons c rest =>
    have hc := seek_head? j cs
    rw [hseek] at hc
    have hj : j ≤ c.propName := by simpa using List.find?_some hc.symm
    rw [List.find?_cons_of_pos (by simpa using (h.trans_le hj).le)]
    rfl

/-- A name below one that has been passed is not let through. -/
theorem lets_seek (j k : MojString) (q : List MojString) (cs : List Node) :
    lets (seek j cs) (k :: q) = (lets cs (k :: q) && !decide (k < j)) := by
  by_cases h : k < j
  · rw [lets, find?_seek_of_lt h, decide_eq_true h, Bool.not_true, Bool.and_false]
    cases hfind : cs.find? fun c => !decide (c.propName < j) with
    | none => rfl
    | some c =>
      have hj : j ≤ c.propName := by simpa using List.find?_some hfind
      have hne : c.propName ≠ k := (h.trans_le hj).ne'
      simp [hne]
  · rw [lets, lets, find?_seek (not_lt.mp h)]
    simp [h]

/-! ## The filter is a projection -/

/-- The children left once all of `passed` have come. -/
def seekAll (passed : List MojString) (cs : List Node) : List Node := passed.foldl (fun cs k => seek k cs) cs

theorem lets_seekAll (passed : List MojString) (k : MojString) (q : List MojString) (cs : List Node) :
    lets (seekAll passed cs) (k :: q) = (lets cs (k :: q) && passed.all fun j => !decide (k < j)) := by
  induction passed generalizing cs with
  | nil => simp [seekAll]
  | cons j passed ih =>
    have hcons : seekAll (j :: passed) cs = seekAll passed (seek j cs) := rfl
    rw [hcons, ih, lets_seek, List.all_cons, Bool.and_assoc]

/-- In the order the names come, `kept` is each name with none before it that sorts behind it. -/
def Keeps (names : List MojString) (kept : MojString → Bool) : Prop :=
  ∀ passed k rest, names = passed ++ k :: rest → (passed.all fun j => !decide (k < j)) = kept k

/-- What the children let through of properties with such names. -/
def letsOf (kept : MojString → Bool) (cs : List Node) : List MojString → Bool
  | [] => false
  | k :: q => lets cs (k :: q) && kept k

/-- What a node leaves of the value is the projection to what it lets through. -/
def IsProjection (o : MojObject) : Prop := ∀ n : Node, prune o n = project (lets n.children) o

theorem pruneProp_eq {k : MojString} {v : MojObject} (hv : IsProjection v) (cs : List Node) :
    pruneProps [(k, v)] cs = ((project (fun q => lets cs (k :: q)) v).map fun v => (k, v)).toList := by
  have hseek := seek_head? k cs
  rw [pruneProps, pruneProps, List.append_nil]
  cases hs : seek k cs with
  | nil =>
    rw [hs] at hseek
    have hlets : ∀ q, lets cs (k :: q) = false := by
      intro q
      rw [lets, ← hseek]
      rfl
    rw [project_of_none hlets]
    rfl
  | cons c rest =>
    rw [hs] at hseek
    have hlets : ∀ q, lets cs (k :: q) = (decide (c.propName = k) && (c.children.isEmpty || lets c.children q)) := by
      intro q
      rw [lets, ← hseek]
      rfl
    simp only [hlets, MojString.compare_eq_iff]
    by_cases hk : c.propName = k
    · cases hchildren : c.children.isEmpty with
      | true =>
        rw [project_of_all (by simp [hk])]
        simp [hk]
      | false =>
        have hv' := hv c
        simp [hk, hv']
    · rw [project_of_none (by simp [hk])]
      simp [hk]

theorem pruneProps_seekAll {ps : List (MojString × MojObject)} (hps : ∀ p ∈ ps, IsProjection p.2)
    {passed : List MojString} {kept : MojString → Bool} (hkept : Keeps (passed ++ ps.map Prod.fst) kept)
    (cs : List Node) : pruneProps ps (seekAll passed cs) = projectProps (letsOf kept cs) ps := by
  induction ps generalizing passed with
  | nil => rfl
  | cons p ps ih =>
    obtain ⟨k, v⟩ := p
    rw [List.forall_mem_cons] at hps
    have hsplit : pruneProps ((k, v) :: ps) (seekAll passed cs) =
        pruneProps [(k, v)] (seekAll passed cs) ++ pruneProps ps (seek k (seekAll passed cs)) := by
      rw [pruneProps, pruneProps, pruneProps, List.append_nil]
    have hnext : seek k (seekAll passed cs) = seekAll (passed ++ [k]) cs := by
      rw [seekAll, seekAll, List.foldl_append]
      rfl
    have hhead : (fun q => lets (seekAll passed cs) (k :: q)) = fun q => letsOf kept cs (k :: q) := by
      funext q
      rw [lets_seekAll, letsOf, hkept passed k _ rfl]
    have hassoc : passed ++ ((k, v) :: ps).map Prod.fst = (passed ++ [k]) ++ ps.map Prod.fst := by simp
    rw [hassoc] at hkept
    rw [hsplit, pruneProp_eq hps.1, projectProps, hhead, hnext, ih hps.2 hkept]

/-- The properties against all children. -/
theorem pruneProps_eq {ps : List (MojString × MojObject)} (hps : ∀ p ∈ ps, IsProjection p.2)
    {kept : MojString → Bool} (hkept : Keeps (ps.map Prod.fst) kept) (cs : List Node) :
    pruneProps ps cs = projectProps (letsOf kept cs) ps :=
  @pruneProps_seekAll ps hps [] kept hkept cs

/-- In key order every name is kept. -/
theorem keeps_of_ordered {ps : List (MojString × MojObject)} (h : isOrderedProps ps = true) :
    Keeps (ps.map Prod.fst) fun _ => true := by
  intro passed k rest hsplit
  have hord : (ps.map Prod.fst).Pairwise (· < ·) := by
    rw [List.pairwise_map]
    exact (isOrderedProps_iff.mp h).2.imp fun h => MojString.compare_eq_lt.mp h
  rw [hsplit, List.pairwise_append] at hord
  rw [List.all_eq_true]
  intro j hj
  simpa using (hord.2.2 j hj k List.mem_cons_self).le

theorem letsOf_true (cs : List Node) : letsOf (fun _ => true) cs = lets cs := by
  funext q
  cases q <;> simp [letsOf, lets]

theorem pruneVec_eq {xs : List MojObject} (hxs : ∀ x ∈ xs, IsProjection x) (n : Node) :
    pruneVec xs n = projectVec (lets n.children) xs := by
  induction xs with
  | nil => rfl
  | cons x xs ih =>
    rw [List.forall_mem_cons] at hxs
    rw [pruneVec, projectVec, hxs.1 n, ih hxs.2]

theorem isProjection {o : MojObject} (ho : o.isOrdered = true) : IsProjection o := by
  induction o using inductionOn with
  | object ps ih =>
    intro n
    have hvals := (isOrderedProps_iff.mp ho).1
    have hprune := pruneProps_eq (fun p hp => ih p hp (hvals p hp)) (keeps_of_ordered ho) n.children
    rw [letsOf_true] at hprune
    rw [prune, project, hprune]
    cases ps with
    | nil => simp [projectProps, lets]
    | cons p ps => rfl
  | array xs ih =>
    intro n
    have hprune := pruneVec_eq (fun x hx => ih x hx (isOrderedVec_iff.mp ho x hx)) n
    rw [prune, project, hprune]
    cases xs with
    | nil => simp [projectVec, lets]
    | cons x xs => rfl
  | _ =>
    intro n
    simp [prune, project, lets]

/-! ## The paths themselves -/

/-- The first names of the paths. -/
def firsts (paths : List (List MojString)) : List MojString := paths.filterMap List.head?

/-- What follows `k` on the paths that begin with it. -/
def tails (k : MojString) (paths : List (List MojString)) : List (List MojString) :=
  paths.filterMap fun path => if path.head? = some k then some path.tail else none

/-- The selected paths show a path: of the names they begin with, in their order, the first that does
not sort below that of the path is this name, and of those that begin with it the first ends there or
they show the rest. -/
def shows : List (List MojString) → List MojString → Bool
  | _, [] => false
  | paths, k :: q =>
    decide (((firsts paths).find? fun h => !decide (h < k)) = some k) &&
      (decide ((tails k paths).head? = some []) || shows (tails k paths) q)

/-- The children below a name whose paths go on with `paths`. -/
def below (paths : List (List MojString)) : List Node := if paths.head? = some [] then [] else build paths

theorem build_concat (paths : List (List MojString)) (path : List MojString) :
    build (paths ++ [path]) = addPath path (build paths) := by
  rw [build, List.foldl_append]
  rfl

theorem firsts_concat (paths : List (List MojString)) (path : List MojString) :
    firsts (paths ++ [path]) = firsts paths ++ path.head?.toList := by
  cases path <;> simp [firsts]

theorem tails_concat (k : MojString) (paths : List (List MojString)) (path : List MojString) :
    tails k (paths ++ [path]) = tails k paths ++ if path.head? = some k then [path.tail] else [] := by
  rw [tails, List.filterMap_append]
  by_cases h : path.head? = some k <;> simp [tails, h]

theorem tails_eq_nil {k : MojString} {paths : List (List MojString)} : tails k paths = [] ↔ k ∉ firsts paths := by
  simp [tails, firsts, List.filterMap_eq_nil_iff]

theorem map_addAt (p : MojString) (rest : List Node → List Node) (cs : List Node) :
    (addAt p rest cs).map Node.propName =
      if p ∈ cs.map Node.propName then cs.map Node.propName else cs.map Node.propName ++ [p] := by
  induction cs with
  | nil => simp [addAt]
  | cons c cs ih =>
    rw [addAt]
    by_cases hc : c.propName = p
    · cases hchildren : c.children.isEmpty <;> simp [hc]
    · simp only [if_neg hc, List.map_cons, ih, List.mem_cons, Ne.symm hc, false_or]
      split_ifs <;> rfl

/-- A child after `addAt`: one of another name, a new one, or one with more below it. -/
theorem mem_addAt {p : MojString} {rest : List Node → List Node} {cs : List Node}
    (hnodup : (cs.map Node.propName).Nodup) {c' : Node} (h : c' ∈ addAt p rest cs) :
    (c' ∈ cs ∧ c'.propName ≠ p) ∨ (p ∉ cs.map Node.propName ∧ c' = ⟨p, rest []⟩) ∨
      ∃ c ∈ cs, c.propName = p ∧ c' = if c.children.isEmpty then c else ⟨c.propName, rest c.children⟩ := by
  induction cs with
  | nil => exact .inr (.inl ⟨List.not_mem_nil, List.mem_singleton.mp h⟩)
  | cons c cs ih =>
    rw [List.map_cons, List.nodup_cons] at hnodup
    rw [addAt] at h
    by_cases hc : c.propName = p
    · rw [if_pos hc] at h
      cases List.mem_cons.mp h with
      | inl h => exact .inr (.inr ⟨c, List.mem_cons_self, hc, h⟩)
      | inr h =>
        refine .inl ⟨List.mem_cons_of_mem _ h, ?_⟩
        intro he
        exact hnodup.1 (List.mem_map.mpr ⟨c', h, he.trans hc.symm⟩)
    · rw [if_neg hc] at h
      cases List.mem_cons.mp h with
      | inl h => exact .inl ⟨h ▸ List.mem_cons_self, h ▸ hc⟩
      | inr h =>
        obtain ⟨hmem, hne⟩ | ⟨hnew, he⟩ | ⟨d, hd, hdp, he⟩ := ih hnodup.2 h
        · exact .inl ⟨List.mem_cons_of_mem _ hmem, hne⟩
        · refine .inr (.inl ⟨?_, he⟩)
          rw [List.map_cons, List.mem_cons, not_or]
          exact ⟨Ne.symm hc, hnew⟩
        · exact .inr (.inr ⟨d, List.mem_cons_of_mem _ hd, hdp, he⟩)

/-- What the children of a node say of the paths that lead below it. -/
structure Built (paths : List (List MojString)) (cs : List Node) : Prop where
  nodup : (cs.map Node.propName).Nodup
  names : ∀ p : MojString → Bool, (cs.map Node.propName).find? p = (firsts paths).find? p
  children : ∀ c ∈ cs, c.children = below (tails c.propName paths)

theorem Built.mem {paths : List (List MojString)} {cs : List Node} (h : Built paths cs) (k : MojString) :
    k ∈ cs.map Node.propName ↔ k ∈ firsts paths := by
  have hfind := h.names fun l => l = k
  rw [← not_iff_not]
  have hnone : ∀ ks : List MojString, (ks.find? fun l => l = k) = none ↔ k ∉ ks := by
    intro ks
    simp only [List.find?_eq_none, decide_eq_true_eq]
    exact ⟨fun h hk => h k hk rfl, fun h l hl he => h (he ▸ hl)⟩
  rw [← hnone, ← hnone, hfind]

theorem tails_concat_of_ne {h k : MojString} (hne : k ≠ h) (t : List MojString) (paths : List (List MojString)) :
    tails k (paths ++ [h :: t]) = tails k paths := by
  rw [tails_concat, List.head?_cons, if_neg (fun he => hne (Option.some.inj he).symm), List.append_nil]

theorem tails_concat_self (h : MojString) (t : List MojString) (paths : List (List MojString)) :
    tails h (paths ++ [h :: t]) = tails h paths ++ [t] := by
  rw [tails_concat, List.head?_cons, if_pos rfl, List.tail_cons]

theorem below_singleton (t : List MojString) : below [t] = addPath t [] := by
  cases t <;> rfl

theorem addAt_ne_nil (p : MojString) (rest : List Node → List Node) (cs : List Node) : addAt p rest cs ≠ [] := by
  cases cs with
  | nil => exact List.cons_ne_nil _ _
  | cons c cs =>
    rw [addAt]
    split_ifs <;> exact List.cons_ne_nil _ _

/-- Only empty paths leave a node childless. -/
theorem eq_nil_of_build {paths : List (List MojString)} (h : build paths = []) : ∀ path ∈ paths, path = [] := by
  induction paths using List.reverseRecOn with
  | nil => exact fun _ hp => absurd hp List.not_mem_nil
  | append_singleton paths path ih =>
    rw [build_concat] at h
    cases path with
    | cons k t => exact absurd h (addAt_ne_nil _ _ _)
    | nil =>
      intro path hpath
      cases List.mem_append.mp hpath with
      | inl hpath => exact ih h path hpath
      | inr hpath => exact List.mem_singleton.mp hpath

/-- The children below a name are none exactly if the first path ends at it. -/
theorem below_isEmpty {paths : List (List MojString)} (hne : paths ≠ []) :
    (below paths).isEmpty = decide (paths.head? = some []) := by
  obtain ⟨path, rest, rfl⟩ := List.exists_cons_of_ne_nil hne
  rw [below]
  split_ifs with hhead
  · simp [hhead]
  · rw [decide_eq_false hhead, List.isEmpty_eq_false_iff]
    intro hnil
    exact hhead (congrArg some (eq_nil_of_build hnil path List.mem_cons_self))

theorem below_concat {paths : List (List MojString)} (hne : paths ≠ []) (t : List MojString) :
    below (paths ++ [t]) = if (below paths).isEmpty then below paths else addPath t (below paths) := by
  have hhead : (paths ++ [t]).head? = paths.head? := List.head?_append_of_ne_nil _ hne
  rw [below_isEmpty hne, below, hhead, build_concat]
  by_cases h : paths.head? = some [] <;> simp [below, h]

theorem Built.addPath {paths : List (List MojString)} {cs : List Node} (h : Built paths cs)
    (path : List MojString) : Built (paths ++ [path]) (addPath path cs) := by
  cases path with
  | nil =>
    refine ⟨h.nodup, fun p => ?_, fun c hc => ?_⟩
    · rw [firsts_concat, List.head?_nil, Option.toList_none, List.append_nil]
      exact h.names p
    · rw [tails_concat, List.head?_nil, if_neg (by simp), List.append_nil]
      exact h.children c hc
  | cons k t =>
    rw [MojObjectFilter.addPath]
    refine ⟨?_, fun p => ?_, fun c hc => ?_⟩
    · rw [map_addAt]
      split_ifs with hk
      · exact h.nodup
      · refine List.nodup_append.mpr ⟨h.nodup, List.nodup_singleton k, ?_⟩
        intro a ha b hb hab
        rw [List.mem_singleton.mp hb] at hab
        exact hk (hab ▸ ha)
    · rw [map_addAt, firsts_concat, List.head?_cons, Option.toList_some, List.find?_append, ← h.names]
      split_ifs with hk
      · cases hfind : (cs.map Node.propName).find? p with
        | some l => rfl
        | none =>
          have hpk : ¬ p k = true := List.find?_eq_none.mp hfind k hk
          simp [hpk]
      · rw [List.find?_append]
    · obtain ⟨hmem, hne⟩ | ⟨hnew, rfl⟩ | ⟨d, hd, rfl, rfl⟩ := mem_addAt h.nodup hc
      · rw [tails_concat_of_ne hne]
        exact h.children c hmem
      · have hnil : tails k paths = [] := tails_eq_nil.mpr fun hk => hnew ((h.mem k).mpr hk)
        rw [tails_concat_self, hnil, List.nil_append, below_singleton]
      · have hmem : d.propName ∈ firsts paths := (h.mem _).mp (List.mem_map_of_mem hd)
        have hne : tails d.propName paths ≠ [] := fun he => tails_eq_nil.mp he hmem
        have hname : (if d.children.isEmpty then d else ⟨d.propName, MojObjectFilter.addPath t d.children⟩ : Node).propName =
            d.propName := by
          split_ifs <;> rfl
        rw [hname, tails_concat_self, below_concat hne, ← h.children d hd]
        split_ifs <;> rfl

theorem built (paths : List (List MojString)) : Built paths (build paths) := by
  induction paths using List.reverseRecOn with
  | nil => exact ⟨List.nodup_nil, fun _ => rfl, fun c hc => absurd hc List.not_mem_nil⟩
  | append_singleton paths path ih =>
    rw [build_concat]
    exact ih.addPath path

/-- The tree lets through what the paths show. -/
theorem lets_build (paths : List (List MojString)) (q : List MojString) : lets (build paths) q = shows paths q := by
  induction q generalizing paths with
  | nil => rw [lets, shows]
  | cons k q ih =>
    have hbuilt := built paths
    have hnames := hbuilt.names fun h => !decide (h < k)
    rw [List.find?_map] at hnames
    rw [lets, shows, ← hnames]
    change (match (build paths).find? ((fun h => !decide (h < k)) ∘ Node.propName) with
      | none => false
      | some c => decide (c.propName = k) && (c.children.isEmpty || lets c.children q)) = _
    cases hfind : (build paths).find? ((fun h => !decide (h < k)) ∘ Node.propName) with
    | none => rfl
    | some c =>
      have hc := List.mem_of_find?_eq_some hfind
      by_cases hk : c.propName = k
      · have hmem : c.propName ∈ firsts paths := (hbuilt.mem _).mp (List.mem_map_of_mem hc)
        have hne : tails k paths ≠ [] := fun he => tails_eq_nil.mp he (hk ▸ hmem)
        have hchildren := hbuilt.children c hc
        rw [hk] at hchildren
        have hempty := below_isEmpty hne
        simp only [hk, Option.map_some, decide_true, Bool.true_and, hchildren, hempty]
        by_cases hhead : (tails k paths).head? = some []
        · simp [hhead]
        · rw [below, if_neg hhead, ih]
      · simp [hk]

/-! ## The projection to the selected paths -/

/-- A path is on or below a selected one. -/
def wants (paths : List (List MojString)) (q : List MojString) : Bool :=
  paths.any fun path => !path.isEmpty && path.isPrefixOf q

theorem wants_iff {paths : List (List MojString)} {q : List MojString} :
    wants paths q = true ↔ ∃ path ∈ paths, path ≠ [] ∧ path <+: q := by
  simp [wants]

theorem mem_tails {k : MojString} {paths : List (List MojString)} {t : List MojString} :
    t ∈ tails k paths ↔ k :: t ∈ paths := by
  rw [tails, List.mem_filterMap]
  refine ⟨?_, fun h => ⟨k :: t, h, by simp⟩⟩
  intro h
  obtain ⟨path, hpath, htail⟩ := h
  cases path with
  | nil => simp at htail
  | cons l path =>
    simp only [List.head?_cons, Option.some.injEq, List.tail_cons, Option.ite_none_right_eq_some] at htail
    obtain ⟨rfl, rfl⟩ := htail
    exact hpath

/-- Only what is on or below a selected path is shown. -/
theorem wants_of_shows {paths : List (List MojString)} {q : List MojString} (h : shows paths q = true) :
    wants paths q = true := by
  induction q generalizing paths with
  | nil => cases h
  | cons k q ih =>
    rw [wants_iff]
    simp only [shows, Bool.and_eq_true, Bool.or_eq_true, decide_eq_true_eq] at h
    cases h.2 with
    | inl hhead =>
      refine ⟨[k], mem_tails.mp (List.mem_of_head? hhead), List.cons_ne_nil _ _, ?_⟩
      exact List.cons_prefix_cons.mpr ⟨rfl, List.nil_prefix⟩
    | inr hshows =>
      obtain ⟨t, ht, -, hpre⟩ := wants_iff.mp (ih hshows)
      exact ⟨k :: t, mem_tails.mp ht, List.cons_ne_nil _ _, List.cons_prefix_cons.mpr ⟨rfl, hpre⟩⟩

/-- What the paths show of properties of which `kept` is kept. -/
def showsOf (kept : MojString → Bool) (paths : List (List MojString)) : List MojString → Bool
  | [] => false
  | k :: q => shows paths (k :: q) && kept k

/-- The filter's visitor is told the properties the paths show. -/
theorem out_eq (selectProps : SortedSet MojString) {ps : List (MojString × MojObject)}
    (hvals : ∀ p ∈ ps, p.2.isOrdered = true) {kept : MojString → Bool} (hkept : Keeps (ps.map Prod.fst) kept) :
    ((setVisitor (init selectProps)).visit (MojObject.object ps).visit).out =
      (MojObject.object (projectProps (showsOf kept (paths selectProps)) ps)).visit := by
  have hsel : letsOf kept (build (paths selectProps)) = showsOf kept (paths selectProps) := by
    funext q
    cases q with
    | nil => rfl
    | cons k q => rw [letsOf, showsOf, lets_build]
  rw [visit_root, init, pruneProps_eq (fun p hp => isProjection (hvals p hp)) hkept, hsel]

theorem out_eq_iff (selectProps : SortedSet MojString) {ps : List (MojString × MojObject)}
    (hvals : ∀ p ∈ ps, p.2.isOrdered = true) {kept : MojString → Bool} (hkept : Keeps (ps.map Prod.fst) kept) :
    ((setVisitor (init selectProps)).visit (MojObject.object ps).visit).out =
        (MojObject.object (projectProps (wants (paths selectProps)) ps)).visit ↔
      ∀ q ∈ leafPathsProps ps, wants (paths selectProps) q = true → showsOf kept (paths selectProps) q = true := by
  rw [out_eq selectProps hvals hkept, visit_projectProps_iff]
  refine forall₂_congr fun q _ => ?_
  rw [Bool.eq_iff_iff]
  refine ⟨fun h => h.mpr, fun h => ⟨fun hshows => ?_, h⟩⟩
  cases q with
  | nil => cases hshows
  | cons k q =>
    rw [showsOf, Bool.and_eq_true] at hshows
    exact wants_of_shows hshows.1

/-- The filter yields the projection to the selected paths exactly if the paths show each leaf of the
object that is on or below one of them. -/
theorem visits_projection_iff (selectProps : SortedSet MojString) {ps : List (MojString × MojObject)}
    (h : (MojObject.object ps).isOrdered = true) :
    ((setVisitor (init selectProps)).visit (MojObject.object ps).visit).out =
        (MojObject.object (projectProps (wants (paths selectProps)) ps)).visit ↔
      ∀ q ∈ leafPathsProps ps, wants (paths selectProps) q = true → shows (paths selectProps) q = true := by
  rw [out_eq_iff selectProps (isOrderedProps_iff.mp h).1 (keeps_of_ordered h)]
  refine forall₂_congr fun q _ => ?_
  cases q <;> simp [showsOf, shows]

/-- `k-x` and `k.m`. -/
def dashSelect : SortedSet MojString := ⟨[⟨[107, 45, 120], by decide⟩, ⟨[107, 46, 109], by decide⟩], by decide⟩

/-- `{"k":{"m":1}}`. -/
def kmProps : List (MojString × MojObject) := [(⟨[107], by decide⟩, .object [(⟨[109], by decide⟩, .int 1)])]

theorem visits_projection_km :
    ((setVisitor (init dashSelect)).visit (MojObject.object kmProps).visit).out =
        (MojObject.object (projectProps (wants (paths dashSelect)) kmProps)).visit ↔
      ∀ q ∈ leafPathsProps kmProps, wants (paths dashSelect) q = true → shows (paths dashSelect) q = true :=
  visits_projection_iff dashSelect (by decide)

/-- `k-x` comes before `k.m`, so that the child `k` stands behind a name above it. -/
theorem loses_km :
    ((setVisitor (init dashSelect)).visit (MojObject.object kmProps).visit).out ≠
      (MojObject.object (projectProps (wants (paths dashSelect)) kmProps)).visit := by
  decide

end MojObjectFilter

end Db8
