import Db8.Core.MojObject

/-!
# Core.MojObjectProject

The projection of an object to a set of property paths.

* `leafPaths`  — the paths of the scalars and of the empty containers; an array adds nothing to a path.
* `project`    — the leaves on selected paths, with the containers they stand in.
* `project_of_all`, `leafPaths_project` — all of a value below a selected path, and nothing else.
-/

namespace Db8

namespace MojObject

mutual
def leafPaths : MojObject → List (List MojString)
  | .object ps => if ps.isEmpty then [[]] else leafPathsProps ps
  | .array xs => if xs.isEmpty then [[]] else leafPathsVec xs
  | _ => [[]]

def leafPathsProps : List (MojString × MojObject) → List (List MojString)
  | [] => []
  | (k, v) :: ps => (leafPaths v).map (k :: ·) ++ leafPathsProps ps

def leafPathsVec : List MojObject → List (List MojString)
  | [] => []
  | x :: xs => leafPaths x ++ leafPathsVec xs
end

mutual
/-- What is selected of a value; `sel` is asked with the path from the value on. -/
def project (sel : List MojString → Bool) : MojObject → Option MojObject
  | .object ps =>
    if ps.isEmpty then (if sel [] then some (.object []) else none)
    else
      let left := projectProps sel ps
      if left.isEmpty then none else some (.object left)
  | .array xs =>
    if xs.isEmpty then (if sel [] then some (.array []) else none)
    else
      let left := projectVec sel xs
      if left.isEmpty then none else some (.array left)
  | o => if sel [] then some o else none

def projectProps (sel : List MojString → Bool) : List (MojString × MojObject) → List (MojString × MojObject)
  | [] => []
  | (k, v) :: ps => ((project (fun q => sel (k :: q)) v).map fun v => (k, v)).toList ++ projectProps sel ps

def projectVec (sel : List MojString → Bool) : List MojObject → List MojObject
  | [] => []
  | x :: xs => (project sel x).toList ++ projectVec sel xs
end

/-! ## Selecting alike -/

theorem projectProps_congr {ps : List (MojString × MojObject)} {sel sel' : List MojString → Bool}
    (h : ∀ p ∈ ps, project (fun q => sel (p.1 :: q)) p.2 = project (fun q => sel' (p.1 :: q)) p.2) :
    projectProps sel ps = projectProps sel' ps := by
  induction ps with
  | nil => rfl
  | cons p ps ih =>
    rw [List.forall_mem_cons] at h
    rw [projectProps, projectProps, h.1, ih h.2]

theorem projectVec_congr {xs : List MojObject} {sel sel' : List MojString → Bool}
    (h : ∀ x ∈ xs, project sel x = project sel' x) : projectVec sel xs = projectVec sel' xs := by
  induction xs with
  | nil => rfl
  | cons x xs ih =>
    rw [List.forall_mem_cons] at h
    rw [projectVec, projectVec, h.1, ih h.2]

theorem mem_leafPathsProps {ps : List (MojString × MojObject)} {q : List MojString} :
    q ∈ leafPathsProps ps ↔ ∃ p ∈ ps, ∃ r ∈ leafPaths p.2, q = p.1 :: r := by
  induction ps with
  | nil => simp [leafPathsProps]
  | cons p ps ih =>
    simp only [leafPathsProps, List.mem_append, List.mem_map, ih, List.exists_mem_cons_iff]
    simp only [eq_comm]

theorem mem_leafPathsVec {xs : List MojObject} {q : List MojString} :
    q ∈ leafPathsVec xs ↔ ∃ x ∈ xs, q ∈ leafPaths x := by
  induction xs with
  | nil => simp [leafPathsVec]
  | cons x xs ih => simp only [leafPathsVec, List.mem_append, ih, List.exists_mem_cons_iff]

/-- Only the leaves are asked for. -/
theorem project_congr {o : MojObject} {sel sel' : List MojString → Bool} (h : ∀ q ∈ leafPaths o, sel q = sel' q) :
    project sel o = project sel' o := by
  induction o using inductionOn generalizing sel sel' with
  | object ps ih =>
    cases hps : ps.isEmpty with
    | true =>
      rw [leafPaths, hps] at h
      simp only [project, hps, h [] (by simp), if_true]
    | false =>
      rw [leafPaths, hps] at h
      have hprops : projectProps sel ps = projectProps sel' ps := by
        refine projectProps_congr fun p hp => ih p hp fun q hq => h _ ?_
        exact mem_leafPathsProps.mpr ⟨p, hp, q, hq, rfl⟩
      simp only [project, hps, hprops, Bool.false_eq_true, if_false]
  | array xs ih =>
    cases hxs : xs.isEmpty with
    | true =>
      rw [leafPaths, hxs] at h
      simp only [project, hxs, h [] (by simp), if_true]
    | false =>
      rw [leafPaths, hxs] at h
      have hvec : projectVec sel xs = projectVec sel' xs := by
        refine projectVec_congr fun x hx => ih x hx fun q hq => h q ?_
        exact mem_leafPathsVec.mpr ⟨x, hx, hq⟩
      simp only [project, hxs, hvec, Bool.false_eq_true, if_false]
  | _ => simp only [project, h [] (by simp [leafPaths])]

theorem project_true (o : MojObject) : project (fun _ => true) o = some o := by
  induction o using inductionOn with
  | object ps ih =>
    have hprops : projectProps (fun _ => true) ps = ps := by
      induction ps with
      | nil => rfl
      | cons p ps ihps =>
        rw [List.forall_mem_cons] at ih
        rw [projectProps, ih.1, ihps ih.2]
        rfl
    rw [project, hprops]
    cases ps <;> rfl
  | array xs ih =>
    have hvec : projectVec (fun _ => true) xs = xs := by
      induction xs with
      | nil => rfl
      | cons x xs ihxs =>
        rw [List.forall_mem_cons] at ih
        rw [projectVec, ih.1, ihxs ih.2]
        rfl
    rw [project, hvec]
    cases xs <;> rfl
  | _ => rfl

/-- On or below a selected path a value is kept as it is. -/
theorem project_of_all {sel : List MojString → Bool} (h : ∀ q, sel q = true) (o : MojObject) :
    project sel o = some o := by
  rw [project_congr fun q _ => h q, project_true]

theorem project_false (o : MojObject) : project (fun _ => false) o = none := by
  induction o using inductionOn with
  | object ps ih =>
    have hprops : projectProps (fun _ => false) ps = [] := by
      induction ps with
      | nil => rfl
      | cons p ps ihps =>
        rw [List.forall_mem_cons] at ih
        rw [projectProps, ih.1, ihps ih.2]
        rfl
    simp [project, hprops]
  | array xs ih =>
    have hvec : projectVec (fun _ => false) xs = [] := by
      induction xs with
      | nil => rfl
      | cons x xs ihxs =>
        rw [List.forall_mem_cons] at ih
        rw [projectVec, ih.1, ihxs ih.2]
        rfl
    simp [project, hvec]
  | _ => rfl

theorem project_of_none {sel : List MojString → Bool} (h : ∀ q, sel q = false) (o : MojObject) :
    project sel o = none := by
  rw [project_congr fun q _ => h q, project_false]

/-! ## The leaves of a projection -/

/-- The leaf paths of what may be left of a value. -/
def leafPathsOption (o : Option MojObject) : List (List MojString) := o.elim [] leafPaths

theorem leafPathsProps_append (ps qs : List (MojString × MojObject)) :
    leafPathsProps (ps ++ qs) = leafPathsProps ps ++ leafPathsProps qs := by
  induction ps with
  | nil => rfl
  | cons p ps ih => simp only [List.cons_append, leafPathsProps, ih, List.append_assoc]

theorem leafPathsVec_append (xs ys : List MojObject) :
    leafPathsVec (xs ++ ys) = leafPathsVec xs ++ leafPathsVec ys := by
  induction xs with
  | nil => rfl
  | cons x xs ih => simp only [List.cons_append, leafPathsVec, ih, List.append_assoc]

theorem leafPathsProps_project {ps : List (MojString × MojObject)}
    (h : ∀ p ∈ ps, ∀ sel, leafPathsOption (project sel p.2) = (leafPaths p.2).filter sel)
    (sel : List MojString → Bool) : leafPathsProps (projectProps sel ps) = (leafPathsProps ps).filter sel := by
  induction ps with
  | nil => rfl
  | cons p ps ih =>
    obtain ⟨k, v⟩ := p
    rw [List.forall_mem_cons] at h
    have hhead : leafPathsProps (((project (fun q => sel (k :: q)) v).map fun v => (k, v)).toList) =
        (leafPathsOption (project (fun q => sel (k :: q)) v)).map (k :: ·) := by
      cases project (fun q => sel (k :: q)) v with
      | none => rfl
      | some o => simp [leafPathsProps, leafPathsOption]
    rw [projectProps, leafPathsProps_append, ih h.2, hhead, h.1, leafPathsProps, List.filter_append, List.filter_map]
    rfl

theorem leafPathsVec_project {xs : List MojObject} {sel : List MojString → Bool}
    (h : ∀ x ∈ xs, leafPathsOption (project sel x) = (leafPaths x).filter sel) :
    leafPathsVec (projectVec sel xs) = (leafPathsVec xs).filter sel := by
  induction xs with
  | nil => rfl
  | cons x xs ih =>
    rw [List.forall_mem_cons] at h
    have hhead : leafPathsVec (project sel x).toList = leafPathsOption (project sel x) := by
      cases project sel x with
      | none => rfl
      | some o => simp [leafPathsVec, leafPathsOption]
    rw [projectVec, leafPathsVec_append, ih h.2, hhead, h.1, leafPathsVec, List.filter_append]

theorem leafPaths_project (o : MojObject) (sel : List MojString → Bool) :
    leafPathsOption (project sel o) = (leafPaths o).filter sel := by
  induction o using inductionOn generalizing sel with
  | object ps ih =>
    cases hps : ps.isEmpty with
    | true =>
      rw [project, leafPaths, hps]
      cases hsel : sel [] <;> simp [leafPathsOption, leafPaths, hsel]
    | false =>
      have hprops := leafPathsProps_project ih sel
      rw [project, leafPaths, hps]
      cases hleft : projectProps sel ps with
      | nil =>
        rw [hleft] at hprops
        exact hprops
      | cons p left =>
        rw [hleft] at hprops
        exact hprops
  | array xs ih =>
    cases hxs : xs.isEmpty with
    | true =>
      rw [project, leafPaths, hxs]
      cases hsel : sel [] <;> simp [leafPathsOption, leafPaths, hsel]
    | false =>
      have hvec := leafPathsVec_project fun x hx => ih x hx sel
      rw [project, leafPaths, hxs]
      cases hleft : projectVec sel xs with
      | nil =>
        rw [hleft] at hvec
        exact hvec
      | cons x left =>
        rw [hleft] at hvec
        exact hvec
  | _ =>
    simp only [project, leafPaths]
    cases hsel : sel [] <;> simp [leafPathsOption, leafPaths, hsel]

/-! ## The calls of a visitor tell the leaves -/

/-- Visits that begin with a value tell its leaf paths and what comes after it. -/
def Tells (o : MojObject) : Prop :=
  ∀ o' vs ws, o.visit ++ vs = o'.visit ++ ws → leafPaths o = leafPaths o' ∧ vs = ws

theorem props_of_visit {ps : List (MojString × MojObject)} (hps : ∀ p ∈ ps, Tells p.2)
    {qs : List (MojString × MojObject)} {vs ws : List Visit}
    (h : visitProps ps ++ .endObject :: vs = visitProps qs ++ .endObject :: ws) :
    ps.isEmpty = qs.isEmpty ∧ leafPathsProps ps = leafPathsProps qs ∧ vs = ws := by
  induction ps generalizing qs with
  | nil =>
    cases qs with
    | nil => exact ⟨rfl, rfl, (List.cons.inj h).2⟩
    | cons q qs => simp [visitProps] at h
  | cons p ps ih =>
    rw [List.forall_mem_cons] at hps
    cases qs with
    | nil => simp [visitProps] at h
    | cons q qs =>
      rw [visitProps, visitProps, List.cons_append, List.cons_append, List.append_assoc, List.append_assoc] at h
      obtain ⟨hname, h⟩ := List.cons.inj h
      obtain ⟨hleaf, h⟩ := hps.1 _ _ _ h
      obtain ⟨-, hrest, hvs⟩ := ih hps.2 h
      have hkey : p.1 = q.1 := Visit.propName.inj hname
      exact ⟨rfl, by rw [leafPathsProps, leafPathsProps, hkey, hleaf, hrest], hvs⟩

theorem vec_of_visit {xs : List MojObject} (hxs : ∀ x ∈ xs, Tells x) {ys : List MojObject} {vs ws : List Visit}
    (h : visitVec xs ++ .endArray :: vs = visitVec ys ++ .endArray :: ws) :
    xs.isEmpty = ys.isEmpty ∧ leafPathsVec xs = leafPathsVec ys ∧ vs = ws := by
  induction xs generalizing ys with
  | nil =>
    cases ys with
    | nil => exact ⟨rfl, rfl, (List.cons.inj h).2⟩
    | cons y ys => cases y <;> simp [visitVec, visit] at h
  | cons x xs ih =>
    rw [List.forall_mem_cons] at hxs
    cases ys with
    | nil => cases x <;> simp [visitVec, visit] at h
    | cons y ys =>
      rw [visitVec, visitVec, List.append_assoc, List.append_assoc] at h
      obtain ⟨hleaf, h⟩ := hxs.1 _ _ _ h
      obtain ⟨-, hrest, hvs⟩ := ih hxs.2 h
      exact ⟨rfl, by rw [leafPathsVec, leafPathsVec, hleaf, hrest], hvs⟩

theorem tells (o : MojObject) : Tells o := by
  induction o using inductionOn with
  | object ps ih =>
    intro o' vs ws h
    cases o' with
    | object qs =>
      simp only [visit, List.cons_append, List.append_assoc, List.nil_append] at h
      obtain ⟨hempty, hleaf, hvs⟩ := props_of_visit ih (List.cons.inj h).2
      exact ⟨by rw [leafPaths, leafPaths, hempty, hleaf], hvs⟩
    | _ => simp [visit] at h
  | array xs ih =>
    intro o' vs ws h
    cases o' with
    | array ys =>
      simp only [visit, List.cons_append, List.append_assoc, List.nil_append] at h
      obtain ⟨hempty, hleaf, hvs⟩ := vec_of_visit ih (List.cons.inj h).2
      exact ⟨by rw [leafPaths, leafPaths, hempty, hleaf], hvs⟩
    | _ => simp [visit] at h
  | _ =>
    intro o' vs ws h
    cases o' with
    | object qs => simp [visit] at h
    | array ys => simp [visit] at h
    | _ => simp_all [visit, leafPaths]

/-- Two selections leave the same calls of the same properties exactly if they agree on the leaves. -/
theorem visit_projectProps_iff {sel sel' : List MojString → Bool} {ps : List (MojString × MojObject)} :
    (MojObject.object (projectProps sel ps)).visit = (MojObject.object (projectProps sel' ps)).visit ↔
      ∀ q ∈ leafPathsProps ps, sel q = sel' q := by
  refine ⟨?_, ?_⟩
  · intro h q hq
    rw [visit, visit, List.cons.injEq] at h
    have hleaf : leafPathsProps (projectProps sel ps) = leafPathsProps (projectProps sel' ps) :=
      (@props_of_visit _ (fun p _ => tells p.2) _ [] [] h.2).2.1
    have hall : ∀ sel, leafPathsProps (projectProps sel ps) = (leafPathsProps ps).filter sel :=
      leafPathsProps_project fun p _ sel => leafPaths_project p.2 sel
    rw [hall, hall] at hleaf
    have hmem : q ∈ (leafPathsProps ps).filter sel ↔ q ∈ (leafPathsProps ps).filter sel' := by rw [hleaf]
    rw [List.mem_filter, List.mem_filter, and_iff_right hq, and_iff_right hq] at hmem
    exact Bool.eq_iff_iff.mpr hmem
  · intro h
    rw [projectProps_congr fun p hp => project_congr fun q hq => h _ (mem_leafPathsProps.mpr ⟨p, hp, q, hq, rfl⟩)]

end MojObject

end Db8
