import Mathlib

/-!
# Lib.SortedSet

Finite sets over a linear order, kept as strictly increasing lists.

* `SortedSet`          — the list with its order as a field; two sets with the same members are equal.
* `put`, `putAll`, `del` — insertion, union and removal.
* `diff`               — the difference by one pass over both lists, with `mem_diff`.
* `weight`             — a sum over the members; `weight_diff` for what an exchange of two sets amounts to.
-/

namespace Lib

structure SortedSet (α : Type*) [LinearOrder α] where
  elems : List α
  sorted : elems.Pairwise (· < ·)
  deriving DecidableEq

namespace SortedSet

variable {α : Type*} [LinearOrder α]

instance : Membership α (SortedSet α) := ⟨fun s x => x ∈ s.elems⟩

theorem mem_def {x : α} {s : SortedSet α} : x ∈ s ↔ x ∈ s.elems := Iff.rfl

instance (x : α) (s : SortedSet α) : Decidable (x ∈ s) := inferInstanceAs (Decidable (x ∈ s.elems))

instance {p : α → Prop} [DecidablePred p] (s : SortedSet α) : Decidable (∀ x ∈ s, p x) :=
  inferInstanceAs (Decidable (∀ x ∈ s.elems, p x))

@[ext] theorem ext {s t : SortedSet α} (h : ∀ x, x ∈ s ↔ x ∈ t) : s = t := by
  obtain ⟨xs, hxs⟩ := s
  obtain ⟨ys, hys⟩ := t
  have hperm : xs.Perm ys :=
    (List.perm_ext_iff_of_nodup (hxs.imp ne_of_lt) (hys.imp ne_of_lt)).mpr h
  have : xs = ys := hperm.eq_of_pairwise (fun a b _ _ hab hba => absurd hab hba.asymm) hxs hys
  subst this
  rfl

def empty : SortedSet α := ⟨[], List.Pairwise.nil⟩

instance : Inhabited (SortedSet α) := ⟨empty⟩

def isEmpty (s : SortedSet α) : Bool := s.elems.isEmpty

def size (s : SortedSet α) : Nat := s.elems.length

@[simp] theorem not_mem_empty (x : α) : x ∉ (empty : SortedSet α) := List.not_mem_nil

/-! ## Insertion -/

def insertList (x : α) : List α → List α
  | [] => [x]
  | y :: ys =>
    match cmp x y with
    | .lt => x :: y :: ys
    | .eq => y :: ys
    | .gt => y :: insertList x ys

theorem mem_insertList {x z : α} {ys : List α} : z ∈ insertList x ys ↔ z = x ∨ z ∈ ys := by
  induction ys with
  | nil => simp [insertList]
  | cons y ys ih =>
    cases h : cmp x y with
    | lt => simp [insertList, h]
    | eq =>
      obtain rfl := (cmp_eq_eq_iff _ _).mp h
      simp [insertList]
    | gt => simp only [insertList, h, List.mem_cons, ih]; tauto

theorem sorted_insertList (x : α) {ys : List α} (hs : ys.Pairwise (· < ·)) :
    (insertList x ys).Pairwise (· < ·) := by
  induction ys with
  | nil => simp [insertList]
  | cons y ys ih =>
    obtain ⟨hy, hys⟩ := List.pairwise_cons.mp hs
    cases h : cmp x y with
    | lt =>
      have hxy := (cmp_eq_lt_iff _ _).mp h
      simp only [insertList, h, List.pairwise_cons, List.mem_cons, forall_eq_or_imp]
      exact ⟨⟨hxy, fun z hz => hxy.trans (hy z hz)⟩, hy, hys⟩
    | eq => simpa only [insertList, h] using hs
    | gt =>
      simp only [insertList, h, List.pairwise_cons]
      refine ⟨fun z hz => ?_, ih hys⟩
      rcases mem_insertList.mp hz with rfl | hz
      exacts [(cmp_eq_gt_iff _ _).mp h, hy z hz]

def put (s : SortedSet α) (x : α) : SortedSet α := ⟨insertList x s.elems, sorted_insertList x s.sorted⟩

@[simp] theorem mem_put {s : SortedSet α} {x z : α} : z ∈ s.put x ↔ z = x ∨ z ∈ s := mem_insertList

def putAll (s : SortedSet α) (xs : List α) : SortedSet α := xs.foldl put s

@[simp] theorem mem_putAll {s : SortedSet α} {xs : List α} {z : α} :
    z ∈ s.putAll xs ↔ z ∈ s ∨ z ∈ xs := by
  induction xs generalizing s with
  | nil => simp [putAll]
  | cons x xs ih =>
    have := ih (s := s.put x)
    simp only [putAll, List.foldl_cons, List.mem_cons] at this ⊢
    rw [this, mem_put]
    tauto

def ofList (xs : List α) : SortedSet α := empty.putAll xs

@[simp] theorem mem_ofList {xs : List α} {z : α} : z ∈ ofList xs ↔ z ∈ xs := by
  simp [ofList]

def singleton (x : α) : SortedSet α := ⟨[x], List.pairwise_singleton _ _⟩

@[simp] theorem mem_singleton {x z : α} : z ∈ singleton x ↔ z = x := List.mem_singleton

/-! ## Removal -/

def del (s : SortedSet α) (x : α) : SortedSet α :=
  ⟨s.elems.filter (· ≠ x), s.sorted.filter _⟩

@[simp] theorem mem_del {s : SortedSet α} {x z : α} : z ∈ s.del x ↔ z ∈ s ∧ z ≠ x := by
  simp [del, mem_def, List.mem_filter]

/-! ## Difference -/

/-- Moves the second cursor past the elements below `x`, then goes on with `rest`. -/
def diffAt (x : α) (rest : List α → List α) : List α → List α
  | [] => x :: rest []
  | y :: ys =>
    match cmp x y with
    | .lt => x :: rest (y :: ys)
    | .eq => rest ys
    | .gt => diffAt x rest ys

/-- Two cursors move over the two lists; an element of the first list that the second cursor passes
over goes to the output. -/
def diffList : List α → List α → List α
  | [] => fun _ => []
  | x :: xs => diffAt x (diffList xs)

/-- A cursor that stands on a larger element has passed nothing the rest of the first list needs. -/
theorem mem_diffAt {x z : α} {xs : List α} {rest : List α → List α} (hx : ∀ y ∈ xs, x < y)
    (hrest : ∀ {ys : List α}, ys.Pairwise (· < ·) → (z ∈ rest ys ↔ z ∈ xs ∧ z ∉ ys))
    {ys : List α} (hys : ys.Pairwise (· < ·)) :
    z ∈ diffAt x rest ys ↔ z ∈ x :: xs ∧ z ∉ ys := by
  induction ys with
  | nil => simp [diffAt, hrest hys]
  | cons y ys ih =>
    obtain ⟨hy, hys'⟩ := List.pairwise_cons.mp hys
    cases h : cmp x y with
    | lt =>
      have hxy := (cmp_eq_lt_iff _ _).mp h
      have hxys : x ∉ y :: ys := by
        intro hmem
        rcases List.mem_cons.mp hmem with rfl | hmem
        exacts [hxy.false, (hxy.trans (hy x hmem)).false]
      simp only [diffAt, h, List.mem_cons (a := z) (b := x), hrest hys]
      constructor
      · rintro (rfl | ⟨hz, hzy⟩)
        exacts [⟨.inl rfl, hxys⟩, ⟨.inr hz, hzy⟩]
      · rintro ⟨hz | hz, hzy⟩
        exacts [.inl hz, .inr ⟨hz, hzy⟩]
    | eq =>
      obtain rfl := (cmp_eq_eq_iff _ _).mp h
      simp only [diffAt, h, hrest hys', List.mem_cons]
      constructor
      · rintro ⟨hz, hzy⟩
        exact ⟨.inr hz, not_or.mpr ⟨(hx z hz).ne', hzy⟩⟩
      · rintro ⟨hz, hzy⟩
        obtain ⟨hzx, hzy⟩ := not_or.mp hzy
        exact ⟨hz.resolve_left hzx, hzy⟩
    | gt =>
      have hyx := (cmp_eq_gt_iff _ _).mp h
      simp only [diffAt, h, ih hys', List.mem_cons]
      constructor
      · rintro ⟨hz, hzy⟩
        refine ⟨hz, not_or.mpr ⟨?_, hzy⟩⟩
        rintro rfl
        rcases hz with rfl | hz
        exacts [hyx.false, (hyx.trans (hx z hz)).false]
      · rintro ⟨hz, hzy⟩
        exact ⟨hz, (not_or.mp hzy).2⟩

theorem mem_diffList {xs : List α} (hxs : xs.Pairwise (· < ·)) {ys : List α}
    (hys : ys.Pairwise (· < ·)) {z : α} : z ∈ diffList xs ys ↔ z ∈ xs ∧ z ∉ ys := by
  induction xs generalizing ys with
  | nil => simp [diffList]
  | cons x xs ih =>
    obtain ⟨hx, hxs'⟩ := List.pairwise_cons.mp hxs
    exact mem_diffAt hx (fun hys => ih hxs' hys) hys

theorem diffAt_sublist {x : α} {xs : List α} {rest : List α → List α}
    (hrest : ∀ ys, (rest ys).Sublist xs) (ys : List α) : (diffAt x rest ys).Sublist (x :: xs) := by
  induction ys with
  | nil => exact (hrest []).cons_cons x
  | cons y ys ih =>
    cases h : cmp x y with
    | lt => simpa only [diffAt, h] using (hrest (y :: ys)).cons_cons x
    | eq => simpa only [diffAt, h] using (hrest ys).cons x
    | gt => simpa only [diffAt, h] using ih

theorem diffList_sublist (xs ys : List α) : (diffList xs ys).Sublist xs := by
  induction xs generalizing ys with
  | nil => exact .refl []
  | cons x xs ih => exact diffAt_sublist ih ys

def diff (s t : SortedSet α) : SortedSet α :=
  ⟨diffList s.elems t.elems, s.sorted.sublist (diffList_sublist _ _)⟩

@[simp] theorem mem_diff {s t : SortedSet α} {z : α} : z ∈ s.diff t ↔ z ∈ s ∧ z ∉ t :=
  mem_diffList s.sorted t.sorted

/-! ## Weights -/

def weight (f : α → Int) (s : SortedSet α) : Int := (s.elems.map f).sum

variable {f : α → Int} {s t u : SortedSet α}

theorem weight_of_disjoint (hmem : ∀ x, x ∈ u ↔ x ∈ s ∨ x ∈ t) (hdisjoint : ∀ x ∈ s, x ∉ t) :
    u.weight f = s.weight f + t.weight f := by
  have hnodup : (s.elems ++ t.elems).Nodup :=
    List.nodup_append'.mpr ⟨s.sorted.imp ne_of_lt, t.sorted.imp ne_of_lt, fun x hs ht => hdisjoint x hs ht⟩
  have hperm : u.elems.Perm (s.elems ++ t.elems) :=
    (List.perm_ext_iff_of_nodup (u.sorted.imp ne_of_lt) hnodup).mpr fun x => by
      rw [List.mem_append]
      exact hmem x
  rw [weight, (hperm.map f).sum_eq, List.map_append, List.sum_append]
  rfl

theorem weight_diff (f : α → Int) (s t : SortedSet α) :
    (s.diff t).weight f - (t.diff s).weight f = s.weight f - t.weight f := by
  -- `s.diff (s.diff t)` is what they have in common
  have hs : s.weight f = (s.diff t).weight f + (s.diff (s.diff t)).weight f := by
    refine weight_of_disjoint (fun x => ?_) fun x hx hx' => (mem_diff.mp hx').2 hx
    rw [mem_diff, mem_diff, mem_diff]
    tauto
  have ht : t.weight f = (t.diff s).weight f + (s.diff (s.diff t)).weight f := by
    refine weight_of_disjoint (fun x => ?_) fun x hx hx' => (mem_diff.mp hx).2 (mem_diff.mp hx').1
    rw [mem_diff, mem_diff, mem_diff]
    tauto
  omega

end SortedSet

end Lib
