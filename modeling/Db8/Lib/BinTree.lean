import Mathlib.Data.List.Basic
import Mathlib.Order.Basic

/-!
# Lib.BinTree

Binary trees whose nodes know their parents, walked from node to node.

* `BinTree.Loc`       — a node in its tree: its subtrees, and the way up from it.
* `next`              — the neighbour in one direction, found as with child and parent pointers.
* `rest`              — the items behind a node; `rest_eq`: those of the next node and it.
* `seek`, `seek_spec` — the end of a search for a key, and where it lies in the order of the items.
-/

namespace Lib

inductive BinTree (α : Type*) where
  | nil
  | node (left : BinTree α) (item : α) (right : BinTree α)

namespace BinTree

variable {α : Type*}

def inorder : BinTree α → List α
  | nil => []
  | node l x r => inorder l ++ x :: inorder r

inductive Dir where
  | left | right
  deriving DecidableEq

/-- One step up: the child one came from, the item of the parent and its other subtree. -/
structure Frame (α : Type*) where
  dir : Dir
  item : α
  sibling : BinTree α

/-- The items behind the way up, in order. -/
def behind : List (Frame α) → List α
  | [] => []
  | ⟨.left, x, r⟩ :: path => x :: (inorder r ++ behind path)
  | ⟨.right, _, _⟩ :: path => behind path

/-- The items before the way up, in order. -/
def ahead : List (Frame α) → List α
  | [] => []
  | ⟨.left, _, _⟩ :: path => ahead path
  | ⟨.right, x, l⟩ :: path => ahead path ++ inorder l ++ [x]

structure Loc (α : Type*) where
  left : BinTree α
  item : α
  right : BinTree α
  path : List (Frame α)

namespace Loc

/-- The items before a node and those behind it. -/
def before (l : Loc α) : List α := ahead l.path ++ inorder l.left

def rest (l : Loc α) : List α := inorder l.right ++ behind l.path

/-- All items of the tree, as seen from one of its nodes. -/
def items (l : Loc α) : List α := l.before ++ l.item :: l.rest

end Loc

/-! ## Going down and up -/

/-- From the root of a subtree as far as there are children in one direction. -/
def descend (d : Dir) : BinTree α → List (Frame α) → Option (Loc α)
  | nil, _ => none
  | node l x r, path =>
    match d with
    | .left => (descend d l (⟨.left, x, r⟩ :: path)).or (some ⟨l, x, r, path⟩)
    | .right => (descend d r (⟨.right, x, l⟩ :: path)).or (some ⟨l, x, r, path⟩)

/-- The parent of a subtree. -/
def Frame.up (f : Frame α) (t : BinTree α) (path : List (Frame α)) : Loc α :=
  match f.dir with
  | .left => ⟨t, f.item, f.sibling, path⟩
  | .right => ⟨f.sibling, f.item, t, path⟩

/-- Up as long as one comes from the child in the direction `d`. -/
def climb (d : Dir) : BinTree α → List (Frame α) → Option (Loc α)
  | _, [] => none
  | t, f :: path =>
    let p := f.up t path
    if f.dir = d then climb d (node p.left p.item p.right) path else some p

def Dir.opposite : Dir → Dir
  | .left => .right
  | .right => .left

namespace Loc

/-- The subtree of the child in a direction, with the way up from it. -/
def below (l : Loc α) : Dir → BinTree α × List (Frame α)
  | .left => (l.left, ⟨.left, l.item, l.right⟩ :: l.path)
  | .right => (l.right, ⟨.right, l.item, l.left⟩ :: l.path)

/-- The neighbour of a node: the last one the other way below its child, or else the first
ancestor one comes to from the other side. -/
def next (d : Dir) (l : Loc α) : Option (Loc α) :=
  match l.below d with
  | (nil, _) => climb d (node l.left l.item l.right) l.path
  | (t, path) => descend d.opposite t path

end Loc

/-- The first node of a tree. -/
def first (t : BinTree α) : Option (Loc α) := descend .left t []

/-! ## The items on the way -/

theorem rest_descend (t : BinTree α) (path : List (Frame α)) :
    match descend .left t path with
    | none => t = nil
    | some l => inorder t ++ behind path = l.item :: l.rest ∧ l.before = ahead path := by
  induction t generalizing path with
  | nil => rfl
  | node l x r ihl ihr =>
    have h := ihl (⟨.left, x, r⟩ :: path)
    simp only [descend]
    cases hd : descend .left l (⟨.left, x, r⟩ :: path) with
    | none =>
      rw [hd] at h
      subst h
      exact ⟨rfl, List.append_nil _⟩
    | some loc =>
      rw [hd] at h
      refine ⟨?_, h.2⟩
      simpa [inorder, behind] using h.1

/-- On the way up from the right, nothing is behind what one leaves. -/
theorem rest_climb (t : BinTree α) (path : List (Frame α)) :
    match climb .right t path with
    | none => behind path = []
    | some l => behind path = l.item :: l.rest ∧ l.before = ahead path ++ inorder t := by
  induction path generalizing t with
  | nil => rfl
  | cons f path ih =>
    obtain ⟨d, x, s⟩ := f
    cases d with
    | left => exact ⟨rfl, rfl⟩
    | right =>
      have h := ih (node s x t)
      simp only [climb, Frame.up, if_true]
      cases hc : climb .right (node s x t) path with
      | none => rwa [hc] at h
      | some l =>
        rw [hc] at h
        refine ⟨h.1, ?_⟩
        rw [h.2]
        simp [inorder, ahead]

/-- The items behind a node begin with the next node, which has this one and all before it before it. -/
theorem rest_next (l : Loc α) :
    match l.next .right with
    | none => l.rest = []
    | some n => l.rest = n.item :: n.rest ∧ n.before = l.before ++ [l.item] := by
  obtain ⟨left, x, right, path⟩ := l
  cases right with
  | nil =>
    have h := rest_climb (node left x nil) path
    change match climb .right (node left x nil) path with | none => _ | some n => _
    cases hc : climb .right (node left x nil) path with
    | none =>
      rw [hc] at h
      exact h
    | some n =>
      rw [hc] at h
      refine ⟨h.1, ?_⟩
      rw [h.2]
      simp [Loc.before, inorder]
  | node a y b =>
    have h := rest_descend (node a y b) (⟨.right, x, left⟩ :: path)
    change match descend .left (node a y b) (⟨.right, x, left⟩ :: path) with | none => _ | some n => _
    cases hd : descend .left (node a y b) (⟨.right, x, left⟩ :: path) with
    | none =>
      rw [hd] at h
      cases h
    | some n =>
      rw [hd] at h
      exact ⟨h.1, h.2⟩

theorem Loc.items_next {l n : Loc α} (h : l.next .right = some n) : n.items = l.items := by
  have hrest := rest_next l
  rw [h] at hrest
  rw [Loc.items, Loc.items, hrest.1, hrest.2]
  simp

theorem rest_eq (l : Loc α) : l.rest = (l.next .right).elim [] fun n => n.item :: n.rest := by
  have h := rest_next l
  cases hn : l.next .right with
  | none => rwa [hn] at h
  | some n =>
    rw [hn] at h
    exact h.1

theorem inorder_eq (t : BinTree α) : inorder t = (first t).elim [] fun l => l.item :: l.rest := by
  have h := rest_descend t []
  cases hf : descend .left t [] with
  | none =>
    rw [hf] at h
    rw [first, hf, h]
    rfl
  | some l =>
    rw [hf] at h
    rw [first, hf]
    simpa [behind] using h.1

/-! ## Searching -/

/-- From the root down: to the left of an item that is greater than what is sought, to the right of
one that is less, until it is found or there is no child; with the last comparison. -/
def seek (c : α → Ordering) : BinTree α → List (Frame α) → Option (Loc α × Ordering)
  | nil, _ => none
  | node l x r, path =>
    match c x with
    | .eq => some (⟨l, x, r, path⟩, .eq)
    | .gt => (seek c l (⟨.left, x, r⟩ :: path)).or (some (⟨l, x, r, path⟩, .gt))
    | .lt => (seek c r (⟨.right, x, l⟩ :: path)).or (some (⟨l, x, r, path⟩, .lt))

theorem seek_eq_none {c : α → Ordering} {t : BinTree α} {path : List (Frame α)} :
    seek c t path = none ↔ t = nil := by
  cases t with
  | nil => simp [seek]
  | node l x r => cases h : c x <;> simp [seek, h]

/-- Items that are less than what is sought come first, then those that are equal, then the rest. -/
def Split (c : α → Ordering) (xs : List α) : Prop :=
  xs.Pairwise fun x y => (c y = .lt → c x = .lt) ∧ (c x = .gt → c y = .gt) ∧ ¬ (c x = .eq ∧ c y = .eq)

/-- Where a search ends: the items before the node are less than what is sought and those behind it
are greater, except perhaps where the search stopped for want of a child. -/
theorem seek_spec {c : α → Ordering} {t : BinTree α} {path : List (Frame α)} {l : Loc α} {o : Ordering}
    (hsplit : Split c (inorder t)) (hahead : ∀ x ∈ ahead path, c x = .lt)
    (hbehind : ∀ x ∈ behind path, c x = .gt) (h : seek c t path = some (l, o)) :
    l.items = ahead path ++ inorder t ++ behind path ∧ c l.item = o ∧
      (∀ x ∈ l.before, c x = .lt) ∧ ∀ x ∈ l.rest, c x = .gt := by
  induction t generalizing path with
  | nil => cases h
  | node a x b iha ihb =>
    rw [inorder, Split, List.pairwise_append, List.pairwise_cons] at hsplit
    obtain ⟨ha, ⟨hxb, hb⟩, hab⟩ := hsplit
    have hax := fun y hy => hab y hy x List.mem_cons_self
    -- the node itself, with what is known of both sides
    have hself : (∀ y ∈ inorder a, c y = .lt) → (∀ y ∈ inorder b, c y = .gt) →
        (⟨a, x, b, path⟩ : Loc α).items = ahead path ++ inorder (node a x b) ++ behind path ∧ c x = c x ∧
          (∀ y ∈ (⟨a, x, b, path⟩ : Loc α).before, c y = .lt) ∧
          ∀ y ∈ (⟨a, x, b, path⟩ : Loc α).rest, c y = .gt := by
      intro hlt hgt
      refine ⟨by simp [Loc.items, Loc.before, Loc.rest, inorder], rfl, fun y hy => ?_, fun y hy => ?_⟩
      · exact (List.mem_append.mp hy).elim (hahead y) (hlt y)
      · exact (List.mem_append.mp hy).elim (hgt y) (hbehind y)
    cases hx : c x with
    | eq =>
      simp only [seek, hx, Option.some.injEq, Prod.mk.injEq] at h
      obtain ⟨rfl, rfl⟩ := h
      rw [← hx]
      refine hself (fun y hy => ?_) fun y hy => ?_
      · obtain ⟨-, hgt, hne⟩ := hax y hy
        cases hy' : c y with
        | lt => rfl
        | eq => exact absurd ⟨hy', hx⟩ hne
        | gt => exact absurd (hx.symm.trans (hgt hy')) (by decide)
      · obtain ⟨hlt, -, hne⟩ := hxb y hy
        cases hy' : c y with
        | lt => exact absurd (hx.symm.trans (hlt hy')) (by decide)
        | eq => exact absurd ⟨hx, hy'⟩ hne
        | gt => rfl
    | gt =>
      have hgt : ∀ y ∈ inorder b, c y = .gt := fun y hy => (hxb y hy).2.1 hx
      simp only [seek, hx] at h
      cases hs : seek c a (⟨.left, x, b⟩ :: path) with
      | none =>
        rw [hs, Option.none_or, Option.some.injEq, Prod.mk.injEq] at h
        obtain ⟨rfl, rfl⟩ := h
        obtain rfl := seek_eq_none.mp hs
        exact hx ▸ hself (fun y hy => absurd hy List.not_mem_nil) hgt
      | some p =>
        rw [hs, Option.some_or] at h
        have hahead' : ∀ y ∈ ahead (⟨.left, x, b⟩ :: path), c y = .lt := hahead
        have hbehind' : ∀ y ∈ behind (⟨.left, x, b⟩ :: path), c y = .gt := by
          intro y hy
          rcases List.mem_cons.mp hy with rfl | hy
          exacts [hx, (List.mem_append.mp hy).elim (hgt y) (hbehind y)]
        obtain ⟨hitems, hrest⟩ := iha ha hahead' hbehind' (hs.trans h)
        exact ⟨by rw [hitems]; simp [inorder, ahead, behind], hrest⟩
    | lt =>
      have hlt : ∀ y ∈ inorder a, c y = .lt := fun y hy => (hax y hy).1 hx
      simp only [seek, hx] at h
      cases hs : seek c b (⟨.right, x, a⟩ :: path) with
      | none =>
        rw [hs, Option.none_or, Option.some.injEq, Prod.mk.injEq] at h
        obtain ⟨rfl, rfl⟩ := h
        obtain rfl := seek_eq_none.mp hs
        exact hx ▸ hself hlt fun y hy => absurd hy List.not_mem_nil
      | some p =>
        rw [hs, Option.some_or] at h
        have hbehind' : ∀ y ∈ behind (⟨.right, x, a⟩ :: path), c y = .gt := hbehind
        have hahead' : ∀ y ∈ ahead (⟨.right, x, a⟩ :: path), c y = .lt := by
          intro y hy
          rcases List.mem_append.mp hy with hy | hy
          · exact (List.mem_append.mp hy).elim (hahead y) (hlt y)
          · exact List.mem_singleton.mp hy ▸ hx
        obtain ⟨hitems, hrest⟩ := ihb hb hahead' hbehind' (hs.trans h)
        exact ⟨by rw [hitems]; simp [inorder, ahead, behind], hrest⟩

end BinTree

end Lib
